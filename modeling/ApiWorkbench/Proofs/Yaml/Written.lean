import ApiWorkbench.Proofs.Tree
import ApiWorkbench.Proofs.Yaml.Blocks
import ApiWorkbench.Proofs.Yaml.Integers

/-!
# The tokens of what is written

A value is written if its leaves are nulls, truth values, texts and integers that are
not too long, and its names are texts. The text has one block for each of its parts that
has entries, and the lexer finds the tokens of these blocks (`valueTokens`), provided
that no name on the line of its value takes up more room than a key may (`Portable`).

## Main results

* `written`: a text is written for a value, and it is read as the tokens of that value.
* `write_tokens`: the tokens of the text that is written for an object.
-/

namespace ApiWorkbench.Yaml

/-! ## The characters of what is written -/

/-- A text is written with characters that may occur in a text. -/
theorem isAllowed_of_mem_textScalar {indent : Nat} {isKey : Bool} {s : String}
    {x : Char} (hx : x ∈ (textScalar indent isKey s).toList) : isAllowed x = true := by
  have hstyle := textStyle_textScalar indent isKey s
  generalize (textScalar indent isKey s).toList = text at hstyle hx
  cases hstyle with
  | plain hplain =>
      exact isAllowed_of_not_needsEscape
        (plain_of_mem (Bool.and_eq_true_iff.mp hplain).2 hx).1
  | single _ hquotes _ =>
      simp only [allowsSingleQuotes, Bool.and_eq_true, Bool.not_eq_true',
        List.any_eq_false, Bool.not_eq_true] at hquotes
      rcases List.mem_cons.mp hx with rfl | hx
      · rfl
      · rcases List.mem_append.mp hx with hx | hx
        · rcases mem_singleQuotedChars hx with hx | hx | rfl
          · exact isAllowed_of_not_needsEscape (hquotes.1 x hx)
          · rw [toList_spaces] at hx
            rw [List.eq_of_mem_replicate hx]
            rfl
          · rfl
        · rw [List.mem_singleton.mp hx]
          rfl
  | double =>
      rcases List.mem_cons.mp hx with rfl | hx
      · rfl
      · rcases List.mem_append.mp hx with hx | hx
        · exact (isInline_of_mem_doubleQuoted hx).allowed
        · rw [List.mem_singleton.mp hx]
          rfl

/-- A key without line ends is written on one line. -/
theorem isInline_of_mem_key {indent : Nat}
    {s : String} (hs : s.toList.any isKeptBreak = false) {x : Char}
    (hx : x ∈ (textScalar indent true s).toList) : IsInline x := by
  have hnone : ∀ c ∈ s.toList, isKeptBreak c = false := by simpa using hs
  have hquote : IsInline '\'' ∧ IsInline '"' :=
    ⟨⟨rfl, rfl, by decide⟩, ⟨rfl, rfl, by decide⟩⟩
  have hstyle := textStyle_textScalar indent true s
  generalize (textScalar indent true s).toList = text at hstyle hx
  cases hstyle with
  | plain hplain =>
      have hplain := plain_of_mem (Bool.and_eq_true_iff.mp hplain).2 hx
      exact isInline_of_not_needsEscape hplain.1 hplain.2
  | single _ hquotes _ =>
      simp only [allowsSingleQuotes, Bool.and_eq_true, Bool.not_eq_true',
        List.any_eq_false, Bool.not_eq_true] at hquotes
      rcases List.mem_cons.mp hx with rfl | hx
      · exact hquote.1
      · rcases List.mem_append.mp hx with hx | hx
        · rw [singleQuotedChars_of_no_break hnone] at hx
          rcases mem_singleQuotedChars hx with hx | hx | rfl
          · exact isInline_of_not_needsEscape (hquotes.1 x hx) (hnone x hx)
          · simp at hx
          · exact hquote.1
        · rw [List.mem_singleton.mp hx]
          exact hquote.1
  | double =>
      rcases List.mem_cons.mp hx with rfl | hx
      · exact hquote.2
      · rcases List.mem_append.mp hx with hx | hx
        · exact isInline_of_mem_doubleQuoted hx
        · rw [List.mem_singleton.mp hx]
          exact hquote.2

/-- A key without line ends is written in the same way in all blocks. -/
theorem textScalar_key (indent : Nat) {s : String}
    (hs : s.toList.any isKeptBreak = false) :
    textScalar indent true s = textScalar 0 true s := by
  have hnone : ∀ c ∈ s.toList, isKeptBreak c = false := by simpa using hs
  rw [textScalar, textScalar, singleQuotedChars_of_no_break hnone (spaces (indent + 2)),
    singleQuotedChars_of_no_break hnone (spaces (0 + 2))]

/-! ## Values that can be written and read -/

/-- A name that is written on the line of its value. -/
def isSimpleName (name : String) : Bool :=
  !name.isEmpty && !name.toList.any isKeptBreak &&
    (typeTag (.str name)).length + name.length < 128

/-- A name has room before its colon, if that is where it is written. -/
def FitsLine (name : String) : Prop :=
  isSimpleName name = true → (textScalar 0 true name).length ≤ 1024

/-- A leaf that has a text. -/
def IsLeaf : Scalar → Prop
  | .null => True
  | .bool _ => True
  | .int n => isWritable n = true
  | .str _ => True
  | _ => False

instance (name : String) : Decidable (FitsLine name) :=
  inferInstanceAs (Decidable (_ → _))

/-- Values whose text can be read. -/
inductive Portable : Value → Prop
  | scalar {s : Scalar} : IsLeaf s → Portable (.scalar s)
  | list {xs : List Value} : (∀ x ∈ xs, Portable x) → Portable (.list xs)
  | object {ms : Members} : (∀ e ∈ ms, ∃ name, e.1 = .str name ∧ FitsLine name) →
      (Members.names ms).Nodup →
      (∀ e ∈ ms, Portable e.2) → Portable (.object ms)

/-! ## Their tokens -/

/-- The token of a leaf. -/
def leafToken : Scalar → Token
  | .null => .scalar true "null".toList
  | .bool b => .scalar true (if b then "true" else "false").toList
  | .int n => .scalar true (toString n).toList
  | .str s => textToken s
  | _ => .broken .malformed

/-- Whether a key is written on the line of its value. -/
def isSimple : Scalar → Bool
  | .str name => isSimpleName name
  | _ => false

mutual

/-- The tokens of a value. The items of a list after a key have no tokens around
them. -/
def valueTokens (keyed : Bool) : Value → List Token
  | .scalar s => [leafToken s]
  | .list [] => [.flowSequenceStart, .flowSequenceEnd]
  | .object [] => [.flowMappingStart, .flowMappingEnd]
  | .list xs =>
      if keyed then itemTokens xs
      else .blockSequenceStart :: (itemTokens xs ++ [.blockEnd])
  | .object ms => .blockMappingStart :: (memberTokens ms ++ [.blockEnd])
  | .pair _ _ => [.broken .malformed]
  | .set _ => [.broken .malformed]

/-- The tokens of the items of a list. -/
def itemTokens : List Value → List Token
  | [] => []
  | v :: rest => .blockEntry :: (valueTokens false v ++ itemTokens rest)

/-- The tokens of the members of an object. -/
def memberTokens : List (Scalar × Value) → List Token
  | [] => []
  | (k, v) :: rest =>
      .key :: leafToken k :: .value :: (valueTokens (isSimple k) v ++ memberTokens rest)

end

/-! ## What is written for leaves -/

/-- A leaf is written as one scalar. -/
private theorem scalarSource_leaf {s : Scalar} (hs : IsLeaf s) (column : Nat) :
    ∃ text, scalarSource column false s = .ok text ∧
      (∀ x ∈ text.toList, isAllowed x = true) ∧
      ScalarText text.toList (leafToken s) := by
  have hplain : ∀ {cs : List Char}, allowsPlain cs = true →
      (∀ x ∈ cs, isAllowed x = true) ∧ ScalarText cs (.scalar true cs) := fun hcs =>
    ⟨fun x hx => isAllowed_of_not_needsEscape (plain_of_mem hcs hx).1,
      scalarText_plain hcs⟩
  cases s with
  | null => exact ⟨"null", rfl, hplain rfl⟩
  | bool b => cases b with
    | true => exact ⟨"true", rfl, hplain rfl⟩
    | false => exact ⟨"false", rfl, hplain rfl⟩
  | int n =>
      refine ⟨toString n, ?_, hplain (allowsPlain_toString n)⟩
      have hwritable : isWritable n = true := hs
      rw [scalarSource, if_pos hwritable]
      rfl
  | str s =>
      exact ⟨textScalar column false s, rfl, fun x hx => isAllowed_of_mem_textScalar hx,
        scalarText_textScalar column false s (by simp)⟩
  | float _ => exact hs.elim
  | torn _ => exact hs.elim
  | bytes _ => exact hs.elim
  | date _ => exact hs.elim
  | moment _ => exact hs.elim
  | pair _ _ => exact hs.elim

/-! ## What is written for entries -/

/-- What is written for a value is read as its tokens, after an indicator and after a
key. -/
structure Written (v : Value) : Prop where
  indicated : ∀ column, ∃ text, afterIndicator column v = .ok text ∧
    (∀ x ∈ text.toList, isAllowed x = true) ∧
    IndicatedText column text.toList (valueTokens false v)
  keyed : ∀ column, ∃ text, afterKey column v = .ok text ∧
    (∀ x ∈ text.toList, isAllowed x = true) ∧
    KeyedText column text.toList (valueTokens true v)

/-- Lines are written for entries, and each of them is read as the tokens of its
entry. -/
def LinesRead (opening : Token) (column : Nat) (lines : Except Fault (List String))
    (tokens : List Token) : Prop :=
  ∃ texts tokenss, lines = .ok texts ∧
    (∀ text ∈ texts, ∀ x ∈ text.toList, isAllowed x = true) ∧
    List.Forall₂ (EntryText opening column) (texts.map String.toList) tokenss ∧
    tokens = tokenss.flatten

section

variable {opening : Token} {column : Nat} {lines : Except Fault (List String)}
  {tokens : List Token}

private theorem LinesRead.nil : LinesRead opening column (.ok []) [] :=
  ⟨[], [], rfl, by simp, .nil, rfl⟩

private theorem LinesRead.cons
    {text : String} {first : List Token} (htext : ∀ x ∈ text.toList, isAllowed x = true)
    (hfirst : EntryText opening column text.toList first)
    (h : LinesRead opening column lines tokens) :
    LinesRead opening column (lines >>= fun others => pure (text :: others))
      (first ++ tokens) := by
  obtain ⟨texts, tokenss, rfl, hallowed, hreads, rfl⟩ := h
  exact ⟨text :: texts, first :: tokenss, rfl,
    List.forall_mem_cons.mpr ⟨htext, hallowed⟩, .cons hfirst hreads, rfl⟩

private theorem isAllowed_of_mem_stackedChars {column : Nat} {texts : List (List Char)}
    (h : ∀ text ∈ texts, ∀ x ∈ text, isAllowed x = true) {x : Char}
    (hx : x ∈ stackedChars column texts) :
    isAllowed x = true := by
  have hbreak : ∀ x ∈ '\n' :: List.replicate column ' ', isAllowed x = true := by
    intro x hx
    rcases List.mem_cons.mp hx with rfl | hx
    · rfl
    · rw [List.eq_of_mem_replicate hx]
      rfl
  unfold stackedChars at hx
  induction texts with
  | nil => simp at hx
  | cons text texts ih =>
      rw [List.forall_mem_cons] at h
      cases texts with
      | nil => exact h.1 x (by simpa using hx)
      | cons next texts =>
          rw [List.intercalate_cons_cons, List.append_assoc] at hx
          rcases List.mem_append.mp hx with hx | hx
          · exact h.1 x hx
          · rcases List.mem_append.mp hx with hx | hx
            · exact hbreak x hx
            · exact ih h.2 hx

/-- Lines below each other are read as the tokens of all entries. -/
private theorem LinesRead.stacked (h : LinesRead opening column lines tokens)
    (hsome : tokens ≠ []) :
    ∃ texts, lines = .ok texts ∧
      (∀ x ∈ (stacked column texts).toList, isAllowed x = true) ∧
      EntryText opening column (stacked column texts).toList tokens := by
  obtain ⟨texts, tokenss, hlines, hallowed, hreads, rfl⟩ := h
  refine ⟨texts, hlines, fun x hx => ?_, ?_⟩
  · rw [toList_stacked] at hx
    exact isAllowed_of_mem_stackedChars (by simpa using hallowed) hx
  · rw [toList_stacked]
    refine EntryText.stacked hreads fun hnone => hsome ?_
    rw [hnone] at hreads
    cases hreads
    rfl

private theorem linesRead_items (column : Nat) {xs : List Value}
    (h : ∀ x ∈ xs, Written x) :
    LinesRead .blockSequenceStart column (itemLines column xs) (itemTokens xs) := by
  induction xs with
  | nil => exact .nil
  | cons v xs ih =>
      rw [List.forall_mem_cons] at h
      obtain ⟨text, htext, hallowed, hreads⟩ := h.1.indicated column
      have hdash : ("-" ++ text).toList = '-' :: text.toList := String.toList_append ..
      rw [itemLines, htext, ok_bind, itemTokens, ← List.cons_append]
      refine (ih h.2).cons ?_ ?_
      · rw [hdash]
        exact List.forall_mem_cons.mpr ⟨rfl, hallowed⟩
      · rw [hdash]
        exact .item hreads

/-- The line of a member whose name stands on the line of its value is written, and read
as its tokens. -/
private theorem keyLines_read_simple {name : String} {v : Value}
    (hsimple : isSimpleName name = true) (hname : FitsLine name) (hv : Written v)
    (column : Nat) :
    ∃ text, keyLines column true (.str name) (afterKey column v) = .ok text ∧
      (∀ x ∈ text.toList, isAllowed x = true) ∧
      EntryText .blockMappingStart column text.toList
        (.key :: textToken name :: .value :: valueTokens true v) := by
  obtain ⟨text, htext, hallowed, hreads⟩ := hv.keyed column
  have hbreaks : name.toList.any isKeptBreak = false := by
    simp only [isSimpleName, Bool.and_eq_true, Bool.not_eq_true'] at hsimple
    exact hsimple.1.2
  have hline : (textScalar column true name ++ ":" ++ text).toList =
      (textScalar column true name).toList ++ ':' :: text.toList := by
    rw [String.toList_append, String.toList_append, List.append_assoc]
    rfl
  refine ⟨textScalar column true name ++ ":" ++ text, ?_, ?_, ?_⟩
  · rw [htext]
    rfl
  · rw [hline]
    intro x hx
    rcases List.mem_append.mp hx with hx | hx
    · exact isAllowed_of_mem_textScalar hx
    · rcases List.mem_cons.mp hx with rfl | hx
      · rfl
      · exact hallowed x hx
  · rw [hline]
    refine .simpleMember (scalarText_textScalar column true name fun _ => hbreaks)
      (fun x hx => isInline_of_mem_key hbreaks hx) ?_ hreads
    rw [String.length_toList, textScalar_key column hbreaks]
    exact hname hsimple

/-- The lines of a member whose name has a line of its own are written, and read
as its tokens. -/
private theorem keyLines_read_explicit {v : Value} (name : String) (hv : Written v)
    (column : Nat) :
    ∃ text, keyLines column false (.str name) (afterIndicator column v) = .ok text ∧
      (∀ x ∈ text.toList, isAllowed x = true) ∧
      EntryText .blockMappingStart column text.toList
        (.key :: textToken name :: .value :: valueTokens false v) := by
  obtain ⟨text, htext, hallowed, hreads⟩ := hv.indicated column
  have hline : ("? " ++ textScalar column false name ++ "\n" ++ spaces column ++ ":" ++
      text).toList = '?' :: ' ' :: ((textScalar column false name).toList ++ '\n' ::
      (List.replicate column ' ' ++ ':' :: text.toList)) := by
    simp only [String.toList_append, toList_spaces, List.append_assoc]
    rfl
  refine ⟨"? " ++ textScalar column false name ++ "\n" ++ spaces column ++ ":" ++ text,
    ?_, ?_, ?_⟩
  · rw [htext]
    rfl
  · rw [hline]
    refine List.forall_mem_cons.mpr ⟨rfl, List.forall_mem_cons.mpr ⟨rfl, ?_⟩⟩
    intro x hx
    rcases List.mem_append.mp hx with hx | hx
    · exact isAllowed_of_mem_textScalar hx
    · rcases List.mem_cons.mp hx with rfl | hx
      · rfl
      · rcases List.mem_append.mp hx with hx | hx
        · rw [List.eq_of_mem_replicate hx]
          rfl
        · rcases List.mem_cons.mp hx with rfl | hx
          · rfl
          · exact hallowed x hx
  · rw [hline]
    exact .explicitMember (scalarText_textScalar column false name (by simp)) hreads

/-- A member is written, and read as its tokens. -/
private theorem keyLines_read {name : String} {v : Value} (hname : FitsLine name)
    (hv : Written v) (column : Nat) :
    ∃ text, keyLines column (isSimpleName name) (.str name)
        (if isSimpleName name then afterKey column v else afterIndicator column v) =
          .ok text ∧
      (∀ x ∈ text.toList, isAllowed x = true) ∧
      EntryText .blockMappingStart column text.toList
        (.key :: textToken name :: .value :: valueTokens (isSimpleName name) v) := by
  cases hsimple : isSimpleName name with
  | true => exact keyLines_read_simple hsimple hname hv column
  | false => exact keyLines_read_explicit name hv column

private theorem linesRead_members (column : Nat)
    {ms : Members} (hnames : ∀ e ∈ ms, ∃ name, e.1 = .str name ∧ FitsLine name)
    (h : ∀ e ∈ ms, Written e.2) :
    LinesRead .blockMappingStart column (memberLines column ms) (memberTokens ms) := by
  induction ms with
  | nil => exact .nil
  | cons e ms ih =>
      obtain ⟨k, v⟩ := e
      rw [List.forall_mem_cons] at hnames h
      obtain ⟨name, rfl, hfits⟩ := hnames.1
      obtain ⟨text, htext, hallowed, hreads⟩ := keyLines_read hfits h.1 column
      have hsimple : isSimpleKey (.str name) = .ok (isSimpleName name) := rfl
      have hlines : memberLines column ((.str name, v) :: ms) =
          memberLines column ms >>= fun others => pure (text :: others) := by
        rw [memberLines, hsimple, ok_bind]
        dsimp only at htext ⊢
        rw [htext, ok_bind]
      rw [hlines]
      exact (ih hnames.2 h.2).cons hallowed hreads

end

/-! ## What is written for values -/

private theorem toList_space (text : String) :
    (" " ++ text).toList = ' ' :: text.toList :=
  String.toList_append ..

private theorem toList_nextLine (column : Nat) (text : String) :
    ("\n" ++ spaces column ++ text).toList =
      '\n' :: (List.replicate column ' ' ++ text.toList) := by
  rw [String.toList_append, String.toList_append, toList_spaces]
  rfl

private theorem isAllowed_of_mem_nextLine {column : Nat} {text : List Char}
    (h : ∀ x ∈ text, isAllowed x = true) :
    ∀ x ∈ '\n' :: (List.replicate column ' ' ++ text), isAllowed x = true := by
  refine List.forall_mem_cons.mpr ⟨rfl, fun x hx => ?_⟩
  rcases List.mem_append.mp hx with hx | hx
  · rw [List.eq_of_mem_replicate hx]
    rfl
  · exact h x hx

/-- A value that stands on one line. -/
private theorem written_line {v : Value} {tokens : List Token}
    (h : ∀ column, ∃ text : String, (afterIndicator column v = .ok (" " ++ text) ∧
      afterKey column v = .ok (" " ++ text)) ∧
        (∀ x ∈ text.toList, isAllowed x = true) ∧ LineText text.toList tokens)
    (htokens : ∀ keyed, valueTokens keyed v = tokens) : Written v := by
  constructor
  · intro column
    obtain ⟨text, htext, hallowed, hreads⟩ := h column
    rw [htokens]
    refine ⟨_, htext.1, ?_, ?_⟩
    · rw [toList_space]
      exact List.forall_mem_cons.mpr ⟨rfl, hallowed⟩
    · rw [toList_space]
      exact .line hreads
  · intro column
    obtain ⟨text, htext, hallowed, hreads⟩ := h column
    rw [htokens]
    refine ⟨_, htext.2, ?_, ?_⟩
    · rw [toList_space]
      exact List.forall_mem_cons.mpr ⟨rfl, hallowed⟩
    · rw [toList_space]
      exact .line hreads

private theorem written_scalar {s : Scalar} (hs : IsLeaf s) : Written (.scalar s) := by
  refine written_line (fun column => ?_) fun _ => rfl
  obtain ⟨text, htext, hallowed, hreads⟩ := scalarSource_leaf hs column
  refine ⟨text, ⟨?_, ?_⟩, hallowed, hreads.lineText⟩
  · rw [afterIndicator, htext]
    rfl
  · rw [afterKey, htext]
    rfl

private theorem written_brackets {v : Value} {opening closing : Char}
    {start finish : Token} (h : Brackets opening start closing finish)
    (htext : ∀ column, ∃ text : String, (afterIndicator column v = .ok (" " ++ text) ∧
      afterKey column v = .ok (" " ++ text)) ∧ text.toList = [opening, closing])
    (htokens : ∀ keyed, valueTokens keyed v = [start, finish]) : Written v := by
  refine written_line (fun column => ?_) htokens
  obtain ⟨text, htext, hlist⟩ := htext column
  refine ⟨text, htext, ?_, ?_⟩
  · rw [hlist]
    cases h with
    | sequence => simp [isAllowed]
    | mapping => simp [isAllowed]
  · rw [hlist]
    exact h.lineText

private theorem written_list {xs : List Value} (h : ∀ x ∈ xs, Written x) :
    Written (.list xs) := by
  cases xs with
  | nil =>
      exact written_brackets .sequence (fun _ => ⟨"[]", ⟨rfl, rfl⟩, rfl⟩) fun _ => rfl
  | cons v xs =>
      have hlines column := (linesRead_items column h).stacked (by simp [itemTokens])
      constructor
      · intro column
        obtain ⟨texts, htexts, hallowed, hreads⟩ := hlines (column + 2)
        refine ⟨" " ++ stacked (column + 2) texts, ?_, ?_, ?_⟩
        · rw [afterIndicator, htexts]
          · rfl
          · exact List.cons_ne_nil v xs
        · rw [toList_space]
          exact List.forall_mem_cons.mpr ⟨rfl, hallowed⟩
        · rw [toList_space]
          exact .block hreads
      · intro column
        obtain ⟨texts, htexts, hallowed, hreads⟩ := hlines column
        refine ⟨"\n" ++ spaces column ++ stacked column texts, ?_, ?_, ?_⟩
        · rw [afterKey, htexts]
          · rfl
          · exact List.cons_ne_nil v xs
        · rw [toList_nextLine]
          exact isAllowed_of_mem_nextLine hallowed
        · rw [toList_nextLine]
          exact .sequence hreads

private theorem written_object
    {ms : Members} (hnames : ∀ e ∈ ms, ∃ name, e.1 = .str name ∧ FitsLine name)
    (h : ∀ e ∈ ms, Written e.2) : Written (.object ms) := by
  cases ms with
  | nil =>
      exact written_brackets .mapping (fun _ => ⟨"\x7b\x7d", ⟨rfl, rfl⟩, rfl⟩) fun _ =>
        rfl
  | cons e ms =>
      have hlines column :=
        (linesRead_members column hnames h).stacked (by simp [memberTokens])
      constructor
      · intro column
        obtain ⟨texts, htexts, hallowed, hreads⟩ := hlines (column + 2)
        refine ⟨" " ++ stacked (column + 2) texts, ?_, ?_, ?_⟩
        · rw [afterIndicator, htexts]
          · rfl
          · exact List.cons_ne_nil e ms
        · rw [toList_space]
          exact List.forall_mem_cons.mpr ⟨rfl, hallowed⟩
        · rw [toList_space]
          exact .block hreads
      · intro column
        obtain ⟨texts, htexts, hallowed, hreads⟩ := hlines (column + 2)
        refine ⟨"\n" ++ spaces (column + 2) ++ stacked (column + 2) texts, ?_, ?_, ?_⟩
        · rw [afterKey, htexts]
          · rfl
          · exact List.cons_ne_nil e ms
        · rw [toList_nextLine]
          exact isAllowed_of_mem_nextLine hallowed
        · rw [toList_nextLine]
          exact .block hreads

/-- A text is written for every value whose text can be read, and it is read as the
tokens of that value. -/
theorem written {v : Value} (hv : Portable v) : Written v := by
  induction v using Tree.parts_induction with
  | scalar s =>
      cases hv with
      | scalar hs => exact written_scalar hs
  | list xs ih =>
      cases hv with
      | list hxs => exact written_list fun x hx => ih x hx (hxs x hx)
  | pair a b => cases hv
  | set names => cases hv
  | marked mark ms ih =>
      cases hv with
      | object hnames _ hms =>
          exact written_object hnames fun e he => ih e he (hms e he)

/-- The text that is written for an object is read as its tokens. -/
theorem write_tokens {ms : Members} (hms : Portable (.object ms)) (hsome : ms ≠ []) :
    ∃ text, write (.object ms) = .ok text ∧
      tokens text = valueTokens false (.object ms) := by
  cases hms with
  | object hnames _ hvalues =>
      cases ms with
      | nil => exact absurd rfl hsome
      | cons e ms =>
          have hlines := linesRead_members 0 hnames fun e he => written (hvalues e he)
          obtain ⟨texts, htexts, hallowed, hreads⟩ :=
            hlines.stacked (by simp [memberTokens])
          refine ⟨stacked 0 texts ++ "\n", ?_, ?_⟩
          · rw [write, htexts]
            · rfl
            · exact List.cons_ne_nil e ms
          · exact tokens_of_entryText hreads hallowed (String.toList_append ..)

end ApiWorkbench.Yaml
