import ApiWorkbench.Proofs.Server.Literals
import ApiWorkbench.Value.Wrapped

/-!
# Reading literals over several lines

A literal of a generated module may run over several lines. A line ends the literal
unless a bracket is open there; between brackets it is no more than a gap. No line ends
within a text, since the reader of a line takes none there. So what is read on one line
is read alike over several.

What is read stands for a value. Texts next to each other stand for the text that
they make together, and an object has one member for each name, with the last value
that is under it.

## Main results

* `ReadsAs.over`: source of one line is read at any depth.
* `ReadsOver.apart`, `ReadsOver.group`, `isGapOver_newLine`: the sources that are put
  together from others.
* `denotes_texts`, `Denotes.list`, `Denotes.object`: what phrases stand for.
* `readLiteral_of_readsOver`: the value that source is a literal of.
-/

namespace ApiWorkbench.Server

/-! ## Tokens -/

/-- How many brackets are open after tokens. -/
def openAfter (depth : Nat) : List Token → Nat
  | [] => depth
  | .atom _ :: rest => openAfter depth rest
  | .opening _ :: rest => openAfter (depth + 1) rest
  | .closing _ :: rest => openAfter (depth - 1) rest

/-- The tokens of source over several lines from some point on. `depth` is the number of
brackets that are open; where none is, a line can only end if the source does. -/
def tokensOver (depth : Nat) (mode : Mode) : List Char → Option (List Token)
  | [] => finish mode
  | c :: rest =>
    if c = '\n' then
      if depth = 0 then (if rest = [] then finish mode else none)
      else (finish mode).bind fun tokens =>
        (tokensOver depth .between rest).map (tokens ++ ·)
    else (step mode c).bind fun (tokens, next) =>
      (tokensOver (openAfter depth tokens) next rest).map (tokens ++ ·)

theorem openAfter_append (depth : Nat) (tokens others : List Token) :
    openAfter depth (tokens ++ others) = openAfter (openAfter depth tokens) others := by
  induction tokens generalizing depth with
  | nil => rfl
  | cons token rest ih => cases token <;> exact ih _

mutual

theorem openAfter_tokens (depth : Nat) :
    ∀ phrase : Phrase, openAfter depth phrase.tokens = depth
  | .atom _ => rfl
  | .group bracket content => by
      rw [Phrase.tokens, openAfter, openAfter_append, openAfter_phraseTokens]
      rfl

/-- Phrases leave no bracket open. -/
theorem openAfter_phraseTokens (depth : Nat) :
    ∀ phrases : List Phrase, openAfter depth (phraseTokens phrases) = depth
  | [] => rfl
  | phrase :: rest => by
      rw [phraseTokens_cons, openAfter_append, openAfter_tokens, openAfter_phraseTokens]

end

/-- A character that does not end a line is read where the reader is. -/
theorem tokensOver_step {depth : Nat} {mode next : Mode} {c : Char}
    {tokens : List Token} (h : step mode c = some (tokens, next)) (hc : c ≠ '\n')
    (rest : List Char) :
    tokensOver depth mode (c :: rest) =
      (tokensOver (openAfter depth tokens) next rest).map (tokens ++ ·) := by
  rw [tokensOver, if_neg hc, h, Option.bind_some]

/-- A literal of a text or of bytes ends with a quote. -/
def Mode.HasQuote : Mode → Prop
  | .between => True
  | .word _ => True
  | .literal _ quote _ => isQuote quote = true
  | .escape _ quote _ => isQuote quote = true
  | .code _ quote _ _ _ => isQuote quote = true
  | .empty _ quote => isQuote quote = true

theorem Mode.HasQuote.of_eq {mode next : Mode} {tokens others : List Token}
    (heq : some (tokens, mode) = some (others, next)) (h : mode.HasQuote) :
    next.HasQuote :=
  (Prod.mk.inj (Option.some.inj heq)).2 ▸ h

theorem hasQuote_begun {c : Char} {tokens : List Token} {next : Mode}
    (h : begun c = some (tokens, next)) :
    next.HasQuote := by
  unfold begun at h
  split_ifs at h with hword hquote hmark
  · exact .of_eq h True.intro
  · exact .of_eq h hquote
  · exact .of_eq h True.intro
  · split at h <;> first | exact .of_eq h True.intro | contradiction

theorem hasQuote_step {mode next : Mode} {c : Char} {tokens : List Token}
    (hmode : mode.HasQuote) (h : step mode c = some (tokens, next)) :
    next.HasQuote := by
  have hended : ∀ {a : Atom}, (begun c).map (fun (tokens, next) =>
    (Token.atom a :: tokens, next)) = some (tokens, next) → next.HasQuote := fun h => by
    obtain ⟨⟨others, found⟩, hbegun, heq⟩ := Option.map_eq_some_iff.mp h
    exact .of_eq (congrArg some heq) (hasQuote_begun hbegun)
  cases mode with
  | between => exact hasQuote_begun h
  | word chars =>
      rw [step] at h
      split_ifs at h with hword hquote hbytes
      · exact .of_eq h True.intro
      · exact .of_eq h hquote
      · exact hended h
  | literal kind quote content =>
      rw [step] at h
      split_ifs at h
      · exact .of_eq h hmode
      · exact .of_eq h True.intro
      · exact .of_eq h hmode
      · exact .of_eq h hmode
  | escape kind quote content =>
      rw [step] at h
      split at h
      · exact .of_eq h hmode
      · exact .of_eq h hmode
      · contradiction
  | code kind quote content value left =>
      obtain ⟨digit, -, h⟩ := Option.bind_eq_some_iff.mp h
      split at h
      · obtain ⟨d, -, h⟩ := Option.map_eq_some_iff.mp h
        exact .of_eq (congrArg some h) hmode
      · exact .of_eq h hmode
  | empty kind quote =>
      rw [step] at h
      split at h
      · contradiction
      · exact hended h

/-- No token goes on over the end of a line. -/
theorem step_newline {mode : Mode} (h : mode.HasQuote) : step mode '\n' = none := by
  have hbegun : begun '\n' = none := by decide
  have hquote : ∀ {quote : Char}, isQuote quote = true →
      '\n' ≠ quote := fun hquote heq => by
    rw [← heq] at hquote
    exact absurd hquote (by decide)
  cases mode with
  | between => exact hbegun
  | word chars =>
      rw [step, if_neg (by decide), if_neg (by decide), hbegun]
      rfl
  | literal kind quote content =>
      rw [step, if_neg (hquote h), if_neg (by decide),
        if_neg (by simp [standsInLiteral])]
  | escape kind quote content => cases kind <;> rfl
  | code kind quote content value left => rfl
  | empty kind quote =>
      rw [step, if_neg (hquote h), hbegun]
      rfl

/-- A token that is still open where source stops ends there, be it at the
end of a line. -/
theorem tokensOver_pending {depth : Nat} {mode : Mode} {a : Atom} {rest : List Char}
    (hfinish : finish mode = some [.atom a])
    (hstep : ∀ c, Text.isWordChar c = false → isQuote c = false →
      step mode c = (begun c).map fun (tokens, next) => (.atom a :: tokens, next))
        (hrest : Stops rest) :
    tokensOver depth mode rest =
      (tokensOver depth .between rest).map (.atom a :: ·) := by
  cases rest with
  | nil => rw [tokensOver, tokensOver, hfinish, finish, Option.map_some]
  | cons c rest =>
      rw [tokensOver, tokensOver, hfinish]
      split
      · split
        · split <;> rfl
        · simp [finish]
      · obtain ⟨hword, hquote⟩ := hrest c rfl
        rw [hstep c hword hquote, step]
        cases begun c with
        | none => rfl
        | some found => simp [Function.comp_def, openAfter]

/-- What is read on one line is read alike over several, at any depth. -/
theorem tokensOver_of_tokensFrom
    {mode : Mode} (hmode : mode.HasQuote) {chars rest : List Char} {tokens : List Token}
    (h : tokensFrom mode chars = some tokens) (hrest : Stops rest) (depth : Nat) :
    tokensOver depth mode (chars ++ rest) =
      (tokensOver (openAfter depth tokens) .between rest).map (tokens ++ ·) := by
  induction chars generalizing mode tokens depth with
  | nil =>
      rw [tokensFrom] at h
      rw [List.nil_append]
      cases mode with
      | between =>
          obtain rfl := Option.some.inj h
          simp [openAfter]
      | word chars =>
          obtain rfl := Option.some.inj h
          refine tokensOver_pending rfl (fun c hword hquote => ?_) hrest
          simp [step, hword, hquote]
      | empty kind quote =>
          obtain rfl := Option.some.inj h
          refine tokensOver_pending rfl (fun c hword hquote => ?_) hrest
          have hc : c ≠ quote := by
            rintro rfl
            exact absurd (hquote.symm.trans hmode) (by decide)
          rw [step, if_neg hc]
      | _ => simp [finish] at h
  | cons c chars ih =>
      rw [tokensFrom] at h
      obtain ⟨⟨before, next⟩, hstep, h⟩ := Option.bind_eq_some_iff.mp h
      obtain ⟨others, hothers, rfl⟩ := Option.map_eq_some_iff.mp h
      have hc : c ≠ '\n' := by
        rintro rfl
        rw [step_newline hmode] at hstep
        contradiction
      rw [List.cons_append, tokensOver_step hstep hc,
        ih (hasQuote_step hmode hstep) hothers, Option.map_map, openAfter_append]
      simp [Function.comp_def]

/-! ## Pieces of source -/

/-- Source over several lines is read as phrases where that many brackets are open,
whatever comes after it, if that does not go on with a word or a literal. -/
def ReadsOver (depth : Nat) (source : String) (phrases : List Phrase) : Prop :=
  ∀ rest, Stops rest →
    tokensOver depth .between (source.toList ++ rest) =
      (tokensOver depth .between rest).map (phraseTokens phrases ++ ·)

theorem ReadsAs.over {source : String} {phrases : List Phrase}
    (h : ReadsAs source phrases) (depth : Nat) :
    ReadsOver depth source phrases := by
  intro rest hrest
  have hmode : Mode.between.HasQuote := True.intro
  rw [tokensOver_of_tokensFrom hmode h.tokensOf_eq hrest, openAfter_phraseTokens]

/-- Source that ends what is before it and is read as phrases whatever comes after
it. -/
structure IsGapOver (depth : Nat) (source : String) (phrases : List Phrase) : Prop where
  ends : ∃ c ∈ source.toList.head?, Text.isWordChar c = false ∧ isQuote c = false
  reads : ∀ rest, tokensOver depth .between (source.toList ++ rest) =
    (tokensOver depth .between rest).map (phraseTokens phrases ++ ·)

section

variable {depth : Nat} {first second gap other : String}
  {phrases others between : List Phrase}

theorem IsGapOver.trans (hgap : IsGapOver depth gap phrases)
    (hother : IsGapOver depth other others) :
    IsGapOver depth (gap ++ other) (phrases ++ others) := by
  refine ⟨?_, fun rest => ?_⟩
  · obtain ⟨c, hc, hends⟩ := hgap.ends
    obtain ⟨chars, hchars⟩ := List.head?_eq_some_iff.mp hc
    exact ⟨c, by rw [String.toList_append, hchars]; rfl, hends⟩
  · rw [String.toList_append, List.append_assoc, hgap.reads, hother.reads,
      Option.map_map]
    simp [Function.comp_def]

/-- Pieces of source with a gap between them. -/
theorem ReadsOver.apart (h : ReadsOver depth first phrases)
    (hgap : IsGapOver depth gap between) (hsecond : ReadsOver depth second others) :
    ReadsOver depth (first ++ gap ++ second) (phrases ++ (between ++ others)) := by
  intro rest hrest
  obtain ⟨c, hc, hends⟩ := hgap.ends
  obtain ⟨chars, hchars⟩ := List.head?_eq_some_iff.mp hc
  have hstops : Stops (gap.toList ++ (second.toList ++ rest)) := by
    rw [hchars]
    exact fun d hd => Option.some.inj hd ▸ hends
  rw [String.toList_append, String.toList_append, List.append_assoc, List.append_assoc,
    h _ hstops, hgap.reads, hsecond rest hrest, Option.map_map, Option.map_map]
  simp [Function.comp_def]

theorem isGapOver_mark {c : Char} (h : c ∈ marks) :
    IsGapOver depth (String.singleton c) [.atom (.mark c)] := by
  have hmarks : ∀ c ∈ marks, Text.isWordChar c = false ∧ isQuote c = false ∧ c ≠ '\n' ∧
      step .between c = some ([.atom (.mark c)], .between) :=
        List.all_iff_forall_prop.mp (by decide)
  obtain ⟨hword, hquote, hline, hstep⟩ := hmarks c h
  refine ⟨⟨c, by rw [String.toList_singleton]; rfl, hword, hquote⟩, fun rest => ?_⟩
  rw [String.toList_singleton, List.singleton_append, tokensOver_step hstep hline]
  rfl

theorem isGapOver_blank : IsGapOver depth " " [] :=
  ⟨⟨' ', rfl, by decide, by decide⟩,
    fun rest => tokensOver_step (rfl : step .between ' ' = some ([], .between))
      (by decide) rest⟩

/-- Between brackets the end of a line is a gap, as is the white space before
the next entry. -/
theorem isGapOver_newLine (column : Nat) :
    IsGapOver (depth + 1) (Wrapped.newLine column) [] := by
  have hchars : (Wrapped.newLine column).toList =
      '\n' :: List.replicate column ' ' := by
    rw [Wrapped.newLine, toList_pushn]
    rfl
  have hblanks : ∀ (n : Nat) (rest : List Char),
      tokensOver (depth + 1) .between (List.replicate n ' ' ++ rest) =
      tokensOver (depth + 1) .between rest := fun n rest => by
    induction n with
    | zero => rfl
    | succ n ih =>
        rw [List.replicate_succ, List.cons_append, ← ih]
        simpa using isGapOver_blank.reads (List.replicate n ' ' ++ rest)
  refine ⟨⟨'\n', by rw [hchars]; rfl, by decide, by decide⟩, fun rest => ?_⟩
  rw [hchars, List.cons_append, tokensOver, if_pos rfl, if_neg (Nat.succ_ne_zero depth),
    hblanks]
  simp [finish]

/-- What stands between brackets is one phrase. -/
theorem ReadsOver.group (bracket : Bracket) (h : ReadsOver (depth + 1) first phrases) :
    ReadsOver depth (bracket.opens ++ first ++ bracket.closes)
      [.group bracket phrases] := by
  intro rest _
  obtain ⟨c, hopens, hopening, hc⟩ : ∃ c, bracket.opens.toList = [c] ∧
      step .between c = some ([.opening bracket], .between) ∧ c ≠ '\n' := by
    cases bracket <;> exact ⟨_, rfl, rfl, by decide⟩
  obtain ⟨d, hcloses, hclosing, hd, hstops⟩ : ∃ d, bracket.closes.toList = [d] ∧
      step .between d = some ([.closing bracket], .between) ∧ d ≠ '\n' ∧
      Text.isWordChar d = false ∧ isQuote d = false := by
    cases bracket <;> exact ⟨_, rfl, rfl, by decide, by decide, by decide⟩
  have hrest : Stops (d :: rest) := by simpa [Stops] using hstops
  rw [String.toList_append, String.toList_append, hopens, hcloses, List.append_assoc,
    List.append_assoc, List.singleton_append, List.singleton_append, tokensOver_step
    hopening hc, openAfter, openAfter, h _ hrest, tokensOver_step hclosing hd,
    openAfter, openAfter, Nat.add_sub_cancel, Option.map_map, Option.map_map]
  simp [Function.comp_def, Phrase.tokens]

end

/-! ## Values -/

/-- A value with another literal after what there is of it: texts next to each other
make one text. -/
def continued : Option Value → Value → Option Value
  | none, v => some v
  | some (.str text), .str more => some (.str (text ++ more))
  | _, _ => none

/-- The name of an entry and what is under it, if there are both. -/
def memberOf : Option Scalar → Option Value → Option (Scalar × Value)
  | some name, some v => some (name, v)
  | _, _ => none

/-- The name of an entry that has none so far. -/
def nameOf : Option Scalar → Option Value → Option Scalar
  | none, some (.scalar name) => some name
  | _, _ => none

mutual

/-- What a phrase stands for. -/
def Phrase.value? : Phrase → Option Value
  | .atom (.word "None") => some .null
  | .atom (.text text) => some (.str text)
  | .group .square content => (itemsFrom none content).map .list
  | .group .curly content =>
      (membersFrom none none content).map fun entries =>
        .object (Members.ofEntries entries)
  | _ => none

/-- The items of a list, with what there is of the first one. -/
def itemsFrom (pending : Option Value) : List Phrase → Option (List Value)
  | [] => some pending.toList
  | phrase :: rest =>
    if phrase.isComma then pending.bind fun v => (itemsFrom none rest).map (v :: ·)
    else phrase.value?.bind fun v => (continued pending v).bind fun v =>
      itemsFrom (some v) rest

/-- The entries of an object, with the name of the first one and what there
is after that. -/
def membersFrom (name : Option Scalar) (pending : Option Value) :
    List Phrase → Option Members
  | [] =>
      if name.isNone && pending.isNone then some []
      else (memberOf name pending).map fun member => [member]
  | phrase :: rest =>
    if phrase.isComma then
      (memberOf name pending).bind fun member =>
        (membersFrom none none rest).map (member :: ·)
    else if phrase.isSeparator then (nameOf name pending).bind fun name =>
      membersFrom (some name) none rest
    else phrase.value?.bind fun v => (continued pending v).bind fun v =>
      membersFrom name (some v) rest

end

/-- What phrases stand for, if they are one literal or several that are continued. -/
def valueFrom (pending : Option Value) : List Phrase → Option Value
  | [] => pending
  | phrase :: rest =>
      phrase.value?.bind fun v => (continued pending v).bind fun v =>
        valueFrom (some v) rest

/-- The value that source over several lines is a literal of. -/
def readLiteral (source : String) : Option Value :=
  ((tokensOver 0 .between source.toList).bind phrasesOf).bind (valueFrom none)

/-- Phrases stand for a value. -/
def Denotes (phrases : List Phrase) (v : Value) : Prop :=
  valueFrom none phrases = some v

/-- A mark stands for nothing. -/
theorem isSeparator_of_value? {phrase : Phrase} {v : Value}
    (h : phrase.value? = some v) :
    phrase.isSeparator = false := by
  unfold Phrase.isSeparator
  split
  · simp [Phrase.value?] at h
  · simp [Phrase.value?] at h
  · rfl

/-- Phrases that stand for a value make it an item of what they are in. -/
theorem itemsFrom_append {phrases : List Phrase} {pending : Option Value} {v : Value}
    (h : valueFrom pending phrases = some v) (rest : List Phrase) :
    itemsFrom pending (phrases ++ rest) = itemsFrom (some v) rest := by
  induction phrases generalizing pending with
  | nil => exact congrArg (itemsFrom · rest) h
  | cons phrase phrases ih =>
      obtain ⟨w, hw, h⟩ := Option.bind_eq_some_iff.mp h
      obtain ⟨next, hnext, h⟩ := Option.bind_eq_some_iff.mp h
      have hcomma : phrase.isComma = false :=
        isComma_of_isSeparator (isSeparator_of_value? hw)
      rw [List.cons_append, itemsFrom, hcomma, hw, Option.bind_some, hnext,
        Option.bind_some, ih h]
      rfl

theorem membersFrom_append {name : Option Scalar} {phrases : List Phrase}
    {pending : Option Value} {v : Value} (h : valueFrom pending phrases = some v)
    (rest : List Phrase) :
    membersFrom name pending (phrases ++ rest) = membersFrom name (some v) rest := by
  induction phrases generalizing pending with
  | nil => exact congrArg (membersFrom name · rest) h
  | cons phrase phrases ih =>
      obtain ⟨w, hw, h⟩ := Option.bind_eq_some_iff.mp h
      obtain ⟨next, hnext, h⟩ := Option.bind_eq_some_iff.mp h
      have hseparator := isSeparator_of_value? hw
      rw [List.cons_append, membersFrom, isComma_of_isSeparator hseparator, hseparator,
        hw, Option.bind_some, hnext, Option.bind_some, ih h]
      rfl

theorem itemsFrom_comma (v : Value) (rest : List Phrase) :
    itemsFrom (some v) (comma :: rest) = (itemsFrom none rest).map (v :: ·) := by
  have hcomma : comma.isComma = true := rfl
  rw [itemsFrom, if_pos hcomma, Option.bind_some]

theorem membersFrom_comma (name : Scalar) (v : Value) (rest : List Phrase) :
    membersFrom (some name) (some v) (comma :: rest) =
      (membersFrom none none rest).map ((name, v) :: ·) := by
  have hcomma : comma.isComma = true := rfl
  rw [membersFrom, if_pos hcomma, memberOf, Option.bind_some]

theorem membersFrom_colon (name : Scalar) (rest : List Phrase) :
    membersFrom none (some (.scalar name)) (colon :: rest) =
      membersFrom (some name) none rest := by
  have hcomma : ¬ colon.isComma = true := by decide
  have hcolon : colon.isSeparator = true := rfl
  rw [membersFrom, if_neg hcomma, if_pos hcolon, nameOf, Option.bind_some]

theorem listed_singleton (entry : List Phrase) : listed [entry] = entry :=
  List.intercalate_singleton ..

theorem listed_cons_cons (entry next : List Phrase) (rest : List (List Phrase)) :
    listed (entry :: next :: rest) = entry ++ comma :: listed (next :: rest) := by
  rw [listed, List.intercalate_cons_cons, List.append_assoc]
  rfl

/-- Entries with commas between them are the items of a list. -/
theorem itemsFrom_listed {entries : List (List Phrase)} {values : List Value}
    (h : List.Forall₂ Denotes entries values) : itemsFrom none (listed entries) =
      some values := by
  induction h with
  | nil => rfl
  | @cons entry v entries values hentry hrest ih =>
      cases hrest with
      | nil =>
          rw [listed_singleton, ← List.append_nil entry, itemsFrom_append hentry]
          rfl
      | cons =>
          rw [listed_cons_cons, itemsFrom_append hentry, itemsFrom_comma, ih,
            Option.map_some]

/-- Phrases of a name and of what is under it. -/
def EntryDenotes (entry : List Phrase × List Phrase) (member : Scalar × Value) : Prop :=
  Denotes entry.1 (.scalar member.1) ∧ Denotes entry.2 member.2

/-- The phrases of an entry of an object. -/
def entryPhrases (entry : List Phrase × List Phrase) : List Phrase :=
  entry.1 ++ colon :: entry.2

theorem membersFrom_entry {entry : List Phrase × List Phrase} {member : Scalar × Value}
    (h : EntryDenotes entry member) (rest : List Phrase) :
    membersFrom none none (entryPhrases entry ++ rest) =
      membersFrom (some member.1) (some member.2) rest := by
  rw [entryPhrases, List.append_assoc, membersFrom_append h.1, List.cons_append,
    membersFrom_colon, membersFrom_append h.2]

theorem membersFrom_listed {entries : List (List Phrase × List Phrase)}
    {members : Members} (h : List.Forall₂ EntryDenotes entries members) :
    membersFrom none none (listed (entries.map entryPhrases)) = some members := by
  induction h with
  | nil => rfl
  | @cons entry member entries members hentry hrest ih =>
      cases hrest with
      | nil =>
          rw [List.map_singleton, listed_singleton, ← List.append_nil
            (entryPhrases entry), membersFrom_entry hentry]
          rfl
      | cons =>
          rw [List.map_cons] at ih
          rw [List.map_cons, List.map_cons, listed_cons_cons, membersFrom_entry hentry,
            membersFrom_comma, ih, Option.map_some]

theorem denotes_null : Denotes [word "None"] .null := rfl

theorem denotes_text (text : String) : Denotes [.atom (.text text)] (.str text) := rfl

theorem Denotes.list {entries : List (List Phrase)} {values : List Value}
    (h : List.Forall₂ Denotes entries values) :
    Denotes [.group .square (listed entries)] (.list values) := by
  rw [Denotes, valueFrom, Phrase.value?, itemsFrom_listed h]
  rfl

theorem Denotes.object {entries : List (List Phrase × List Phrase)} {members : Members}
    (h : List.Forall₂ EntryDenotes entries members)
    (hmembers : Members.ofEntries members = members) :
    Denotes [.group .curly (listed (entries.map entryPhrases))] (.object members) := by
  rw [Denotes, valueFrom, Phrase.value?, membersFrom_listed h,
    Option.map_some, hmembers]
  rfl

/-- Literals of texts one after the other stand for the text that they make. -/
theorem valueFrom_texts (text : String) (pieces : List (List Char)) :
    valueFrom (some (.str text))
      (pieces.map fun piece => .atom (.text (String.ofList piece))) =
      some (.str (text ++ String.ofList pieces.flatten)) := by
  induction pieces generalizing text with
  | nil => simp [valueFrom]
  | cons piece rest ih =>
      rw [List.map_cons, valueFrom, Phrase.value?, Option.bind_some, continued,
        Option.bind_some, ih]
      simp [String.ofList_append, String.append_assoc]

theorem denotes_texts {pieces : List (List Char)} (h : pieces ≠ []) :
    Denotes (pieces.map fun piece => .atom (.text (String.ofList piece)))
      (.str (String.ofList pieces.flatten)) := by
  obtain ⟨piece, rest, rfl⟩ := List.exists_cons_of_ne_nil h
  rw [Denotes, List.map_cons, valueFrom, Phrase.value?, Option.bind_some, continued,
    Option.bind_some, valueFrom_texts]
  simp [String.ofList_append]

/-- The value that source is read as, if its phrases stand for one. -/
theorem readLiteral_of_readsOver {source : String} {phrases : List Phrase} {v : Value}
    (h : ReadsOver 0 source phrases) (hv : Denotes phrases v) :
    readLiteral (source ++ "\n") = some v := by
  have hend : tokensOver 0 .between "\n".toList = some [] := by rfl
  have hstops : Stops "\n".toList := fun c hc => by cases hc; decide
  rw [readLiteral, String.toList_append, h _ hstops, hend, Option.map_some,
    List.append_nil, Option.bind_some, phrasesOf_phraseTokens, Option.bind_some, hv]

-- A text goes on after the end of a line between brackets, and nowhere else.
example : (readLiteral "\x7b'a': 'x'\n      'y'\x7d\n").map Tree.literal =
    some "\x7b'a': 'xy'\x7d" := by
  decide +kernel

example : (readLiteral "'x'\n'y'\n").isNone := by
  decide +kernel

end ApiWorkbench.Server
