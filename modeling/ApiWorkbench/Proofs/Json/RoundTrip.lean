import ApiWorkbench.Proofs.Json.Atoms
import ApiWorkbench.Proofs.Tree

/-!
# Reading what was written

JSON knows fewer values than documents do. `image` is what is left of a value: every
name is a text, where names that were different may become the same; a pair is a list; a
double is what its notation says; halves of surrogate pairs that stand side by side are
the characters they make. A value that cannot be written has none. Whatever the layout,
there is a text whenever there is an image, and reading the text gives the image; but if
a text is torn, only for the layout in ASCII.

A value without torn texts is its own image exactly if all names are texts, those of an
object different ones, and all leaves are texts, truth values, nulls, integers that may
be written and doubles that are read as what they are.

## Main results

* `write_agrees`: in every layout, a text is written for a value if it has an image, and
  it is read as the image if the layout carries the value.
* `image_eq_self_iff`: which values without torn texts are their own image.
-/

namespace ApiWorkbench.Json

/-! ## The image of a value -/

/-- A scalar as it is read after it was written. -/
def scalarImage : Scalar → Except Fault Value
  | .null => pure .null
  | .bool b => pure (.bool b)
  | .int n => if isWritable n then pure (.int n) else throw .notANumber
  | .float x => pure (reread x)
  | .str s => pure (.str s)
  | .torn text => pure (.scalar (.ofLetters (joined text.letters)))
  | .bytes _ => throw .notExpressible
  | .date _ => throw .notExpressible
  | .moment _ => throw .notExpressible
  | .pair _ _ => throw .notExpressible

/-- The text that the name of a member becomes. -/
def nameImage : Scalar → Except Fault Scalar
  | .str s => pure (.str s)
  | .torn text => pure (.ofLetters (joined text.letters))
  | k => do pure (.str (← scalarText .compact k))

mutual

/-- A value as it is read after it was written. -/
def image : Value → Except Fault Value
  | .scalar s => scalarImage s
  | .list xs => do pure (.list (← itemImages xs))
  | .pair a b => do
    let first ← image a
    pure (.list [first, ← image b])
  | .set _ => throw .notExpressible
  | .object ms => do pure (.object (Members.ofEntries (← memberImages ms)))

/-- The images of list items. -/
def itemImages : List Value → Except Fault (List Value)
  | [] => pure []
  | v :: rest => do
    let w ← image v
    pure (w :: (← itemImages rest))

/-- The images of members, each with the text of its name. -/
def memberImages : List (Scalar × Value) → Except Fault (List (Scalar × Value))
  | [] => pure []
  | (k, v) :: rest => do
    let name ← nameImage k
    let w ← image v
    pure ((name, w) :: (← memberImages rest))

end

private theorem scalarImage_ne_torn (s : Scalar) : scalarImage s ≠ .error .torn := by
  cases s with
  | int n =>
      rw [scalarImage]
      split <;> exact nofun
  | _ => exact nofun

private theorem nameImage_ne_torn (k : Scalar) : nameImage k ≠ .error .torn := by
  cases k with
  | int n =>
      refine bind_ne_error ?_ fun _ => nofun
      rw [scalarText]
      split <;> exact nofun
  | _ => exact nofun

mutual

/-- That a text is torn does not keep it from having an image. -/
theorem image_ne_torn : ∀ v : Value, image v ≠ .error .torn
  | .scalar s => scalarImage_ne_torn s
  | .list xs => bind_ne_error (itemImages_ne_torn xs) fun _ => nofun
  | .pair a b =>
      bind_ne_error (image_ne_torn a) fun _ =>
        bind_ne_error (image_ne_torn b) fun _ => nofun
  | .set _ => nofun
  | .marked _ ms => bind_ne_error (memberImages_ne_torn ms) fun _ => nofun

private theorem itemImages_ne_torn : ∀ xs : List Value, itemImages xs ≠ .error .torn
  | [] => nofun
  | v :: rest =>
      bind_ne_error (image_ne_torn v) fun _ =>
        bind_ne_error (itemImages_ne_torn rest) fun _ => nofun

private theorem memberImages_ne_torn :
    ∀ ms : List (Scalar × Value), memberImages ms ≠ .error .torn
  | [] => nofun
  | (k, v) :: rest =>
    bind_ne_error (nameImage_ne_torn k) fun _ =>
      bind_ne_error (image_ne_torn v) fun _ =>
        bind_ne_error (memberImages_ne_torn rest) fun _ => nofun

end

/-- Whether what a layout writes for a value stands for it: only ASCII has escapes for
halves of surrogate pairs. -/
def Layout.Carries (layout : Layout) (v : Value) : Prop :=
  layout = .ascii ∨ v.isWhole = true

/-! ## Values inside a text -/

/-- Characters that are read as a value before anything that does not carry a number
on. They do not look like white space, the end of a container or the mark that no text
may start with. -/
structure ValueText (cs : List Char) (v : Value) : Prop where
  starts : ∃ c more, cs = c :: more ∧ isSpace c = false ∧ c ≠ ']' ∧ c ≠ '\x7d' ∧
    c ≠ Char.ofNat 0xfeff
  reads : ∀ fuel rest, cs.length ≤ fuel → EndsNumber rest →
    readValue fuel (cs ++ rest) = .ok (v, rest)

theorem AtomText.valueText {cs : List Char} {v : Value} (h : AtomText cs v) :
    ValueText cs v := by
  obtain ⟨c, more, hcons, hc⟩ := h.starts
  have hne : ∀ d, isDecimalDigit d = false → d ∉ ['-', 'n', 't', 'f', 'N', 'I'] →
      c ≠ d := by
    rintro d hdigit hword rfl
    rcases hc with hc | hc
    · rw [hdigit] at hc
      contradiction
    · exact hword hc
  refine ⟨⟨c, more, hcons, ?_, hne _ rfl (by decide), hne _ rfl (by decide),
    hne _ (by decide) (by decide)⟩, ?_⟩
  · have hspace := hne ' ' rfl (by decide)
    have htab := hne '\t' rfl (by decide)
    have hnewline := hne '\n' rfl (by decide)
    have hreturn := hne '\r' rfl (by decide)
    simp [isSpace, hspace, htab, hnewline, hreturn]
  · intro fuel rest hfuel hrest
    have hread := h.reads rest hrest
    rw [hcons] at hfuel hread ⊢
    cases fuel with
    | zero => simp at hfuel
    | succ fuel =>
        rw [List.cons_append, readValue]
        · exact hread
        · exact fun _ heq => hne '"' rfl (by decide) (List.cons.inj heq).1
        · exact fun _ heq => hne '\x7b' rfl (by decide) (List.cons.inj heq).1
        · exact fun _ heq => hne '[' rfl (by decide) (List.cons.inj heq).1

/-- A text between quotes is a value. -/
theorem valueText_of_quoted {inner : List Char} {text : Scalar}
    (hquoted : Quoted inner text) :
    ValueText ('"' :: inner) (.scalar text) := by
  refine ⟨⟨_, _, rfl, by decide, by decide, by decide, by decide⟩, ?_⟩
  intro fuel rest hfuel _
  cases fuel with
  | zero => simp at hfuel
  | succ fuel =>
      rw [List.cons_append, readValue, hquoted, ok_bind]
      rfl

theorem skipSpace_append {spaces cs : List Char} (h : ∀ c ∈ spaces, isSpace c = true) :
    skipSpace (spaces ++ cs) = skipSpace cs :=
  List.dropWhile_append_of_pos h

theorem ValueText.skipSpace {cs : List Char} {v : Value} (h : ValueText cs v)
    (rest : List Char) :
    skipSpace (cs ++ rest) = cs ++ rest := by
  obtain ⟨c, more, rfl, hspace, -⟩ := h.starts
  rw [List.cons_append, Json.skipSpace, List.dropWhile_cons_of_neg (by simp [hspace])]

/-! ## White space of the layouts -/

private theorem space_of_mem_gap {layout : Layout} {depth : Nat} {c : Char}
    (h : c ∈ (layout.gap depth).toList) :
    isSpace c = true := by
  cases layout with
  | indented =>
      have hnewline : "\n".toList = ['\n'] := rfl
      rw [Layout.gap, toList_pushn, hnewline] at h
      rcases List.mem_append.mp h with h | h
      · rw [List.mem_singleton.mp h]
        rfl
      · rw [List.eq_of_mem_replicate h]
        rfl
  | _ => simp [Layout.gap] at h

private theorem toList_separator (layout : Layout) (depth : Nat) :
    ∃ spaces, (layout.separator depth).toList = ',' :: spaces ∧ ∀ c ∈ spaces,
      isSpace c = true := by
  cases layout with
  | compact =>
      have hcomma : ",".toList = [','] := rfl
      exact ⟨[], hcomma, by simp⟩
  | ascii =>
      have hcomma : ", ".toList = [',', ' '] := rfl
      exact ⟨[' '], hcomma, by simp [isSpace]⟩
  | indented =>
      have hcomma : ",".toList = [','] := rfl
      refine ⟨(Layout.indented.gap depth).toList, ?_, fun c => space_of_mem_gap⟩
      rw [Layout.separator, String.toList_append, hcomma, List.cons_append,
        List.nil_append]

private theorem toList_colon (layout : Layout) :
    ∃ spaces, layout.colon.toList = ':' :: spaces ∧ ∀ c ∈ spaces, isSpace c = true := by
  cases layout with
  | compact => exact ⟨[], rfl, by simp⟩
  | ascii => exact ⟨[' '], rfl, by simp [isSpace]⟩
  | indented => exact ⟨[' '], rfl, by simp [isSpace]⟩

/-- What follows an entry does not carry a number on. -/
private theorem endsNumber_append {spaces rest : List Char}
    (hspaces : ∀ c ∈ spaces, isSpace c = true) (hrest : EndsNumber rest) :
    EndsNumber (spaces ++ rest) := by
  intro c hc
  cases spaces with
  | nil => exact hrest c hc
  | cons space spaces =>
      obtain rfl : space = c := Option.some.inj hc
      have hspace := hspaces space (by simp)
      simp only [isSpace, Bool.or_eq_true, beq_iff_eq] at hspace
      rcases hspace with ((rfl | rfl) | rfl) | rfl <;> decide

private theorem endsNumber_cons {c : Char} {rest : List Char}
    (hc : isDecimalDigit c = false ∧ c ≠ '.' ∧ c ≠ 'e' ∧ c ≠ 'E') :
    EndsNumber (c :: rest) := by
  intro d hd
  obtain rfl : c = d := Option.some.inj hd
  exact hc

/-! ## Containers -/

section

variable {spaces gap rest : List Char}

/-- Entries in a row start with the first one. -/
private theorem intercalate_start (sep text : List Char) (texts : List (List Char)) :
    ∃ more, sep.intercalate (text :: texts) = text ++ more := by
  cases texts with
  | nil => exact ⟨[], by rw [List.intercalate_singleton, List.append_nil]⟩
  | cons next texts => exact ⟨_, by rw [List.intercalate_cons_cons, List.append_assoc]⟩

private theorem skipSpace_end {c : Char} (hgap : ∀ d ∈ gap, isSpace d = true)
    (hc : isSpace c = false) :
    skipSpace (gap ++ c :: rest) = c :: rest := by
  rw [skipSpace_append hgap, skipSpace, List.dropWhile_cons_of_neg (by simp [hc])]

/-- What comes after the space before some entries starts with the first one. -/
private theorem skipSpace_row {text : List Char} {texts : List (List Char)}
    (hspaces : ∀ c ∈ spaces, isSpace c = true)
    (htext : ∀ rest, skipSpace (text ++ rest) = text ++ rest)
    (sep : List Char) :
    skipSpace (spaces ++ (sep.intercalate (text :: texts) ++ rest)) =
      sep.intercalate (text :: texts) ++ rest := by
  obtain ⟨more, hmore⟩ := intercalate_start sep text texts
  rw [skipSpace_append hspaces, hmore, List.append_assoc, htext]

private theorem readItems_next {text tail : List Char} {v : Value}
    (htext : ValueText text v) {fuel : Nat} (hfuel : text.length ≤ fuel)
    (done : List Value) :
    readItems (fuel + 1) done (text ++ ',' :: tail) =
      readItems fuel (v :: done) (skipSpace tail) := by
  have hread := htext.reads fuel (',' :: tail) hfuel (endsNumber_cons (by decide))
  rw [readItems, hread, ok_bind]
  rfl

private theorem readItems_last {text : List Char} {v : Value} (htext : ValueText text v)
    (hgap : ∀ c ∈ gap, isSpace c = true) {fuel : Nat} (hfuel : text.length ≤ fuel)
    (done : List Value) :
    readItems (fuel + 1) done (text ++ (gap ++ ']' :: rest)) =
      .ok (.list (done.reverse ++ [v]), rest) := by
  have hread := htext.reads fuel (gap ++ ']' :: rest) hfuel
    (endsNumber_append hgap (endsNumber_cons (by decide)))
  have hend : skipSpace (gap ++ ']' :: rest) = ']' :: rest := skipSpace_end hgap rfl
  rw [readItems, hread, ok_bind]
  simp only [hend, pure_eq_ok, List.reverse_cons]

/-- Items in a row are read in turn. -/
private theorem readItems_texts (hspaces : ∀ c ∈ spaces, isSpace c = true)
    (hgap : ∀ c ∈ gap, isSpace c = true) {text : List Char}
    {texts : List (List Char)} {v : Value} {vs : List Value} (htext : ValueText text v)
    (htexts : List.Forall₂ ValueText texts vs) {fuel : Nat} (done : List Value)
    (hfuel : ((',' :: spaces).intercalate (text :: texts)).length < fuel) :
    readItems fuel done ((',' :: spaces).intercalate (text :: texts) ++
      (gap ++ ']' :: rest)) = .ok (.list (done.reverse ++ v :: vs), rest) := by
  induction htexts generalizing text v fuel done with
  | nil =>
      cases fuel with
      | zero => simp at hfuel
      | succ fuel =>
          rw [List.intercalate_singleton] at hfuel ⊢
          exact readItems_last htext hgap (by omega) done
  | @cons next w texts ws hnext htexts ih =>
      cases fuel with
      | zero => simp at hfuel
      | succ fuel =>
          simp only [List.intercalate_cons_cons, List.length_append, List.length_cons]
            at hfuel
          have hlength : ((',' :: spaces).intercalate (next :: texts)).length <
              fuel := by
            omega
          have hrest := ih hnext (v :: done) hlength
          rw [List.reverse_cons, List.append_assoc, List.cons_append, List.nil_append]
            at hrest
          rw [List.intercalate_cons_cons, List.append_assoc,
            List.append_assoc, List.cons_append, readItems_next htext (by omega),
            skipSpace_row hspaces hnext.skipSpace, hrest]

/-- The characters of a member: its name, a colon and its value. -/
structure MemberText (cs : List Char) (e : Scalar × Value) : Prop where
  split : ∃ inner spaces text, cs = '"' :: (inner ++ ':' :: (spaces ++ text)) ∧
    Quoted inner e.1 ∧ (∀ c ∈ spaces, isSpace c = true) ∧ ValueText text e.2

theorem MemberText.skipSpace {cs : List Char} {e : Scalar × Value} (h : MemberText cs e)
    (rest : List Char) :
    skipSpace (cs ++ rest) = cs ++ rest := by
  obtain ⟨inner, spaces, value, rfl, -⟩ := h.split
  rfl

private theorem readMembers_next {text tail : List Char} {e : Scalar × Value}
    (htext : MemberText text e) {fuel : Nat} (hfuel : text.length ≤ fuel)
    (done : Members) :
    readMembers (fuel + 1) done (text ++ ',' :: tail) =
      readMembers fuel (Members.put e.1 e.2 done) (skipSpace tail) := by
  obtain ⟨inner, spaces, value, rfl, hquoted, hspaces, hvalue⟩ := htext.split
  simp only [List.length_cons, List.length_append] at hfuel
  have hread := hvalue.reads fuel (',' :: tail) (by omega) (endsNumber_cons (by decide))
  have hskip : skipSpace (spaces ++ (value ++ ',' :: tail)) = value ++ ',' :: tail := by
    rw [skipSpace_append hspaces, hvalue.skipSpace]
  have hcolon : skipSpace (':' :: (spaces ++ (value ++ ',' :: tail))) =
      ':' :: (spaces ++ (value ++ ',' :: tail)) := rfl
  have hcomma : skipSpace (',' :: tail) = ',' :: tail := rfl
  simp only [List.cons_append, List.append_assoc]
  rw [readMembers, hquoted, ok_bind]
  simp only [hcolon, hskip, hread, ok_bind, hcomma]

private theorem readMembers_last {text : List Char} {e : Scalar × Value}
    (htext : MemberText text e) (hgap : ∀ c ∈ gap, isSpace c = true) {fuel : Nat}
    (hfuel : text.length ≤ fuel) (done : Members) :
    readMembers (fuel + 1) done (text ++ (gap ++ '\x7d' :: rest)) =
      .ok (.object (Members.put e.1 e.2 done), rest) := by
  obtain ⟨inner, spaces, value, rfl, hquoted, hspaces, hvalue⟩ := htext.split
  simp only [List.length_cons, List.length_append] at hfuel
  have hread := hvalue.reads fuel (gap ++ '\x7d' :: rest) (by omega)
    (endsNumber_append hgap (endsNumber_cons (by decide)))
  have hskip : skipSpace (spaces ++ (value ++ (gap ++ '\x7d' :: rest))) =
      value ++ (gap ++ '\x7d' :: rest) := by
    rw [skipSpace_append hspaces, hvalue.skipSpace]
  have hcolon : skipSpace (':' :: (spaces ++ (value ++ (gap ++ '\x7d' :: rest)))) =
      ':' :: (spaces ++ (value ++ (gap ++ '\x7d' :: rest))) := rfl
  have hend : skipSpace (gap ++ '\x7d' :: rest) = '\x7d' :: rest :=
    skipSpace_end hgap rfl
  simp only [List.cons_append, List.append_assoc]
  rw [readMembers, hquoted, ok_bind]
  simp only [hcolon, hskip, hread, ok_bind, hend, pure_eq_ok]

/-- Members in a row are read in turn. -/
private theorem readMembers_texts (hspaces : ∀ c ∈ spaces, isSpace c = true)
    (hgap : ∀ c ∈ gap, isSpace c = true) {text : List Char} {texts : List (List Char)}
    {e : Scalar × Value} {es : Members} (htext : MemberText text e)
    (htexts : List.Forall₂ MemberText texts es) {fuel : Nat} (done : Members)
    (hfuel : ((',' :: spaces).intercalate (text :: texts)).length < fuel) :
    readMembers fuel done
      ((',' :: spaces).intercalate (text :: texts) ++ (gap ++ '\x7d' :: rest)) =
      .ok (.object (Members.putAll done (e :: es)), rest) := by
  induction htexts generalizing text e fuel done with
  | nil =>
      cases fuel with
      | zero => simp at hfuel
      | succ fuel =>
          rw [List.intercalate_singleton] at hfuel ⊢
          exact readMembers_last htext hgap (by omega) done
  | @cons next e' texts es hnext htexts ih =>
      cases fuel with
      | zero => simp at hfuel
      | succ fuel =>
          simp only [List.intercalate_cons_cons, List.length_append, List.length_cons]
            at hfuel
          have hlength : ((',' :: spaces).intercalate (next :: texts)).length <
              fuel := by
            omega
          have hrest := ih hnext (Members.put e.1 e.2 done) hlength
          rw [List.intercalate_cons_cons, List.append_assoc, List.append_assoc,
            List.cons_append, readMembers_next htext (by omega),
            skipSpace_row hspaces hnext.skipSpace, hrest]
          rfl

/-- The characters of a container that is not empty. -/
private theorem toList_bracketed (layout : Layout) (depth : Nat)
    {opening closing : String} {o c : Char} (hopening : opening.toList = [o])
    (hclosing : closing.toList = [c]) (text : String) (texts : List String) :
    ∃ before spaces after, (∀ d ∈ before, isSpace d = true) ∧
      (∀ d ∈ spaces, isSpace d = true) ∧
      (∀ d ∈ after, isSpace d = true) ∧
      (bracketed layout depth opening closing (text :: texts)).toList =
        o :: (before ++ ((',' :: spaces).intercalate
          (text.toList :: texts.map String.toList) ++ (after ++ [c]))) := by
  obtain ⟨spaces, hsep, hspaces⟩ := toList_separator layout (depth + 1)
  refine ⟨(layout.gap (depth + 1)).toList, spaces, (layout.gap depth).toList, fun _ =>
    space_of_mem_gap, hspaces, fun _ => space_of_mem_gap, ?_⟩
  simp only [bracketed, String.toList_append, String.toList_intercalate, hsep, hopening,
    hclosing, List.map_cons, List.append_assoc, List.cons_append, List.nil_append]

private theorem toList_bracketed_nil (layout : Layout) (depth : Nat)
    {opening closing : String} {o c : Char} (hopening : opening.toList = [o])
    (hclosing : closing.toList = [c]) :
    (bracketed layout depth opening closing []).toList = [o, c] := by
  rw [bracketed, String.toList_append, hopening, hclosing, List.cons_append,
    List.nil_append]

/-- A list is read from the texts of its items. -/
theorem valueText_list (layout : Layout) (depth : Nat)
    {texts : List String} {vs : List Value}
    (h : List.Forall₂ (fun text v => ValueText text.toList v) texts vs) :
    ValueText (bracketed layout depth "[" "]" texts).toList (.list vs) := by
  have hopening : "[".toList = ['['] := rfl
  have hclosing : "]".toList = [']'] := rfl
  cases h with
  | nil =>
      rw [toList_bracketed_nil layout depth hopening hclosing]
      refine ⟨⟨_, _, rfl, by decide, by decide, by decide, by decide⟩,
        fun fuel rest hfuel _ => ?_⟩
      cases fuel with
      | zero => simp at hfuel
      | succ fuel => rfl
  | @cons text v texts vs htext htexts =>
      obtain ⟨before, spaces, after, hbefore, hspaces, hafter, hlist⟩ :=
        toList_bracketed layout depth hopening hclosing text texts
      rw [hlist]
      refine ⟨⟨_, _, rfl, by decide, by decide, by decide, by decide⟩,
        fun fuel rest hfuel _ => ?_⟩
      cases fuel with
      | zero => simp at hfuel
      | succ fuel =>
          simp only [List.length_cons, List.length_append] at hfuel
          have hitems : List.Forall₂ ValueText (texts.map String.toList) vs :=
            List.forall₂_map_left_iff.mpr htexts
          have hread : readItems fuel [] ((',' :: spaces).intercalate
              (text.toList :: texts.map String.toList) ++ (after ++ ']' :: rest)) =
              .ok (.list (v :: vs), rest) :=
            readItems_texts hspaces hafter htext hitems [] (by omega)
          have hskip : skipSpace (before ++ ((',' :: spaces).intercalate
              (text.toList :: texts.map String.toList) ++ (after ++ ']' :: rest))) =
              (',' :: spaces).intercalate (text.toList :: texts.map String.toList) ++
              (after ++ ']' :: rest) :=
            skipSpace_row hbefore htext.skipSpace _
          -- the first item does not look like the end of the list
          obtain ⟨c, more, hcons, -, hclose, -⟩ := htext.starts
          obtain ⟨tail, htail⟩ :=
            intercalate_start (',' :: spaces) text.toList (texts.map String.toList)
          simp only [List.cons_append, List.append_assoc, List.nil_append]
          rw [readValue, hskip]
          rw [htail, hcons, List.cons_append, List.cons_append] at hread ⊢
          split
          · rename_i heq
            exact absurd (List.cons.inj heq).1 hclose
          · exact hread

/-- An object is read from the texts of its members. -/
theorem valueText_object (layout : Layout)
    (depth : Nat) {texts : List String} {es : Members}
    (h : List.Forall₂ (fun text e => MemberText text.toList e) texts es) :
    ValueText (bracketed layout depth "\x7b" "\x7d" texts).toList
      (.object (Members.ofEntries es)) := by
  have hopening : "\x7b".toList = ['\x7b'] := rfl
  have hclosing : "\x7d".toList = ['\x7d'] := rfl
  cases h with
  | nil =>
      rw [toList_bracketed_nil layout depth hopening hclosing]
      refine ⟨⟨_, _, rfl, by decide, by decide, by decide, by decide⟩,
        fun fuel rest hfuel _ => ?_⟩
      cases fuel with
      | zero => simp at hfuel
      | succ fuel => rfl
  | @cons text e texts es htext htexts =>
      obtain ⟨before, spaces, after, hbefore, hspaces, hafter, hobject⟩ :=
        toList_bracketed layout depth hopening hclosing text texts
      rw [hobject]
      refine ⟨⟨_, _, rfl, by decide, by decide, by decide, by decide⟩,
        fun fuel rest hfuel _ => ?_⟩
      cases fuel with
      | zero => simp at hfuel
      | succ fuel =>
          simp only [List.length_cons, List.length_append] at hfuel
          have hmembers : List.Forall₂ MemberText (texts.map String.toList) es :=
            List.forall₂_map_left_iff.mpr htexts
          have hread : readMembers fuel [] ((',' :: spaces).intercalate
              (text.toList :: texts.map String.toList) ++ (after ++ '\x7d' :: rest)) =
              .ok (.object (Members.ofEntries (e :: es)), rest) :=
            readMembers_texts hspaces hafter htext hmembers [] (by omega)
          have hskip : skipSpace (before ++ ((',' :: spaces).intercalate
              (text.toList :: texts.map String.toList) ++ (after ++ '\x7d' :: rest))) =
              (',' :: spaces).intercalate (text.toList :: texts.map String.toList) ++
              (after ++ '\x7d' :: rest) :=
            skipSpace_row hbefore htext.skipSpace _
          -- the first member starts with a quote
          obtain ⟨inner, colon, value, hcons, -⟩ := htext.split
          obtain ⟨tail, htail⟩ :=
            intercalate_start (',' :: spaces) text.toList (texts.map String.toList)
          simp only [List.cons_append, List.append_assoc, List.nil_append]
          rw [readValue, hskip]
          rw [htail, hcons, List.cons_append, List.cons_append] at hread ⊢
          split
          · rename_i heq
            exact absurd (List.cons.inj heq).1 (by decide)
          · exact hread

end

/-! ## Any value -/

theorem scalarText_agrees (layout : Layout) (s : Scalar) :
    Agree (fun text w => layout.Carries (.scalar s) → ValueText text.toList w)
      (scalarText layout s) (scalarImage s) := by
  cases s with
  | null => exact .ok fun _ => atomText_null.valueText
  | bool b => exact .ok fun _ => (atomText_bool b).valueText
  | int n =>
      rw [scalarText, scalarImage]
      split
      · rename_i hn
        exact .ok fun _ => (atomText_toString hn).valueText
      · exact .error _
  | float x => exact .ok fun _ => (atomText_floatText x).valueText
  | str s =>
      obtain ⟨inner, hinner, hquoted⟩ := quoted_stringText layout s
      exact .ok fun _ => hinner ▸ valueText_of_quoted hquoted
  | torn text =>
      refine .ok fun hcarries => ?_
      obtain rfl := hcarries.resolve_right Bool.false_ne_true
      obtain ⟨inner, hinner, hquoted⟩ := quoted_tornText text
      exact hinner ▸ valueText_of_quoted hquoted
  | bytes b => exact .error _
  | date d => exact .error _
  | moment m => exact .error _
  | pair a b => exact .error _

/-- An atom between quotes is read as the text of the atom. -/
private theorem quoted_of_atomText {text : String} {v : Value}
    (h : AtomText text.toList v) :
    ∃ inner, ("\"" ++ text ++ "\"").toList = '"' :: inner ∧
      Quoted inner (.str text) := by
  have hquote : "\"".toList = ['"'] := rfl
  refine ⟨text.toList ++ ['"'], ?_, ?_⟩
  · rw [String.toList_append, String.toList_append, hquote, List.cons_append,
      List.nil_append, List.cons_append]
  · have hquoted := quoted_of_plain h.plain
    rwa [String.ofList_toList] at hquoted

theorem nameText_agrees (layout : Layout) (k : Scalar) :
    Agree (fun text name => layout.Carries (.scalar k) → ∃ inner, text.toList =
      '"' :: inner ∧ Quoted inner name) (nameText layout k) (nameImage k) := by
  cases k with
  | null => exact .ok fun _ => quoted_of_atomText atomText_null
  | bool b => exact .ok fun _ => quoted_of_atomText (atomText_bool b)
  | int n =>
      simp only [nameText, nameImage, scalarText]
      split
      · rename_i hn
        exact .ok fun _ => quoted_of_atomText (atomText_toString hn)
      · exact .error _
  | float x => exact .ok fun _ => quoted_of_atomText (atomText_floatText x)
  | str s => exact .ok fun _ => quoted_stringText layout s
  | torn text =>
      refine .ok fun hcarries => ?_
      obtain rfl := hcarries.resolve_right Bool.false_ne_true
      exact quoted_tornText text
  | bytes b => exact .error _
  | date d => exact .error _
  | moment m => exact .error _
  | pair a b => exact .error _

private theorem carries_and {layout : Layout} {a b : Bool} :
    layout = .ascii ∨ (a && b) = true ↔ (layout = .ascii ∨ a = true) ∧
      (layout = .ascii ∨ b = true) := by
  rw [Bool.and_eq_true, or_and_left]

mutual

/-- In every layout, a text is written for a value that has an image, and it is read as
the image if the layout carries the value. -/
theorem valueText_agrees (layout : Layout) : ∀ (v : Value) (depth : Nat),
    Agree (fun text w => layout.Carries v → ValueText text.toList w)
      (valueText layout depth v) (image v)
  | .scalar s, _ => scalarText_agrees layout s
  | .list xs, depth =>
    (itemTexts_agree layout xs (depth + 1)).bind fun _ _ h =>
      .ok fun hcarries => valueText_list layout depth (h hcarries)
  | .pair a b, depth =>
    (valueText_agrees layout a (depth + 1)).bind fun _ _ ha =>
      (valueText_agrees layout b (depth + 1)).bind fun _ _ hb =>
        .ok fun hcarries =>
          have hparts := carries_and.mp hcarries
          valueText_list layout depth (.cons (ha hparts.1) (.cons (hb hparts.2) .nil))
  | .set _, _ => .error _
  | .object ms, depth =>
    (memberTexts_agree layout ms (depth + 1)).bind fun _ _ h =>
      .ok fun hcarries => valueText_object layout depth (h hcarries)

theorem itemTexts_agree (layout : Layout) : ∀ (xs : List Value) (depth : Nat),
    Agree (fun texts ws => layout = .ascii ∨ areWhole xs = true →
      List.Forall₂ (fun text w => ValueText text.toList w) texts ws)
        (itemTexts layout depth xs) (itemImages xs)
  | [], _ => .ok fun _ => .nil
  | v :: rest, depth =>
    (valueText_agrees layout v depth).bind fun _ _ hv =>
      (itemTexts_agree layout rest depth).bind fun _ _ hrest =>
        .ok fun hcarries =>
          have hparts := carries_and.mp hcarries
          .cons (hv hparts.1) (hrest hparts.2)

theorem memberTexts_agree (layout : Layout) : ∀ (ms : Members) (depth : Nat),
    Agree (fun texts es => layout = .ascii ∨ membersAreWhole ms = true →
      List.Forall₂ (fun text e => MemberText text.toList e) texts es)
        (memberTexts layout depth ms) (memberImages ms)
  | [], _ => .ok fun _ => .nil
  | (k, v) :: rest, depth =>
    (nameText_agrees layout k).bind fun nameText name hname =>
      (valueText_agrees layout v depth).bind fun text w hv =>
        (memberTexts_agree layout rest depth).bind fun _ _ hrest => by
          refine .ok fun hcarries => ?_
          obtain ⟨hentry, hcarriesRest⟩ := carries_and.mp hcarries
          obtain ⟨hcarriesName, hcarriesValue⟩ := carries_and.mp hentry
          obtain ⟨inner, hinner, hquoted⟩ := hname hcarriesName
          obtain ⟨spaces, hcolon, hspaces⟩ := toList_colon layout
          refine .cons ⟨inner, spaces, text.toList, ?_, hquoted, hspaces,
            hv hcarriesValue⟩ (hrest hcarriesRest)
          rw [String.toList_append, String.toList_append, hinner, hcolon,
            List.cons_append, List.cons_append, List.append_assoc, List.cons_append]

end

/-- A whole text is read as its value. -/
theorem ValueText.read {text : String} {v : Value} (h : ValueText text.toList v) :
    Json.read text = .ok v := by
  obtain ⟨c, more, hcons, hspace, -, -, hmark⟩ := h.starts
  have hhead : (text.toList.head? == some (Char.ofNat 0xfeff)) = false := by
    rw [hcons, List.head?_cons, beq_eq_false_iff_ne]
    intro heq
    exact hmark (Option.some.inj heq)
  have hskip := h.skipSpace []
  have hread := h.reads (2 * text.toList.length + 2) [] (by omega) endsNumber_nil
  rw [List.append_nil] at hskip hread
  simp only [Json.read, hhead, hskip, hread, ok_bind]
  rfl

/-- In every layout, a text is written for a value that has an image, and it is read as
the image if the layout carries the value. -/
theorem write_agrees (layout : Layout) (v : Value) :
    Agree (fun text w => layout.Carries v → read text = .ok w) (write layout v)
      (image v) := by
  have hagree := valueText_agrees layout v 0
  unfold write
  generalize valueText layout 0 v = written at hagree ⊢
  generalize image v = imaged at hagree ⊢
  cases hagree with
  | ok h => exact .ok fun hcarries => (h hcarries).read
  | error e => exact .error e

/-- The image of an object is an object. -/
theorem object_of_image {ms : Members} {w : Value} (h : image (.object ms) = .ok w) :
    ∃ ns, w = .object ns := by
  obtain ⟨es, -, h⟩ := bind_eq_ok.mp h
  exact ⟨_, (Except.ok.inj h).symm⟩

/-! ## Values that are their own image -/

/-- A leaf that is written and read without a change. -/
def PlainScalar : Scalar → Prop
  | .null => True
  | .bool _ => True
  | .int n => isWritable n = true
  | .float x => reread x = .float x
  | .str _ => True
  | _ => False

/-- Values as JSON knows them: the names of an object are texts, and different ones. -/
inductive Plain : Value → Prop
  | scalar {s : Scalar} : PlainScalar s → Plain (.scalar s)
  | list {xs : List Value} : (∀ x ∈ xs, Plain x) → Plain (.list xs)
  | object {ms : Members} : (∀ e ∈ ms, ∃ name, e.1 = .str name) →
      (Members.names ms).Nodup →
      (∀ e ∈ ms, Plain e.2) → Plain (.object ms)

private theorem scalarImage_eq_self_iff {s : Scalar} (hwhole : s.isWhole = true) :
    scalarImage s = .ok (.scalar s) ↔ PlainScalar s := by
  cases s with
  | null => exact ⟨fun _ => trivial, fun _ => rfl⟩
  | bool b => exact ⟨fun _ => trivial, fun _ => rfl⟩
  | int n =>
      rw [scalarImage, PlainScalar]
      split
      · rename_i hn
        exact ⟨fun _ => hn, fun _ => rfl⟩
      · rename_i hn
        exact ⟨fun h => by simp at h, fun h => absurd h hn⟩
  | float x => rw [scalarImage, PlainScalar, pure_eq_ok, Except.ok.injEq]
  | str s => exact ⟨fun _ => trivial, fun _ => rfl⟩
  | torn text => exact absurd hwhole Bool.false_ne_true
  | bytes b => exact ⟨fun h => by simp [scalarImage] at h, fun h => absurd h id⟩
  | date d => exact ⟨fun h => by simp [scalarImage] at h, fun h => absurd h id⟩
  | moment m => exact ⟨fun h => by simp [scalarImage] at h, fun h => absurd h id⟩
  | pair a b => exact ⟨fun h => by simp [scalarImage] at h, fun h => absurd h id⟩

private theorem itemImages_iff {xs ys : List Value} :
    itemImages xs = .ok ys ↔ List.Forall₂ (fun x y => image x = .ok y) xs ys := by
  induction xs generalizing ys with
  | nil => simp [itemImages, eq_comm]
  | cons x xs ih =>
      rw [itemImages, bind_eq_ok]
      constructor
      · rintro ⟨y, hy, hrest⟩
        obtain ⟨zs, hzs, heq⟩ := bind_eq_ok.mp hrest
        obtain rfl := Except.ok.inj heq
        exact .cons hy (ih.mp hzs)
      · intro h
        cases h with
        | cons hy hzs => exact ⟨_, hy, bind_eq_ok.mpr ⟨_, ih.mpr hzs, rfl⟩⟩

/-- The image of a name is a text. -/
private theorem isText_of_nameImage {k name : Scalar} (h : nameImage k = .ok name) :
    name.IsText := by
  cases k with
  | str s => exact Except.ok.inj h ▸ .whole s
  | torn text =>
      obtain rfl := Except.ok.inj h
      exact Scalar.isText_ofLetters _
  | _ =>
      obtain ⟨text, -, heq⟩ := bind_eq_ok.mp h
      exact Except.ok.inj heq ▸ .whole text

/-- The names of images of members are texts. -/
private theorem isText_of_memberImages {ms es : Members}
    (h : memberImages ms = .ok es) :
    ∀ e ∈ es, e.1.IsText := by
  induction ms generalizing es with
  | nil =>
      obtain rfl := Except.ok.inj h
      simp
  | cons e ms ih =>
      obtain ⟨name, hname, h⟩ := bind_eq_ok.mp h
      obtain ⟨w, -, h⟩ := bind_eq_ok.mp h
      obtain ⟨others, hothers, h⟩ := bind_eq_ok.mp h
      obtain rfl := Except.ok.inj h
      intro e he
      rcases List.mem_cons.mp he with rfl | he
      · exact isText_of_nameImage hname
      · exact ih hothers e he

/-- Members whose names are texts keep them. -/
private theorem memberImages_iff {ms es : Members}
    (htext : ∀ e ∈ ms, ∃ name, e.1 = .str name) :
    memberImages ms = .ok es ↔
      Members.Aligned (fun _ v w => image v = .ok w) ms es := by
  induction ms generalizing es with
  | nil => simp [memberImages, Members.Aligned, eq_comm]
  | cons e ms ih =>
      obtain ⟨k, v⟩ := e
      obtain ⟨name, rfl⟩ := htext (k, v) (by simp)
      have hrest : ∀ {es : Members}, memberImages ms = .ok es ↔
          Members.Aligned (fun _ v w => image v = .ok w) ms es := ih fun e he =>
            htext e (by simp [he])
      rw [memberImages, nameImage, pure_eq_ok, ok_bind, bind_eq_ok]
      constructor
      · rintro ⟨w, hw, h⟩
        obtain ⟨others, hothers, heq⟩ := bind_eq_ok.mp h
        obtain rfl := Except.ok.inj heq
        exact .cons ⟨rfl, hw⟩ (hrest.mp hothers)
      · intro h
        cases h with
        | @cons _ e' _ others he hothers =>
            obtain ⟨k', w⟩ := e'
            obtain ⟨rfl, hw⟩ := he
            exact ⟨w, hw, bind_eq_ok.mpr ⟨others, hrest.mpr hothers, rfl⟩⟩

/-- An object that is its own image has different texts for names. -/
private theorem names_of_image_eq_self {ms es : Members} (h : memberImages ms = .ok es)
    (hself : Members.ofEntries es = ms) : (∀ e ∈ ms, e.1.IsText) ∧
      (Members.names ms).Nodup := by
  have htext := isText_of_memberImages h
  subst hself
  refine ⟨fun e he => ?_, Members.nodup_names_ofEntries htext⟩
  obtain ⟨o, ho, -, hname⟩ := Members.mem_ofEntries he
  rw [(htext o ho).same_iff, or_self] at hname
  exact hname ▸ htext o ho

/-- A value without torn texts is its own image exactly when it is one that JSON
knows. -/
theorem image_eq_self_iff {v : Value} (hwhole : v.isWhole = true) :
    image v = .ok v ↔ Plain v := by
  constructor
  · intro h
    induction v using Tree.parts_induction with
    | scalar s => exact .scalar ((scalarImage_eq_self_iff hwhole).mp h)
    | list xs ih =>
        obtain ⟨ys, hys, h⟩ := bind_eq_ok.mp h
        obtain rfl : ys = xs := by
          injection Except.ok.inj h
        have hitems := List.forall₂_same.mp (itemImages_iff.mp hys)
        exact .list fun x hx => ih x hx (Tree.areWhole_iff.mp hwhole x hx) (hitems x hx)
    | pair a b =>
        obtain ⟨first, -, h⟩ := bind_eq_ok.mp h
        obtain ⟨second, -, h⟩ := bind_eq_ok.mp h
        simp at h
    | set names => simp [image] at h
    | marked mark ms ih =>
        obtain ⟨es, hes, h⟩ := bind_eq_ok.mp h
        have hself : Members.ofEntries es = ms := by
          injection Except.ok.inj h
        obtain ⟨htext, hdistinct⟩ := names_of_image_eq_self hes hself
        have hparts := Tree.membersAreWhole_iff.mp hwhole
        have hnames : ∀ e ∈ ms, ∃ name, e.1 = .str name :=
          fun e he => (htext e he).exists_str (Tree.isTorn_of_isWhole (hparts e he).1)
        -- the names are kept, so the entries are the members already
        have haligned := (memberImages_iff hnames).mp hes
        have hdistinct' : (Members.names es).Nodup := by
          rw [haligned.names_eq]
          exact hdistinct
        obtain rfl : es = ms := by
          rw [← hself, Members.ofEntries_of_distinct (isText_of_memberImages hes)
            hdistinct']
        exact .object hnames hdistinct fun e he =>
          ih e he (hparts e he).2 (List.forall₂_same.mp haligned e he).2
  · intro h
    clear hwhole
    induction h with
    | @scalar s hs =>
        have hwhole : s.isWhole = true := by
          cases s <;> first | rfl | exact hs.elim
        exact (scalarImage_eq_self_iff hwhole).mpr hs
    | list _ ih =>
        rw [image, itemImages_iff.mpr (List.forall₂_same.mpr ih), ok_bind, pure_eq_ok]
    | object htext hdistinct _ ih =>
        rw [image, (memberImages_iff htext).mpr (.refl ih), ok_bind,
          Members.ofEntries_of_distinct
            (fun e he => Scalar.isText_of_eq_str (htext e he)) hdistinct, pure_eq_ok]

/-- Values that JSON knows have no torn texts. -/
theorem Plain.isWhole {v : Value} (h : Plain v) : v.isWhole = true := by
  induction h with
  | @scalar s hs => cases s <;> first | rfl | exact hs.elim
  | list _ ih => exact Tree.areWhole_iff.mpr ih
  | object htext _ _ ih =>
      refine Tree.membersAreWhole_iff.mpr fun e he => ⟨?_, ih e he⟩
      obtain ⟨name, hname⟩ := htext e he
      rw [hname]
      rfl

/-! ## Telling such values -/

/-- Whether a leaf is one that JSON knows. -/
def isPlainScalar : Scalar → Bool
  | .null | .bool _ | .str _ => true
  | .int n => isWritable n
  | .float x =>
    match reread x with
    | .float y => y == x
    | _ => false
  | _ => false

mutual

/-- Whether a value is one that JSON knows. -/
def isPlain : Value → Bool
  | .scalar s => isPlainScalar s
  | .list xs => itemsPlain xs
  | .pair _ _ => false
  | .set _ => false
  | .object ms => (Members.names ms).Nodup && membersPlain ms

/-- Whether all list items are values that JSON knows. -/
def itemsPlain : List Value → Bool
  | [] => true
  | v :: rest => isPlain v && itemsPlain rest

/-- Whether all members have texts for names and values that JSON knows. -/
def membersPlain : List (Scalar × Value) → Bool
  | [] => true
  | (.str _, v) :: rest => isPlain v && membersPlain rest
  | _ => false

end

private theorem isPlainScalar_iff {s : Scalar} :
    isPlainScalar s = true ↔ PlainScalar s := by
  unfold isPlainScalar PlainScalar
  cases s with
  | float x =>
      dsimp only
      split
      · rename_i y hy
        rw [hy, beq_iff_eq]
        simp
      · rename_i hother
        exact iff_of_false Bool.false_ne_true (hother x)
  | _ => simp

private theorem itemsPlain_iff {xs : List Value} :
    itemsPlain xs = true ↔ ∀ x ∈ xs, isPlain x = true := by
  induction xs with
  | nil => simp [itemsPlain]
  | cons x xs ih => rw [itemsPlain, Bool.and_eq_true, ih, List.forall_mem_cons]

private theorem membersPlain_iff {ms : Members} :
    membersPlain ms = true ↔ (∀ e ∈ ms, ∃ name, e.1 = .str name) ∧ ∀ e ∈ ms,
      isPlain e.2 = true := by
  induction ms with
  | nil => simp [membersPlain]
  | cons e ms ih =>
      obtain ⟨k, v⟩ := e
      cases k with
      | str name =>
          rw [membersPlain, Bool.and_eq_true, ih, List.forall_mem_cons,
            List.forall_mem_cons]
          simp [and_left_comm]
      | _ => simp [membersPlain]

/-- The check tells the values that JSON knows. -/
theorem isPlain_iff {v : Value} : isPlain v = true ↔ Plain v := by
  constructor
  · intro h
    induction v using Tree.parts_induction with
    | scalar s => exact .scalar (isPlainScalar_iff.mp h)
    | list xs ih => exact .list fun x hx => ih x hx (itemsPlain_iff.mp h x hx)
    | pair a b => simp [isPlain] at h
    | set names => simp [isPlain] at h
    | marked mark ms ih =>
        rw [isPlain, Bool.and_eq_true, decide_eq_true_iff, membersPlain_iff] at h
        obtain ⟨hdistinct, htext, hvalues⟩ := h
        exact .object htext hdistinct fun e he => ih e he (hvalues e he)
  · intro h
    induction h with
    | scalar hs => exact isPlainScalar_iff.mpr hs
    | list _ ih => exact itemsPlain_iff.mpr ih
    | object htext hdistinct _ ih =>
        rw [isPlain, Bool.and_eq_true, decide_eq_true_iff, membersPlain_iff]
        exact ⟨hdistinct, htext, ih⟩

instance (v : Value) : Decidable (Plain v) :=
  decidable_of_iff _ isPlain_iff

end ApiWorkbench.Json
