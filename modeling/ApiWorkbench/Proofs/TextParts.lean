import Mathlib.Data.List.Infix
import ApiWorkbench.Text.Blank

/-!
# Parts of texts

A text is split where a character occurs, and parts of it are replaced. Where a part
begins with a character that it has only once, and what it is replaced by begins with
the same character and has it only once, every occurrence of that character in the
result either was there before or begins a replacement. So replacing leaves no
occurrence behind and makes no new one.

A text is also made of lines and of what ends them. `SplitInto` says which lines these
are: nothing in a line ends one, a carriage return with a line feed after it is one end,
and the last line may lack its end, unless there is nothing in it. A text has one such
list of lines, and `linesOf` finds it.

## Main results

* `splitAt_flatMap`: texts without the separator are the pieces of what they make with
  separators between them.
* `getLast?_splitAt`: the last piece is what stands after the last separator,
  or everything.
* `replaceAll_char`: a character is replaced wherever it stands.
* `replaceAll_append`: a part that stands at the beginning only is replaced there.
* `not_isInfix_replaceAll`: after replacing, the part does not occur any more.
* `splitInto_iff`: the lines of a text are those that are found.
-/

namespace ApiWorkbench.Text

/-! ## Splitting -/

/-- Texts without the separator are the pieces of what they make with
separators between them. -/
theorem splitAt_flatMap {c : Char} {first : List Char} {texts : List (List Char)}
    (hfirst : c ∉ first) (htexts : ∀ text ∈ texts, c ∉ text) :
    splitAt c (first ++ texts.flatMap (c :: ·)) = first :: texts := by
  induction texts generalizing first with
  | nil =>
      induction first with
      | nil => rfl
      | cons d first ih =>
          rw [List.mem_cons, not_or] at hfirst
          rw [List.cons_append, splitAt, ih hfirst.2]
          simp [Ne.symm hfirst.1]
  | cons text texts ih =>
      have hrest := ih (htexts text List.mem_cons_self) fun t ht =>
        htexts t (List.mem_cons_of_mem _ ht)
      induction first with
      | nil => simp [splitAt, hrest]
      | cons d first ihFirst =>
          rw [List.mem_cons, not_or] at hfirst
          rw [List.cons_append, splitAt, ihFirst hfirst.2]
          simp [Ne.symm hfirst.1]

theorem splitAt_of_notMem {c : Char} {text : List Char} (h : c ∉ text) :
    splitAt c text = [text] := by
  simpa using splitAt_flatMap h (List.forall_mem_nil _)

/-- A separator stands between the pieces before it and those after it. -/
theorem splitAt_append (c : Char) (first second : List Char) :
    splitAt c (first ++ c :: second) = splitAt c first ++ splitAt c second := by
  have hne : ∀ text, splitAt c text ≠ [] := by
    intro text
    cases text with
    | nil => simp [splitAt]
    | cons d rest =>
        rw [splitAt]
        split
        · simp
        · split <;> simp
  have hsecond : splitAt c (c :: second) = [] :: splitAt c second := by
    rw [splitAt]
    split
    · next hnil => exact absurd hnil (hne second)
    · next piece pieces hpieces => rw [if_pos (by simp), hpieces]
  induction first with
  | nil => exact hsecond
  | cons d first ih =>
      obtain ⟨piece, pieces, hpieces⟩ := List.exists_cons_of_ne_nil (hne first)
      rw [List.cons_append, splitAt, splitAt, ih, hpieces]
      dsimp only [List.cons_append]
      split <;> rfl

/-- The last piece is what stands after the last separator, or everything. -/
theorem getLast?_splitAt {c : Char} {text part : List Char} :
    (splitAt c text).getLast? = some part ↔
      c ∉ part ∧ (text = part ∨ ∃ before, text = before ++ c :: part) := by
  have hlast : ∀ before last, c ∉ last →
      (splitAt c (before ++ c :: last)).getLast? = some last := by
    intro before last h
    rw [splitAt_append, splitAt_of_notMem h, List.getLast?_concat]
  constructor
  · intro h
    by_cases hmem : c ∈ text
    · obtain ⟨after, before, hreverse, hafter⟩ :=
        List.eq_append_cons_of_mem (List.mem_reverse.mpr hmem)
      have hafter' : c ∉ after.reverse := by simpa using hafter
      obtain rfl : text = before.reverse ++ c :: after.reverse := by
        rw [← List.reverse_reverse text, hreverse]
        simp
      rw [hlast _ _ hafter'] at h
      obtain rfl := Option.some.inj h
      exact ⟨hafter', .inr ⟨before.reverse, rfl⟩⟩
    · rw [splitAt_of_notMem hmem] at h
      obtain rfl := Option.some.inj h
      exact ⟨hmem, .inl rfl⟩
  · rintro ⟨hpart, rfl | ⟨before, rfl⟩⟩
    · rw [splitAt_of_notMem hpart]
      rfl
    · exact hlast before part hpart

/-! ## Replacing -/

/-- The characters of an occurrence are passed over. -/
private theorem replaceFrom_skip (old new skipped rest : List Char) :
    replaceFrom old new skipped.length (skipped ++ rest) =
      replaceFrom old new 0 rest := by
  induction skipped with
  | nil => rfl
  | cons c skipped ih => exact ih

private theorem replaceFrom_of_leading (new : List Char) {old text : List Char}
    {c : Char} {tail : List Char} (hold : old = c :: tail) (h : old <+: text) :
    ∃ rest, text = old ++ rest ∧
      replaceFrom old new 0 text = new ++ replaceFrom old new 0 rest := by
  obtain ⟨rest, rfl⟩ := h
  refine ⟨rest, rfl, ?_⟩
  rw [hold, List.cons_append, replaceFrom, if_pos (by simp)]
  exact congrArg (new ++ ·) (replaceFrom_skip (c :: tail) new tail rest)

private theorem replaceFrom_of_not_leading {old new rest : List Char} {c : Char}
    (h : ¬ old <+: c :: rest) :
    replaceFrom old new 0 (c :: rest) = c :: replaceFrom old new 0 rest := by
  rw [replaceFrom, if_neg (by simpa using h)]

/-- A text that lacks a character of the part stays as it is. -/
private theorem replaceFrom_of_absent {old new text : List Char} {c : Char}
    (hc : c ∈ old) (h : c ∉ text) :
    replaceFrom old new 0 text = text := by
  induction text with
  | nil => rfl
  | cons d rest ih =>
      rw [List.mem_cons, not_or] at h
      have hprefix : ¬ old <+: d :: rest := fun hprefix => by
        have hmem := hprefix.subset hc
        simp [h] at hmem
      rw [replaceFrom_of_not_leading hprefix, ih h.2]

/-- A character is replaced wherever it stands. -/
theorem replaceAll_char {old : String} {c : Char} (hold : old.toList = [c])
    (new text : String) :
    replaceAll old new text =
      String.ofList (text.toList.flatMap fun d =>
        if d = c then new.toList else [d]) := by
  rw [replaceAll, hold]
  refine congrArg String.ofList ?_
  induction text.toList with
  | nil => rfl
  | cons d rest ih =>
      rw [List.flatMap_cons, ← ih]
      by_cases hd : d = c
      · obtain ⟨rest', heq, hreplaced⟩ :=
          replaceFrom_of_leading new.toList rfl (show [c] <+: d :: rest by simp [hd])
        obtain rfl := (List.cons.inj heq).2
        rw [hreplaced, if_pos hd]
      · rw [replaceFrom_of_not_leading (by simpa using Ne.symm hd), if_neg hd,
          List.singleton_append]

/-- A part at the beginning is replaced; after it there is none if a character of the
part is missing there. -/
theorem replaceAll_append {old new rest : String} {c : Char} (hc : c ∈ old.toList)
    (h : c ∉ rest.toList) :
    replaceAll old new (old ++ rest) = new ++ rest := by
  obtain ⟨d, tail, hold⟩ := List.exists_cons_of_ne_nil (List.ne_nil_of_mem hc)
  obtain ⟨rest', heq, hreplaced⟩ :=
    replaceFrom_of_leading new.toList hold (List.prefix_append old.toList rest.toList)
  obtain rfl := List.append_cancel_left heq
  rw [← String.toList_inj, replaceAll, String.toList_ofList, String.toList_append,
    hreplaced, replaceFrom_of_absent hc h, String.toList_append]

section

variable {mark : Char} {oldTail newTail : List Char}

/-- What begins the result without the mark begins the text: up to the first replacement
nothing has changed. -/
private theorem prefix_of_prefix_replaceFrom
    (text : List Char) {part : List Char} (hpart : mark ∉ part)
    (h : part <+: replaceFrom (mark :: oldTail) (mark :: newTail) 0 text) :
    part <+: text := by
  induction text generalizing part with
  | nil => exact h
  | cons c rest ih =>
      cases part with
      | nil => exact List.nil_prefix
      | cons d part =>
          by_cases hprefix : mark :: oldTail <+: c :: rest
          · obtain ⟨_, _, hreplaced⟩ :=
              replaceFrom_of_leading (mark :: newTail) rfl hprefix
            rw [hreplaced, List.cons_append, List.cons_prefix_cons] at h
            exact absurd h.1.symm (fun hd => hpart (hd ▸ List.mem_cons_self))
          · rw [replaceFrom_of_not_leading hprefix, List.cons_prefix_cons] at h
            obtain ⟨rfl, h⟩ := h
            rw [List.mem_cons, not_or] at hpart
            exact List.cons_prefix_cons.mpr ⟨rfl, ih hpart.2 h⟩

/-- An occurrence begins with the mark, so it does not begin among characters
that are no mark. -/
private theorem not_infix_append {old before after : List Char}
    (hold : old.head? = some mark) (hbefore : mark ∉ before) (h : ¬ old <:+: after) :
    ¬ old <:+: before ++ after := by
  induction before with
  | nil => exact h
  | cons c before ih =>
      rw [List.mem_cons, not_or] at hbefore
      rw [List.cons_append, List.infix_cons_iff, not_or]
      refine ⟨fun hprefix => ?_, ih hbefore.2⟩
      obtain ⟨rest, hrest⟩ := hprefix
      cases old with
      | nil => simp at hold
      | cons d old =>
          obtain rfl : d = mark := by simpa using hold
          exact hbefore.1 (List.cons.inj hrest).1

private theorem not_isInfix_replaceFrom (hold : mark ∉ oldTail) (hnew : mark ∉ newTail)
    (hapart : ∀ rest, ¬ mark :: oldTail <+: mark :: newTail ++ rest)
    (text : List Char) :
    ¬ mark :: oldTail <:+: replaceFrom (mark :: oldTail) (mark :: newTail) 0 text := by
  -- Each step takes one character or a whole occurrence, so the induction is on the
  -- length of the text.
  induction hlength : text.length using Nat.strongRecOn generalizing text with
  | ind n ih =>
      cases text with
      | nil => simp [replaceFrom]
      | cons c rest =>
          by_cases hprefix : mark :: oldTail <+: c :: rest
          · obtain ⟨after, heq, hreplaced⟩ :=
              replaceFrom_of_leading (mark :: newTail) rfl hprefix
            have hshorter : after.length < n := by
              rw [← hlength, heq, List.length_append, List.length_cons]
              omega
            rw [hreplaced, List.cons_append, List.infix_cons_iff, not_or]
            exact ⟨hapart _, not_infix_append rfl hnew (ih _ hshorter after rfl)⟩
          · rw [replaceFrom_of_not_leading hprefix, List.infix_cons_iff, not_or]
            refine ⟨fun hfound => hprefix ?_,
              ih rest.length (by simp [← hlength]) rest rfl⟩
            rw [List.cons_prefix_cons] at hfound ⊢
            exact ⟨hfound.1, prefix_of_prefix_replaceFrom rest hold hfound.2⟩

end

/-- After a part was replaced everywhere it does not occur, if it and what replaces it
begin with a character that neither of them has again, and if neither of them begins
with the other. -/
theorem not_isInfix_replaceAll {old new : String}
    {mark : Char} {oldTail newTail : List Char} (hold : old.toList = mark :: oldTail)
    (hnew : new.toList = mark :: newTail) (holdTail : mark ∉ oldTail)
    (hnewTail : mark ∉ newTail) (hnot : ¬ oldTail <+: newTail)
    (hnot' : ¬ newTail <+: oldTail) (text : String) :
    ¬ old.toList <:+: (replaceAll old new text).toList := by
  have hapart : ∀ rest, ¬ mark :: oldTail <+: mark :: newTail ++ rest := by
    intro rest h
    rw [List.cons_append, List.cons_prefix_cons] at h
    rcases List.prefix_or_prefix_of_prefix h.2 (List.prefix_append newTail rest)
      with hcontra | hcontra
    · exact hnot hcontra
    · exact hnot' hcontra
  rw [replaceAll, String.toList_ofList, hold, hnew]
  exact not_isInfix_replaceFrom holdTail hnewTail hapart text.toList

/-! ## Lines -/

/-- A line: nothing in it ends it. -/
def IsLine (line : List Char) : Prop :=
  ∀ c ∈ line, isLineBoundary c = false

theorem isLine_nil : IsLine [] := by
  simp [IsLine]

/-- What ends a line before the rest of a text. -/
inductive IsLineEnd : (ending rest : List Char) → Prop
  | pair {rest : List Char} : IsLineEnd ['\r', '\n'] rest
  | single {c : Char} {rest : List Char} (h : isLineBoundary c = true)
    (hpair : c = '\r' → rest.head? ≠ some '\n') : IsLineEnd [c] rest

/-- The lines of a text. -/
inductive SplitInto : (text : List Char) → (lines : List (List Char)) → Prop
  | nothing : SplitInto [] []
  | last {line : List Char} (hne : line ≠ []) (hline : IsLine line) :
      SplitInto line [line]
  | ended {line ending rest : List Char} {lines : List (List Char)} (hline :
      IsLine line) (hend : IsLineEnd ending rest) (hrest : SplitInto rest lines) :
      SplitInto (line ++ ending ++ rest) (line :: lines)

/-- A character that ends a line, unless it does so together with the next one. -/
theorem linesOf_boundary {c : Char} {rest : List Char} (h : isLineBoundary c = true)
    (hpair : c = '\r' → rest.head? ≠ some '\n') : linesOf (c :: rest) =
      [] :: linesOf rest := by
  rw [linesOf, if_pos h]
  rintro rest' rfl rfl
  exact hpair rfl rfl

/-- A character of a line goes before the first line of the rest. -/
theorem linesOf_char {c : Char} (h : isLineBoundary c = false) (rest : List Char) :
    linesOf (c :: rest) = match linesOf rest with
      | [] => [[c]]
      | line :: lines => (c :: line) :: lines := by
  have hpair : ∀ rest', c = '\r' → rest = '\n' :: rest' → False := by
    rintro rest' rfl -
    exact absurd h (by decide)
  have hline := linesOf.eq_3 c rest hpair
  rw [if_neg (by simp [h])] at hline
  exact hline

theorem linesOf_ended {line ending rest : List Char} (hline : IsLine line)
    (hend : IsLineEnd ending rest) :
    linesOf (line ++ ending ++ rest) = line :: linesOf rest := by
  induction line with
  | nil =>
      cases hend with
      | pair => rfl
      | single h hpair => exact linesOf_boundary h hpair
  | cons c line ih =>
      rw [List.cons_append, List.cons_append, linesOf_char (hline c List.mem_cons_self),
        ih fun d hd => hline d (List.mem_cons_of_mem c hd)]

theorem linesOf_last {line : List Char} (hne : line ≠ []) (hline : IsLine line) :
    linesOf line = [line] := by
  induction line with
  | nil => contradiction
  | cons c line ih =>
      rw [linesOf_char (hline c List.mem_cons_self)]
      cases line with
      | nil => rfl
      | cons d line =>
          rw [ih (List.cons_ne_nil d line) fun e he =>
            hline e (List.mem_cons_of_mem c he)]

/-- A character that ends no line before a text belongs to its first line. -/
theorem SplitInto.cons {c : Char} {rest line : List Char} {lines : List (List Char)}
    (hc : isLineBoundary c = false) (h : SplitInto rest (line :: lines)) :
    SplitInto (c :: rest) ((c :: line) :: lines) := by
  cases h with
  | last hne hline =>
      exact .last (List.cons_ne_nil c _) (List.forall_mem_cons.mpr ⟨hc, hline⟩)
  | ended hline hend hrest =>
      exact .ended (List.forall_mem_cons.mpr ⟨hc, hline⟩) hend hrest

theorem splitInto_linesOf (text : List Char) : SplitInto text (linesOf text) := by
  induction text using linesOf.induct with
  | case1 => exact .nothing
  | case2 rest ih => exact .ended isLine_nil .pair ih
  | case3 c rest hpair hc ih =>
      have hhead : c = '\r' → rest.head? ≠ some '\n' := by
        intro hreturn hfeed
        obtain ⟨rest', rfl⟩ := List.head?_eq_some_iff.mp hfeed
        exact hpair rest' hreturn rfl
      rw [linesOf_boundary hc hhead]
      exact .ended isLine_nil (.single hc hhead) ih
  | case4 c rest hpair hc hnone ih =>
      -- nothing comes after the character, which is a line by itself
      have hrest : rest = [] := by
        rw [hnone] at ih
        cases ih
        rfl
      rw [linesOf_char (eq_false_of_ne_true hc), hnone, hrest]
      exact .last (List.cons_ne_nil c []) (by simpa [IsLine] using hc)
  | case5 c rest hpair hc line lines hlines ih =>
      rw [linesOf_char (eq_false_of_ne_true hc), hlines]
      rw [hlines] at ih
      exact ih.cons (eq_false_of_ne_true hc)

/-- The lines of a text are those that are found. -/
theorem splitInto_iff {text : List Char} {lines : List (List Char)} :
    SplitInto text lines ↔ lines = linesOf text := by
  constructor
  · intro h
    induction h with
    | nothing => rfl
    | last hne hline => exact (linesOf_last hne hline).symm
    | ended hline hend _ ih => rw [linesOf_ended hline hend, ih]
  · rintro rfl
    exact splitInto_linesOf text

end ApiWorkbench.Text
