import ApiWorkbench.Proofs.Yaml.SingleQuoted
import ApiWorkbench.Yaml.Plain

/-!
# Texts without quotes

A text that is written without quotes is read word by word. Its words have no blanks and
no line ends in them; nothing in them is taken for a comment or for the colon of a
mapping, so each is read to its end, and the spaces between two of them are read as they
are. The scalar ends with its last word: at the colon after a key, or at the end of the
line if the next line is not indented deeply enough.

## Main results

* `plainScalar_eq`: a text that can be written without quotes is read again.
* `plainGap_colon`, `plainGap_line`: the two ways in which it ends.
-/

namespace ApiWorkbench.Yaml

open Cursor

/-! ## Texts that can stand without quotes -/

/-- What is left of a text that is written without quotes, from a word on. -/
private structure Words (cs : List Char) : Prop where
  uninterrupted : isInterrupted ' ' cs = false
  nonempty : cs ≠ []
  begins : ∀ x ∈ cs.head?, x ≠ ' '
  ends : ∀ x ∈ cs.getLast?, x ≠ ' '
  plain : ∀ x ∈ cs, needsEscape x = false ∧ isKeptBreak x = false

theorem plain_of_mem {cs : List Char} (h : allowsPlain cs = true) {x : Char}
    (hx : x ∈ cs) :
    needsEscape x = false ∧ isKeptBreak x = false := by
  simp only [allowsPlain, Bool.and_eq_true, Bool.not_eq_true', List.any_eq_false,
    Bool.not_eq_true] at h
  exact ⟨h.1.2 x hx, h.2 x hx⟩

private theorem words_of_allowsPlain {cs : List Char} (h : allowsPlain cs = true) :
    Words cs := by
  have hplain : ∀ x ∈ cs, needsEscape x = false ∧ isKeptBreak x = false := fun x =>
    plain_of_mem h
  simp only [allowsPlain, Bool.and_eq_true, Bool.not_eq_true', Option.any_eq_false] at h
  obtain ⟨⟨⟨⟨⟨⟨⟨hbegins, -⟩, -⟩, hinterrupted⟩, hhead⟩, hlast⟩, -⟩, -⟩ := h
  cases cs with
  | nil => simp [beginsIndicator] at hbegins
  | cons x xs =>
      refine ⟨?_, by simp, fun y hy hspace => ?_, fun y hy hspace => ?_, hplain⟩
      · simp only [beginsIndicator, Bool.or_eq_false_iff, Bool.and_eq_false_iff]
          at hbegins
        have hhash : x ≠ '#' := by
          rintro rfl
          simp at hbegins
        simp only [isInterrupted, interruptsPlain, Bool.or_eq_false_iff]
        refine ⟨⟨?_, by simp [hhash]⟩, hinterrupted⟩
        by_cases hcolon : x = ':'
        · subst hcolon
          simpa using hbegins.2
        · simp [hcolon]
      · have := hhead y hy
        simp [hspace] at this
      · have := hlast y hy
        simp [hspace] at this

private theorem isInterrupted_append {before c : Char} {as bs : List Char}
    (h : isInterrupted before (as ++ c :: bs) = false) :
    isInterrupted c bs = false := by
  induction as generalizing before with
  | nil =>
      rw [List.nil_append, isInterrupted, Bool.or_eq_false_iff] at h
      exact h.2
  | cons a as ih =>
      rw [List.cons_append, isInterrupted, Bool.or_eq_false_iff] at h
      exact ih h.2

private theorem Words.after_spaces {word rest : List Char} {k : Nat}
    (h : Words (word ++ (List.replicate (k + 1) ' ' ++ rest)))
    (hrest : ∀ x ∈ rest.head?, x ≠ ' ') : Words rest := by
  have hsplit : word ++ (List.replicate (k + 1) ' ' ++ rest) =
      (word ++ List.replicate k ' ') ++ ' ' :: rest := by
    rw [List.replicate_succ']
    simp
  rw [hsplit] at h
  have hnonempty : rest ≠ [] := by
    rintro rfl
    exact h.ends ' ' (by simp) rfl
  refine ⟨isInterrupted_append h.uninterrupted, hnonempty, hrest, fun x hx =>
    h.ends x ?_, fun x hx =>
    h.plain x (by simp [hx])⟩
  rw [List.getLast?_append, List.getLast?_cons]
  simp [Option.mem_def.mp hx]

/-- A text is a word, or a word, spaces and more words. -/
private theorem Words.exists_word {cs : List Char} (h : Words cs) :
    ∃ word more, cs = word ++ more ∧ word ≠ [] ∧ (∀ x ∈ word, isBlankOrEnd x = false) ∧
      (more = [] ∨ ∃ k rest, more = List.replicate (k + 1) ' ' ++ rest ∧
        Words rest) := by
  obtain ⟨word, more, rfl, hword, hmore⟩ := exists_leading (· != ' ') cs
  have hblank : ∀ x ∈ word, isBlankOrEnd x = false := fun x hx =>
    isBlankOrEnd_of_not_needsEscape (h.plain x (by simp [hx])).1
      (h.plain x (by simp [hx])).2 (by simpa using hword x hx)
  refine ⟨word, more, rfl, ?_, hblank, ?_⟩
  · rintro rfl
    cases more with
    | nil => exact h.nonempty rfl
    | cons x xs => exact h.begins x rfl (by simpa using hmore x rfl)
  · obtain ⟨n, rest, rfl, hrest⟩ := exists_leading_spaces more
    cases n with
    | zero =>
        left
        cases rest with
        | nil => rfl
        | cons x xs => exact absurd (by simpa using hmore x rfl) (hrest x rfl)
    | succ k => exact .inr ⟨k, rest, rfl, h.after_spaces hrest⟩

/-! ## How a text is read -/

section

variable {c : Cursor} {cs word more tail : List Char}

/-- A word is read to its end. -/
private theorem plainRun_word {before : Char}
    (h : isInterrupted before (word ++ more) = false)
    (hword : ∀ x ∈ word, isBlankOrEnd x = false)
    (hmore : more = [] ∨ ∃ xs, more = ' ' :: xs) (htail : plainRun false tail = []) :
    plainRun false (word ++ (more ++ tail)) = word := by
  induction word generalizing before with
  | nil =>
      rcases hmore with rfl | ⟨xs, rfl⟩
      · exact htail
      · rfl
  | cons x xs ih =>
      rw [List.cons_append, isInterrupted, Bool.or_eq_false_iff] at h
      have hrest := ih h.2 fun y hy => hword y (by simp [hy])
      have hgoes : endsPlain false x ((xs ++ (more ++ tail)).headD endChar) =
          false := by
        have hx : isBlankOrEnd x = false := hword x (by simp)
        by_cases hcolon : x = ':'
        · subst hcolon
          have hnext : isBlankOrEnd ((xs ++ more).headD endChar) = false := by
            simpa [interruptsPlain] using h.1
          have hhead : (xs ++ (more ++ tail)).headD endChar =
              (xs ++ more).headD endChar := by
            rw [← List.append_assoc]
            cases hchars : xs ++ more with
            | nil =>
                rw [hchars] at hnext
                contradiction
            | cons y ys => rfl
          rw [endsPlain, hx, hhead, hnext]
          rfl
        · simp [endsPlain, hx, hcolon]
      rw [List.cons_append, plainRun, hgoes, hrest]
      rfl

/-- Spaces between words. -/
private theorem plainGap_spaces {k : Nat} {next : Char}
    (hc : c.rest = List.replicate (k + 1) ' ' ++ next :: tail) (hnext : next ≠ ' ')
    (hbreak : isBreak next = false) :
    plainGap c = ⟨some (List.replicate (k + 1) ' '), false, c.skip (k + 1)⟩ := by
  have hrun := takeWhile_eq (p := (· == ' ')) hc (by simp) (by simpa using hnext)
  rw [List.length_replicate] at hrun
  have hpeek : (c.skip (k + 1)).peek = next := by
    refine peek_cons (show _ = next :: tail from ?_)
    rw [rest_skip, hc, List.drop_left' (by simp)]
  rw [plainGap, hrun]
  simp [hpeek, hbreak]

/-- After a word that others come after, the gap is the spaces between them. -/
private theorem plainGap_words {k : Nat} {rest : List Char} (hrest : Words rest)
    (hc : c.rest = word ++ (List.replicate (k + 1) ' ' ++ (rest ++ tail))) :
    plainGap (c.skip word.length) =
      ⟨some (List.replicate (k + 1) ' '), false,
        (c.skip word.length).skip (k + 1)⟩ := by
  obtain ⟨next, others, hnext⟩ := List.exists_cons_of_ne_nil hrest.nonempty
  have hplain := hrest.plain next (by simp [hnext])
  have hplace : (c.skip word.length).rest = List.replicate (k + 1) ' ' ++ next ::
      (others ++ tail) := by
    rw [rest_skip_length hc, hnext]
    rfl
  exact plainGap_spaces hplace (hrest.begins next (by rw [hnext]; rfl))
    (isInline_of_not_needsEscape hplain.1 hplain.2).inside

private theorem Words.head_ne_hash (h : Words cs) : ∀ x ∈ cs.head?, x ≠ '#' := by
  have huninterrupted := h.uninterrupted
  rintro x hx rfl
  cases cs with
  | nil => simp at hx
  | cons y ys =>
      obtain rfl : y = '#' := by simpa using hx
      simp [isInterrupted, interruptsPlain, isBlankOrEnd, isSpaceOrEnd]
        at huninterrupted

section

variable {c' : Cursor} {indent : Int} {fuel : Nat} {done gap between : List Char}
  {newLine : Bool}

/-- A word with which the scalar ends. -/
private theorem plainRest_ends (hpeek : c.peek ≠ '#')
    (hrun : plainRun false c.rest = word) (hword : word ≠ [])
    (hend : (plainGap (c.skip word.length)).text = none ∨
      ((plainGap (c.skip word.length)).cursor.column : Int) < indent) :
    plainRest false indent (fuel + 1) done gap newLine c =
      ⟨done ++ gap ++ word, (plainGap (c.skip word.length)).newLine,
        (plainGap (c.skip word.length)).cursor⟩ := by
  have hsome : word.isEmpty = false := by simpa using hword
  generalize hfound : plainGap (c.skip word.length) = found at hend ⊢
  obtain ⟨text, line, place⟩ := found
  simp only [plainRest, beq_eq_false_iff_ne.mpr hpeek, Bool.or_self, if_false, hrun,
    hsome, Bool.false_eq_true, hfound]
  rcases hend with hnone | hshort
  · simp only at hnone
    rw [hnone]
  · cases text with
    | none => rfl
    | some gap => simp [hshort]

/-- A word that others come after. -/
private theorem plainRest_goes
    (hpeek : c.peek ≠ '#') (hrun : plainRun false c.rest = word) (hword : word ≠ [])
    (hgap : plainGap (c.skip word.length) = ⟨some between, false, c'⟩)
    (hindent : indent ≤ c'.column) :
    plainRest false indent (fuel + 1) done gap newLine c =
      plainRest false indent fuel (done ++ gap ++ word) between false c' := by
  have hsome : word.isEmpty = false := by simpa using hword
  have hdeep : ¬ (c'.column : Int) < indent := by omega
  simp only [plainRest, beq_eq_false_iff_ne.mpr hpeek, Bool.or_self, if_false, hrun,
    hsome, Bool.false_eq_true, hgap, hdeep, decide_false, Bool.and_false]

private theorem plainRest_words (hcs : Words cs) (hc : c.rest = cs ++ tail)
    (hindent : indent ≤ c.column + 1) (htail : plainRun false tail = [])
    (hend : (plainGap (c.skip cs.length)).text = none ∨
      ((plainGap (c.skip cs.length)).cursor.column : Int) < indent)
        (hfuel : cs.length < fuel) :
    plainRest false indent fuel done gap newLine c =
      ⟨done ++ gap ++ cs, (plainGap (c.skip cs.length)).newLine,
        (plainGap (c.skip cs.length)).cursor⟩ := by
  induction hlength : cs.length using Nat.strongRecOn
    generalizing cs c done gap newLine fuel with
  | ind n ih =>
      obtain ⟨fuel, rfl⟩ : ∃ f, fuel = f + 1 := ⟨fuel - 1, by omega⟩
      subst hlength
      obtain ⟨word, more, rfl, hnonempty, hword, hmore⟩ := hcs.exists_word
      have hpeek : c.peek ≠ '#' := by
        obtain ⟨x, xs, rfl⟩ := List.exists_cons_of_ne_nil hnonempty
        rw [peek_cons hc]
        exact hcs.head_ne_hash x rfl
      have hrun : plainRun false c.rest = word := by
        rw [hc, List.append_assoc]
        refine plainRun_word hcs.uninterrupted hword ?_ htail
        rcases hmore with rfl | ⟨k, rest, rfl, -⟩
        · exact .inl rfl
        · exact .inr ⟨_, by rw [List.replicate_succ, List.cons_append]⟩
      rcases hmore with rfl | ⟨k, rest, rfl, hrest⟩
      · simp only [List.append_nil] at hend ⊢
        exact plainRest_ends hpeek hrun hnonempty hend
      · have hinline : ∀ x ∈ word ++ List.replicate (k + 1) ' ',
            IsInline x := fun x hx => by
          have hplain := hcs.plain x (by
            rw [← List.append_assoc]
            exact List.mem_append_left _ hx)
          exact isInline_of_not_needsEscape hplain.1 hplain.2
        have hgap := plainGap_words hrest
            (show c.rest = word ++ (List.replicate (k + 1) ' ' ++ (rest ++ tail)) by
          rw [hc, List.append_assoc, List.append_assoc])
        have hc' : c.rest = (word ++ List.replicate (k + 1) ' ') ++ (rest ++ tail) := by
          rw [hc]
          simp only [List.append_assoc]
        have hplace : (c.skip word.length).skip (k + 1) =
            c.skip (word ++ List.replicate (k + 1) ' ').length := by
          rw [← skip_add, List.length_append, List.length_replicate]
        have hcolumn : indent ≤ ((c.skip word.length).skip (k + 1)).column := by
          rw [hplace, skip_inline hc' hinline]
          simp only [List.length_append, List.length_replicate]
          push_cast
          omega
        have hskip : ((c.skip word.length).skip (k + 1)).skip rest.length =
            c.skip (word ++ (List.replicate (k + 1) ' ' ++ rest)).length := by
          rw [hplace, ← skip_add, ← List.length_append, List.append_assoc]
        simp only [List.length_append, List.length_replicate] at hfuel ih
        rw [plainRest_goes hpeek hrun hnonempty hgap hcolumn,
          ih rest.length (by omega) hrest (by rw [hplace, rest_skip_length hc'])
            (by omega) (by rw [hskip]; exact hend) (by omega) rfl, hskip]
        simp only [List.append_assoc]

end

/-- A text that can be written without quotes is read again; what comes after it decides
where the reader gets to. -/
theorem plainScalar_eq {indent : Int}
    (hcs : allowsPlain cs = true) (hc : c.rest = cs ++ tail)
    (hindent : indent ≤ c.column + 1) (htail : plainRun false tail = [])
    (hend : (plainGap (c.skip cs.length)).text = none ∨
      ((plainGap (c.skip cs.length)).cursor.column : Int) < indent) :
    plainScalar false indent c =
      ⟨cs, (plainGap (c.skip cs.length)).newLine,
        (plainGap (c.skip cs.length)).cursor⟩ :=
  plainRest_words (words_of_allowsPlain hcs) hc hindent htail hend
    (by simp only [hc, List.length_append]; omega)

/-! ## What comes after a text -/

/-- A colon ends the scalar where it stands. -/
theorem plainGap_colon (hc : c.rest = ':' :: tail) : plainGap c = ⟨none, false, c⟩ := by
  have hrun : c.takeWhile (· == ' ') = ([], c) :=
    takeWhile_eq (show c.rest = [] ++ c.rest from rfl) (by simp) (by simp [hc])
  rw [plainGap, hrun]
  simp [peek_cons hc, isBreak]

private theorem plainBreaks_spaces
    {k fuel : Nat} (hc : c.rest = List.replicate k ' ' ++ tail) (htail : LineStart tail)
    (hfuel : k < fuel) : plainBreaks fuel c = (some [], c.skip k) := by
  induction k generalizing c fuel with
  | zero =>
      obtain ⟨fuel, rfl⟩ : ∃ f, fuel = f + 1 := ⟨fuel - 1, by omega⟩
      rw [List.replicate_zero, List.nil_append] at hc
      obtain ⟨hspace, -, hbreak, -⟩ := htail.solid.peek hc
      rw [plainBreaks]
      simp [hspace, hbreak, skip]
  | succ k ih =>
      obtain ⟨fuel, rfl⟩ : ∃ f, fuel = f + 1 := ⟨fuel - 1, by omega⟩
      have hnext : c.next.rest = List.replicate k ' ' ++ tail := by
        rw [rest_next, hc]
        rfl
      rw [plainBreaks, peek_cons hc]
      exact ih hnext (by omega)

/-- At the end of a line the reader goes on to the start of the next one. -/
theorem plainGap_line {k : Nat} (hc : c.rest = '\n' :: (List.replicate k ' ' ++ tail))
    (htail : LineStart tail) :
    plainGap c = ⟨some [' '], true, c.skip (k + 1)⟩ := by
  have hrun : c.takeWhile (· == ' ') = ([], c) :=
    takeWhile_eq (show c.rest = [] ++ c.rest from rfl) (by simp) (by simp [hc])
  have hline : (c.skip 1).rest = List.replicate k ' ' ++ tail := by
    rw [rest_skip, hc]
    rfl
  have hbreaks := plainBreaks_spaces hline htail (show k < (c.skip 1).rest.length + 1 by
    simp only [hline, List.length_append, List.length_replicate]
    omega)
  rw [plainGap, hrun]
  simp only [peek_cons hc, show isBreak '\n' = true from rfl,
    if_true, lineBreak_eq hc rfl, htail.atMarker hline, Bool.false_eq_true, if_false,
    hbreaks, ← skip_add, Nat.add_comm 1 k]
  rfl

end

end ApiWorkbench.Yaml
