import ApiWorkbench.Yaml.Cursor
import ApiWorkbench.Yaml.Writer

/-!
# Where a cursor gets to

Everything that reads a text moves a cursor by some number of characters, so a place is
described by that number: `Cursor.skip`. What is left there is known from what was left
before, and over characters that do not end a line the index and the column grow
together while the line stays.

## Main results

* `Cursor.skip_inline`: the place after characters on one line.
* `Cursor.skip_line`: the place after a line feed and spaces.
* `Cursor.takeWhile_eq`: the run of characters with a property.
-/

namespace ApiWorkbench.Yaml

/-- A character that may occur in a text and moves a cursor by one column. -/
structure IsInline (c : Char) : Prop where
  allowed : isAllowed c = true
  inside : isBreak c = false
  visible : c.toNat ≠ 0xfeff

theorem isBreak_of_isKeptBreak {c : Char} (h : isKeptBreak c = true) :
    isBreak c = true := by
  simp only [isKeptBreak, isBreak, Bool.or_eq_true] at h ⊢
  rcases h with ((h | h) | h) | h <;> simp [h]

theorem ne_return_of_isKeptBreak {c : Char} (h : isKeptBreak c = true) : c ≠ '\r' := by
  rintro rfl
  contradiction

/-- A line end as it is read: the next-line character becomes a line feed. -/
def readBreak (c : Char) : Char :=
  if c.toNat == 0x85 then '\n' else c

theorem isBlankOrEnd_eq_false_iff {c : Char} :
    isBlankOrEnd c = false ↔ c ≠ ' ' ∧ c ≠ '\t' ∧ c ≠ endChar ∧ isBreak c = false := by
  simp [isBlankOrEnd, isSpaceOrEnd, endsLine, and_left_comm]

theorem isInline_space : IsInline ' ' :=
  ⟨rfl, rfl, by decide⟩

/-- Characters with a property come first and then something else, if anything. -/
theorem exists_leading (p : Char → Bool) (cs : List Char) :
    ∃ run more, cs = run ++ more ∧ (∀ x ∈ run, p x = true) ∧ ∀ x ∈ more.head?,
      p x = false := by
  induction cs with
  | nil => exact ⟨[], [], rfl, by simp, by simp⟩
  | cons x xs ih =>
      cases hx : p x with
      | true =>
          obtain ⟨run, more, rfl, hrun, hmore⟩ := ih
          exact ⟨x :: run, more, rfl, by simpa [hx] using hrun, hmore⟩
      | false => exact ⟨[], x :: xs, rfl, by simp, by simpa using hx⟩

theorem exists_leading_spaces (cs : List Char) :
    ∃ k more, cs = List.replicate k ' ' ++ more ∧ ∀ x ∈ more.head?, x ≠ ' ' := by
  obtain ⟨run, more, rfl, hrun, hmore⟩ := exists_leading (· == ' ') cs
  have hspaces : run = List.replicate run.length ' ' :=
    List.eq_replicate_iff.mpr ⟨rfl, by simpa using hrun⟩
  exact ⟨run.length, more, by rw [← hspaces], by simpa using hmore⟩

namespace Cursor

variable {c : Cursor} {ch : Char} {cs rest : List Char}

/-! ## Places -/

@[simp] theorem rest_next (c : Cursor) : c.next.rest = c.rest.drop 1 := by
  unfold next
  split
  · simp [*]
  · split <;> simp [*]

@[simp] theorem rest_skip (n : Nat) (c : Cursor) : (c.skip n).rest = c.rest.drop n := by
  induction n generalizing c with
  | zero => rfl
  | succ n ih => rw [skip, ih, rest_next, List.drop_drop, Nat.add_comm]

theorem skip_add (m n : Nat) (c : Cursor) : c.skip (m + n) = (c.skip m).skip n := by
  induction m generalizing c with
  | zero => rw [Nat.zero_add, skip]
  | succ m ih => rw [Nat.succ_add, skip, skip, ih]

/-- What is left after the characters that come first. -/
theorem rest_skip_length (hc : c.rest = cs ++ rest) :
    (c.skip cs.length).rest = rest := by
  rw [rest_skip, hc, List.drop_left]

theorem line_le_next (c : Cursor) : c.line ≤ c.next.line := by
  unfold next
  split
  · exact Nat.le_refl _
  · split <;> simp

theorem line_le_skip (n : Nat) (c : Cursor) : c.line ≤ (c.skip n).line := by
  induction n generalizing c with
  | zero => exact Nat.le_refl _
  | succ n ih => exact Nat.le_trans (line_le_next c) (ih c.next)

theorem next_inline (hc : c.rest = ch :: rest) (hch : IsInline ch) :
    c.next = ⟨rest, c.index + 1, c.line, c.column + 1⟩ := by
  simp [next, hc, hch.inside, hch.visible]

/-- The place after characters on one line. -/
theorem skip_inline (hc : c.rest = cs ++ rest) (hcs : ∀ x ∈ cs, IsInline x) :
    c.skip cs.length = ⟨rest, c.index + cs.length, c.line, c.column + cs.length⟩ := by
  induction cs generalizing c with
  | nil =>
      obtain ⟨_, _, _, _⟩ := c
      simpa [skip] using hc
  | cons x xs ih =>
      rw [List.length_cons, skip, next_inline hc (hcs x (by simp)), ih rfl fun y hy =>
        hcs y (by simp [hy])]
      simp only [mk.injEq, true_and]
      omega

theorem next_break (hc : c.rest = ch :: rest) (hch : isKeptBreak ch = true) :
    c.next = ⟨rest, c.index + 1, c.line + 1, 0⟩ := by
  simp [next, hc, isBreak_of_isKeptBreak hch, ne_return_of_isKeptBreak hch]

/-- The place after a line feed and spaces. -/
theorem skip_line {k : Nat} (hc : c.rest = '\n' :: (List.replicate k ' ' ++ rest)) :
    c.skip (k + 1) = ⟨rest, c.index + 1 + k, c.line + 1, k⟩ := by
  rw [skip, next_break hc rfl]
  have hspaces :=
    skip_inline (c := ⟨List.replicate k ' ' ++ rest, c.index + 1, c.line + 1, 0⟩)
    rfl (fun x hx => (List.eq_of_mem_replicate hx).symm ▸ isInline_space)
  rwa [List.length_replicate, Nat.zero_add] at hspaces

/-! ## What is at a place -/

theorem peek_cons (hc : c.rest = ch :: rest) : c.peek = ch := by
  simp [peek, peekAt, hc]

theorem peek_nil (hc : c.rest = []) : c.peek = endChar := by
  simp [peek, peekAt, hc]

theorem peekAt_one (hc : c.rest = ch :: rest) : c.peekAt 1 = rest.headD endChar := by
  cases rest <;> simp [peekAt, hc]

/-- The run of characters with a property. -/
theorem takeWhile_eq {p : Char → Bool} (hc : c.rest = cs ++ rest)
    (hcs : ∀ x ∈ cs, p x = true) (hrest : ∀ x ∈ rest.head?, p x = false) :
    c.takeWhile p = (cs, c.skip cs.length) := by
  have hrun : c.rest.takeWhile p = cs := by
    rw [hc, List.takeWhile_append_of_pos hcs]
    cases rest with
    | nil => simp
    | cons x xs => simp [hrest x rfl]
  rw [takeWhile, hrun]

theorem skipWhile_eq {p : Char → Bool} (hc : c.rest = cs ++ rest)
    (hcs : ∀ x ∈ cs, p x = true) (hrest : ∀ x ∈ rest.head?, p x = false) :
    c.skipWhile p = c.skip cs.length := by
  rw [skipWhile, takeWhile_eq hc hcs hrest]

theorem skipSpaces_eq {k : Nat} (hc : c.rest = List.replicate k ' ' ++ rest)
    (hrest : ∀ x ∈ rest.head?, x ≠ ' ') :
    c.skipSpaces = c.skip k := by
  rw [skipSpaces, skipWhile_eq hc (by simp) (by simpa using hrest),
    List.length_replicate]

theorem lineBreak_eq (hc : c.rest = ch :: rest) (hch : isKeptBreak ch = true) :
    c.lineBreak = ([readBreak ch], c.skip 1) := by
  have hbreak := isBreak_of_isKeptBreak hch
  have hreturn := ne_return_of_isKeptBreak hch
  unfold lineBreak readBreak
  rw [peek_cons hc]
  by_cases hfeed : ch = '\n'
  · subst hfeed
    rfl
  · by_cases hnext : ch.toNat = 0x85
    · simp [skip, hreturn, hnext]
    · simp [skip, hreturn, hfeed, hnext, hbreak]

/-- No marker begins with a character that is neither a dash nor a dot. -/
theorem atMarker_eq_false (hrest : ∀ x ∈ c.rest.head?, x ≠ '-' ∧ x ≠ '.') :
    c.atMarker = false := by
  unfold atMarker
  cases hc : c.rest with
  | nil => simp
  | cons x xs =>
      rw [hc] at hrest
      have hx := hrest x rfl
      simp [List.isPrefixOf, hx.1.symm, hx.2.symm]

end Cursor

/-! ## Starts of lines -/

/-- Characters before which there is nothing to pass over: neither space nor
comment nor line end. -/
def Solid (rest : List Char) : Prop :=
  ∀ x ∈ rest.head?, IsInline x ∧ x ≠ ' ' ∧ x ≠ '#'

theorem solid_cons {x : Char} (hinline : IsInline x) (hspace : x ≠ ' ')
    (hhash : x ≠ '#') (rest : List Char) :
    Solid (x :: rest) := by
  rintro y hy
  obtain rfl : x = y := by simpa using hy
  exact ⟨hinline, hspace, hhash⟩

/-- Characters that can come after the indentation of a line: no further space, no
comment, no marker. -/
structure LineStart (rest : List Char) : Prop where
  solid : Solid rest
  unmarked : "---".toList.isPrefixOf rest = false ∧ "...".toList.isPrefixOf rest = false

/-- The end of the text is the start of its last line, which is empty. -/
theorem lineStart_nil : LineStart [] :=
  ⟨by simp [Solid], rfl, rfl⟩

/-- No marker begins at the indentation of a line, and none after it. -/
theorem LineStart.atMarker {rest : List Char} (h : LineStart rest) {c : Cursor}
    {k : Nat} (hc : c.rest = List.replicate k ' ' ++ rest) : c.atMarker = false := by
  cases k with
  | zero =>
      rw [List.replicate_zero, List.nil_append] at hc
      rw [Cursor.atMarker, hc, h.unmarked.1, h.unmarked.2]
      rfl
  | succ k => exact Cursor.atMarker_eq_false (by simp [hc, List.replicate_succ])

/-- What is at a solid place. -/
theorem Solid.peek {rest : List Char} (h : Solid rest) {c : Cursor}
    (hc : c.rest = rest) :
    c.peek ≠ ' ' ∧ c.peek ≠ '#' ∧ isBreak c.peek = false ∧ c.peek.toNat ≠ 0xfeff := by
  cases rest with
  | nil =>
      rw [Cursor.peek_nil hc]
      decide
  | cons x xs =>
      rw [Cursor.peek_cons hc]
      obtain ⟨hinline, hspace, hhash⟩ := h x rfl
      exact ⟨hspace, hhash, hinline.inside, hinline.visible⟩

end ApiWorkbench.Yaml
