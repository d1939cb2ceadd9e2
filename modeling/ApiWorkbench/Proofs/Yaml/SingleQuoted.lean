import ApiWorkbench.Proofs.Yaml.DoubleQuoted

/-!
# Texts between single quotes

Between single quotes there are no escapes. The quote is written twice, and a group of
line ends is followed by the indentation, after one more line feed if it begins with
one: the first line end of a group is read as a space or, if there are more, as nothing.

That one more line feed is only there before a line feed. A next-line character at the
start of a group is taken for the line end that does not count, and wherever one stands
it is read as a line feed. `refolded` is what is left of a text; it is the text itself
exactly if the text has no next-line character.

## Main results

* `quotedScalar_single`: what is read of a text that was written between single quotes.
* `refolded_eq_self_iff`: which texts are read again.
-/

namespace ApiWorkbench.Yaml

open Cursor
open Text (Letter)

/-! ## What is left of a text -/

/-- A text as it is read after it was written between single quotes, from a place on;
`afterBreak` says whether a line end comes before that place. -/
def refolded (afterBreak : Bool) : List Char → List Char
  | [] => []
  | c :: rest =>
    if isKeptBreak c then
      if !afterBreak && c.toNat == 0x85 then
        (if rest.head?.any isKeptBreak then [] else [' ']) ++ refolded true rest
      else readBreak c :: refolded true rest
    else c :: refolded false rest

private theorem refolded_of_steady {cs : List Char} (hcs : ∀ c ∈ cs, c.toNat ≠ 0x85)
    (afterBreak : Bool) :
    refolded afterBreak cs = cs := by
  induction cs generalizing afterBreak with
  | nil => rfl
  | cons c cs ih =>
      have hc : c.toNat ≠ 0x85 := hcs c (by simp)
      rw [refolded, ih fun x hx => hcs x (by simp [hx]), ih fun x hx =>
        hcs x (by simp [hx])]
      simp [hc, readBreak]

/-- No next-line character is read from a text between single quotes. -/
theorem steady_of_mem_refolded {cs : List Char} {afterBreak : Bool} {c : Char}
    (hc : c ∈ refolded afterBreak cs) : c.toNat ≠ 0x85 := by
  induction cs generalizing afterBreak with
  | nil => simp [refolded] at hc
  | cons x cs ih =>
      unfold refolded at hc
      split at hc
      · split at hc
        · rcases List.mem_append.mp hc with hc | hc
          · split at hc
            · simp at hc
            · rw [List.mem_singleton.mp hc]
              decide
          · exact ih hc
        · rcases List.mem_cons.mp hc with rfl | hc
          · unfold readBreak
            split
            · decide
            · simpa using ‹¬ (x.toNat == 0x85) = true›
          · exact ih hc
      · rename_i hbreak
        rcases List.mem_cons.mp hc with rfl | hc
        · rintro hnext
          simp [isKeptBreak, hnext] at hbreak
        · exact ih hc

/-- A text is read again exactly if it has no next-line character. -/
theorem refolded_eq_self_iff {cs : List Char} :
    refolded false cs = cs ↔ ∀ c ∈ cs, c.toNat ≠ 0x85 := by
  constructor
  · intro h c hc
    rw [← h] at hc
    exact steady_of_mem_refolded hc
  · exact fun h => refolded_of_steady h false

theorem refolded_of_no_break {cs : List Char} (hcs : ∀ c ∈ cs, isKeptBreak c = false) :
    refolded false cs = cs := by
  refine refolded_eq_self_iff.mpr fun c hc hnext => ?_
  have hbreak := hcs c hc
  simp [isKeptBreak, hnext] at hbreak

/-- What is read for the first line end of a group. -/
private def firstBreak (c : Char) (others : List Char) : List Char :=
  if c.toNat == 0x85 then (if others.isEmpty then [' '] else []) else [readBreak c]

/-- A group of line ends and what comes after it. -/
private theorem refolded_group {c : Char} {group more : List Char}
    (hc : isKeptBreak c = true) (hgroup : ∀ x ∈ group, isKeptBreak x = true)
    (hmore : ∀ x ∈ more.head?, isKeptBreak x = false) :
    refolded false (c :: (group ++ more)) = firstBreak c group ++
      (group.map readBreak ++ refolded false more) := by
  have hrest : refolded true (group ++ more) = group.map readBreak ++
      refolded false more := by
    clear hc
    induction group with
    | nil =>
        cases more with
        | nil => rfl
        | cons x xs => simp [refolded, hmore x rfl]
    | cons g group ih =>
        have hg : isKeptBreak g = true := hgroup g (by simp)
        rw [List.cons_append, refolded, ih fun x hx => hgroup x (by simp [hx])]
        simp [hg]
  rw [refolded, hrest]
  cases group with
  | nil =>
      have hnone : more.head?.any isKeptBreak = false := by
        cases more with
        | nil => rfl
        | cons x xs => exact hmore x rfl
      by_cases hnext : c.toNat = 0x85 <;> simp [hc, hnext, hnone, firstBreak]
  | cons g group =>
      have hg : isKeptBreak g = true := hgroup g (by simp)
      by_cases hnext : c.toNat = 0x85 <;> simp [hc, hnext, hg, firstBreak]

/-! ## How a text is written -/

private theorem toList_group {indentation : String} {group more : List Char}
    (hgroup : ∀ x ∈ group, isKeptBreak x = true)
    (hmore : ∀ x ∈ more.head?, isKeptBreak x = false) :
    (singleQuotedChars indentation true (group ++ more)).toList =
      group ++
        (indentation.toList ++ (singleQuotedChars indentation false more).toList) := by
  induction group with
  | nil =>
      cases more with
      | nil => simp [singleQuotedChars]
      | cons x xs => simp [singleQuotedChars, hmore x rfl]
  | cons g group ih =>
      have hg : isKeptBreak g = true := hgroup g (by simp)
      have hrest := ih fun x hx => hgroup x (by simp [hx])
      simp [singleQuotedChars, hg, hrest]

/-- The line feed that is written before a group that begins with one. -/
private def oneMore (c : Char) : List Char :=
  if c == '\n' then ['\n'] else []

private theorem toList_first_group
    {indentation : String} {c : Char} {group more : List Char}
    (hc : isKeptBreak c = true) (hgroup : ∀ x ∈ group, isKeptBreak x = true)
    (hmore : ∀ x ∈ more.head?, isKeptBreak x = false) :
    (singleQuotedChars indentation false (c :: (group ++ more))).toList =
      oneMore c ++ c :: (group ++
        (indentation.toList ++ (singleQuotedChars indentation false more).toList)) := by
  have hrest : (singleQuotedChars indentation true (group ++ more)).toList = _ :=
    toList_group hgroup hmore
  by_cases hfeed : c = '\n'
  · subst hfeed
    simp [singleQuotedChars, hc, hrest, oneMore]
  · simp [singleQuotedChars, hc, hrest, oneMore, hfeed]

private theorem toList_quote {indentation : String} {cs : List Char} :
    (singleQuotedChars indentation false ('\'' :: cs)).toList =
      '\'' :: '\'' :: (singleQuotedChars indentation false cs).toList := by
  have hquotes : ("''" : String).toList = ['\'', '\''] := rfl
  simp [singleQuotedChars, isKeptBreak, hquotes]

private theorem toList_char {indentation : String}
    {c : Char} {cs : List Char} (hbreak : isKeptBreak c = false) (hquote : c ≠ '\'') :
    (singleQuotedChars indentation false (c :: cs)).toList =
    c :: (singleQuotedChars indentation false cs).toList := by
  simp [singleQuotedChars, hbreak, hquote]

private theorem toList_leading_spaces {indentation : String} (k : Nat)
    (cs : List Char) :
    (singleQuotedChars indentation false (List.replicate k ' ' ++ cs)).toList =
      List.replicate k ' ' ++ (singleQuotedChars indentation false cs).toList := by
  induction k with
  | zero => rfl
  | succ k ih =>
      rw [List.replicate_succ, List.cons_append, toList_char rfl (by decide), ih]; rfl

/-- What is written between single quotes: the characters of the text, quotes,
and indentation. -/
theorem mem_singleQuotedChars {indentation : String}
    {afterBreak : Bool} {cs : List Char}
    {x : Char} (hx : x ∈ (singleQuotedChars indentation afterBreak cs).toList) :
    x ∈ cs ∨ x ∈ indentation.toList ∨ x = '\'' := by
  induction cs generalizing afterBreak with
  | nil =>
      unfold singleQuotedChars at hx
      split at hx
      · exact .inr (.inl hx)
      · simp at hx
  | cons c cs ih =>
      unfold singleQuotedChars at hx
      have hquotes : ("''" : String).toList = ['\'', '\''] := rfl
      split at hx
      all_goals
        simp only [String.toList_append, List.mem_append, Char.toString,
          String.toList_singleton] at hx
        rcases hx with (hx | hx) | hx
      · split at hx
        · rename_i hfeed
          simp only [Bool.and_eq_true, beq_iff_eq] at hfeed
          rw [hfeed.2]
          obtain rfl : x = '\n' := by simpa using hx
          exact .inl (by simp)
        · simp at hx
      · exact .inl (by simp [List.mem_singleton.mp hx])
      · exact (ih hx).imp_left fun h => by simp [h]
      · split at hx
        · exact .inr (.inl hx)
        · simp at hx
      · split at hx
        · exact .inr (.inr (by simpa [hquotes] using hx))
        · obtain rfl : x = c := by simpa using hx
          exact .inl (by simp)
      · exact (ih hx).imp_left fun h => by simp [h]

/-- There is no indentation in a text without line ends. -/
theorem singleQuotedChars_of_no_break {cs : List Char}
    (hcs : ∀ c ∈ cs, isKeptBreak c = false) (indentation : String) :
    singleQuotedChars indentation false cs = singleQuotedChars "" false cs := by
  induction cs with
  | nil => rfl
  | cons c cs ih =>
      have hc : isKeptBreak c = false := hcs c (by simp)
      simp [singleQuotedChars, hc, ih fun x hx => hcs x (by simp [hx])]

/-! ## Texts that allow single quotes -/

private theorem hasSpacedBreak_cons {a : Char} {cs : List Char}
    (h : hasSpacedBreak (a :: cs) = false) :
    hasSpacedBreak cs = false ∧
      ∀ b ∈ cs.head?, ¬ (isKeptBreak a = true ∧ b = ' ') ∧
        ¬ (a = ' ' ∧ isKeptBreak b = true) := by
  cases cs with
  | nil => exact ⟨rfl, by simp⟩
  | cons b rest =>
      simp only [hasSpacedBreak, Bool.or_eq_false_iff, Bool.and_eq_false_iff] at h
      refine ⟨h.2, fun x hx => ?_⟩
      obtain rfl : b = x := by simpa using hx
      constructor
      · rintro ⟨ha, rfl⟩
        simp [ha] at h
      · rintro ⟨rfl, hb⟩
        simp [hb] at h

private theorem hasSpacedBreak_append {as bs : List Char}
    (h : hasSpacedBreak (as ++ bs) = false) :
    hasSpacedBreak bs = false := by
  induction as with
  | nil => exact h
  | cons a as ih => exact ih (hasSpacedBreak_cons h).1

/-- What comes after a part of a text that allows single quotes, allows them as well. -/
private theorem allowsSingleQuotes_append {as bs : List Char}
    (h : allowsSingleQuotes (as ++ bs) = true) :
    allowsSingleQuotes bs = true := by
  simp only [allowsSingleQuotes, Bool.and_eq_true, Bool.not_eq_true', List.any_append,
    Bool.or_eq_false_iff] at h ⊢
  exact ⟨h.1.2, hasSpacedBreak_append h.2⟩

private theorem next_after_break {as bs : List Char} {a : Char}
    (h : allowsSingleQuotes (as ++ a :: bs) = true) (ha : isKeptBreak a = true) :
    ∀ b ∈ bs.head?, b ≠ ' ' := by
  have hpair := allowsSingleQuotes_append h
  simp only [allowsSingleQuotes, Bool.and_eq_true, Bool.not_eq_true'] at hpair
  exact fun b hb hspace => ((hasSpacedBreak_cons hpair.2).2 b hb).1 ⟨ha, hspace⟩

private theorem next_after_space {as bs : List Char}
    (h : allowsSingleQuotes (as ++ ' ' :: bs) = true) :
    ∀ b ∈ bs.head?, isKeptBreak b = false := by
  have hpair := allowsSingleQuotes_append h
  simp only [allowsSingleQuotes, Bool.and_eq_true, Bool.not_eq_true'] at hpair
  exact fun b hb => Bool.eq_false_iff.mpr fun hbreak =>
    ((hasSpacedBreak_cons hpair.2).2 b hb).2 ⟨rfl, hbreak⟩

/-- A character that needs no escape stays on its line, unless it is a line end. -/
theorem isInline_of_not_needsEscape {c : Char} (h : needsEscape c = false)
    (hbreak : isKeptBreak c = false) :
    IsInline c := by
  have hvalid : c.toNat < 0xd800 ∨ 0xdfff < c.toNat ∧ c.toNat < 0x110000 := c.valid
  simp only [isKeptBreak, Bool.or_eq_false_iff, beq_eq_false_iff_ne] at hbreak
  simp only [needsEscape, Bool.not_eq_false', Bool.or_eq_true, Bool.and_eq_true,
    decide_eq_true_eq, beq_iff_eq, bne_iff_ne] at h
  have hreturn : c ≠ '\r' := by
    rintro rfl
    simp at h
  have hcode : (0x20 ≤ c.toNat ∧ c.toNat ≤ 0x7e) ∨
      (0xa0 ≤ c.toNat ∧ c.toNat ≤ 0xfffd ∧ c.toNat ≠ 0xfeff) ∨
      0x10000 ≤ c.toNat := by
    have hfeed : c ≠ '\n' := hbreak.1.1.1
    rcases h with (((h | h) | h) | h) | h
    · exact absurd h hfeed
    · omega
    · omega
    · omega
    · omega
  refine ⟨?_, ?_, by omega⟩
  · simp only [isAllowed, Bool.or_eq_true, Bool.and_eq_true,
      decide_eq_true_eq, beq_iff_eq]
    omega
  · simp only [isBreak, Bool.or_eq_false_iff, beq_eq_false_iff_ne]
    exact ⟨⟨⟨⟨hbreak.1.1.1, hreturn⟩, hbreak.1.1.2⟩, hbreak.1.2⟩, hbreak.2⟩

theorem isBlankOrEnd_of_not_needsEscape {c : Char} (h : needsEscape c = false)
    (hbreak : isKeptBreak c = false) (hspace : c ≠ ' ') : isBlankOrEnd c = false := by
  refine isBlankOrEnd_eq_false_iff.mpr
    ⟨hspace, ?_, ?_, (isInline_of_not_needsEscape h hbreak).inside⟩
  · rintro rfl
    contradiction
  · rintro rfl
    contradiction

theorem isAllowed_of_not_needsEscape {c : Char} (h : needsEscape c = false) :
    isAllowed c = true := by
  cases hbreak : isKeptBreak c with
  | false => exact (isInline_of_not_needsEscape h hbreak).allowed
  | true =>
      simp only [isKeptBreak, Bool.or_eq_true, beq_iff_eq] at hbreak
      rcases hbreak with ((rfl | hcode) | hcode) | hcode
      · rfl
      all_goals simp [isAllowed, hcode]

/-- The first character after a line end or after spaces is the closing quote or one
that is neither. -/
private theorem head_singleQuoted
    (indentation : String) {cs : List Char} (hcs : allowsSingleQuotes cs = true)
    (hbreak : ∀ x ∈ cs.head?, isKeptBreak x = false) (hspace : ∀ x ∈ cs.head?, x ≠ ' ')
    (tail : List Char) :
    ∃ next rest, (singleQuotedChars indentation false cs).toList ++ '\'' :: tail =
      next :: rest ∧
      isBlankOrEnd next = false := by
  cases cs with
  | nil => exact ⟨'\'', tail, rfl, rfl⟩
  | cons x xs =>
      by_cases hquote : x = '\''
      · subst hquote
        rw [toList_quote]
        exact ⟨_, _, rfl, rfl⟩
      · rw [toList_char (hbreak x rfl) hquote]
        have hescape : needsEscape x = false := by
          simp only [allowsSingleQuotes, List.any_cons, Bool.and_eq_true,
            Bool.not_eq_true', Bool.or_eq_false_iff] at hcs
          exact hcs.1.1
        exact ⟨_, _, rfl, isBlankOrEnd_of_not_needsEscape hescape (hbreak x rfl)
          (hspace x rfl)⟩

/-! ## How a text is read -/

section

variable {c : Cursor} {g next : Char} {group rest : List Char} {k fuel : Nat}

/-- Line ends are read up to the indentation of the next line. -/
private theorem quotedBreaks_group (hgroup : ∀ x ∈ group, isKeptBreak x = true)
    (hc : c.rest = group ++ (List.replicate (k + 1) ' ' ++ next :: rest))
    (hnext : isBlankOrEnd next = false)
    (hfuel : group.length < fuel) :
    quotedBreaks fuel c =
      .ok (group.map readBreak, c.skip (group.length + (k + 1))) := by
  induction group generalizing c fuel with
  | nil =>
      obtain ⟨fuel, rfl⟩ : ∃ f, fuel = f + 1 := ⟨fuel - 1, by simp at hfuel; omega⟩
      obtain ⟨hspace, htab, -, hbreak⟩ := isBlankOrEnd_eq_false_iff.mp hnext
      rw [List.nil_append] at hc
      have hmarker : c.atMarker = false :=
        atMarker_eq_false (by simp [hc, List.replicate_succ])
      have hskip := skipWhile_eq (p := isBlankChar) hc (by simp [isBlankChar])
        (by simp [isBlankChar, hspace, htab])
      rw [List.length_replicate] at hskip
      have hpeek : (c.skip (k + 1)).peek = next := by
        refine peek_cons (show _ = next :: rest from ?_)
        rw [rest_skip, hc, List.drop_left' (by simp)]
      rw [quotedBreaks, hmarker, hskip]
      simp [hpeek, hbreak]
  | cons g group ih =>
      obtain ⟨fuel, rfl⟩ : ∃ f, fuel = f + 1 := ⟨fuel - 1, by simp at hfuel; omega⟩
      have hg : isKeptBreak g = true := hgroup g (by simp)
      have hne : ∀ x, isKeptBreak x = false → g ≠ x := by
        rintro x hx rfl
        simp [hg] at hx
      have hmarker : c.atMarker = false :=
        atMarker_eq_false (by simp [hc, hne '-' rfl, hne '.' rfl])
      have hskip : c.skipWhile isBlankChar = c :=
        skipWhile_eq (show c.rest = [] ++ c.rest from rfl) (by simp)
          (by simp [hc, isBlankChar, hne ' ' rfl, hne '\t' rfl])
      have hrest : (c.skip 1).rest =
          group ++ (List.replicate (k + 1) ' ' ++ next :: rest) := by
        rw [rest_skip, hc]
        rfl
      have hothers :=
        ih (fun x hx => hgroup x (by simp [hx])) hrest (by simpa using hfuel)
      rw [quotedBreaks, hmarker, hskip]
      simp only [Bool.false_eq_true, if_false, peek_cons hc, isBreak_of_isKeptBreak hg,
        if_true, lineBreak_eq hc hg, hothers, ok_bind, pure_eq_ok, List.map_cons,
        List.singleton_append, List.length_cons, ← skip_add]
      rw [Nat.add_comm 1, Nat.add_right_comm]

/-- Line ends with the indentation after them, of which the first one is read as a space
or as nothing if it can be taken for a line feed. -/
private theorem quotedSpace_breaks
    (hg : isKeptBreak g = true) (hgroup : ∀ x ∈ group, isKeptBreak x = true)
    (hc : c.rest = g :: (group ++ (List.replicate (k + 1) ' ' ++ next :: rest)))
    (hnext : isBlankOrEnd next = false) :
    quotedSpace c = .ok (if readBreak g != '\n' then readBreak g :: group.map readBreak
      else if group.isEmpty then [' '] else group.map readBreak,
        c.skip (1 + group.length + (k + 1))) := by
  have hne : ∀ x, isKeptBreak x = false → g ≠ x := by
    rintro x hx rfl
    simp [hg] at hx
  have hrun : c.takeWhile isBlankChar = ([], c) :=
    takeWhile_eq (show c.rest = [] ++ c.rest from rfl) (by simp)
      (by simp [hc, isBlankChar, hne ' ' rfl, hne '\t' rfl])
  have hrest : (c.skip 1).rest =
      group ++ (List.replicate (k + 1) ' ' ++ next :: rest) := by
    rw [rest_skip, hc]
    rfl
  have hbreaks : quotedBreaks ((c.skip 1).rest.length + 1) (c.skip 1) = _ :=
    quotedBreaks_group hgroup hrest hnext (by
      simp only [hrest, List.length_append, List.length_replicate, List.length_cons]
      omega)
  rw [quotedSpace, hrun]
  simp only [peek_cons hc, beq_iff_eq, hne endChar rfl, if_false,
    isBreak_of_isKeptBreak hg, if_true, lineBreak_eq hc hg, hbreaks, ok_bind]
  by_cases hfeed : readBreak g = '\n'
  · cases group <;> simp [hfeed, ← skip_add, Nat.add_assoc]
  · simp [hfeed, ← skip_add, Nat.add_assoc]

/-- A group of line ends as it was written. -/
private theorem quotedSpace_group (hg : isKeptBreak g = true)
    (hgroup : ∀ x ∈ group, isKeptBreak x = true) (hc : c.rest =
      oneMore g ++ g :: (group ++ (List.replicate (k + 1) ' ' ++ next :: rest)))
    (hnext : isBlankOrEnd next = false) :
    quotedSpace c =
      .ok (firstBreak g group ++ group.map readBreak,
        c.skip ((oneMore g).length + 1 + group.length + (k + 1))) := by
  by_cases hfeed : g = '\n'
  · subst hfeed
    have hmore : ∀ x ∈ '\n' :: group, isKeptBreak x = true := by simpa [hg] using hgroup
    have hcount : (oneMore '\n').length + 1 + group.length =
        1 + ('\n' :: group).length := by
      simp only [oneMore, beq_self_eq_true, if_true, List.length_cons, List.length_nil]
      omega
    rw [quotedSpace_breaks (g := '\n') rfl hmore hc hnext, hcount]
    rfl
  · have hnone : oneMore g = [] := if_neg (by simpa using hfeed)
    rw [hnone, List.nil_append] at hc
    rw [quotedSpace_breaks hg hgroup hc hnext, hnone, List.length_nil,
      Nat.zero_add, firstBreak]
    by_cases hnextLine : g.toNat = 0x85
    · cases group <;> simp [readBreak, hnextLine]
    · simp [readBreak, hnextLine, hfeed]

end

section

variable {c c' : Cursor} {chars cs tail : List Char} {done : List Letter} {k fuel : Nat}

private theorem quotedRest_blank (hpeek : isBlankOrEnd c.peek = true)
    (hspace : quotedSpace c = .ok (chars, c')) :
    quotedRest false (fuel + 1) done c =
      quotedRest false fuel ((chars.map .char).reverse ++ done) c' := by
  have hquote : c.peek ≠ '\'' := by
    intro h
    rw [h] at hpeek
    contradiction
  rw [quotedRest, hspace]
  simp [hquote, hpeek]

/-- The characters of a text between single quotes that is indented by `k + 1`. -/
private abbrev singleQuoted (k : Nat) (cs : List Char) : List Char :=
  (singleQuotedChars (spaces (k + 1)) false cs).toList

theorem toList_spaces (k : Nat) : (spaces k).toList = List.replicate k ' ' := by
  rw [spaces, toList_pushn, String.toList_empty, List.nil_append]

/-- A part of a text that is read at once: how it is written, and what is left of it. -/
private structure Piece (k : Nat) (tail part more written left : List Char) : Prop where
  writes : singleQuoted k (part ++ more) = written ++ singleQuoted k more
  leaves : refolded false (part ++ more) = left ++ refolded false more
  reads : ∀ (c : Cursor) (done : List Letter) (fuel : Nat),
    c.rest = written ++ (singleQuoted k more ++ '\'' :: tail) →
    quotedRest false (fuel + 1) done c =
      quotedRest false fuel ((left.map .char).reverse ++ done) (c.skip written.length)

private theorem piece_quote (k : Nat) (tail more : List Char) :
    Piece k tail ['\''] more ['\'', '\''] ['\''] where
  writes := toList_quote
  leaves := rfl
  reads c done fuel hc := by
    rw [quotedRest, peek_cons hc, peekAt_one hc]
    rfl

private theorem piece_char {x : Char} (hblank : isBlankOrEnd x = false)
    (hquote : x ≠ '\'') (hbreak : isKeptBreak x = false) (tail more : List Char) :
    Piece k tail [x] more [x] [x] where
  writes := toList_char hbreak hquote
  leaves := by simp [refolded, hbreak]
  reads c done fuel hc := by
    rw [quotedRest, peek_cons hc]
    simp [hquote, hblank, skip]

private theorem piece_spaces {more : List Char}
    (n : Nat) (hcs : allowsSingleQuotes more = true)
    (hbreak : ∀ x ∈ more.head?, isKeptBreak x = false)
    (hspace : ∀ x ∈ more.head?, x ≠ ' ') (tail : List Char) :
    Piece k tail (List.replicate (n + 1) ' ') more (List.replicate (n + 1) ' ')
      (List.replicate (n + 1) ' ') where
  writes := toList_leading_spaces (n + 1) more
  leaves := by
    induction n + 1 with
    | zero => rfl
    | succ n ih => rw [List.replicate_succ, List.cons_append, refolded, ih]; rfl
  reads c done fuel hc := by
    obtain ⟨next, rest, hrest, hnext⟩ :=
      head_singleQuoted (spaces (k + 1)) hcs hbreak hspace tail
    rw [hrest] at hc
    rw [quotedRest_blank (by rw [peek_cons hc]; rfl) (quotedSpace_spaces hc hnext),
      List.length_replicate]

private theorem piece_group {x : Char}
    {group more : List Char} (hx : isKeptBreak x = true)
    (hgroup : ∀ y ∈ group, isKeptBreak y = true) (hcs : allowsSingleQuotes more = true)
    (hbreak : ∀ y ∈ more.head?, isKeptBreak y = false)
    (hspace : ∀ y ∈ more.head?, y ≠ ' ') (tail : List Char) :
    Piece k tail (x :: group) more (oneMore x ++ x :: (group ++
      List.replicate (k + 1) ' ')) (firstBreak x group ++ group.map readBreak) where
  writes := by
    rw [singleQuoted, List.cons_append, toList_first_group hx hgroup hbreak,
      toList_spaces]
    simp
  leaves := by rw [List.cons_append, refolded_group hx hgroup hbreak, List.append_assoc]
  reads c done fuel hc := by
    obtain ⟨next, rest, hrest, hnext⟩ :=
      head_singleQuoted (spaces (k + 1)) hcs hbreak hspace tail
    have hc : c.rest = oneMore x ++ x ::
        (group ++ (List.replicate (k + 1) ' ' ++ next :: rest)) := by
      rw [hc, ← hrest]
      simp
    have hpeek : isBlankOrEnd c.peek = true := by
      have hkept : ∀ y, isKeptBreak y = true → isBlankOrEnd y = true := fun y hy => by
        simp [isBlankOrEnd, isSpaceOrEnd, endsLine, isBreak_of_isKeptBreak hy]
      unfold oneMore at hc
      split at hc
      · rw [peek_cons hc]
        rfl
      · rw [peek_cons hc]
        exact hkept x hx
    rw [quotedRest_blank hpeek (quotedSpace_group hx hgroup hc hnext)]
    simp only [List.length_append, List.length_cons, List.length_replicate]
    congr 2
    omega

/-- The first part of a text. -/
private theorem exists_piece {x : Char} {xs : List Char}
    (hcs : allowsSingleQuotes (x :: xs) = true) (k : Nat) (tail : List Char) :
    ∃ part more written left, x :: xs = part ++ more ∧ more.length ≤ xs.length ∧
      allowsSingleQuotes more = true ∧ Piece k tail part more written left := by
  have hafter : ∀ part more, x :: xs = part ++ more → allowsSingleQuotes more = true :=
    fun part more h => allowsSingleQuotes_append (h ▸ hcs)
  cases hbreak : isKeptBreak x with
  | true =>
      obtain ⟨group, more, rfl, hgroup, hmore⟩ := exists_leading isKeptBreak xs
      have hspace : ∀ y ∈ more.head?, y ≠ ' ' := by
        have hlast := List.dropLast_append_getLast (List.cons_ne_nil x group)
        have hkept : isKeptBreak ((x :: group).getLast (List.cons_ne_nil x group)) =
            true := by
          rcases List.mem_cons.mp (List.getLast_mem (List.cons_ne_nil x group))
            with h | h
          · rw [h, hbreak]
          · exact hgroup _ h
        rw [← List.cons_append, ← hlast, List.append_assoc] at hcs
        exact next_after_break hcs hkept
      have hallows := hafter (x :: group) more rfl
      exact ⟨x :: group, more, _, _, rfl, by simp, hallows,
        piece_group hbreak hgroup hallows hmore hspace tail⟩
  | false =>
      by_cases hquote : x = '\''
      · subst hquote
        exact ⟨_, xs, _, _, rfl, Nat.le_refl _, hafter ['\''] xs rfl,
          piece_quote k tail xs⟩
      · by_cases hspace : x = ' '
        · subst hspace
          obtain ⟨n, more, rfl, hmore⟩ := exists_leading_spaces xs
          have hsplit : ' ' :: (List.replicate n ' ' ++ more) =
              List.replicate (n + 1) ' ' ++ more := rfl
          have hnext : ∀ y ∈ more.head?, isKeptBreak y = false := by
            rw [hsplit, List.replicate_succ', List.append_assoc] at hcs
            exact next_after_space hcs
          exact ⟨_, more, _, _, hsplit, by simp, hafter _ _ hsplit,
            piece_spaces n (hafter _ _ hsplit) hnext hmore tail⟩
        · have hescape : needsEscape x = false := by
            simp only [allowsSingleQuotes, List.any_cons, Bool.and_eq_true,
              Bool.not_eq_true', Bool.or_eq_false_iff] at hcs
            exact hcs.1.1
          exact ⟨[x], xs, _, _, rfl, Nat.le_refl _, hafter [x] xs rfl,
            piece_char (isBlankOrEnd_of_not_needsEscape hescape hbreak hspace) hquote
              hbreak tail xs⟩

/-- A text is read up to its closing quote. -/
private theorem quotedRest_single
    (hcs : allowsSingleQuotes cs = true) (htail : ∀ x ∈ tail.head?, x ≠ '\'')
    (hc : c.rest = singleQuoted k cs ++ '\'' :: tail) (hfuel : cs.length < fuel) :
    quotedRest false fuel done c =
      .ok (done.reverse ++ (refolded false cs).map .char,
        c.skip ((singleQuoted k cs).length + 1)) := by
  induction hlength : cs.length using Nat.strongRecOn generalizing cs c done fuel with
  | ind n ih =>
      obtain ⟨fuel, rfl⟩ : ∃ f, fuel = f + 1 := ⟨fuel - 1, by omega⟩
      cases cs with
      | nil =>
          have hc : c.rest = '\'' :: tail := hc
          have hnext : c.peekAt 1 ≠ '\'' := by
            rw [peekAt_one hc]
            cases tail with
            | nil => decide
            | cons x xs => exact htail x rfl
          rw [quotedRest, peek_cons hc]
          simp [hnext, refolded, singleQuoted, singleQuotedChars, skip]
      | cons x xs =>
          obtain ⟨part, more, written, left, hsplit, hmore, hallows, hpiece⟩ :=
            exists_piece hcs k tail
          simp only [List.length_cons] at hlength hfuel
          rw [hsplit] at hc ⊢
          rw [hpiece.writes, List.append_assoc] at hc
          rw [hpiece.reads c done fuel hc, ih more.length (by omega)
            hallows (rest_skip_length hc) (by omega) rfl, ← skip_add, hpiece.leaves,
            hpiece.writes, List.length_append, Nat.add_assoc written.length,
            List.reverse_append, List.reverse_reverse, List.append_assoc,
            List.map_append]

private theorem length_le_singleQuotedChars (indentation : String) (afterBreak : Bool)
    (cs : List Char) :
    cs.length ≤ (singleQuotedChars indentation afterBreak cs).toList.length := by
  induction cs generalizing afterBreak with
  | nil => exact Nat.zero_le _
  | cons x xs ih =>
      unfold singleQuotedChars
      split
      · have hrest := ih true
        simp only [String.toList_append, List.length_append, List.length_cons,
          Char.toString, String.toList_singleton, List.length_nil]
        omega
      · have hrest := ih false
        have hchar : 1 ≤ (if x == '\'' then "''" else x.toString).toList.length := by
          split <;> simp
        simp only [String.toList_append, List.length_append, List.length_cons]
        omega

/-- What is read of a text that was written between single quotes. -/
theorem quotedScalar_single {indent : Nat} (hcs : allowsSingleQuotes cs = true)
    (htail : ∀ x ∈ tail.head?, x ≠ '\'') (hc : c.rest = '\'' ::
      ((singleQuotedChars (spaces (indent + 2)) false cs).toList ++ '\'' :: tail)) :
    quotedScalar c = .ok ((refolded false cs).map .char,
      c.skip
        ((singleQuotedChars (spaces (indent + 2)) false cs).toList.length + 2)) := by
  have hnext : c.next.rest = singleQuoted (indent + 1) cs ++ '\'' :: tail := by
    rw [rest_next, hc, List.drop_succ_cons, List.drop_zero]
  have hlength := length_le_singleQuotedChars (spaces (indent + 2)) false cs
  have hdouble : (c.peek == '"') = false := by
    rw [peek_cons hc]
    rfl
  rw [quotedScalar, hdouble, quotedRest_single hcs htail hnext
    (by rw [hc]; simp; omega)]
  rfl

end

end ApiWorkbench.Yaml
