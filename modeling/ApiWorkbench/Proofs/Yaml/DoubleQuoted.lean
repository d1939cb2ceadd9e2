import Mathlib.Algebra.Group.Nat.Defs
import ApiWorkbench.Proofs.Digits
import ApiWorkbench.Proofs.Letters
import ApiWorkbench.Proofs.Result
import ApiWorkbench.Proofs.Yaml.Cursor
import ApiWorkbench.Yaml.Quoted
import ApiWorkbench.Yaml.Writer

/-!
# Texts between double quotes

Between double quotes every character that could be taken for something else is written
as an escape: a letter, or the digits of its code. So there is nothing between the
quotes that ends a line, and a text is read again whatever characters it has. Spaces are
read run by run, everything else character by character.

## Main results

* `quotedEscape_of_escapeLetter?`, `quotedEscape_hex`: an escape is read as the
  character it was written for.
* `quotedScalar_double`: a text that was written between double quotes is read again.
-/

namespace ApiWorkbench.Yaml

open Cursor
open Text (Letter)

/-! ## Codes in hexadecimal digits -/

private theorem hexDigit?_toUpper :
    ∀ d, d < 16 → Text.hexDigit? d.digitChar.toUpper = some d := by
  decide

/-- Digits spell the number that they were written for, whatever zeros are before
them. -/
private theorem hexValue?_toDigits (k n : Nat) :
    hexValue? (List.replicate k '0' ++ (Nat.toDigits 16 n).map Char.toUpper) =
      some n := by
  have hdigits : List.replicate k '0' ++ (Nat.toDigits 16 n).map Char.toUpper =
      (List.replicate k '0' ++ Nat.toDigits 16 n).map Char.toUpper := by
    rw [List.map_append, List.map_replicate]
    rfl
  rw [hdigits, hexValue?, List.foldlM_map]
  exact foldlM_toDigits (by decide)
    (fun total d hd => by rw [hexDigit?_toUpper d hd, Option.map_some]) k n

private theorem toList_upperHex (width n : Nat) :
    (upperHex width n).toList =
      List.replicate (width - (Nat.toDigits 16 n).length) '0' ++
        (Nat.toDigits 16 n).map Char.toUpper := by
  have hzero : Char.toUpper '0' = '0' := rfl
  simp [upperHex, paddedHex, toList_pushn, hzero]

theorem length_upperHex {width n : Nat} (hwidth : 0 < width) (hn : n < 16 ^ width) :
    (upperHex width n).toList.length = width := by
  have hlength : (Nat.toDigits 16 n).length ≤ width :=
    (Nat.length_toDigits_le_iff (by omega) hwidth).mpr hn
  rw [toList_upperHex, List.length_append, List.length_replicate, List.length_map]
  omega

/-- The digits of a code spell it. -/
theorem hexValue?_upperHex (width n : Nat) :
    hexValue? (upperHex width n).toList = some n := by
  rw [toList_upperHex, hexValue?_toDigits]

private theorem isInline_of_mem_upperHex {width n : Nat} {x : Char}
    (hx : x ∈ (upperHex width n).toList) :
    IsInline x := by
  have hdigit : ∀ d < 16, IsInline d.digitChar.toUpper := by
    intro d hd
    have hchar : ∀ d < 16, isAllowed d.digitChar.toUpper = true ∧
        isBreak d.digitChar.toUpper = false ∧
        d.digitChar.toUpper.toNat ≠ 0xfeff := by
      decide
    exact ⟨(hchar d hd).1, (hchar d hd).2.1, (hchar d hd).2.2⟩
  rw [toList_upperHex, List.mem_append] at hx
  rcases hx with hx | hx
  · rw [List.eq_of_mem_replicate hx]
    exact hdigit 0 (by omega)
  · obtain ⟨y, hy, rfl⟩ := List.mem_map.mp hx
    obtain ⟨d, hd, rfl⟩ := exists_of_mem_toDigits (by decide) hy
    exact hdigit d hd

/-! ## Escapes -/

section

variable {c : Cursor} {ch : Char} {rest : List Char}

/-- A letter is read as the character that it was written for. -/
private theorem escapedChar?_of_escapeLetter? {letter : Char}
    (h : escapeLetter? ch = some letter) :
    escapedChar? letter = some ch := by
  have hch : ch = Char.ofNat ch.toNat := (Char.ofNat_toNat ch).symm
  unfold escapeLetter? at h
  split at h
  all_goals first
    | contradiction
    | rename_i hcode
      rw [← Option.some.inj h, hch, hcode]
      rfl

theorem quotedEscape_of_escapeLetter? {letter : Char}
    (h : escapeLetter? ch = some letter) (hc : c.rest = letter :: rest) :
    quotedEscape c = .ok ([.char ch], c.skip 1) := by
  rw [quotedEscape, peek_cons hc, escapedChar?_of_escapeLetter? h]
  rfl

/-- The digits of a code are read as its character. -/
theorem quotedEscape_hex {letter : Char} {width : Nat}
    (hletter : escapedChar? letter = none) (hdigits : escapeDigits? letter = some width)
    (hwidth : 0 < width) (hch : ch.toNat < 16 ^ width)
    (hc : c.rest = letter :: ((upperHex width ch.toNat).toList ++ rest)) :
    quotedEscape c = .ok ([.char ch], c.skip (width + 1)) := by
  have hlength := length_upperHex hwidth hch
  have htake : c.next.rest.take width = (upperHex width ch.toNat).toList := by
    rw [rest_next, hc, List.drop_succ_cons, List.drop_zero, List.take_left' hlength]
  have hvalid : ch.toNat < 0xd800 ∨ 0xdfff < ch.toNat ∧ ch.toNat < 0x110000 := ch.valid
  have hcode : letterOfCode ch.toNat = .ok (.char ch) := by
    rw [letterOfCode, if_pos (by omega)]
    exact congrArg Except.ok (Letter.ofCode_code (.char ch))
  rw [quotedEscape, peek_cons hc, hletter, hdigits]
  simp only [htake, hlength, beq_self_eq_true, if_true]
  rw [hexValue?_upperHex]
  simp only [hcode, skip]
  rfl

end

/-! ## Characters and texts -/

/-- The characters of a text between double quotes. -/
def doubleQuoted (cs : List Char) : List Char :=
  cs.flatMap fun c => (doubleQuotedChar c).toList

theorem toList_join_doubleQuotedChar (cs : List Char) :
    (String.join (cs.map doubleQuotedChar)).toList = doubleQuoted cs := by
  rw [String.toList_join, List.flatMap_map, doubleQuoted]

/-- A character that is written as it is can be read as it is, unless it is a space. -/
private theorem blank_of_shown {c : Char} (hletter : escapeLetter? c = none)
    (hshown : (0x20 ≤ c.toNat ∧ c.toNat ≤ 0x7e) ∨
      (0xa0 ≤ c.toNat ∧ c.toNat ≤ 0xfffd ∧ c.toNat ≠ 0xfeff))
    (hspace : c ≠ ' ') : IsInline c ∧ isBlankOrEnd c = false ∧ c ≠ '"' ∧ c ≠ '\\' := by
  have hvalid : c.toNat < 0xd800 ∨ 0xdfff < c.toNat ∧ c.toNat < 0x110000 := c.valid
  have hcode : ∀ n, (escapeLetter? (Char.ofNat n)).isSome = true →
      c ≠ Char.ofNat n := by
    rintro n hn rfl
    simp [hletter] at hn
  have hbreak : isBreak c = false := by
    have hline : c.toNat ≠ 0x2028 := fun h => by simp [escapeLetter?, h] at hletter
    have hparagraph : c.toNat ≠ 0x2029 := fun h => by simp [escapeLetter?, h] at hletter
    have hfeed : c ≠ '\n' := hcode 10 rfl
    have hreturn : c ≠ '\r' := hcode 13 rfl
    simp only [isBreak, Bool.or_eq_false_iff, beq_eq_false_iff_ne]
    exact ⟨⟨⟨⟨hfeed, hreturn⟩, by omega⟩, hline⟩, hparagraph⟩
  have hallowed : isAllowed c = true := by
    simp only [isAllowed, Bool.or_eq_true, Bool.and_eq_true,
      decide_eq_true_eq, beq_iff_eq]
    omega
  exact ⟨⟨hallowed, hbreak, by omega⟩, isBlankOrEnd_eq_false_iff.mpr
    ⟨hspace, hcode 9 rfl, hcode 0 rfl, hbreak⟩, hcode 0x22 rfl, hcode 0x5c rfl⟩

/-- How a character other than a space is written. -/
inductive Shown (ch : Char) : List Char → Prop
  /-- by a backslash and a letter -/
  | letter {letter : Char} : escapeLetter? ch = some letter → Shown ch ['\\', letter]
  /-- as it is -/
  | plain : IsInline ch → isBlankOrEnd ch = false → ch ≠ '"' → ch ≠ '\\' → Shown ch [ch]
  /-- by a backslash, a letter and the digits of its code -/
  | code {letter : Char} {width : Nat} : escapedChar? letter = none →
      escapeDigits? letter = some width →
      0 < width → ch.toNat < 16 ^ width →
        Shown ch ('\\' :: letter :: (upperHex width ch.toNat).toList)

theorem shown_doubleQuotedChar {ch : Char} (hspace : ch ≠ ' ') :
    Shown ch (doubleQuotedChar ch).toList := by
  have hvalid : ch.toNat < 0xd800 ∨ 0xdfff < ch.toNat ∧ ch.toNat < 0x110000 := ch.valid
  unfold doubleQuotedChar
  split
  · rename_i letter hletter
    have htext : ("\\".push letter).toList = ['\\', letter] := by simp
    rw [htext]
    exact .letter hletter
  · rename_i hletter
    dsimp only
    split
    · rename_i hshown
      have hblank := blank_of_shown hletter (by simp at hshown; omega) hspace
      rw [Char.toString, String.toList_singleton]
      exact .plain hblank.1 hblank.2.1 hblank.2.2.1 hblank.2.2.2
    · split
      · rw [String.toList_append]
        exact @Shown.code ch 'x' 2 rfl rfl (by omega) (by omega)
      · split
        · rw [String.toList_append]
          exact @Shown.code ch 'u' 4 rfl rfl (by omega) (by omega)
        · rw [String.toList_append]
          exact @Shown.code ch 'U' 8 rfl rfl (by omega) (by omega)

private theorem isInline_escapeLetter {ch letter : Char}
    (h : escapeLetter? ch = some letter) : IsInline letter := by
  unfold escapeLetter? at h
  split at h
  all_goals first
    | contradiction
    | obtain rfl := Option.some.inj h
      exact ⟨rfl, rfl, by decide⟩

private theorem isInline_escapeDigits {letter : Char} {width : Nat}
    (h : escapeDigits? letter = some width) :
    IsInline letter := by
  unfold escapeDigits? at h
  split at h
  all_goals first
    | contradiction
    | exact ⟨rfl, rfl, by decide⟩

/-- Nothing that is written between double quotes ends a line. -/
theorem isInline_of_mem_doubleQuoted {cs : List Char} {x : Char}
    (hx : x ∈ doubleQuoted cs) : IsInline x := by
  obtain ⟨ch, -, hx⟩ := List.mem_flatMap.mp hx
  by_cases hspace : ch = ' '
  · subst hspace
    obtain rfl := List.mem_singleton.mp (show x ∈ [' '] from hx)
    exact isInline_space
  · have hbackslash : IsInline '\\' := ⟨rfl, rfl, by decide⟩
    have hshown := shown_doubleQuotedChar hspace
    generalize (doubleQuotedChar ch).toList = text at hshown hx
    cases hshown with
    | letter hletter =>
        rcases List.mem_pair.mp hx with rfl | rfl
        · exact hbackslash
        · exact isInline_escapeLetter hletter
    | plain hinline hblank hquote hplain =>
        obtain rfl := List.mem_singleton.mp hx
        exact hinline
    | code hletter hdigits hwidth hcode =>
        rcases List.mem_cons.mp hx with rfl | hx
        · exact hbackslash
        · rcases List.mem_cons.mp hx with rfl | hx
          · exact isInline_escapeDigits hdigits
          · exact isInline_of_mem_upperHex hx

section

variable {c : Cursor} {ch : Char} {text rest : List Char}
  {done : List Letter} {fuel : Nat}

/-- A character other than a space is read again. -/
private theorem quotedRest_shown (htext : Shown ch text) (hc : c.rest = text ++ rest) :
    quotedRest true (fuel + 1) done c =
      quotedRest true fuel (.char ch :: done) (c.skip text.length) := by
  have hescape : ∀ letter more, text = '\\' :: letter :: more →
      quotedEscape c.next = .ok ([.char ch], c.next.skip (more.length + 1)) →
      quotedRest true (fuel + 1) done c =
        quotedRest true fuel (.char ch :: done) (c.skip text.length) := by
    rintro letter more rfl hread
    rw [List.cons_append] at hc
    rw [quotedRest, peek_cons hc, List.length_cons, skip]
    simp only [if_true, Char.reduceBEq, Bool.false_eq_true, if_false,
      Bool.true_and, hread]
    rfl
  have hnext : ∀ more, text = '\\' :: more → c.next.rest = more ++ rest := by
    rintro more rfl
    rw [rest_next, hc, List.cons_append, List.drop_succ_cons, List.drop_zero]
  cases htext with
  | letter h => exact hescape _ _ rfl (quotedEscape_of_escapeLetter? h (hnext _ rfl))
  | plain hinline hblank hquote hbackslash =>
      rw [List.cons_append] at hc
      rw [quotedRest, peek_cons hc]
      simp [hblank, hquote, hbackslash, skip]
  | code hletter hdigits hwidth hcode =>
      refine hescape _ _ rfl ?_
      rw [length_upperHex hwidth hcode]
      exact quotedEscape_hex hletter hdigits hwidth hcode (hnext _ rfl)

/-- What begins a character other than a space is neither a space nor the end of a
line. -/
private theorem Shown.head (htext : Shown ch text) (rest : List Char) :
    ∀ x ∈ (text ++ rest).head?, isBlankOrEnd x = false := by
  cases htext with
  | letter h => simp [isBlankOrEnd, isSpaceOrEnd, endsLine, isBreak, endChar]
  | plain hinline hblank hquote hbackslash => simpa using hblank
  | code hletter hdigits hwidth hcode =>
      simp [isBlankOrEnd, isSpaceOrEnd, endsLine, isBreak, endChar]

/-- Spaces that something else on the line comes after are read as they are. -/
theorem quotedSpace_spaces {k : Nat}
    {next : Char} (hc : c.rest = List.replicate k ' ' ++ next :: rest)
    (hnext : isBlankOrEnd next = false) :
    quotedSpace c = .ok (List.replicate k ' ', c.skip k) := by
  obtain ⟨hspace, htab, hend, hbreak⟩ := isBlankOrEnd_eq_false_iff.mp hnext
  have hrun : c.takeWhile isBlankChar = (List.replicate k ' ', c.skip k) := by
    rw [takeWhile_eq hc (by simp [isBlankChar]) (by simp [isBlankChar, hspace, htab]),
      List.length_replicate]
  have hafter : (c.skip k).rest = next :: rest := by
    rw [rest_skip, hc, List.drop_left' (by simp)]
  have hpeek := peek_cons hafter
  simp [quotedSpace, hrun, hpeek, hend, hbreak]

theorem doubleQuoted_cons (cs : List Char) :
    doubleQuoted (ch :: cs) = (doubleQuotedChar ch).toList ++ doubleQuoted cs :=
  rfl

private theorem doubleQuoted_spaces (k : Nat) (cs : List Char) :
    doubleQuoted (List.replicate k ' ' ++ cs) = List.replicate k ' ' ++
      doubleQuoted cs := by
  induction k with
  | zero => rfl
  | succ k ih =>
      have hspace : (doubleQuotedChar ' ').toList = [' '] := rfl
      rw [List.replicate_succ, List.cons_append, doubleQuoted_cons, ih, hspace]
      rfl

/-- What comes after spaces is no space, be it a character of the text or the
closing quote. -/
private theorem head_doubleQuoted {cs : List Char} (hcs : ∀ x ∈ cs.head?, x ≠ ' ')
    (tail : List Char) :
    ∃ next rest, doubleQuoted cs ++ '"' :: tail = next :: rest ∧
      isBlankOrEnd next = false := by
  cases cs with
  | nil => exact ⟨'"', tail, rfl, rfl⟩
  | cons x xs =>
      have hhead :=
        (shown_doubleQuotedChar (hcs x rfl)).head (doubleQuoted xs ++ '"' :: tail)
      rw [doubleQuoted_cons, List.append_assoc]
      cases hchars : (doubleQuotedChar x).toList ++
        (doubleQuoted xs ++ '"' :: tail) with
      | nil => simp at hchars
      | cons next rest => exact ⟨next, rest, rfl, hhead next (by rw [hchars]; rfl)⟩

/-- A text is read up to its closing quote. -/
private theorem quotedRest_double {cs tail : List Char}
    (hc : c.rest = doubleQuoted cs ++ '"' :: tail) (hfuel : cs.length < fuel) :
    quotedRest true fuel done c =
      .ok (done.reverse ++ cs.map .char, c.skip ((doubleQuoted cs).length + 1)) := by
  induction hlength : cs.length using Nat.strongRecOn generalizing cs c done fuel with
  | ind n ih =>
      obtain ⟨fuel, rfl⟩ : ∃ f, fuel = f + 1 := ⟨fuel - 1, by omega⟩
      obtain ⟨k, more, hsplit, hmore⟩ := exists_leading_spaces cs
      cases k with
      | zero =>
          cases cs with
          | nil =>
              rw [quotedRest, peek_cons (show c.rest = '"' :: tail from hc)]
              simp [doubleQuoted, skip]
          | cons ch cs =>
              have hch : ch ≠ ' ' := hmore ch
                (by rw [← List.nil_append more, ← List.replicate_zero, ← hsplit]; rfl)
              rw [doubleQuoted_cons, List.append_assoc] at hc
              simp only [List.length_cons] at hlength hfuel
              rw [quotedRest_shown (shown_doubleQuotedChar hch) hc,
                ih cs.length (by omega) (rest_skip_length hc) (by omega)
                  rfl, ← skip_add, doubleQuoted_cons,
                List.length_append, Nat.add_assoc, List.reverse_cons, List.append_assoc,
                  List.singleton_append, List.map_cons]
      | succ k =>
          subst hsplit
          rw [doubleQuoted_spaces, List.append_assoc] at hc
          obtain ⟨next, rest, hrest, hnext⟩ := head_doubleQuoted hmore tail
          have hspace := quotedSpace_spaces (hrest ▸ hc) hnext
          have hpeek : c.peek = ' ' := peek_cons hc
          simp only [List.length_append, List.length_replicate] at hlength hfuel
          have hafter : (c.skip (k + 1)).rest = doubleQuoted more ++ '"' :: tail := by
            rw [rest_skip, hc, List.drop_left' (by simp)]
          rw [quotedRest, hpeek, hspace]
          simp only [if_true, Char.reduceBEq, Bool.false_eq_true, if_false,
            Bool.and_false, ok_bind, show isBlankOrEnd ' ' = true from rfl]
          rw [ih more.length (by omega) hafter (by omega) rfl, ← skip_add,
            doubleQuoted_spaces, List.length_append, List.length_replicate,
            Nat.add_assoc (k + 1), List.reverse_append, List.reverse_reverse,
            List.append_assoc, List.map_append]

private theorem length_le_doubleQuoted (cs : List Char) :
    cs.length ≤ (doubleQuoted cs).length := by
  induction cs with
  | nil => exact Nat.le_refl _
  | cons ch cs ih =>
      have hchar : (doubleQuotedChar ch).toList.length ≠ 0 := by
        by_cases hspace : ch = ' '
        · subst hspace
          simp [doubleQuotedChar, escapeLetter?]
        · cases hshown : (doubleQuotedChar ch).toList with
          | nil => exact absurd (hshown ▸ shown_doubleQuotedChar hspace) (by rintro ⟨⟩)
          | cons x xs => simp
      rw [doubleQuoted_cons, List.length_append, List.length_cons]
      omega

/-- A text that was written between double quotes is read again. -/
theorem quotedScalar_double {cs tail : List Char}
    (hc : c.rest = '"' :: (doubleQuoted cs ++ '"' :: tail)) :
    quotedScalar c = .ok (cs.map .char, c.skip ((doubleQuoted cs).length + 2)) := by
  have hnext : c.next.rest = doubleQuoted cs ++ '"' :: tail := by
    rw [rest_next, hc, List.drop_succ_cons, List.drop_zero]
  have hlength := length_le_doubleQuoted cs
  rw [quotedScalar, peek_cons hc, beq_self_eq_true,
    quotedRest_double hnext (by rw [hc]; simp; omega)]
  rfl

end

end ApiWorkbench.Yaml
