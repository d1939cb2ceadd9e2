import Mathlib.Algebra.Group.Nat.Defs
import ApiWorkbench.Proofs.Digits
import ApiWorkbench.Text.Percent
import ApiWorkbench.Value.Literal

/-!
# Letters and the digits of their codes

A code is written in lowercase hexadecimal digits, with zeros before them where it has
to have a certain length. The digits spell the code, and there are as many as were asked
for if the code is small enough.

Letters without halves of surrogate pairs are a whole text, and all others
are a torn one.

## Main results

* `spelled_paddedHex`: the digits of a code spell it.
* `length_paddedHex`: how many digits there are.
* `Text.Letter.ofCode_code`: a letter is the one with its code.
* `Scalar.ofLetters_chars`: the text of characters.
-/

namespace ApiWorkbench

/-! ## Digits of a code -/

/-- The characters of a text with some more of one kind at its end. -/
theorem toList_pushn (s : String) (c : Char) (k : Nat) :
    (s.pushn c k).toList = s.toList ++ List.replicate k c := by
  induction k with
  | zero => simp [String.pushn_eq_repeat_push, Nat.repeat]
  | succ k ih =>
      rw [String.pushn_eq_repeat_push] at ih ⊢
      rw [Nat.repeat, String.toList_push, ih, List.append_assoc, List.replicate_succ']

/-- The number that hexadecimal digits spell after a number that is spelled already. -/
def spelled (start : Nat) (digits : List Char) : Option Nat :=
  digits.foldlM (fun n c => (Text.hexDigit? c).map (16 * n + ·)) start

private theorem hexDigit?_lower :
    ∀ d, d < 16 → Text.hexDigit? d.digitChar = some d := by
  decide

private theorem spelled_toDigits (k n : Nat) :
    spelled 0 (List.replicate k '0' ++ Nat.toDigits 16 n) = some n :=
  foldlM_toDigits (by decide)
    (fun total d hd => by rw [hexDigit?_lower d hd, Option.map_some]) k n

private theorem toList_paddedHex (width n : Nat) :
    (paddedHex width n).toList =
      List.replicate (width - (Nat.toDigits 16 n).length) '0' ++ Nat.toDigits 16 n := by
  simp [paddedHex, toList_pushn]

/-- The digits of a code spell it, whatever zeros are before them. -/
theorem spelled_paddedHex (width n : Nat) :
    spelled 0 (paddedHex width n).toList = some n := by
  rw [toList_paddedHex, spelled_toDigits]

theorem length_paddedHex {width n : Nat} (hwidth : 0 < width) (hn : n < 16 ^ width) :
    (paddedHex width n).toList.length = width := by
  have hlength : (Nat.toDigits 16 n).length ≤ width :=
    (Nat.length_toDigits_le_iff (by omega) hwidth).mpr hn
  rw [toList_paddedHex, List.length_append, List.length_replicate]
  omega

/-! ## Letters -/

namespace Text

theorem Letter.ofCode_code (letter : Letter) : Letter.ofCode letter.code = letter := by
  cases letter with
  | char c =>
      have hvalid : c.toNat < 0xd800 ∨ 0xdfff < c.toNat ∧ c.toNat < 0x110000 := c.valid
      have hnoHalf : ¬ (0xd800 ≤ c.toNat ∧ c.toNat < 0xe000) := by omega
      rw [Letter.ofCode, Letter.code, dif_neg hnoHalf, Char.ofNat_toNat]
  | half index =>
      have hhalf : 0xd800 ≤ 0xd800 + index.val ∧ 0xd800 + index.val < 0xe000 := by omega
      rw [Letter.ofCode, Letter.code, dif_pos hhalf]
      simp only [Nat.add_sub_cancel_left, Fin.eta]

/-- Characters are no halves of surrogate pairs, and are shown as they are. -/
theorem not_any_isHalf_chars (cs : List Char) :
    ¬ (cs.map Letter.char).any Letter.isHalf = true := by
  simp [Letter.isHalf]

theorem map_shown_chars (cs : List Char) :
    (cs.map Letter.char).map Letter.shown = cs := by
  simp [Function.comp_def, Letter.shown]

/-- A torn text has letters. -/
theorem Torn.letters_ne_nil (text : Torn) : text.letters ≠ [] := by
  intro h
  have htorn := text.isTorn
  rw [h] at htorn
  exact absurd htorn Bool.false_ne_true

end Text

namespace Scalar

theorem ofLetters_chars (cs : List Char) :
    ofLetters (cs.map .char) = .str (String.ofList cs) := by
  rw [ofLetters, dif_neg (Text.not_any_isHalf_chars cs), Text.map_shown_chars]

end Scalar

end ApiWorkbench
