import Mathlib.Algebra.Group.Nat.Defs
import ApiWorkbench.Text.CharSet

/-!
# Reading digits

The digits of a number are read from the left: each one is added to what those before
it make, times the base. Where a reader gives every digit of the base its value, it
reads the digits that a number was written with as that number, and zeros before them
do not matter.

## Main results

* `foldlM_toDigits`: the digits of a number are read as that number.
* `Text.decimalNumber?_toString`: so the text of a number spells it.
* `Text.decimalNumber?_eq_none_iff`: which texts spell no number.
-/

namespace ApiWorkbench

section

variable {base : Nat} {read : Nat → Char → Option Nat}

private theorem foldlM_zeros (hbase : 1 < base)
    (hread : ∀ total d, d < base → read total d.digitChar = some (base * total + d))
    (k : Nat) :
    (List.replicate k '0').foldlM read 0 = some 0 := by
  induction k with
  | zero => rfl
  | succ k ih =>
      have hzero : read 0 '0' = some 0 := hread 0 0 (by omega)
      rw [List.replicate_succ, List.foldlM_cons, hzero]
      exact ih

/-- The digits of a number, perhaps with zeros before them, are read as that number. -/
theorem foldlM_toDigits (hbase : 1 < base)
    (hread : ∀ total d, d < base → read total d.digitChar = some (base * total + d))
    (k n : Nat) :
    (List.replicate k '0' ++ Nat.toDigits base n).foldlM read 0 = some n := by
  induction n using Nat.strongRecOn with
  | ind n ih =>
      by_cases hn : n < base
      · rw [Nat.toDigits_of_lt_base hn, List.foldlM_append, foldlM_zeros hbase hread k]
        simpa using hread 0 n hn
      · have hlast := hread (n / base) (n % base) (Nat.mod_lt n (by omega))
        rw [Nat.div_add_mod] at hlast
        rw [Nat.toDigits_of_base_le hbase (by omega), ← List.append_assoc,
          List.foldlM_append, ih (n / base) (Nat.div_lt_self (by omega) hbase)]
        simpa using hlast

/-- Different numbers have different digits. -/
theorem toDigits_inj {m n : Nat} : Nat.toDigits 10 m = Nat.toDigits 10 n ↔ m = n := by
  constructor
  · intro h
    simpa using congrArg (fun digits => Nat.ofDigitChars 10 digits 0) h
  · rintro rfl
    rfl

/-- Every digit of a number has a value. -/
theorem exists_of_mem_toDigits (hbase : 1 < base) {n : Nat} {c : Char}
    (hc : c ∈ Nat.toDigits base n) :
    ∃ d < base, c = d.digitChar := by
  induction n using Nat.strongRecOn with
  | ind n ih =>
      by_cases hn : n < base
      · rw [Nat.toDigits_of_lt_base hn, List.mem_singleton] at hc
        exact ⟨n, hn, hc⟩
      · rw [Nat.toDigits_of_base_le hbase (by omega), List.mem_append,
          List.mem_singleton] at hc
        rcases hc with hc | hc
        · exact ih (n / base) (Nat.div_lt_self (by omega) hbase) hc
        · exact ⟨n % base, Nat.mod_lt n (by omega), hc⟩

end

/-! ## Decimal digits -/

namespace Text

theorem decimalDigit?_digitChar : ∀ d, d < 10 → decimalDigit? d.digitChar = some d := by
  decide

theorem isDigit_of_mem_toDigits {n : Nat} {c : Char} (hc : c ∈ Nat.toDigits 10 n) :
    isDigit c = true := by
  obtain ⟨d, hd, rfl⟩ := exists_of_mem_toDigits (by decide) hc
  rw [isDigit, decimalDigit?_digitChar d hd]
  rfl

/-- The text of a number spells it. -/
theorem decimalNumber?_toString (n : Nat) : decimalNumber? (toString n) = some n := by
  have hsome : (toString n).isEmpty = false := by
    simp [← String.toList_eq_nil_iff, Nat.toList_repr, Nat.toDigits_ne_nil]
  rw [decimalNumber?, hsome, if_neg (by decide), Nat.toString_eq_repr, Nat.toList_repr]
  exact foldlM_toDigits (by decide)
    (fun total d hd => by rw [decimalDigit?_digitChar d hd, Option.map_some]) 0 n

private theorem foldlM_decimal_eq_none_iff {cs : List Char} {total : Nat} :
    cs.foldlM (fun total c => (decimalDigit? c).map (10 * total + ·)) total = none ↔
      ∃ c ∈ cs, decimalDigit? c = none := by
  induction cs generalizing total with
  | nil => simp
  | cons c cs ih => cases hc : decimalDigit? c <;> simp [hc, ih]

/-- A text spells no number exactly if it is empty or has a character that is no
decimal digit. -/
theorem decimalNumber?_eq_none_iff {text : String} :
    decimalNumber? text = none ↔ text = "" ∨ ∃ c ∈ text.toList,
      decimalDigit? c = none := by
  unfold decimalNumber?
  split
  · rename_i hempty
    simp [String.isEmpty_iff.mp hempty]
  · rename_i hsome
    rw [foldlM_decimal_eq_none_iff, or_iff_right (mt String.isEmpty_iff.mpr hsome)]

end Text

end ApiWorkbench
