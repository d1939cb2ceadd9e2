import Mathlib.Algebra.Group.Nat.Defs
import Mathlib.Data.List.TakeDrop
import ApiWorkbench.Proofs.Json.Strings

/-!
# Numbers in JSON texts

An unsigned number is a run of digits, perhaps with a fraction and an exponent after it.
`Numeral` has these parts; what the reader makes of them does not depend on what
follows, as long as that does not carry the number on. Integers are written as numerals
with nothing but digits, finite doubles as numerals with a fraction or an exponent.

## Main results

* `readNumber_text`: what a numeral is read as.
* `readNumber_integer`: an integer that may be written is read again.
* `finiteText_numeral`: finite doubles are written as numerals.
-/

namespace ApiWorkbench.Json

/-! ## Digits -/

theorem isDecimalDigit_eq_isDigit (c : Char) : isDecimalDigit c = c.isDigit := by
  rw [Bool.eq_iff_iff]
  simp [isDecimalDigit, Char.isDigit, Char.le_def]

/-- A character that no digit is. -/
private theorem digit_ne {c d : Char} (hc : isDecimalDigit c = true)
    (hd : isDecimalDigit d = false) : c ≠ d := by
  rintro rfl
  rw [hc] at hd
  contradiction

theorem isDecimalDigit_of_mem_toDigits {n : Nat} {c : Char}
    (h : c ∈ Nat.toDigits 10 n) : isDecimalDigit c = true := by
  rw [isDecimalDigit_eq_isDigit]
  exact Nat.isDigit_of_mem_toDigits (by decide) (by decide) h

theorem digitsNumber_toDigits (n : Nat) : digitsNumber (Nat.toDigits 10 n) = n :=
  Nat.ofDigitChars_ten_toDigits

/-- Digits that do not start with a zero, unless they are nothing but that zero. -/
def StartsWell (digits : List Char) : Prop :=
  digits = ['0'] ∨ ∃ c rest, digits = c :: rest ∧ c ≠ '0'

theorem StartsWell.append {digits : List Char} (h : StartsWell digits)
    (hzero : digits ≠ ['0']) (more : List Char) :
    StartsWell (digits ++ more) := by
  obtain rfl | ⟨c, rest, rfl, hc⟩ := h
  · contradiction
  · exact .inr ⟨c, rest ++ more, rfl, hc⟩

theorem startsWell_toDigits (n : Nat) : StartsWell (Nat.toDigits 10 n) := by
  induction n using Nat.strongRecOn with
  | ind n ih =>
      by_cases hn : n < 10
      · rw [Nat.toDigits_of_lt_base hn]
        by_cases hzero : n = 0
        · exact .inl (by rw [hzero]; rfl)
        · exact .inr ⟨_, _, rfl, by simpa using hzero⟩
      · rw [Nat.toDigits_of_base_le (by decide) (by omega)]
        refine (ih (n / 10) (by omega)).append ?_ _
        -- only zero is written as a single zero
        intro heq
        have hvalue : n / 10 = 0 := by
          rw [← digitsNumber_toDigits (n / 10), heq]
          rfl
        omega

/-- Only zero is written as a single zero. -/
theorem toDigits_ne_zero {n : Nat} (h : n ≠ 0) : Nat.toDigits 10 n ≠ ['0'] := by
  intro heq
  rw [← digitsNumber_toDigits n, heq] at h
  exact h rfl

/-! ## Numerals -/

/-- The parts of an unsigned number. -/
structure Numeral where
  whole : List Char
  fraction : List Char
  /-- whether it is negative, and its digits -/
  exponent : Option (Bool × List Char)

namespace Numeral

/-- The point and the digits after it. -/
def fractionText (n : Numeral) : List Char :=
  if n.fraction = [] then [] else '.' :: n.fraction

/-- The exponent with its letter and its sign. -/
def exponentText (n : Numeral) : List Char :=
  match n.exponent with
  | some (negative, digits) => 'e' :: (if negative then '-' else '+') :: digits
  | none => []

/-- The characters of a number. -/
def text (n : Numeral) : List Char :=
  n.whole ++ (n.fractionText ++ n.exponentText)

/-- The exponent as a number. -/
def power? (n : Numeral) : Option Int :=
  n.exponent.map fun e => if e.1 then -(digitsNumber e.2 : Int) else digitsNumber e.2

/-- All parts are made of digits, and the whole part does not start with a zero that
is not needed. -/
structure WellFormed (n : Numeral) : Prop where
  whole : ∀ c ∈ n.whole, isDecimalDigit c = true
  startsWell : StartsWell n.whole
  fraction : ∀ c ∈ n.fraction, isDecimalDigit c = true
  exponent : ∀ e, n.exponent = some e → e.2 ≠ [] ∧ ∀ c ∈ e.2, isDecimalDigit c = true

/-- There is a fraction or an exponent. -/
def IsFloat (n : Numeral) : Prop :=
  n.fraction ≠ [] ∨ n.exponent ≠ none

end Numeral

/-- What does not carry a number on. -/
def EndsNumber (rest : List Char) : Prop :=
  ∀ c, rest.head? = some c → isDecimalDigit c = false ∧ c ≠ '.' ∧ c ≠ 'e' ∧ c ≠ 'E'

theorem endsNumber_nil : EndsNumber [] := by
  intro c hc
  simp at hc

/-- A run of digits ends where no digit follows. -/
private theorem span_digits {digits rest : List Char}
    (h : ∀ c ∈ digits, isDecimalDigit c = true)
    (hrest : ∀ c, rest.head? = some c → isDecimalDigit c = false) :
    (digits ++ rest).span isDecimalDigit = (digits, rest) := by
  rw [List.span_eq_takeWhile_dropWhile, List.takeWhile_append_of_pos h,
    List.dropWhile_append_of_pos h]
  cases rest with
  | nil => simp
  | cons c rest =>
      have hc : isDecimalDigit c = false := hrest c rfl
      simp [hc]

section

variable {n : Numeral} {rest : List Char}

private theorem readExponent_text (hn : n.WellFormed) (hrest : EndsNumber rest) :
    readExponent (n.exponentText ++ rest) = (n.power?, rest) := by
  obtain ⟨whole, fraction, exponent⟩ := n
  cases exponent with
  | none =>
      cases rest with
      | nil => rfl
      | cons c rest =>
          obtain ⟨-, -, he, hE⟩ := hrest c rfl
          have hnot : (c == 'e' || c == 'E') = false := by simp [he, hE]
          show readExponent (c :: rest) = _
          simp only [readExponent, hnot]
          rfl
  | some e =>
      obtain ⟨negative, digits⟩ := e
      obtain ⟨hne, hdigits⟩ := hn.exponent _ rfl
      have hspan := span_digits hdigits fun c hc => (hrest c hc).1
      obtain ⟨d, ds, rfl⟩ := List.exists_cons_of_ne_nil hne
      cases negative with
      | false =>
          show readExponent ('e' :: '+' :: (d :: ds ++ rest)) = _
          simp only [readExponent, hspan]
          rfl
      | true =>
          show readExponent ('e' :: '-' :: (d :: ds ++ rest)) = _
          simp only [readExponent, hspan]
          rfl

/-- What comes after the digits of a number does not carry the digits on. -/
private theorem head_exponentText (hrest : EndsNumber rest) {c : Char}
    (hc : (n.exponentText ++ rest).head? = some c) :
    isDecimalDigit c = false ∧ c ≠ '.' := by
  unfold Numeral.exponentText at hc
  split at hc
  · obtain rfl : 'e' = c := Option.some.inj hc
    decide
  · obtain ⟨hdigit, hpoint, -⟩ := hrest c hc
    exact ⟨hdigit, hpoint⟩

private theorem readFraction_text (hn : n.WellFormed) (hrest : EndsNumber rest) :
    readFraction (n.fractionText ++ (n.exponentText ++ rest)) =
      (n.fraction, n.exponentText ++ rest) := by
  have hhead := fun c => head_exponentText (n := n) hrest (c := c)
  generalize n.exponentText ++ rest = more at hhead
  unfold Numeral.fractionText
  by_cases hfraction : n.fraction = []
  · rw [if_pos hfraction, hfraction, List.nil_append]
    unfold readFraction
    split
    · obtain ⟨-, hpoint⟩ := hhead '.' rfl
      contradiction
    · rfl
  · rw [if_neg hfraction]
    have hspan := span_digits hn.fraction fun c hc => (hhead c hc).1
    obtain ⟨d, ds, hcons⟩ := List.exists_cons_of_ne_nil hfraction
    have hd : isDecimalDigit d = true := hn.fraction d (by simp [hcons])
    rw [hcons, List.cons_append] at hspan
    rw [hcons, List.cons_append, List.cons_append, readFraction, if_pos hd, hspan]

private theorem head_fractionText (hrest : EndsNumber rest) {c : Char}
    (hc : (n.fractionText ++ (n.exponentText ++ rest)).head? = some c) :
    isDecimalDigit c = false := by
  unfold Numeral.fractionText at hc
  split_ifs at hc
  · exact (head_exponentText hrest hc).1
  · obtain rfl : '.' = c := Option.some.inj hc
    rfl

private theorem readWhole_text (hn : n.WellFormed) (hrest : EndsNumber rest) :
    readWhole (n.text ++ rest) =
      (n.whole, n.fractionText ++ (n.exponentText ++ rest)) := by
  have hassoc : n.text ++ rest =
      n.whole ++ (n.fractionText ++ (n.exponentText ++ rest)) := by
    simp only [Numeral.text, List.append_assoc]
  have hspan := span_digits hn.whole fun c => head_fractionText (n := n) hrest
  rw [hassoc]
  rcases hn.startsWell with hzero | ⟨c, ds, hcons, hc⟩
  · rw [hzero]
    rfl
  · rw [hcons, List.cons_append, readWhole, ← List.cons_append, ← hcons, hspan]
    intro more heq
    injection heq with heq
    exact hc heq

/-- What an unsigned number is read as. -/
theorem readNumber_text (hn : n.WellFormed) (hrest : EndsNumber rest) (negative : Bool)
    (start : List Char) :
    readNumber negative start (n.text ++ rest) =
      if n.fraction.isEmpty && n.power?.isNone then
        if maxDigits < n.whole.length then .error .tooManyDigits
        else .ok (.int (if negative then -(digitsNumber n.whole : Int) else digitsNumber
          n.whole), rest)
      else
        .ok (.float (.ofDecimal negative (digitsNumber (n.whole ++ n.fraction))
          (n.power?.getD 0 - n.fraction.length)), rest) := by
  have hwhole : n.whole.isEmpty = false := by
    rcases hn.startsWell with hzero | ⟨c, ds, hcons, -⟩
    · rw [hzero]
      rfl
    · rw [hcons]
      rfl
  unfold readNumber
  rw [readWhole_text hn hrest]
  simp only [hwhole, readFraction_text hn hrest, readExponent_text hn hrest]
  rfl

/-! ## Numbers among the atoms -/

/-- No word starts like a number. -/
private theorem readAtom_of_digit {c : Char} (hc : isDecimalDigit c = true)
    (negative : Bool) (cs : List Char) :
    readAtom (if negative then '-' :: c :: cs else c :: cs) =
      readNumber negative (if negative then '-' :: c :: cs else c :: cs) (c :: cs) := by
  have hn : c ≠ 'n' := digit_ne hc rfl
  have ht : c ≠ 't' := digit_ne hc rfl
  have hf : c ≠ 'f' := digit_ne hc rfl
  have hN : c ≠ 'N' := digit_ne hc rfl
  have hI : c ≠ 'I' := digit_ne hc rfl
  have hminus : c ≠ '-' := digit_ne hc rfl
  cases negative with
  | true =>
      simp [readAtom, hI.symm]
  | false =>
      simp [readAtom, hn.symm, ht.symm, hf.symm, hN.symm, hI.symm, hminus.symm]
      split
      · rename_i heq
        injection heq with heq
        exact absurd heq hminus
      · rfl

theorem readAtom_text (hn : n.WellFormed) (rest : List Char) (negative : Bool) :
    readAtom ((if negative then ['-'] else []) ++ (n.text ++ rest)) =
      readNumber negative ((if negative then ['-'] else []) ++ (n.text ++ rest))
        (n.text ++ rest) := by
  obtain ⟨c, cs, hcons⟩ : ∃ c cs, n.whole = c :: cs := by
    rcases hn.startsWell with hzero | ⟨c, ds, hcons, -⟩
    · exact ⟨_, _, hzero⟩
    · exact ⟨_, _, hcons⟩
  have hc : isDecimalDigit c = true := hn.whole c (by simp [hcons])
  have htext : n.text ++ rest =
      c :: (cs ++ (n.fractionText ++ n.exponentText) ++ rest) := by
    rw [Numeral.text, hcons, List.cons_append, List.cons_append]
  have hatom :=
    readAtom_of_digit hc negative (cs ++ (n.fractionText ++ n.exponentText) ++ rest)
  rw [htext]
  cases negative <;> exact hatom

end

/-! ## Integers -/

/-- A natural number as a numeral. -/
def integerNumeral (n : Nat) : Numeral :=
  ⟨Nat.toDigits 10 n, [], none⟩

theorem integerNumeral_wellFormed (n : Nat) : (integerNumeral n).WellFormed where
  whole := fun _ => isDecimalDigit_of_mem_toDigits
  startsWell := startsWell_toDigits n
  fraction := fun c hc => by simp [integerNumeral] at hc
  exponent := fun e he => by simp [integerNumeral] at he

theorem toList_toString (n : Int) :
    (toString n).toList = (if n < 0 then ['-'] else []) ++
      (integerNumeral n.natAbs).text := by
  have htext : (integerNumeral n.natAbs).text = Nat.toDigits 10 n.natAbs :=
    List.append_nil _
  rw [htext, Int.toString_eq_repr, Int.repr_eq_if]
  by_cases hn : n < 0
  · have habs : (-n).toNat = n.natAbs := by omega
    have hminus : "-".toList = ['-'] := rfl
    rw [if_neg (by omega), if_pos hn, String.toList_append,
      Nat.toList_repr, habs, hminus]
  · have habs : n.toNat = n.natAbs := by omega
    rw [if_pos (by omega), if_neg hn, Nat.toList_repr, habs, List.nil_append]

theorem natAbs_lt_of_isWritable {n : Int} (h : isWritable n = true) :
    n.natAbs < 10 ^ maxDigits := by
  unfold isWritable at h
  -- the power is too large to be evaluated
  generalize maxDigits = digits at h ⊢
  exact of_decide_eq_true h

theorem isWritable_of_natAbs_lt {n : Int} (h : n.natAbs < 10 ^ 2) :
    isWritable n = true := by
  have hdigits : 2 ≤ maxDigits := by decide
  unfold isWritable
  generalize maxDigits = digits at hdigits ⊢
  exact decide_eq_true (Nat.lt_of_lt_of_le h (Nat.pow_le_pow_right (by decide) hdigits))

/-- The digits of an integer that may be written are read as that integer. -/
theorem readNumber_integer {n : Int} (h : isWritable n = true) {rest : List Char}
    (hrest : EndsNumber rest) {start : List Char} :
    readNumber (decide (n < 0)) start ((integerNumeral n.natAbs).text ++ rest) =
      .ok (.int n, rest) := by
  have hlength : ¬ maxDigits < (integerNumeral n.natAbs).whole.length := by
    have hle := (Nat.length_toDigits_le_iff (by decide) (by decide)).mpr
      (natAbs_lt_of_isWritable h)
    exact Nat.not_lt.mpr hle
  have hvalue : (if decide (n < 0) = true
      then -(digitsNumber (integerNumeral n.natAbs).whole : Int)
      else digitsNumber (integerNumeral n.natAbs).whole) = n := by
    simp only [integerNumeral, digitsNumber_toDigits, decide_eq_true_eq]
    split <;> omega
  have hinteger : ((integerNumeral n.natAbs).fraction.isEmpty &&
      (integerNumeral n.natAbs).power?.isNone) = true := rfl
  rw [readNumber_text (integerNumeral_wellFormed n.natAbs) hrest, if_pos hinteger,
    if_neg hlength, hvalue]

/-! ## Doubles -/

/-- A number with digits after a point and without an exponent. -/
private theorem wellFormed_plain {whole fraction : List Char}
    (hwhole : ∀ c ∈ whole, isDecimalDigit c = true) (hstart : StartsWell whole)
    (hfraction : ∀ c ∈ fraction, isDecimalDigit c = true) :
    Numeral.WellFormed ⟨whole, fraction, none⟩ :=
  ⟨hwhole, hstart, hfraction, fun _ he => by simp at he⟩

/-- A number with a single digit before its point and an exponent. -/
private theorem wellFormed_scientific {c : Char} {fraction size : List Char}
    (hc : isDecimalDigit c = true) (hfraction : ∀ d ∈ fraction, isDecimalDigit d = true)
    (hne : size ≠ []) (hsize : ∀ d ∈ size, isDecimalDigit d = true) (negative : Bool) :
    Numeral.WellFormed ⟨[c], fraction, some (negative, size)⟩ := by
  refine ⟨?_, ?_, hfraction, ?_⟩
  · intro d hd
    rwa [List.mem_singleton.mp hd]
  · by_cases hzero : c = '0'
    · exact .inl (by rw [hzero])
    · exact .inr ⟨c, [], rfl, hzero⟩
  · intro e he
    obtain rfl := Option.some.inj he
    exact ⟨hne, hsize⟩

private theorem isDecimalDigit_of_mem_zeros {k : Nat} {c : Char}
    (h : c ∈ List.replicate k '0') :
    isDecimalDigit c = true := by
  rw [List.eq_of_mem_replicate h]
  rfl

section

variable {digits : Nat}

private theorem toList_toString_nat :
    (toString digits).toList = Nat.toDigits 10 digits :=
  Nat.toList_repr

/-- A zero, the point, zeros and the digits. -/
private theorem smallText_numeral (k : Nat) :
    ∃ n : Numeral, n.WellFormed ∧ n.IsFloat ∧
      ("0.".pushn '0' k ++ toString digits).toList = n.text := by
  refine ⟨⟨['0'], List.replicate k '0' ++ Nat.toDigits 10 digits, none⟩,
    wellFormed_plain ?_ (.inl rfl) ?_, .inl (by simp), ?_⟩
  · intro c hc
    rw [List.mem_singleton.mp hc]
    rfl
  · intro c hc
    rcases List.mem_append.mp hc with hc | hc
    · exact isDecimalDigit_of_mem_zeros hc
    · exact isDecimalDigit_of_mem_toDigits hc
  · have hstart : "0.".toList = ['0', '.'] := rfl
    simp [Numeral.text, Numeral.fractionText, Numeral.exponentText,
      toList_pushn, hstart]

/-- The digits, zeros, the point and a zero; a single zero takes no others. -/
private theorem largeText_numeral {k : Nat} (h : digits = 0 → k = 0) :
    ∃ n : Numeral, n.WellFormed ∧ n.IsFloat ∧
      ((toString digits).pushn '0' k ++ ".0").toList = n.text := by
  refine ⟨⟨Nat.toDigits 10 digits ++ List.replicate k '0', ['0'], none⟩,
    wellFormed_plain ?_ ?_ ?_, .inl (by simp), ?_⟩
  · intro c hc
    rcases List.mem_append.mp hc with hc | hc
    · exact isDecimalDigit_of_mem_toDigits hc
    · exact isDecimalDigit_of_mem_zeros hc
  · by_cases hzero : digits = 0
    · exact .inl (by rw [h hzero, hzero]; rfl)
    · exact (startsWell_toDigits digits).append (toDigits_ne_zero hzero) _
  · intro c hc
    rw [List.mem_singleton.mp hc]
    rfl
  · have hend : ".0".toList = ['.', '0'] := rfl
    simp [Numeral.text, Numeral.fractionText, Numeral.exponentText, toList_pushn, hend]

/-- The digits with the point among them. -/
private theorem mixedText_numeral {k : Nat} (hpos : 0 < k)
    (hlt : k < (Nat.toDigits 10 digits).length) :
    ∃ n : Numeral, n.WellFormed ∧ n.IsFloat ∧
      (Nat.toDigits 10 digits).take k ++ '.' :: (Nat.toDigits 10 digits).drop k =
        n.text := by
  have hdrop : (Nat.toDigits 10 digits).drop k ≠ [] := by
    rw [Ne, List.drop_eq_nil_iff]
    omega
  refine ⟨⟨(Nat.toDigits 10 digits).take k, (Nat.toDigits 10 digits).drop k, none⟩,
    wellFormed_plain ?_ ?_ ?_, .inl hdrop, ?_⟩
  · exact fun c hc => isDecimalDigit_of_mem_toDigits (List.mem_of_mem_take hc)
  · obtain hzero | ⟨c, rest, hcons, hc⟩ := startsWell_toDigits digits
    · rw [hzero, List.length_singleton] at hlt
      omega
    · obtain ⟨k, rfl⟩ := Nat.exists_eq_succ_of_ne_zero (by omega : k ≠ 0)
      rw [hcons, List.take_succ_cons]
      exact .inr ⟨_, _, rfl, hc⟩
  · exact fun c hc => isDecimalDigit_of_mem_toDigits (List.mem_of_mem_drop hc)
  · simp [Numeral.text, Numeral.fractionText, Numeral.exponentText, hdrop]

/-- A digit, perhaps more of them after a point, and an exponent of at least two
digits. -/
private theorem scientificText_numeral {c : Char} {fraction : List Char}
    (hc : isDecimalDigit c = true) (hfraction : ∀ d ∈ fraction, isDecimalDigit d = true)
    (power : Int) :
    ∃ n : Numeral, n.WellFormed ∧ n.IsFloat ∧
      c :: ((if fraction = [] then [] else '.' :: fraction) ++
        ("e" ++ (if power < 0 then "-" else "+") ++
          (if (toString power.natAbs).length < 2 then "0" ++ toString power.natAbs
            else toString power.natAbs)).toList) = n.text := by
  have he : "e".toList = ['e'] := rfl
  have hsign : (if power < 0 then "-" else "+").toList =
      [if decide (power < 0) = true then '-' else '+'] := by
    simp only [decide_eq_true_eq]
    split <;> rfl
  obtain ⟨size, hsize⟩ : ∃ size, size = (if (toString power.natAbs).length <
      2 then "0" ++ toString power.natAbs else toString power.natAbs).toList := ⟨_, rfl⟩
  have hdigits : ∀ d ∈ Nat.toDigits 10 power.natAbs, isDecimalDigit d = true := fun _ =>
    isDecimalDigit_of_mem_toDigits
  have hwell : size ≠ [] ∧ ∀ d ∈ size, isDecimalDigit d = true := by
    have hzero : "0".toList = ['0'] := rfl
    rw [hsize]
    split
    · rw [String.toList_append, toList_toString_nat, hzero]
      refine ⟨by simp, fun d hd => ?_⟩
      rcases List.mem_cons.mp hd with rfl | hd
      · rfl
      · exact hdigits d hd
    · rw [toList_toString_nat]
      exact ⟨Nat.toDigits_ne_nil, hdigits⟩
  refine ⟨_, wellFormed_scientific hc hfraction hwell.1 hwell.2 (decide (power < 0)),
    .inr (by simp), ?_⟩
  rw [String.toList_append, String.toList_append, he, hsign, ← hsize]
  simp [Numeral.text, Numeral.fractionText, Numeral.exponentText]

end

/-- The notation of doubles is a numeral with a fraction or an exponent. Zero is taken
only times one. -/
theorem decimalText_numeral {digits : Nat} {exponent : Int}
    (h : digits = 0 → exponent = 0) :
    ∃ n : Numeral, n.WellFormed ∧ n.IsFloat ∧
      (Binary64.decimalText digits exponent).toList = n.text := by
  have hcount : (toString digits).length = (Nat.toDigits 10 digits).length := by
    rw [← String.length_toList, toList_toString_nat]
  unfold Binary64.decimalText
  simp only [hcount]
  split
  · split
    · exact smallText_numeral _
    · rename_i hlarge
      split
      · refine largeText_numeral fun hzero => ?_
        rw [h hzero, hzero]
        rfl
      · rename_i hmixed
        have hlt : (exponent + (Nat.toDigits 10 digits).length).toNat <
            (Nat.toDigits 10 digits).length := by
          omega
        obtain ⟨n, hn, hfloat, heq⟩ := mixedText_numeral (by omega) hlt
        refine ⟨n, hn, hfloat, ?_⟩
        have hpoint : ".".toList = ['.'] := rfl
        rw [← heq, List.splitAt_eq, toList_toString_nat]
        simp [hpoint]
  · have hdigits : ∀ d ∈ Nat.toDigits 10 digits, isDecimalDigit d = true := fun _ =>
      isDecimalDigit_of_mem_toDigits
    split
    · -- more than one digit
      rename_i first next more heq
      rw [toList_toString_nat] at heq
      have hfirst : isDecimalDigit first = true := hdigits first (by simp [heq])
      have hmore : ∀ d ∈ next :: more, isDecimalDigit d = true := by
        intro d hd
        exact hdigits d (by rw [heq]; exact List.mem_cons_of_mem _ hd)
      obtain ⟨n, hn, hfloat, htext⟩ := scientificText_numeral hfirst hmore
        (exponent + (Nat.toDigits 10 digits).length - 1)
      refine ⟨n, hn, hfloat, ?_⟩
      rw [← htext]
      simp
    · rename_i hsingle
      rw [toList_toString_nat] at hsingle
      obtain ⟨c, hc⟩ : ∃ c, Nat.toDigits 10 digits = [c] := by
        obtain ⟨c, rest, hcons⟩ :=
          List.exists_cons_of_ne_nil (Nat.toDigits_ne_nil (n := digits) (b := 10))
        cases rest with
        | nil => exact ⟨c, hcons⟩
        | cons next more => exact absurd hcons (hsingle c next more)
      have hdigit : isDecimalDigit c = true := hdigits c (by simp [hc])
      have hnone : ∀ d ∈ ([] : List Char), isDecimalDigit d = true := by simp
      obtain ⟨n, hn, hfloat, htext⟩ := scientificText_numeral hdigit hnone
        (exponent + (Nat.toDigits 10 digits).length - 1)
      refine ⟨n, hn, hfloat, ?_⟩
      rw [← htext]
      simp [hc]

private theorem zeroText_numeral :
    ∃ n : Numeral, n.WellFormed ∧ n.IsFloat ∧ "0.0".toList = n.text := by
  have hzero : ∀ c ∈ ['0'], isDecimalDigit c = true := by simp [isDecimalDigit]
  exact ⟨⟨['0'], ['0'], none⟩, wellFormed_plain hzero (.inl rfl) hzero,
    .inl (by simp), rfl⟩

/-- The digits of a double are not nothing, unless they stand for one. -/
private theorem shortestDecimal_ne_zero {x : Binary64} (hx : x.isZero = false)
    (hdigits : x.shortestDecimal.1 = 0) :
    x.shortestDecimal.2 = 0 := by
  unfold Binary64.shortestDecimal at hdigits ⊢
  simp only at hdigits ⊢
  generalize hcandidates : List.flatMap _ _ = candidates at hdigits ⊢
  cases hfind : candidates.find? fun digits =>
      (Binary64.ofDecimal false digits.1 digits.2).magnitudeBits == x.magnitudeBits with
  | none => rfl
  | some found =>
      rw [hfind] at hdigits
      obtain ⟨digits, exponent⟩ := found
      obtain rfl : digits = 0 := hdigits
      -- no digits read back as zero, which this double is not
      have hback := List.find?_some hfind
      have hzero : (Binary64.ofDecimal false 0 exponent).magnitudeBits = 0 := rfl
      rw [hzero, beq_iff_eq] at hback
      rw [Binary64.isZero, ← hback] at hx
      simp at hx

/-- A finite double is written as a numeral with its sign before it. -/
theorem finiteText_numeral (x : Binary64) : ∃ n : Numeral, n.WellFormed ∧ n.IsFloat ∧
    x.finiteText.toList = (if x.isNegative then ['-'] else []) ++ n.text := by
  rcases hshortest : x.shortestDecimal with ⟨digits, exponent⟩
  obtain ⟨n, hn, hfloat, htext⟩ : ∃ n : Numeral, n.WellFormed ∧ n.IsFloat ∧
      (if x.isZero then "0.0" else Binary64.decimalText digits exponent).toList =
        n.text := by
    by_cases hzero : x.isZero = true
    · rw [if_pos hzero]
      exact zeroText_numeral
    · have hone := shortestDecimal_ne_zero (Bool.eq_false_iff.mpr hzero)
      rw [hshortest] at hone
      rw [if_neg hzero]
      exact decimalText_numeral hone
  have hminus : "-".toList = ['-'] := rfl
  refine ⟨n, hn, hfloat, ?_⟩
  rw [← htext, Binary64.finiteText, hshortest]
  by_cases hnegative : x.isNegative = true
  · rw [if_pos hnegative, if_pos hnegative, String.toList_append, hminus]
  · rw [if_neg hnegative, if_neg hnegative, List.nil_append]

end ApiWorkbench.Json
