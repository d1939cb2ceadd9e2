import ApiWorkbench.Proofs.Digits
import ApiWorkbench.Proofs.Json.Numbers
import ApiWorkbench.Proofs.TextParts
import ApiWorkbench.Yaml.Scalar
import ApiWorkbench.Yaml.Writer

/-!
# Integers without quotes

An integer is written in decimal digits, perhaps after a minus sign. Such a text has no
character with a meaning of its own, so it can stand without quotes; its notation is
that of an integer and of nothing else; and it is read as the integer, if it does not
have too many digits.

## Main results

* `allowsPlain_toString`: an integer can stand without quotes.
* `impliedTag_toString`, `intValue_toString`: the text of an integer is read
  as that integer.
-/

namespace ApiWorkbench.Yaml

open Json (StartsWell startsWell_toDigits isDecimalDigit_of_mem_toDigits
  natAbs_lt_of_isWritable)

/-! ## The text of an integer -/

/-- A nonempty run of digits, perhaps after a minus sign. -/
private structure SignedDigits (cs : List Char) (sign digits : List Char) : Prop where
  text : cs = sign ++ digits
  sign : sign = [] ∨ sign = ['-']
  nonempty : digits ≠ []
  digits : ∀ c ∈ digits, isDigit c = true

private theorem toList_toString_eq (n : Int) :
    (toString n).toList = (if n < 0 then ['-'] else []) ++
      Nat.toDigits 10 n.natAbs := by
  rw [Json.toList_toString]
  exact congrArg _ (List.append_nil _)

private theorem signedDigits_toString (n : Int) :
    SignedDigits (toString n).toList (if n < 0 then ['-'] else [])
      (Nat.toDigits 10 n.natAbs) where
  text := toList_toString_eq n
  sign := by split <;> simp
  nonempty := by
    rcases startsWell_toDigits n.natAbs with h | ⟨c, rest, h, -⟩ <;> simp [h]
  digits c hc := isDecimalDigit_of_mem_toDigits hc

/-- A digit is none of the characters that are no digits. -/
private theorem digit_ne {c d : Char} (hc : isDigit c = true) (hd : isDigit d = false) :
    c ≠ d := by
  rintro rfl
  simp [hc] at hd

private theorem not_contains_digit {c : Char} (hc : isDigit c = true) {cs : List Char}
    (hcs : cs.all (fun d => !isDigit d) = true) : cs.contains c = false := by
  rw [List.contains_eq_mem, decide_eq_false_iff_not]
  intro hmem
  have hno := List.all_eq_true.mp hcs c hmem
  simp [hc] at hno

private theorem code_of_digit {c : Char} (hc : isDigit c = true) :
    0x30 ≤ c.toNat ∧ c.toNat ≤ 0x39 := by
  simp only [isDigit, Bool.and_eq_true, decide_eq_true_eq] at hc
  exact ⟨hc.1, hc.2⟩

private theorem shown_of_digit {c : Char} (hc : isDigit c = true) :
    needsEscape c = false ∧ isKeptBreak c = false := by
  obtain ⟨hlow, hhigh⟩ := code_of_digit hc
  have hfeed : c ≠ '\n' := digit_ne hc rfl
  constructor
  · simp only [needsEscape, Bool.not_eq_false', Bool.or_eq_true, Bool.and_eq_true,
      decide_eq_true_eq]
    omega
  · simp only [isKeptBreak, Bool.or_eq_false_iff, beq_eq_false_iff_ne]
    exact ⟨⟨⟨hfeed, by omega⟩, by omega⟩, by omega⟩

/-! ## Standing without quotes -/

private theorem isInterrupted_digits {before : Char} {cs : List Char}
    (hcs : ∀ c ∈ cs, isDigit c = true) :
    isInterrupted before cs = false := by
  induction cs generalizing before with
  | nil => rfl
  | cons c cs ih =>
      have hc : isDigit c = true := hcs c (by simp)
      have hcolon : c ≠ ':' := digit_ne hc rfl
      have hhash : c ≠ '#' := digit_ne hc rfl
      rw [isInterrupted, ih fun x hx => hcs x (by simp [hx])]
      simp [interruptsPlain, hcolon, hhash]

private theorem SignedDigits.allowsPlain {cs sign digits : List Char}
    (h : SignedDigits cs sign digits) :
    allowsPlain cs = true := by
  obtain ⟨rfl, hsign, hnonempty, hdigits⟩ := h
  obtain ⟨c, ds, rfl⟩ := List.exists_cons_of_ne_nil hnonempty
  have hc : isDigit c = true := hdigits c (by simp)
  have hne : ∀ d, isDigit d = false → c ≠ d := fun d => digit_ne hc
  have hshown : ∀ x ∈ sign ++ c :: ds, needsEscape x = false ∧
      isKeptBreak x = false := by
    intro x hx
    rcases List.mem_append.mp hx with hx | hx
    · rcases hsign with rfl | rfl
      · simp at hx
      · rw [List.mem_singleton.mp hx]
        decide
    · exact shown_of_digit (hdigits x hx)
  have hlast : ∀ x ∈ (sign ++ c :: ds).getLast?, x ≠ ' ' ∧ isKeptBreak x = false := by
    intro x hx
    have hmem : x ∈ c :: ds := by
      rw [List.getLast?_append_of_ne_nil _ (by simp)] at hx
      exact List.mem_of_getLast? hx
    exact ⟨digit_ne (hdigits x hmem) rfl, (shown_of_digit (hdigits x hmem)).2⟩
  have hblank : isBlankOrEnd c = false := by
    have hbreak : isBreak c = false := by
      have hkept := (hshown c (by simp)).2
      simp only [isKeptBreak, Bool.or_eq_false_iff, beq_eq_false_iff_ne] at hkept
      simp [isBreak, hkept, hne '\r' rfl]
    simp [isBlankOrEnd, isSpaceOrEnd, endsLine, hbreak, hne ' ' rfl, hne '\t' rfl,
      hne endChar rfl]
  simp only [Yaml.allowsPlain, Bool.and_eq_true, Bool.not_eq_true', List.any_eq_false,
    Bool.not_eq_true, Option.any_eq_false]
  refine ⟨⟨⟨⟨⟨⟨⟨?_, ?_⟩, ?_⟩, ?_⟩, ?_⟩, fun x hx => ?_⟩, fun x hx => (hshown x hx).1⟩,
    fun x hx => (hshown x hx).2⟩
  · rcases hsign with rfl | rfl
    · rw [List.nil_append, beginsIndicator, not_contains_digit hc rfl]
      simp [hne '?' rfl, hne ':' rfl, hne '-' rfl]
    · simp [beginsIndicator, hblank]
  · rcases hsign with rfl | rfl <;> simp [List.isPrefixOf, (hne '-' rfl).symm]
  · rcases hsign with rfl | rfl <;> simp [List.isPrefixOf, (hne '.' rfl).symm]
  · rcases hsign with rfl | rfl
    · exact isInterrupted_digits fun x hx => hdigits x (List.mem_cons_of_mem _ hx)
    · exact isInterrupted_digits hdigits
  · intro x hx
    rcases hsign with rfl | rfl
    · obtain rfl : c = x := by simpa using hx
      simp [hne ' ' rfl, (hshown c (by simp)).2]
    · obtain rfl : '-' = x := by simpa using hx
      decide
  · simp [(hlast x hx).1, (hlast x hx).2]

/-- An integer can stand without quotes. -/
theorem allowsPlain_toString (n : Int) : allowsPlain (toString n).toList = true :=
  (signedDigits_toString n).allowsPlain

/-! ## The type of an integer -/

private theorem unsigned_toString (n : Int) :
    unsigned (toString n).toList = Nat.toDigits 10 n.natAbs := by
  obtain ⟨htext, -, hnonempty, hdigits⟩ := signedDigits_toString n
  rw [htext]
  by_cases hn : n < 0
  · rw [if_pos hn]
    rfl
  · rw [if_neg hn, List.nil_append]
    obtain ⟨c, ds, hcons⟩ := List.exists_cons_of_ne_nil hnonempty
    rw [hcons] at hdigits ⊢
    have hplus : c ≠ '+' := digit_ne (hdigits c (by simp)) rfl
    have hminus : c ≠ '-' := digit_ne (hdigits c (by simp)) rfl
    unfold unsigned
    split
    · rename_i heq
      exact absurd (List.cons.inj heq).1 hplus
    · rename_i heq
      exact absurd (List.cons.inj heq).1 hminus
    · rfl

private theorem isIntText_toString (n : Int) :
    isIntText (toString n).toList = true := by
  rw [isIntText, unsigned_toString]
  obtain ⟨-, -, -, hdigits⟩ := signedDigits_toString n
  rcases startsWell_toDigits n.natAbs with hzero | ⟨c, rest, hcons, hc⟩
  · rw [hzero]
    rfl
  · rw [hcons] at hdigits ⊢
    have hrun : isDecimalRun (c :: rest) = true := by
      simp only [isDecimalRun, Bool.and_eq_true, List.all_eq_true]
      exact ⟨hdigits c (by simp),
        fun x hx => by simp [isDigitOrGap, hdigits x (by simp [hx])]⟩
    split
    · rename_i heq
      exact absurd (List.cons.inj heq).1 hc
    · rename_i heq
      exact absurd (List.cons.inj heq).1 hc
    · rename_i heq
      exact absurd (List.cons.inj heq).1 hc
    · rw [hrun]
      rfl

private theorem span_all {p : Char → Bool} {cs : List Char} (h : ∀ c ∈ cs, p c = true) :
    cs.span p = (cs, []) := by
  rw [List.span_eq_takeWhile_dropWhile]
  induction cs with
  | nil => rfl
  | cons c cs ih =>
      have hrest := ih fun x hx => h x (by simp [hx])
      simp only [Prod.mk.injEq] at hrest
      simp [h c (by simp), hrest.1, hrest.2]

/-- Characters other than digits and signs are in no integer. -/
private theorem not_words {cs : List Char} (hcs : ∀ c ∈ cs, isDigit c = true ∨ c = '-')
    {words : List String} (hwords :
      words.all (fun word => word.toList.any fun d => !isDigit d && d != '-') = true) :
    words.any (·.toList == cs) = false := by
  rw [List.any_eq_false]
  intro word hword heq
  rw [List.all_eq_true] at hwords
  obtain ⟨d, hd, hother⟩ := List.any_eq_true.mp (hwords word hword)
  rw [beq_iff_eq.mp heq] at hd
  rcases hcs d hd with h | h <;> simp [h] at hother

private theorem digit_or_minus {n : Int} :
    ∀ c ∈ (toString n).toList, isDigit c = true ∨ c = '-' := by
  obtain ⟨htext, hsign, -, hdigits⟩ := signedDigits_toString n
  intro c hc
  rw [htext, List.mem_append] at hc
  rcases hc with hc | hc
  · rcases hsign with h | h
    · simp [h] at hc
    · exact .inr (by simpa [h] using hc)
  · exact .inl (hdigits c hc)

private theorem isFloatText_toString (n : Int) :
    isFloatText (toString n).toList = false := by
  obtain ⟨-, -, -, hdigits⟩ := signedDigits_toString n
  have hgap : ∀ c ∈ Nat.toDigits 10 n.natAbs, isDigitOrGap c = true := fun c hc => by
    simp [isDigitOrGap, hdigits c hc]
  have hpoint : Text.splitAt '.' (Nat.toDigits 10 n.natAbs) =
      [Nat.toDigits 10 n.natAbs] := by
    simpa using Text.splitAt_flatMap
      (fun h => absurd rfl (digit_ne (hdigits '.' h) rfl))
      (by simp : ∀ text ∈ ([] : List (List Char)), '.' ∉ text)
  have hinf : [".inf", ".Inf", ".INF"].any (·.toList == Nat.toDigits 10 n.natAbs) =
      false :=
    not_words (fun c hc => .inl (hdigits c hc)) rfl
  have hnan : [".nan", ".NaN", ".NAN"].any (·.toList == (toString n).toList) = false :=
    not_words digit_or_minus rfl
  rw [isFloatText, unsigned_toString]
  simp only [span_all hgap, hpoint, hinf, hnan, Bool.or_false]

/-- The notation of an integer is that of no other type. -/
theorem plainTag_toString (n : Int) : plainTag (toString n).toList = .int := by
  have hbool : boolWords.any (·.toList == (toString n).toList) = false :=
    not_words digit_or_minus rfl
  simp only [plainTag, hbool, isFloatText_toString, isIntText_toString,
    Bool.false_eq_true, if_false, if_true]

/-- A text without a line feed at its end is taken as it is. -/
theorem withoutFinalFeed_eq {cs : List Char} (h : '\n' ∉ cs) :
    withoutFinalFeed cs = cs := by
  unfold withoutFinalFeed
  split
  · rename_i c rest heq
    have hmem : '\n' ∈ cs.reverse := by simp [heq]
    exact absurd (List.mem_reverse.mp hmem) h
  · rfl

theorem impliedTag_toString (n : Int) : impliedTag (toString n).toList = .int := by
  have hfeed : '\n' ∉ (toString n).toList := fun h => by
    rcases digit_or_minus _ h with h | h <;> contradiction
  rw [impliedTag, withoutFinalFeed_eq hfeed, plainTag_toString]

/-! ## The value of an integer -/

private theorem digitValue?_digitChar :
    ∀ d, d < 10 → Decimal.digitValue? d.digitChar = some d := by
  decide

private theorem readDigits_toDigits (n : Nat) :
    Decimal.readDigits 10 (Nat.toDigits 10 n) = some n := by
  rw [Decimal.readDigits, if_neg (by simp [Nat.toDigits_ne_nil])]
  refine foldlM_toDigits (by decide) (fun total d hd => ?_) 0 n
  simp [digitValue?_digitChar d hd, hd]

private theorem trimBy_digits {cs : List Char} (h : ∀ c ∈ cs, isDigit c = true) :
    Text.trimBy Text.isNumberBlank cs = cs := by
  have hblank : ∀ c, isDigit c = true → Text.isNumberBlank c = false := by
    intro c hc
    obtain ⟨hlow, hhigh⟩ := code_of_digit hc
    simp only [Text.isNumberBlank, Text.isBlank, Bool.and_eq_false_iff,
      Bool.or_eq_false_iff, decide_eq_false_iff_not, beq_eq_false_iff_ne]
    left
    omega
  have hdrop : ∀ ds : List Char, (∀ c ∈ ds, isDigit c = true) →
      ds.dropWhile Text.isNumberBlank = ds := by
    intro ds hds
    cases ds with
    | nil => rfl
    | cons d ds =>
        rw [List.dropWhile_cons_of_neg (by simp [hblank d (hds d (by simp))])]
  rw [Text.trimBy, hdrop cs h, hdrop cs.reverse (by simpa using h),
    List.reverse_reverse]

private theorem readSign_digits {cs : List Char} (h : ∀ c ∈ cs, isDigit c = true) :
    Decimal.readSign cs = (false, cs) := by
  unfold Decimal.readSign
  split
  · have hminus := h '-' (by simp)
    contradiction
  · have hplus := h '+' (by simp)
    contradiction
  · rfl

private theorem unsignedInteger_toDigits {n : Nat} (hn : n < 10 ^ maxDigits) :
    unsignedInteger (Nat.toDigits 10 n) = some (n : Int) := by
  have hdigits : ∀ c ∈ Nat.toDigits 10 n, isDigit c = true := fun c hc =>
    isDecimalDigit_of_mem_toDigits hc
  rcases startsWell_toDigits n with hzero | ⟨c, rest, hcons, hc⟩
  · have hvalue := readDigits_toDigits n
    rw [hzero] at hvalue ⊢
    obtain rfl : 0 = n := Option.some.inj hvalue
    rfl
  · have hlength : ¬ maxDigits <
        ((Nat.toDigits 10 n).filter Decimal.isDecimalDigit).length := by
      have hle := (Nat.length_toDigits_le_iff (by decide) (by decide)).mpr hn
      have hfilter := List.length_filter_le Decimal.isDecimalDigit (Nat.toDigits 10 n)
      omega
    have hcolon : (Nat.toDigits 10 n).contains ':' = false := by
      rw [List.contains_eq_mem, decide_eq_false_iff_not]
      exact fun h => absurd rfl (digit_ne (hdigits ':' h) rfl)
    have hread : decimalInteger (Nat.toDigits 10 n) = some (n : Int) := by
      have hvalue := readDigits_toDigits n
      rw [decimalInteger, if_neg hlength, Decimal.readInteger, trimBy_digits hdigits,
        readSign_digits hdigits]
      rw [hcons] at hvalue ⊢
      simp only [Option.bind_eq_bind]
      split
      · rename_i heq
        exact absurd (List.cons.inj heq).1 hc
      · rw [hvalue]
        rfl
    rw [hcons] at hcolon hread ⊢
    unfold unsignedInteger
    split
    · rename_i heq
      cases heq
    · rename_i heq
      exact absurd (List.cons.inj heq).1 hc
    · rename_i heq
      exact absurd (List.cons.inj heq).1 hc
    · rename_i heq
      exact absurd (List.cons.inj heq).1 hc
    · rename_i heq
      exact absurd (List.cons.inj heq).1 hc
    · rw [hcolon]
      exact hread

/-- The text of an integer that may be written is read as that integer. -/
theorem intValue_toString {n : Int} (h : isWritable n = true) :
    intValue (toString n).toList = .ok n := by
  obtain ⟨htext, -, -, hdigits⟩ := signedDigits_toString n
  have hbound := natAbs_lt_of_isWritable h
  have hfilter : (toString n).toList.filter (· != '_') = (toString n).toList := by
    refine List.filter_eq_self.mpr fun c hc => ?_
    rcases digit_or_minus c hc with hdigit | rfl
    · simpa using digit_ne hdigit rfl
    · rfl
  have hsign : Decimal.readSign (toString n).toList =
      (decide (n < 0), Nat.toDigits 10 n.natAbs) := by
    rw [htext]
    by_cases hn : n < 0
    · simp [hn, Decimal.readSign]
    · simp [hn, readSign_digits hdigits]
  have hvalue : (if decide (n < 0) = true then -(n.natAbs : Int) else n.natAbs) =
      n := by
    clear h hbound
    simp only [decide_eq_true_eq]
    split <;> omega
  rw [intValue, hfilter, hsign]
  simp only [unsignedInteger_toDigits hbound]
  exact congrArg Except.ok hvalue

end ApiWorkbench.Yaml
