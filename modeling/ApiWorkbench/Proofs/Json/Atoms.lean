import ApiWorkbench.Proofs.Json.Numbers

/-!
# Words and numbers in JSON texts

Everything that is written without brackets and without quotes is an atom: the reader
takes it up to the end, whatever follows it, if that does not carry a number on. No
character of an atom needs an escape, so an atom may also stand between quotes, as the
name of a member.

## Main results

* `atomText_toString`: integers that may be written.
* `atomText_floatText`: doubles, read as whatever their notation says.
-/

namespace ApiWorkbench.Json

/-- Characters that are read as a value, wherever they stand. -/
structure AtomText (cs : List Char) (v : Value) : Prop where
  starts : ∃ c more, cs = c :: more ∧
    (isDecimalDigit c = true ∨ c ∈ ['-', 'n', 't', 'f', 'N', 'I'])
  plain : ∀ c ∈ cs, c ≠ '"' ∧ c ≠ '\\' ∧ 32 ≤ c.toNat
  reads : ∀ rest, EndsNumber rest → readAtom (cs ++ rest) = .ok (v, rest)

theorem atomText_null : AtomText "null".toList .null where
  starts := ⟨_, _, rfl, by decide⟩
  plain := by simp
  reads := fun _ _ => rfl

theorem atomText_bool (b : Bool) :
    AtomText (if b then "true" else "false").toList (.bool b) := by
  cases b with
  | false =>
      exact ⟨⟨_, _, rfl, by decide⟩, by simp, fun _ _ => rfl⟩
  | true =>
      exact ⟨⟨_, _, rfl, by decide⟩, by simp, fun _ _ => rfl⟩

/-! ## Numbers -/

private theorem plain_of_digit {c : Char} (h : isDecimalDigit c = true) :
    c ≠ '"' ∧ c ≠ '\\' ∧ 32 ≤ c.toNat := by
  refine ⟨?_, ?_, ?_⟩
  · rintro rfl
    contradiction
  · rintro rfl
    contradiction
  · simp only [isDecimalDigit, Bool.and_eq_true, decide_eq_true_eq] at h
    have hzero : '0'.toNat ≤ c.toNat := h.1
    have hvalue : '0'.toNat = 48 := rfl
    omega

private theorem plain_of_mem_text {n : Numeral} (hn : n.WellFormed) {c : Char}
    (h : c ∈ n.text) :
    c ≠ '"' ∧ c ≠ '\\' ∧ 32 ≤ c.toNat := by
  have hsign : ∀ negative : Bool, (if negative then '-' else '+') ≠ '"' ∧
      (if negative then '-' else '+') ≠ '\\' ∧
      32 ≤ (if negative then '-' else '+').toNat := by
    decide
  rcases List.mem_append.mp h with hc | hc
  · exact plain_of_digit (hn.whole c hc)
  · rcases List.mem_append.mp hc with hc | hc
    · unfold Numeral.fractionText at hc
      split at hc
      · simp at hc
      · rcases List.mem_cons.mp hc with rfl | hc
        · decide
        · exact plain_of_digit (hn.fraction c hc)
    · unfold Numeral.exponentText at hc
      split at hc
      · rename_i negative digits hexponent
        rcases List.mem_cons.mp hc with rfl | hc
        · decide
        · rcases List.mem_cons.mp hc with rfl | hc
          · exact hsign negative
          · exact plain_of_digit ((hn.exponent _ hexponent).2 c hc)
      · simp at hc

/-- A numeral with a sign is an atom, whatever it is read as. -/
private theorem atomText_numeral {n : Numeral} (hn : n.WellFormed) (negative : Bool)
    {v : Value} (h : ∀ rest, EndsNumber rest →
      readAtom ((if negative then ['-'] else []) ++ (n.text ++ rest)) = .ok (v, rest)) :
    AtomText ((if negative then ['-'] else []) ++ n.text) v where
  starts := by
    cases negative with
    | true => exact ⟨_, _, rfl, .inr (by decide)⟩
    | false =>
        obtain ⟨c, cs, hcons⟩ : ∃ c cs, n.whole = c :: cs := by
          rcases hn.startsWell with hzero | ⟨c, ds, hcons, -⟩
          · exact ⟨_, _, hzero⟩
          · exact ⟨_, _, hcons⟩
        refine ⟨c, cs ++ (n.fractionText ++ n.exponentText), ?_,
          .inl (hn.whole c (by simp [hcons]))⟩
        rw [Numeral.text, hcons]
        rfl
  plain := by
    intro c hc
    rcases List.mem_append.mp hc with hc | hc
    · cases negative with
      | true =>
          rw [List.mem_singleton.mp hc]
          decide
      | false => simp at hc
    · exact plain_of_mem_text hn hc
  reads := by
    intro rest hrest
    rw [List.append_assoc]
    exact h rest hrest

/-- A numeral with a fraction or an exponent is read as a double. -/
private theorem atomText_float {n : Numeral} (hn : n.WellFormed) (hfloat : n.IsFloat)
    (negative : Bool) :
    ∃ v, AtomText ((if negative then ['-'] else []) ++ n.text) v := by
  have hnot : ¬ (n.fraction.isEmpty && n.power?.isNone) = true := by
    rw [Bool.and_eq_true, List.isEmpty_iff, Numeral.power?, Option.isNone_map,
      Option.isNone_iff_eq_none, not_and_or]
    exact hfloat
  refine ⟨.float (.ofDecimal negative (digitsNumber (n.whole ++ n.fraction))
    (n.power?.getD 0 - n.fraction.length)),
      atomText_numeral hn negative fun rest hrest => ?_⟩
  rw [readAtom_text hn _, readNumber_text hn hrest, if_neg hnot]

/-- An integer that may be written is an atom that is read as that integer. -/
theorem atomText_toString {n : Int} (h : isWritable n = true) :
    AtomText (toString n).toList (.int n) := by
  have hn := integerNumeral_wellFormed n.natAbs
  have hread : ∀ rest, EndsNumber rest →
      readAtom ((if decide (n < 0) then ['-'] else []) ++
        ((integerNumeral n.natAbs).text ++ rest)) = .ok (.int n, rest) := by
    intro rest hrest
    rw [readAtom_text hn _, readNumber_integer h hrest]
  have hatom := atomText_numeral hn (decide (n < 0)) hread
  simp only [decide_eq_true_eq] at hatom
  rw [toList_toString]
  exact hatom

/-- What the reader makes of the notation of a double. -/
def reread (x : Binary64) : Value :=
  match readAtom (floatText x).toList with
  | .ok (v, _) => v
  | .error _ => .float x

private theorem exists_atomText_floatText (x : Binary64) :
    ∃ v, AtomText (floatText x).toList v := by
  unfold floatText
  split_ifs with hnan hinfinite hnegative
  · exact ⟨.float .nan, ⟨_, _, rfl, by decide⟩, by simp, fun _ _ => rfl⟩
  · exact ⟨.float (.infinity true), ⟨_, _, rfl, by decide⟩, by simp, fun _ _ => rfl⟩
  · exact ⟨.float (.infinity false), ⟨_, _, rfl, by decide⟩, by simp, fun _ _ => rfl⟩
  · obtain ⟨n, hn, hfloat, htext⟩ := finiteText_numeral x
    obtain ⟨v, hv⟩ := atomText_float hn hfloat x.isNegative
    exact ⟨v, htext ▸ hv⟩

/-- Every double is an atom. -/
theorem atomText_floatText (x : Binary64) :
    AtomText (floatText x).toList (reread x) := by
  obtain ⟨v, hv⟩ := exists_atomText_floatText x
  have hread := hv.reads [] endsNumber_nil
  rw [List.append_nil] at hread
  rw [reread, hread]
  exact hv

end ApiWorkbench.Json
