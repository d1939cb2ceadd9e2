import ApiWorkbench.Proofs.Digits
import ApiWorkbench.Proofs.Members
import Mathlib.Data.List.Nodup
import Mathlib.Data.List.Perm.Subperm

/-!
# The search for a free name

A name that is in use gets a number. The search looks at one number after another and
ends with the first that makes a free name, or when it runs out of tries. It does not
run out of them: different numbers make different names, so each name that is in use
stands in the way of one number at most, and there are more numbers than names in use.

For the names of members the search begins with the name itself, which counts as the
number zero. So it looks at no more numbers than there are names.

## Main results

* `leastFree_first`: the search ends with the first free number, if there is one
  within its tries.
* `exists_free_number`: within one try more than there are names in use there is one.
* `Members.freeName_first`: a free name for members is the first one.
-/

namespace ApiWorkbench

/-! ## The search for a number -/

/-- The first number from `start` on that is not taken; at most `tries` numbers
are looked at. -/
def leastFree (taken : Nat → Bool) : (tries start : Nat) → Nat
  | 0, start => start
  | tries + 1, start => if taken start then leastFree taken tries (start + 1) else start

/-- A number is the first one from `start` on that is not taken. -/
structure FirstFree (taken : Nat → Bool) (start n : Nat) : Prop where
  start_le : start ≤ n
  free : taken n = false
  before : ∀ k, start ≤ k → k < n → taken k = true

section

variable {taken : Nat → Bool}

theorem leastFree_first {tries start : Nat}
    (h : ∃ n, start ≤ n ∧ n < start + tries ∧ taken n = false) :
    FirstFree taken start (leastFree taken tries start) := by
  induction tries generalizing start with
  | zero =>
      obtain ⟨n, hstart, hend, -⟩ := h
      omega
  | succ tries ih =>
      rw [leastFree]
      by_cases hstart : taken start = true
      · rw [if_pos hstart]
        obtain ⟨n, hn, hend, hfree⟩ := h
        have hne : n ≠ start := by
          intro heq
          rw [heq, hstart] at hfree
          contradiction
        have hrest := @ih (start + 1) ⟨n, by omega, by omega, hfree⟩
        refine ⟨Nat.le_of_succ_le hrest.start_le, hrest.free, fun k hk hlt => ?_⟩
        by_cases heq : k = start
        · rwa [heq]
        · exact hrest.before k (by omega) hlt
      · rw [if_neg hstart]
        exact ⟨Nat.le_refl start, eq_false_of_ne_true hstart, fun k hk hlt =>
          absurd hlt (by omega)⟩

/-- If things in use stand in the way of numbers, each of one number at most, then one
number more than there are such things has a free one among them. -/
theorem exists_free_number {α : Type} (taken : Nat → Bool) (blocks : Nat → List α)
    {used : List α} (htaken : ∀ n, taken n = true → ∃ a ∈ blocks n, a ∈ used)
    (hapart : ∀ m n, ∀ a ∈ blocks m, a ∈ blocks n → m = n) (start : Nat) :
    ∃ n, start ≤ n ∧ n < start + (used.length + 1) ∧ taken n = false := by
  by_contra hnone
  push Not at hnone
  have hblocked : ∀ i ∈ List.range (used.length + 1), ∃ a ∈ blocks (start + i),
      a ∈ used := by
    intro i hi
    rw [List.mem_range] at hi
    exact htaken _ (by simpa using hnone (start + i) (by omega) (by omega))
  have hinhabited : Nonempty α := by
    obtain ⟨a, -, -⟩ := hblocked 0 (by simp)
    exact ⟨a⟩
  choose! block hblock hused using hblocked
  have hnodup : ((List.range (used.length + 1)).map block).Nodup := by
    refine List.Nodup.map_on (fun i hi j hj heq => ?_) List.nodup_range
    have hsame := hapart (start + i) (start + j) (block i) (hblock i hi)
      (heq ▸ hblock j hj)
    omega
  have hsubset : (List.range (used.length + 1)).map block ⊆ used := by
    intro a ha
    obtain ⟨i, hi, rfl⟩ := List.mem_map.mp ha
    exact hused i hi
  have hlength := (List.Nodup.subperm hnodup hsubset).length_le
  rw [List.length_map, List.length_range] at hlength
  omega

end

/-! ## Names of members -/

namespace Members

variable {used : List Scalar} {base : String}

/-- A name with a number after it. With the number zero it is the name itself. -/
def candidate (base : String) (n : Nat) : String :=
  if n = 0 then base else base ++ toString n

theorem candidate_of_pos {n : Nat} (hn : 1 ≤ n) :
    candidate base n = base ++ toString n :=
  if_neg (by omega)

theorem candidate_inj {m n : Nat} : candidate base m = candidate base n ↔ m = n := by
  by_cases hm : m = 0
  · by_cases hn : n = 0
    · simp [hm, hn]
    · simp [candidate, hm, hn, Ne.symm hn, String.ext_iff]
  · by_cases hn : n = 0
    · simp [candidate, hm, hn, String.ext_iff]
    · simp [candidate, hm, hn, String.ext_iff, toDigits_inj]

/-- A free name is the first one that a search comes to: the name itself, or else the
name with the least number from one on that makes it a free one. -/
structure FirstFreeName (used : List Scalar) (base found : String) : Prop where
  free : .str found ∉ used
  itself : .str base ∉ used → found = base
  numbered : .str base ∈ used → ∃ k, 1 ≤ k ∧ k ≤ used.length ∧
    found = base ++ toString k ∧
    ∀ j, 1 ≤ j → j < k → .str (base ++ toString j) ∈ used

theorem any_same_iff {name : String} : (used.any fun k => k.same (.str name)) = true ↔
    .str name ∈ used := by
  simp [Scalar.same_str_iff]

private theorem freeSuffix_eq (taken : String → Bool) (base : String)
    (tries start : Nat) :
    freeSuffix taken base tries start =
      leastFree (fun n => taken (base ++ toString n)) tries start := by
  induction tries generalizing start with
  | zero => rfl
  | succ tries ih => rw [freeSuffix, leastFree, ih]

/-- One of the candidates is free that have no number greater than the number
of names in use. -/
private theorem exists_free_candidate (used : List Scalar) (base : String) :
    ∃ n, n ≤ used.length ∧ .str (candidate base n) ∉ used := by
  have htaken : ∀ n, (used.any fun k => k.same (.str (candidate base n))) = true →
      ∃ name ∈ [Scalar.str (candidate base n)], name ∈ used :=
    fun n hn => ⟨_, List.mem_singleton_self _, any_same_iff.mp hn⟩
  have hapart : ∀ m n, ∀ name ∈ [Scalar.str (candidate base m)],
      name ∈ [Scalar.str (candidate base n)] → m = n := by
    intro m n name hm hn
    rw [List.mem_singleton] at hm hn
    exact candidate_inj.mp (Scalar.str.inj (hm.symm.trans hn))
  obtain ⟨n, -, hlt, hfree⟩ := exists_free_number _ _ htaken hapart 0
  refine ⟨n, by omega, fun hmem => ?_⟩
  rw [any_same_iff.mpr hmem] at hfree
  contradiction

theorem freeName_first (used : List Scalar) (base : String) :
    FirstFreeName used base (freeName used base) := by
  rw [freeName]
  dsimp only
  by_cases hbase : .str base ∈ used
  · rw [if_pos (any_same_iff.mpr hbase), freeSuffix_eq]
    obtain ⟨n, hle, hn⟩ := exists_free_candidate used base
    have hpos : 1 ≤ n := by
      by_contra hzero
      obtain rfl : n = 0 := by omega
      exact hn hbase
    rw [candidate_of_pos hpos] at hn
    have hfirst : FirstFree (fun n => used.any fun k =>
      k.same (.str (base ++ toString n))) 1 (leastFree (fun n => used.any fun k =>
      k.same (.str (base ++ toString n))) (used.length + 1) 1) :=
      leastFree_first ⟨n, hpos, by omega, eq_false_of_ne_true fun h =>
        hn (any_same_iff.mp h)⟩
    refine ⟨fun hmem => ?_, fun hnone => absurd hbase hnone, fun _ =>
      ⟨_, hfirst.start_le, ?_, rfl, fun j hj hlt => ?_⟩⟩
    · have hfree := hfirst.free
      rw [any_same_iff.mpr hmem] at hfree
      contradiction
    · -- Numbers before the first free one are taken, and `n` is not.
      by_contra hgreater
      exact hn (any_same_iff.mp (hfirst.before n hpos (by omega)))
    · exact any_same_iff.mp (hfirst.before j hj hlt)
  · rw [if_neg fun h => hbase (any_same_iff.mp h)]
    exact ⟨hbase, fun _ => rfl, fun h => absurd h hbase⟩

end Members

end ApiWorkbench
