import ApiWorkbench.Proofs.Members

/-!
# Names that are the same

Names are compared by value, so an object may be asked for a name that is written in
another way than the one it has. Being the same name is an equivalence.

Because of that the names that an object has do not depend on the way in which they
are written: putting an entry adds its name, and renaming adds the new name and takes
the old one away.

## Main results

* `Scalar.same_refl`, `Scalar.same_comm`, `Scalar.same_trans`: the laws of
  the comparison.
* `Members.rename?_of_free`, `Members.relabel_relabel`: renaming to a free name keeps
  the place, and can be undone.
* `Members.contains_put`, `Members.contains_ofEntries`, `Members.contains_rename?`: the
  names that there are afterwards.
-/

namespace ApiWorkbench

/-! ## Numbers and moments -/

theorem Binary64.same_refl (x : Binary64) : x.same x = true := by
  simp [same]

theorem Binary64.same_comm (x y : Binary64) : x.same y = y.same x := by
  rw [same, same, Bool.and_comm x.isZero, show (x == y) = (y == x) from BEq.comm]

theorem Binary64.same_trans {x y z : Binary64} (hxy : x.same y = true)
    (hyz : y.same z = true) : x.same z = true := by
  simp only [Binary64.same, Bool.and_eq_true, Bool.or_eq_true, beq_iff_eq] at hxy hyz ⊢
  rcases hxy with rfl | ⟨hx, hy⟩
  · exact hyz
  · rcases hyz with rfl | ⟨-, hz⟩
    · exact .inr ⟨hx, hy⟩
    · exact .inr ⟨hx, hz⟩

theorem Moment.same_refl (a : Moment) : a.same a = true := by
  unfold Moment.same
  cases a.offset <;> exact beq_self_eq_true _

theorem Moment.same_comm (a b : Moment) : a.same b = b.same a := by
  unfold Moment.same
  cases a.offset <;> cases b.offset <;> first | exact BEq.comm | rfl

theorem Moment.same_trans {a b c : Moment} (hab : a.same b = true)
    (hbc : b.same c = true) : a.same c = true := by
  unfold Moment.same at hab hbc ⊢
  cases ha : a.offset <;> cases hb : b.offset <;> cases hc : c.offset <;>
    simp only [ha, hb, hc, beq_iff_eq, Bool.false_eq_true] at hab hbc ⊢ <;>
      exact hab.trans hbc

namespace Scalar

/-- Equality of what scalars count as. -/
def numberSame : Int ⊕ Binary64 → Int ⊕ Binary64 → Bool
  | .inl m, .inl n => m == n
  | .inr x, .inr y => x.same y
  | _, _ => false

theorem numberSame_refl (m : Int ⊕ Binary64) : numberSame m m = true := by
  cases m with
  | inl n => exact beq_self_eq_true n
  | inr x => exact Binary64.same_refl x

theorem numberSame_comm (m n : Int ⊕ Binary64) : numberSame m n = numberSame n m := by
  cases m <;> cases n <;> first | rfl | exact BEq.comm | exact Binary64.same_comm _ _

theorem numberSame_trans {l m n : Int ⊕ Binary64} (hlm : numberSame l m = true)
    (hmn : numberSame m n = true) :
    numberSame l n = true := by
  cases l <;> cases m <;> cases n <;>
    simp only [numberSame, beq_iff_eq, Bool.false_eq_true] at hlm hmn ⊢
  · exact hlm.trans hmn
  · exact Binary64.same_trans hlm hmn

/-! ## The comparison of names -/

/-- Numbers are compared with numbers only, by what they count as. -/
theorem same_eq_numberSame {a : Scalar} {m : Int ⊕ Binary64} (ha : a.number? = some m)
    (b : Scalar) :
    a.same b = b.number?.elim false (numberSame m) := by
  cases a with
  | bool | int | float =>
      rw [same, ha]
      · cases m <;> rcases b.number? with _ | n | y <;> rfl
      all_goals simp
  | _ => simp [number?] at ha

private theorem same_comm_of_numbers {a b : Scalar} {m n : Int ⊕ Binary64}
    (ha : a.number? = some m) (hb : b.number? = some n) : a.same b = b.same a := by
  rw [same_eq_numberSame ha, same_eq_numberSame hb, ha, hb]
  exact numberSame_comm m n

/-- Something that counts as no number is not the same as a number. -/
private theorem same_number_eq_false {a b : Scalar} {n : Int ⊕ Binary64}
    (ha : a.number? = none) (hb : b.number? = some n) : a.same b = false := by
  cases b with
  | bool | int | float => rw [same, ha] <;> simp_all [number?]
  | _ => simp [number?] at hb

/-- Comparisons of a number may be turned round. -/
private theorem same_comm_of_number {a : Scalar} {m : Int ⊕ Binary64}
    (ha : a.number? = some m) (b : Scalar) :
    a.same b = b.same a := by
  cases hb : b.number? with
  | some n => exact same_comm_of_numbers ha hb
  | none => rw [same_number_eq_false hb ha, same_eq_numberSame ha, hb, Option.elim_none]

private theorem exists_number_float (x : Binary64) :
    ∃ m, (float x).number? = some m := by
  rw [number?]
  cases x.toInt? with
  | some n => exact ⟨_, rfl⟩
  | none => exact ⟨_, rfl⟩

@[simp]
theorem same_refl (a : Scalar) : a.same a = true := by
  induction a with
  | bool | int =>
      rw [same_eq_numberSame rfl, number?, Option.elim_some]
      exact numberSame_refl _
  | float x =>
      obtain ⟨m, hm⟩ := exists_number_float x
      rw [same_eq_numberSame hm, hm, Option.elim_some]
      exact numberSame_refl m
  | pair x y ihx ihy => rw [same, ihx, ihy]; rfl
  | moment m => exact Moment.same_refl m
  | _ => first | rfl | exact beq_self_eq_true _

theorem same_comm (a b : Scalar) : a.same b = b.same a := by
  induction a generalizing b with
  | bool | int => exact same_comm_of_number rfl b
  | float x =>
      obtain ⟨m, hm⟩ := exists_number_float x
      exact same_comm_of_number hm b
  | pair x y ihx ihy =>
      cases b with
      | pair z w => rw [same, same, ihx, ihy]
      | bool | int => exact (same_comm_of_number rfl _).symm
      | float z =>
          obtain ⟨m, hm⟩ := exists_number_float z
          exact (same_comm_of_number hm _).symm
      | _ => rfl
  | _ =>
      cases b with
      | bool | int => exact (same_comm_of_number rfl _).symm
      | float z =>
          obtain ⟨m, hm⟩ := exists_number_float z
          exact (same_comm_of_number hm _).symm
      | _ => first | rfl | exact BEq.comm | exact Moment.same_comm _ _

/-- Only a number is the same as a number, and both count as the same. -/
private theorem same_iff_of_number {a b : Scalar} {m : Int ⊕ Binary64}
    (ha : a.number? = some m) :
    a.same b = true ↔ ∃ n, b.number? = some n ∧ numberSame m n = true := by
  rw [same_eq_numberSame ha]
  cases b.number? <;> simp

private theorem same_trans_of_number {a b c : Scalar} {m : Int ⊕ Binary64}
    (hb : b.number? = some m) (hab : a.same b = true) (hbc : b.same c = true) :
    a.same c = true := by
  rw [same_comm, same_iff_of_number hb] at hab
  rw [same_iff_of_number hb] at hbc
  obtain ⟨l, hl, hml⟩ := hab
  obtain ⟨n, hn, hmn⟩ := hbc
  rw [same_iff_of_number hl]
  exact ⟨n, hn, numberSame_trans (numberSame_comm m l ▸ hml) hmn⟩

/-- What is the same as something that counts as no number counts as none. -/
private theorem number?_eq_none_of_same {a b : Scalar} (hb : b.number? = none)
    (hab : a.same b = true) :
    a.number? = none := by
  cases ha : a.number? with
  | none => rfl
  | some m => simp [same_iff_of_number ha, hb] at hab

/-- Only a pair is the same as a pair, part by part. -/
private theorem same_pair_iff {a x y : Scalar} :
    a.same (pair x y) = true ↔ ∃ x' y', a = pair x' y' ∧ x'.same x = true ∧
      y'.same y = true := by
  constructor
  · intro h
    have ha := number?_eq_none_of_same rfl h
    cases a with
    | pair x' y' =>
        rw [same, Bool.and_eq_true] at h
        exact ⟨x', y', rfl, h⟩
    | float z =>
        obtain ⟨m, hm⟩ := exists_number_float z
        simp [hm] at ha
    | _ => contradiction
  · rintro ⟨x', y', rfl, hx, hy⟩
    rw [same, hx, hy]
    rfl

/-- Only a moment is the same as a moment. -/
private theorem same_moment_iff {a : Scalar} {n : Moment} :
    a.same (moment n) = true ↔ ∃ m, a = moment m ∧ m.same n = true := by
  constructor
  · intro h
    have ha := number?_eq_none_of_same rfl h
    cases a with
    | moment m => exact ⟨m, rfl, h⟩
    | float z =>
        obtain ⟨m, hm⟩ := exists_number_float z
        simp [hm] at ha
    | _ => contradiction
  · rintro ⟨m, rfl, hmn⟩
    exact hmn

/-- Names that are no numbers, moments or pairs are the same as themselves only. -/
private theorem eq_of_same {a b : Scalar} (hb : b.number? = none)
    (hmoment : ∀ m, b ≠ moment m) (hpair : ∀ x y, b ≠ pair x y) (h : a.same b = true) :
    a = b := by
  have ha := number?_eq_none_of_same hb h
  cases b with
  | moment m => exact absurd rfl (hmoment m)
  | pair x y => exact absurd rfl (hpair x y)
  | float z =>
      obtain ⟨m, hm⟩ := exists_number_float z
      simp [hm] at hb
  | _ =>
      cases a with
      | float z =>
          obtain ⟨m, hm⟩ := exists_number_float z
          simp [hm] at ha
      | _ => first | contradiction | rfl | simpa [same] using h

theorem same_trans {a b c : Scalar} (hab : a.same b = true) (hbc : b.same c = true) :
    a.same c = true := by
  induction b generalizing a c with
  | bool | int => exact same_trans_of_number rfl hab hbc
  | float x =>
      obtain ⟨m, hm⟩ := exists_number_float x
      exact same_trans_of_number hm hab hbc
  | pair x y ihx ihy =>
      obtain ⟨x₁, y₁, rfl, hx₁, hy₁⟩ := same_pair_iff.mp hab
      rw [same_comm] at hbc
      obtain ⟨x₂, y₂, rfl, hx₂, hy₂⟩ := same_pair_iff.mp hbc
      rw [same_comm] at hx₂ hy₂
      rw [same, ihx hx₁ hx₂, ihy hy₁ hy₂]
      rfl
  | moment m =>
      obtain ⟨m₁, rfl, hm₁⟩ := same_moment_iff.mp hab
      rw [same_comm] at hbc
      obtain ⟨m₂, rfl, hm₂⟩ := same_moment_iff.mp hbc
      exact Moment.same_trans hm₁ (Moment.same_comm m₂ m ▸ hm₂)
  | _ =>
      obtain rfl := eq_of_same rfl (by simp) (by simp) hab
      exact hbc

end Scalar

/-! ## The names of members -/

namespace Members

variable {α : Type} {name k : Scalar} {v : α} {ms ns entries : List (Scalar × α)}

/-- A name is present if an entry has it. -/
theorem contains_iff : contains name ms = true ↔ ∃ e ∈ ms, e.1.same name = true := by
  rw [contains, Option.isSome_iff_ne_none, Ne, get?_eq_none_iff]
  simp

theorem contains_put :
    contains name (put k v ms) = true ↔ k.same name = true ∨
      contains name ms = true := by
  induction ms with
  | nil => simp [contains_iff]
  | cons e rest ih =>
      obtain ⟨k', w⟩ := e
      rw [put_cons]
      split
      · rename_i hsame
        simp only [contains_iff, List.exists_mem_cons_iff]
        constructor
        · exact .inr
        · rintro (hk | h)
          · exact .inl (Scalar.same_trans hsame hk)
          · exact h
      · simp only [contains_iff, List.exists_mem_cons_iff] at ih ⊢
        rw [ih, or_left_comm]

/-- The members that entries make have the names of these entries. -/
theorem contains_ofEntries : contains name (ofEntries entries) = true ↔
    ∃ e ∈ entries, e.1.same name = true := by
  have hputAll : ∀ ms, contains name (putAll ms entries) = true ↔
      contains name ms = true ∨ ∃ e ∈ entries, e.1.same name = true := by
    induction entries with
    | nil => exact fun ms => by simp [putAll]
    | cons e rest ih =>
        intro ms
        rw [show putAll ms (e :: rest) = putAll (put e.1 e.2 ms) rest from rfl, ih,
          contains_put, List.exists_mem_cons_iff, or_assoc, or_left_comm]
  rw [ofEntries, hputAll]
  simp [contains_iff]

theorem contains_erase {s : String} :
    contains name (erase (.str s) ms) = true ↔ contains name ms = true ∧
      name ≠ .str s := by
  simp only [contains_iff, erase, List.mem_filter, Bool.not_eq_true',
    Bool.eq_false_iff, Ne]
  constructor
  · rintro ⟨e, ⟨he, hother⟩, hname⟩
    refine ⟨⟨e, he, hname⟩, ?_⟩
    rintro rfl
    exact hother hname
  · rintro ⟨⟨e, he, hname⟩, hother⟩
    refine ⟨e, ⟨he, fun hsame => ?_⟩, hname⟩
    rw [Scalar.same_str_iff.mp hsame] at hname
    exact hother (Scalar.str_same_iff.mp hname)

/-- Renaming adds the new name and takes the old one away. -/
theorem contains_rename? {old new : String}
    (h : rename? (.str old) (.str new) ms = some ns) :
    contains name ns = true ↔ name = .str new ∨ contains name ms = true ∧
    name ≠ .str old := by
  obtain ⟨value, hvalue, rfl⟩ := Option.map_eq_some_iff.mp h
  rw [contains_ofEntries]
  constructor
  · rintro ⟨e, he, hname⟩
    obtain ⟨⟨k, v⟩, hkv, hmade⟩ := List.mem_filterMap.mp he
    dsimp only at hmade
    split at hmade
    · obtain rfl := Option.some.inj hmade
      exact .inl (Scalar.str_same_iff.mp hname)
    · rename_i hold
      split at hmade
      · simp at hmade
      · obtain rfl := Option.some.inj hmade
        refine .inr ⟨contains_iff.mpr ⟨_, hkv, hname⟩, ?_⟩
        rintro rfl
        exact hold hname
  · intro hname
    by_cases hnew : name = .str new
    · subst hnew
      refine ⟨(.str new, value), List.mem_filterMap.mpr
        ⟨(.str old, value), mem_of_get?_str hvalue, ?_⟩, ?_⟩ <;> simp
    · obtain ⟨hcontains, hold⟩ := hname.resolve_left hnew
      obtain ⟨⟨k, v⟩, hkv, hk⟩ := contains_iff.mp hcontains
      refine ⟨(k, v), List.mem_filterMap.mpr ⟨(k, v), hkv, ?_⟩, hk⟩
      have hne : ∀ s : String, name ≠ .str s → k.same (.str s) = false := by
        intro s hs
        rw [Bool.eq_false_iff]
        intro hsame
        rw [Scalar.same_str_iff.mp hsame] at hk
        exact hs (Scalar.str_same_iff.mp hk)
      simp [hne old hold, hne new hnew]

/-! ## Renaming in place -/

section

variable {old new : String}

/-- Where names are different, an entry is found under its own name. -/
theorem Distinct.get?_of_mem (h : Distinct ms) (he : (k, v) ∈ ms) :
    get? k ms = some v := by
  induction ms with
  | nil => cases he
  | cons e rest ih =>
      obtain ⟨hfirst, hrest⟩ := List.pairwise_cons.mp h
      rcases List.mem_cons.mp he with rfl | he
      · simp [get?_cons]
      · rw [get?_cons, if_neg (by simp [hfirst _ he])]
        exact ih hrest he

/-- Members with one name in place of another. -/
def relabel (old new : String) (ms : List (Scalar × α)) : List (Scalar × α) :=
  ms.map fun (k, v) => (if k.same (.str old) then .str new else k, v)

/-- What is found under a text after another name has taken the place of a name. -/
theorem get?_relabel (hnew : get? (.str new) ms = none) (s : String) :
    get? (.str s) (relabel old new ms) =
      if s = new then get? (.str old) ms else if s = old then none
      else get? (.str s) ms := by
  induction ms with
  | nil => simp [relabel]
  | cons e rest ih =>
      obtain ⟨k, w⟩ := e
      rw [get?_cons] at hnew
      split at hnew
      · cases hnew
      · rename_i hk
        have hrest := ih hnew
        rw [relabel] at hrest ⊢
        by_cases hold : k.same (.str old) = true
        · obtain rfl := Scalar.same_str_iff.mp hold
          by_cases hs : s = new
          · simp [get?_cons, hs]
          · by_cases hso : s = old
            · subst hso
              simpa [get?_cons, hs, Ne.symm hs] using hrest
            · simpa [get?_cons, hs, hso, Ne.symm hs, Ne.symm hso] using hrest
        · by_cases hks : k.same (.str s) = true
          · obtain rfl := Scalar.same_str_iff.mp hks
            have hsn : s ≠ new := by simpa using hk
            have hso : s ≠ old := by simpa using hold
            simp [get?_cons, hsn, hso]
          · simpa [get?_cons, hold, hks] using hrest

theorem relabel_of_absent (hold : get? (.str old) ms = none) :
    relabel old new ms = ms := by
  refine (List.map_congr_left fun (k, w) he => ?_).trans (List.map_id ms)
  simp [get?_eq_none_iff.mp hold _ he]

/-- Taking the name back restores the members. -/
theorem relabel_relabel (hnew : get? (.str new) ms = none) :
    relabel new old (relabel old new ms) = ms := by
  rw [relabel, relabel, List.map_map]
  refine (List.map_congr_left fun (k, w) he => ?_).trans (List.map_id ms)
  have hk : k.same (.str new) = false := get?_eq_none_iff.mp hnew _ he
  by_cases hold : k.same (.str old) = true
  · obtain rfl := Scalar.same_str_iff.mp hold
    simp
  · simp [hold, hk]

theorem Distinct.relabel (h : Distinct ms) (hnew : get? (.str new) ms = none) :
    Distinct (relabel old new ms) := by
  refine List.pairwise_map.mpr (h.imp_of_mem fun {e e'} he he' hne => ?_)
  have hk := get?_eq_none_iff.mp hnew e he
  have hk' := get?_eq_none_iff.mp hnew e' he'
  dsimp only
  split <;> split
  · rename_i hold hold'
    rw [Scalar.same_str_iff.mp hold, Scalar.same_str_iff.mp hold', Scalar.same_refl]
      at hne
    cases hne
  · rwa [Scalar.same_comm]
  · exact hk
  · exact hne

/-- A name that is there is renamed to one that is not: the new name stands in the place
of the old one. -/
theorem rename?_of_free (h : Distinct ms) (hold : contains (.str old) ms = true)
    (hnew : get? (.str new) ms = none) :
    rename? (.str old) (.str new) ms = some (Members.relabel old new ms) := by
  obtain ⟨value, hvalue⟩ := Option.isSome_iff_exists.mp hold
  have hentries : (ms.filterMap fun (k, v) =>
      if k.same (.str old) then some (.str new, value)
      else if k.same (.str new) then none else some (k, v)) =
        Members.relabel old new ms := by
    rw [Members.relabel, ← List.filterMap_eq_map]
    refine List.filterMap_congr fun (k, w) he => ?_
    have hk : k.same (.str new) = false := get?_eq_none_iff.mp hnew _ he
    by_cases hsame : k.same (.str old) = true
    · obtain rfl := Scalar.same_str_iff.mp hsame
      obtain rfl := Option.some.inj (hvalue.symm.trans (h.get?_of_mem he))
      simp
    · simp [hsame, hk]
  rw [rename?, hvalue, Option.map_some, hentries, (h.relabel hnew).ofEntries_eq]

end

end Members

end ApiWorkbench
