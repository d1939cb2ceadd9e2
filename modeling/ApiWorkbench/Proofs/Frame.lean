import ApiWorkbench.Proofs.Members
import ApiWorkbench.Value.Reading

/-!
# Members that change in few places

A pass over a document changes what is under a few names of an object and leaves the
rest. `SameBut` says so of the members before and after: the same names in the same
order, and the same values except under the names that are given.

Where a pass adds members, it does so to an object that has been given the names that it
lacks (`withNames`). Where it takes members away, it does so to an object from which all
that is needless has been taken at once (`trim`). In either case the steps of the pass
may be looked at one by one.

## Main results

* `SameBut.get?_eq`: under any other name there is the same.
* `get?_withNames`: so there is after names were given.
* `SameBut.withNames`, `SameBut.trim`: what changes in few places still does after names
  were given or taken away.
* `trim_append`: what is needless is taken away at once or step by step.
-/

namespace ApiWorkbench.Members

/-! ## The same but for some names -/

section

variable {α : Type} {changed more : List String} {ms ns os : List (Scalar × α)}

/-- The same names in the same order, and except under some of them the same values. -/
def SameBut (changed : List String) (ms ns : List (Scalar × α)) : Prop :=
  Aligned (fun name v w => (∀ s ∈ changed, name ≠ .str s) → w = v) ms ns

theorem SameBut.refl (changed : List String) (ms : List (Scalar × α)) :
    SameBut changed ms ms :=
  Aligned.refl fun _ _ _ => rfl

theorem SameBut.mono (h : SameBut changed ms ns) (hmore : changed ⊆ more) :
    SameBut more ms ns :=
  Aligned.imp h fun _ _ _ hvalue hname => hvalue fun s hs => hname s (hmore hs)

theorem SameBut.trans (h : SameBut changed ms ns) (h' : SameBut changed ns os) :
    SameBut changed ms os :=
  Aligned.trans h h' fun _ _ _ _ hv hw hname => (hw hname).trans (hv hname)

/-- Under any other name there is the same. -/
theorem SameBut.get?_eq (h : SameBut changed ms ns) {name : String}
    (hname : name ∉ changed) :
    get? (.str name) ns = get? (.str name) ms := by
  cases hv : get? (.str name) ms with
  | none => exact Aligned.get?_none h hv
  | some v =>
      obtain ⟨k, w, hk, hw, hvalue⟩ := Aligned.get?_some h hv
      rw [hw, hvalue fun s hs heq => ?_]
      obtain rfl := Scalar.str.inj ((Scalar.same_str_iff.mp hk).symm.trans heq)
      exact hname hs

theorem SameBut.contains_eq (h : SameBut changed ms ns) (name : Scalar) :
    contains name ns = contains name ms := by
  rw [contains, contains]
  cases hv : get? name ms with
  | none => rw [Aligned.get?_none h hv]
  | some v =>
      obtain ⟨k, w, -, hw, -⟩ := Aligned.get?_some h hv
      rw [hw]
      rfl

/-- What is put under a name that is there changes nothing else. -/
theorem sameBut_put {name : String} {v : α} (hv : get? (.str name) ms = some v)
    (w : α) :
    SameBut [name] ms (put (.str name) w ms) := by
  have hput : SameBut [name] (put (.str name) v ms) (put (.str name) w ms) := by
    refine Aligned.put (SameBut.refl [name] ms) fun k hk hname =>
      absurd ?_ (hname name List.mem_cons_self)
    exact hk.elim id Scalar.same_str_iff.mp
  rwa [put_of_get? hv] at hput

theorem sameBut_modifyM {name : String} {f : α → Except Fault α}
    (h : modifyM (.str name) f ms = .ok ns) :
    SameBut [name] ms ns := by
  rw [modifyM_eq] at h
  split at h
  · obtain ⟨w, -, rfl⟩ := map_eq_ok.mp h
    exact sameBut_put ‹_› w
  · obtain rfl := Except.ok.inj h
    exact .refl _ _

end

/-! ## Names that are given -/

section

variable {μ : Type} {changed names : List String} {ms ns : Tree.Members μ}

/-- The members, with null under a name that they lack. -/
def withName (name : String) (ms : Tree.Members μ) : Tree.Members μ :=
  if contains (.str name) ms then ms else ms ++ [(.str name, .null)]

/-- The members, with null at the end under each name that they lack. -/
def withNames (names : List String) (ms : Tree.Members μ) : Tree.Members μ :=
  names.foldl (fun ms name => withName name ms) ms

/-- Under another name there is what was there before. -/
theorem get?_withNames {s : String} (hs : s ∉ names) :
    get? (.str s) (withNames names ms) = get? (.str s) ms := by
  induction names generalizing ms with
  | nil => rfl
  | cons name names ih =>
      rw [List.mem_cons, not_or] at hs
      have hfirst : get? (.str s) (withName name ms) = get? (.str s) ms := by
        unfold withName
        split
        · rfl
        · rename_i habsent
          rw [← put_of_absent (Tree.null : Tree μ) (by simpa [contains] using habsent),
            get?_put, if_neg hs.1]
      exact (ih hs.2).trans hfirst

theorem SameBut.withName (h : SameBut changed ms ns) (name : String) :
    SameBut changed (Members.withName name ms) (Members.withName name ns) := by
  unfold Members.withName
  rw [h.contains_eq]
  split
  · exact h
  · exact List.rel_append h (.cons ⟨rfl, fun _ => rfl⟩ .nil)

/-- What changes in few places still does after both were given the names
that they lack. -/
theorem SameBut.withNames (h : SameBut changed ms ns) (names : List String) :
    SameBut changed (Members.withNames names ms) (Members.withNames names ns) := by
  induction names generalizing ms ns with
  | nil => exact h
  | cons name names ih => exact ih (h.withName name)

end

/-! ## Names that are taken away -/

/-- Whether a name is one of those where what is there may turn out to be
needless, and does. -/
def isNeedless (needless : List (String × (Value → Bool))) (ms : Members)
    (name : Scalar) : Bool :=
  needless.any fun part => name.same (.str part.1) && part.2 (valueAt (.str part.1) ms)

/-- The members without those that are needless. -/
def trim (needless : List (String × (Value → Bool))) (ms : Members) : Members :=
  ms.filter fun e => !isNeedless needless ms e.1

section

variable {changed : List String}
  {needless first second : List (String × (Value → Bool))} {ms ns : Members}

/-- What is needless depends only on the values under the names that are looked at. -/
private theorem isNeedless_congr
    (h : ∀ part ∈ needless, part.2 (valueAt (.str part.1) ns) =
      part.2 (valueAt (.str part.1) ms)) :
    isNeedless needless ns = isNeedless needless ms := by
  funext name
  rw [isNeedless, isNeedless, Bool.eq_iff_iff, List.any_eq_true, List.any_eq_true]
  refine exists_congr fun part => and_congr_right fun hpart => ?_
  rw [h part hpart]

/-- One member is taken away or left. -/
theorem trim_singleton (name : String) (needlessValue : Value → Bool) (ms : Members) :
    trim [(name, needlessValue)] ms =
      if needlessValue (valueAt (.str name) ms) then erase (.str name) ms else ms := by
  rw [trim]
  split
  · rename_i hneedless
    simp [erase, isNeedless, hneedless]
  · rename_i hneeded
    simp [isNeedless, hneeded]

/-- What is found after needless members were taken away. -/
theorem get?_trim (needless : List (String × (Value → Bool))) (ms : Members)
    (name : String) :
    get? (.str name) (trim needless ms) =
      if isNeedless needless ms (.str name) then none else get? (.str name) ms := by
  rw [trim, get?_filter fun k => !isNeedless needless ms k]
  cases isNeedless needless ms (.str name) <;> rfl

/-- Under other names nothing is taken away. -/
theorem get?_trim_of_notMem {name : String} (hname : name ∉ needless.map (·.1)) :
    get? (.str name) (trim needless ms) = get? (.str name) ms := by
  have hneeded : isNeedless needless ms (.str name) = false := by
    rw [isNeedless, List.any_eq_false]
    intro part hpart
    have hne : name ≠ part.1 := fun heq => hname (heq ▸ List.mem_map_of_mem hpart)
    simp [hne]
  rw [get?_trim, hneeded]
  rfl

/-- What is left was there before, and there is need of it. -/
theorem get?_trim_eq_some {name : String} {v : Value} :
    get? (.str name) (trim needless ms) = some v ↔
      get? (.str name) ms = some v ∧ ∀ needlessValue, (name, needlessValue) ∈ needless →
        needlessValue v = false := by
  rw [get?_trim]
  cases hv : get? (.str name) ms with
  | none => simp
  | some w =>
      rw [ite_eq_iff]
      simp only [reduceCtorEq, and_false, false_or, Option.some.injEq,
        and_comm (a := ¬ _), and_congr_right_iff]
      rintro rfl
      rw [isNeedless, Bool.not_eq_true, List.any_eq_false]
      constructor
      · intro h needlessValue hmem
        simpa [valueAt, hv] using h _ hmem
      · rintro h ⟨name', needlessValue⟩ hmem
        simp only [Scalar.str_same_str, Bool.and_eq_true, beq_iff_eq, not_and,
          Bool.not_eq_true]
        rintro rfl
        rw [valueAt, hv]
        exact h needlessValue hmem

/-- What changes in few places still does after needless members were taken away from
both, if the same ones are needless. -/
theorem SameBut.trim (h : SameBut changed ms ns)
    (needless : List (String × (Value → Bool))) (hneedless : ∀ part ∈ needless,
      part.2 (valueAt (.str part.1) ns) = part.2 (valueAt (.str part.1) ms)) :
    SameBut changed (Members.trim needless ms) (Members.trim needless ns) := by
  rw [Members.trim, Members.trim, isNeedless_congr hneedless]
  exact Aligned.filter h fun k => !isNeedless needless ms k

/-- What is needless is taken away at once or in two steps at different names. -/
theorem trim_append (hapart : ∀ part ∈ first, ∀ part' ∈ second, part.1 ≠ part'.1)
    (ms : Members) :
    trim (first ++ second) ms = trim second (trim first ms) := by
  have hsame : isNeedless second (trim first ms) = isNeedless second ms := by
    refine isNeedless_congr fun part' hpart' => ?_
    have hname : part'.1 ∉ first.map (·.1) := by
      intro hmem
      obtain ⟨part, hpart, heq⟩ := List.mem_map.mp hmem
      exact hapart part hpart part' hpart' heq
    rw [valueAt, get?_trim_of_notMem hname]
    rfl
  rw [trim, trim, hsame, trim, List.filter_filter]
  refine congrArg (List.filter · ms) (funext fun e => ?_)
  rw [isNeedless, List.any_append, Bool.not_or, Bool.and_comm]
  rfl

end

end ApiWorkbench.Members
