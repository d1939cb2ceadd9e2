import ApiWorkbench.Document.Pruning
import ApiWorkbench.Proofs.Frame
import ApiWorkbench.Proofs.Result

/-!
# Members that are dropped

Pruning drops a member that has nothing under certain names, or that is blank. Either
way it is trimmed away, if it is there at all; what is left has something there, or is
not blank. What has content is not dropped.

## Main results

* `dropUnless_eq_trim`, `dropBlank_eq_trim`: dropping a member is trimming it.
* `foldl_dropBlank_eq_trim`: members that are dropped one after the other are
  trimmed at once.
* `dropUnless_of_kept`, `dropBlank_of_notBlank`: what has content is not dropped.
-/

namespace ApiWorkbench.Document

open Members

/-- Whether an object has nothing under the needed names; what is no object has
nothing anywhere. -/
def lacks (needed : List String) : Value → Bool
  | .object ms => needed.all fun name => (valueAt (.str name) ms).isBlank
  | _ => true

section

variable {ms ms' : Members} {name : String} {needed : List String}
  {v : Value} {b : Bool}

/-- What is under a name, if anything, has something under one of the needed names. -/
def Kept (name : String) (needed : List String) (ms : Members) : Prop :=
  ∀ v, Members.get? (.str name) ms = some v → hasAny needed v = .ok true

/-- What is under a name, if anything, is not blank. -/
def NotBlank (name : String) (ms : Members) : Prop :=
  ∀ v, Members.get? (.str name) ms = some v → v.isBlank = false

theorem hasAny_of_isBlank (h : v.isBlank = true) : hasAny needed v = .ok false := by
  rw [hasAny, if_pos h, pure_eq_ok]

theorem isBlank_of_hasAny (h : hasAny needed v = .ok true) : v.isBlank = false := by
  by_contra hblank
  rw [hasAny_of_isBlank (eq_true_of_ne_false hblank)] at h
  simp at h

theorem hasAny_object (needed : List String) (ms : Members) :
    hasAny needed (.object ms) = .ok (!lacks needed (.object ms)) := by
  have hany : (needed.anyM
      fun (name : String) => do pure !(← (Value.object ms).member name).isBlank) = (.ok
      (needed.any fun name => !(valueAt (.str name) ms).isBlank) : Except Fault Bool) :=
    List.anyM_pure
  rw [hasAny, hany]
  split
  · rename_i hblank
    obtain rfl : ms = [] := by simpa [Tree.isBlank] using hblank
    simp [lacks, valueAt, Members.get?, Tree.isBlank, Scalar.isBlank]
  · rw [lacks, List.any_eq_not_all_not]
    simp

/-- Where it can be told whether something needed is there, it is unless it is
lacking. -/
theorem eq_not_lacks_of_hasAny (h : hasAny needed v = .ok b) : b = !lacks needed v := by
  cases v with
  | marked mark ms => exact Except.ok.inj (h.symm.trans (hasAny_object needed ms))
  | _ =>
      rw [hasAny] at h
      split at h
      · exact (Except.ok.inj h).symm
      · cases needed with
        | nil => exact (Except.ok.inj h).symm
        | cons name needed => simp [Tree.member, Tree.members] at h

theorem hasAny_eq_true_iff : hasAny needed v = .ok true ↔ lacks needed v = false := by
  constructor
  · intro h
    simpa using (eq_not_lacks_of_hasAny h).symm
  · intro h
    cases v with
    | marked mark ms => rw [hasAny_object, h, Bool.not_false]
    | _ => simp [lacks] at h

theorem Kept.notBlank (h : Kept name needed ms) : NotBlank name ms :=
  fun v hv => isBlank_of_hasAny (h v hv)

theorem kept_congr (h : Members.get? (.str name) ms = Members.get? (.str name) ms') :
    Kept name needed ms ↔ Kept name needed ms' := by
  rw [Kept, Kept, h]

/-- Where nothing is under a name, nothing is taken away. -/
private theorem trim_singleton_of_absent {needless : Value → Bool}
    (h : Members.get? (.str name) ms = none) :
    trim [(name, needless)] ms = ms := by
  rw [trim_singleton, erase_of_absent h, ite_self]

/-- A member is dropped if it lacks what is needed. -/
theorem dropUnless_eq_trim (h : dropUnless name needed ms = .ok ms') :
    ms' = trim [(name, lacks needed)] ms := by
  unfold dropUnless at h
  split at h
  · rw [← Except.ok.inj h, trim_singleton_of_absent ‹_›]
  · rename_i v hv
    obtain ⟨there, hthere, h⟩ := bind_eq_ok.mp h
    obtain rfl := Except.ok.inj h
    rw [trim_singleton, valueAt, hv, Option.getD_some, eq_not_lacks_of_hasAny hthere]
    cases lacks needed v <;> rfl

/-- A member is dropped if it is blank. -/
theorem dropBlank_eq_trim (name : String) (ms : Members) :
    dropBlank name ms = trim [(name, Tree.isBlank)] ms := by
  unfold dropBlank
  split
  · rw [trim_singleton_of_absent ‹_›]
  · rename_i v hv
    rw [trim_singleton, valueAt, hv, Option.getD_some]

/-- What is blank under each of some names is needless. -/
def blankUnder (names : List String) : List (String × (Value → Bool)) :=
  names.map fun name => (name, Tree.isBlank)

theorem foldl_dropBlank_eq_trim {names : List String} (hnames : names.Nodup)
    (ms : Members) :
    names.foldl (fun ms name => dropBlank name ms) ms = trim (blankUnder names) ms := by
  induction names generalizing ms with
  | nil => simp [blankUnder, trim, isNeedless]
  | cons name names ih =>
      rw [List.nodup_cons] at hnames
      have hapart : ∀ part ∈ [(name, (Tree.isBlank : Value → Bool))],
          ∀ part' ∈ blankUnder names, part.1 ≠ part'.1 := by
        simp only [List.mem_singleton, forall_eq, blankUnder, List.forall_mem_map]
        exact fun other hother heq => hnames.1 (heq ▸ hother)
      rw [List.foldl_cons, ih hnames.2, dropBlank_eq_trim, ← trim_append hapart]
      rfl

/-- After a member was dropped for want of content, what is left under the
name has content. -/
theorem kept_of_dropUnless (h : dropUnless name needed ms = .ok ms') :
    Kept name needed ms' := by
  intro v hv
  rw [dropUnless_eq_trim h, get?_trim_eq_some] at hv
  exact hasAny_eq_true_iff.mpr (hv.2 _ (by simp))

/-- Dropping a member leaves it, or takes it away. -/
theorem dropUnless_eq_ok (h : dropUnless name needed ms = .ok ms') :
    ms' = ms ∨ ms' = Members.erase (.str name) ms := by
  rw [dropUnless_eq_trim h, trim_singleton]
  split
  · exact .inr rfl
  · exact .inl rfl

/-- What has content is not dropped. -/
theorem dropUnless_of_kept (h : Kept name needed ms) :
    dropUnless name needed ms = .ok ms := by
  unfold dropUnless
  split
  · rfl
  · rename_i v hv
    rw [h v hv]
    rfl

theorem dropBlank_of_notBlank (h : NotBlank name ms) : dropBlank name ms = ms := by
  unfold dropBlank
  split
  · rfl
  · rename_i v hv
    rw [h v hv]
    rfl

end

end ApiWorkbench.Document
