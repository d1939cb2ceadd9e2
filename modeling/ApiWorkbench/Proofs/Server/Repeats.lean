import ApiWorkbench.Proofs.Document.Completeness
import ApiWorkbench.Proofs.Names
import ApiWorkbench.Server.Tool

/-!
# Parameters that repeat others

Shared parameters are joined to those of an operation unless they count as the same as
one that is there. Whether two entries count as the same depends on whether references
have been expanded before: as it is written, a reference is identified by its pointer,
and afterwards by the name and the location of what it leads to.

Entries are looked at both ways here. Each is a pair of a value as it is written and the
same value expanded, and the parameters are joined by the one or by the other. Compared
with leaving out what is the same both ways, either leaves out more, and what it leaves
out repeats the name and the location of an earlier parameter. For the inputs of a tool
this makes no difference, since of a repeated name only the first parameter counts; of
the places where parameters go, some may be listed twice.

## Main results

* `mergeParameters_eq_fresh`: joining parameters chooses entries.
* `fresh_thins`: what a coarser comparison leaves out repeats others, if whatever is the
  same only in this way does.
* `toolInputs_of_thinned`, `placementsOf_of_thinned`: what a tool has of parameters if
  some of them repeat others.
-/

namespace ApiWorkbench.Server

open Document
open Members (get?)

/-! ## Choosing entries -/

/-- Whether an entry counts as the same parameter as an earlier one. -/
def sameEntry (earlier entry : Value) : Bool :=
  match earlier, entry with
  | .object ms, .object ns =>
    match parameterKey ms, parameterKey ns with
    | .ok k, .ok l => ParameterKey.same l k
    | _, _ => false
  | _, _ => false

theorem sameEntry_object {ms ns : Members}
    {k l : ParameterKey} (hk : parameterKey ms = .ok k) (hl : parameterKey ns = .ok l) :
    sameEntry (.object ms) (.object ns) = ParameterKey.same l k := by
  simp only [sameEntry, hk, hl]

theorem sameEntry_iff {v w : Value} :
    sameEntry v w = true ↔ ∃ ms ns k l, v = .object ms ∧ w = .object ns ∧
      parameterKey ms = .ok k ∧
      parameterKey ns = .ok l ∧ ParameterKey.same l k = true := by
  constructor
  · intro h
    unfold sameEntry at h
    split at h
    · split at h
      · exact ⟨_, _, _, _, rfl, rfl, ‹_›, ‹_›, h⟩
      · contradiction
    · contradiction
  · rintro ⟨ms, ns, k, l, rfl, rfl, hk, hl, h⟩
    rw [sameEntry_object hk hl, h]

/-- What is no object is not the same as anything. -/
theorem sameEntry_of_not_isObject {v w : Value}
    (h : v.isObject = false ∨ w.isObject = false) :
    sameEntry v w = false := by
  cases v with
  | marked mark ms =>
      cases w with
      | marked mark' ns => simp [Tree.isObject] at h
      | _ => rfl
  | _ => rfl

/-- What is the same as the same parameter is the same. -/
theorem sameEntry_trans {u v w : Value} (huv : sameEntry u v = true)
    (hvw : sameEntry v w = true) :
    sameEntry u w = true := by
  obtain ⟨ms, ns, k, l, rfl, rfl, hk, hl, hkl⟩ := sameEntry_iff.mp huv
  obtain ⟨ns', os, l', m, heq, rfl, hl', hm, hlm⟩ := sameEntry_iff.mp hvw
  obtain rfl := (Tree.marked.inj heq).2
  obtain rfl := Except.ok.inj (hl.symm.trans hl')
  refine sameEntry_iff.mpr ⟨ms, os, k, m, rfl, rfl, hk, hm, ?_⟩
  simp only [ParameterKey.same, Bool.and_eq_true] at hkl hlm ⊢
  exact ⟨Scalar.same_trans hlm.1 hkl.1, Scalar.same_trans hlm.2 hkl.2⟩

section

variable {α : Type}

/-- The entries that are not the same as an earlier one that was chosen or seen
before. -/
def fresh (same : α → α → Bool) (seen : List α) : List α → List α
  | [] => []
  | x :: rest =>
      if seen.any (same · x) then fresh same seen rest
      else x :: fresh same (x :: seen) rest

theorem mem_of_mem_fresh {same : α → α → Bool} {seen xs : List α} {x : α}
    (h : x ∈ fresh same seen xs) : x ∈ xs := by
  induction xs generalizing seen with
  | nil => exact h
  | cons y rest ih =>
      rw [fresh] at h
      split at h
      · exact List.mem_cons_of_mem _ (ih h)
      · rcases List.mem_cons.mp h with rfl | h
        · exact List.mem_cons_self
        · exact List.mem_cons_of_mem _ (ih h)

/-- Keys stand for entries if what is the same as one of the keys is the same as one
of the entries. -/
private def StandFor (f : α → Value) (keys : List ParameterKey)
    (seen : List α) : Prop :=
  ∀ x ms key, f x = .object ms → parameterKey ms = .ok key →
    keys.any (ParameterKey.same key) = seen.any (fun y => sameEntry (f y) (f x))

private theorem StandFor.cons {f : α → Value} {keys : List ParameterKey} {seen : List α}
    (h : StandFor f keys seen) {y : α} {ms : Members} {key : ParameterKey}
    (hy : f y = .object ms) (hkey : parameterKey ms = .ok key) :
    StandFor f (key :: keys) (y :: seen) := by
  intro x ns other hx hother
  rw [List.any_cons, List.any_cons, h x ns other hx hother, hx, hy,
    sameEntry_object hkey hother]

private theorem StandFor.cons_of_not_isObject {f : α → Value} {keys : List ParameterKey}
    {seen : List α} (h : StandFor f keys seen) {y : α} (hy : (f y).isObject = false) :
    StandFor f keys (y :: seen) := by
  intro x ms key hx hkey
  rw [List.any_cons, sameEntry_of_not_isObject (.inl hy), Bool.false_or,
    h x ms key hx hkey]

private theorem standFor_parameterKeys {f : α → Value}
    {xs : List α} {keys : List ParameterKey} (h : parameterKeys (xs.map f) = .ok keys) :
    StandFor f keys xs := by
  induction xs generalizing keys with
  | nil =>
      obtain rfl := Except.ok.inj h
      exact fun _ _ _ _ _ => rfl
  | cons y rest ih =>
      rw [List.map_cons] at h
      cases hy : f y with
      | marked mark ms =>
          rw [hy] at h
          obtain ⟨key, hkey, h⟩ := bind_eq_ok.mp h
          obtain ⟨others, hothers, h⟩ := bind_eq_ok.mp h
          obtain rfl := Except.ok.inj h
          exact (ih hothers).cons hy hkey
      | _ =>
          rw [hy] at h
          exact (ih h).cons_of_not_isObject (by rw [hy]; rfl)

private theorem newParameters_eq_fresh {f : α → Value} {xs seen : List α}
    {keys : List ParameterKey} {added : List Value} (hkeys : StandFor f keys seen)
    (h : newParameters keys (xs.map f) = .ok added) :
    added = ((fresh (fun x y => sameEntry (f x) (f y)) seen xs).filter fun x =>
      (f x).isObject).map f := by
  induction xs generalizing keys seen added with
  | nil => exact (Except.ok.inj h).symm
  | cons x rest ih =>
      rw [List.map_cons] at h
      cases hx : f x with
      | marked mark ms =>
          rw [hx] at h
          obtain ⟨key, hkey, h⟩ := bind_eq_ok.mp h
          rw [fresh, ← hkeys x ms key hx hkey]
          split at h
          · rw [if_pos ‹_›]
            exact ih hkeys h
          · obtain ⟨others, hothers, h⟩ := bind_eq_ok.mp h
            obtain rfl := Except.ok.inj h
            rw [if_neg ‹_›, List.filter_cons_of_pos (by rw [hx]; rfl), List.map_cons,
              hx, ih (hkeys.cons hx hkey) hothers]
      | _ =>
          -- it is not the same as anything, and nothing is the same as it
          have hobject : (f x).isObject = false := by
            rw [hx]
            rfl
          have hnew : ¬ seen.any (fun y => sameEntry (f y) (f x)) = true := by
            simp [sameEntry_of_not_isObject (.inr hobject)]
          rw [hx] at h
          rw [fresh, if_neg hnew, List.filter_cons_of_neg (by simp [hobject])]
          exact ih (hkeys.cons_of_not_isObject hobject) h

/-- Joining parameters keeps the own ones and chooses from the shared ones those
that are objects. -/
theorem mergeParameters_eq_fresh
    (f : α → Value) {own shared : List α} {merged : List Value}
    (h : mergeParameters (shared.map f) (own.map f) = .ok merged) :
    merged =
      (own ++ (fresh (fun x y => sameEntry (f x) (f y)) own shared).filter fun x =>
        (f x).isObject).map f := by
  obtain ⟨keys, hkeys, h⟩ := bind_eq_ok.mp h
  obtain ⟨added, hadded, h⟩ := bind_eq_ok.mp h
  obtain rfl := Except.ok.inj h
  rw [newParameters_eq_fresh (standFor_parameterKeys hkeys) hadded, List.map_append]

end

/-! ## Repeats -/

/-- The parameter that an entry is, if it is an object with a name. -/
def named? : Value → Option (String × Members)
  | .object ms =>
    match Members.valueAt "name" ms with
    | .str name => some (name, ms)
    | _ => none
  | _ => none

theorem namedParameters_eq (xs : List Value) :
    namedParameters xs = xs.filterMap named? := rfl

/-- Where a parameter goes: its name and its location. -/
def place (parameter : String × Members) : String × Value :=
  (parameter.1, (get? "in" parameter.2).getD defaultLocation)

/-- Two parameters go to the same place. -/
def SamePlace (p q : String × Members) : Prop :=
  place p = place q

/-- Items of which some are left out that repeat an earlier one. -/
inductive Thinned {β : Type} (Repeat : β → β → Prop) :
    (earlier all kept : List β) → Prop
  | nil {earlier : List β} : Thinned Repeat earlier [] []
  | keep {earlier all kept : List β} {x : β}
      (h : Thinned Repeat (x :: earlier) all kept) :
    Thinned Repeat earlier (x :: all) (x :: kept)
  | skip {earlier all kept : List β} {x : β} (hrepeat : ∃ y ∈ earlier, Repeat y x)
    (h : Thinned Repeat (x :: earlier) all kept) :
    Thinned Repeat earlier (x :: all) kept

namespace Thinned

variable {β : Type} {Repeat : β → β → Prop} {earlier earlier' all kept : List β}

theorem mono (h : Thinned Repeat earlier all kept)
    (hsub : ∀ x ∈ earlier, x ∈ earlier') :
    Thinned Repeat earlier' all kept := by
  have hcons : ∀ {x : β} {xs ys : List β}, (∀ y ∈ xs, y ∈ ys) → ∀ y ∈ x :: xs,
      y ∈ x :: ys :=
    fun hsub y hy => (List.mem_cons.mp hy).elim (fun h => h ▸ List.mem_cons_self)
      fun h => List.mem_cons_of_mem _ (hsub y h)
  induction h generalizing earlier' with
  | nil => exact .nil
  | keep _ ih => exact .keep (ih (hcons hsub))
  | skip hrepeat _ ih =>
      obtain ⟨y, hy, hyx⟩ := hrepeat
      exact .skip ⟨y, hsub y hy, hyx⟩ (ih (hcons hsub))

/-- Nothing is left out of what comes first. -/
theorem append (xs : List β) (h : Thinned Repeat (xs ++ earlier) all kept) :
    Thinned Repeat earlier (xs ++ all) (xs ++ kept) := by
  induction xs generalizing earlier with
  | nil => exact h
  | cons x rest ih =>
      refine .keep (ih (h.mono fun y hy => ?_))
      simp only [List.cons_append, List.mem_cons, List.mem_append] at hy ⊢
      tauto

/-- Where nothing repeats anything, nothing is left out. -/
theorem eq_of_never (h : Thinned Repeat earlier all kept)
    (hnever : ∀ p q, ¬ Repeat p q) : kept = all := by
  induction h with
  | nil => rfl
  | keep _ ih => rw [ih]
  | skip hrepeat =>
      obtain ⟨y, -, hyx⟩ := hrepeat
      exact absurd hyx (hnever y _)

end Thinned

section

variable {α β : Type} {named : α → Option β} {Repeat : β → β → Prop}

/-- An entry is kept, be it a parameter or not. -/
private theorem Thinned.keep_filterMap {y : α} {chosen all kept : List α}
    (h : Thinned Repeat ((y :: chosen).filterMap named) (all.filterMap named)
      (kept.filterMap named)) :
    Thinned Repeat (chosen.filterMap named) ((y :: all).filterMap named)
      ((y :: kept).filterMap named) := by
  cases hy : named y with
  | none => simpa only [List.filterMap_cons, hy] using h
  | some q =>
      simp only [List.filterMap_cons, hy] at h ⊢
      exact .keep h

/-- An entry is left out that repeats an earlier one, if it is a parameter at all. -/
private theorem Thinned.skip_filterMap {y : α} {chosen all kept : List α}
    (hrepeat : ∀ q, named y = some q → ∃ x ∈ chosen, ∃ p, named x = some p ∧ Repeat p q)
    (h : Thinned Repeat ((y :: chosen).filterMap named) (all.filterMap named)
      (kept.filterMap named)) :
    Thinned Repeat (chosen.filterMap named) ((y :: all).filterMap named)
      (kept.filterMap named) := by
  cases hy : named y with
  | none => simpa only [List.filterMap_cons, hy] using h
  | some q =>
      obtain ⟨x, hx, p, hp, hpq⟩ := hrepeat q hy
      simp only [List.filterMap_cons, hy] at h ⊢
      exact .skip ⟨p, List.mem_filterMap.mpr ⟨x, hx, hp⟩, hpq⟩ h

/-- A coarser comparison leaves out more. What it leaves out repeats others, if whatever
counts as the same only in this way does. -/
theorem fresh_thins {same fine : α → α → Bool}
    (htrans : ∀ x y z, same x y = true → same y z = true → same x z = true)
    (hfine : ∀ x y, fine x y = true → same x y = true) {chosen kept xs : List α}
    (hrepeat : ∀ x ∈ chosen ++ xs, ∀ y ∈ xs, same x y = true → fine x y = false →
      ∀ q, named y = some q →
      ∃ p, named x = some p ∧ Repeat p q)
    (hkept : ∀ x ∈ kept, x ∈ chosen)
    (hcover : ∀ x ∈ chosen, ∃ y ∈ kept, y = x ∨ same y x = true) :
    Thinned Repeat (chosen.filterMap named) ((fresh fine chosen xs).filterMap named)
      ((fresh same kept xs).filterMap named) := by
  induction xs generalizing chosen kept with
  | nil => exact .nil
  | cons y rest ih =>
      rw [fresh, fresh]
      by_cases hdropped : chosen.any (fine · y) = true
      · -- what stands for the entry that it repeats counts as the same as well
        have hdropped' : kept.any (same · y) = true := by
          obtain ⟨x, hx, hxy⟩ := List.any_eq_true.mp hdropped
          obtain ⟨e, he, hex⟩ := hcover x hx
          refine List.any_eq_true.mpr ⟨e, he, ?_⟩
          rcases hex with rfl | hex
          · exact hfine e y hxy
          · exact htrans e x y hex (hfine x y hxy)
        rw [if_pos hdropped, if_pos hdropped']
        exact ih (fun x hx z hz => hrepeat x (by simp at hx ⊢; tauto) z (by simp [hz]))
          hkept hcover
      · have hnext : ∀ x ∈ (y :: chosen) ++ rest, ∀ z ∈ rest, same x z = true →
            fine x z = false → ∀ q, named z = some q →
            ∃ p, named x = some p ∧ Repeat p q :=
          fun x hx z hz => hrepeat x (by simp at hx ⊢; tauto) z (by simp [hz])
        rw [if_neg hdropped]
        by_cases hdropped' : kept.any (same · y) = true
        · obtain ⟨x, hx, hxy⟩ := List.any_eq_true.mp hdropped'
          have hnotFine : fine x y = false :=
            eq_false_of_ne_true fun h =>
              hdropped (List.any_eq_true.mpr ⟨x, hkept x hx, h⟩)
          rw [if_pos hdropped']
          refine .skip_filterMap (fun q hq => ⟨x, hkept x hx, ?_⟩)
            (ih hnext (fun z hz => by simp [hkept z hz]) fun z hz => ?_)
          · exact hrepeat x (by simp [hkept x hx]) y (by simp) hxy hnotFine q hq
          · rcases List.mem_cons.mp hz with rfl | hz
            · exact ⟨x, hx, .inr hxy⟩
            · exact hcover z hz
        · rw [if_neg hdropped']
          refine .keep_filterMap (ih hnext (fun z hz => ?_) fun z hz => ?_)
          · rcases List.mem_cons.mp hz with rfl | hz
            · exact List.mem_cons_self
            · exact List.mem_cons_of_mem _ (hkept z hz)
          · rcases List.mem_cons.mp hz with rfl | hz
            · exact ⟨z, List.mem_cons_self, .inl rfl⟩
            · obtain ⟨e, he, hez⟩ := hcover z hz
              exact ⟨e, List.mem_cons_of_mem _ he, hez⟩

end

/-! ## What a tool has of parameters -/

/-- A repeated parameter makes no difference to the inputs of a tool. -/
theorem parameterInputs_of_thinned {earlier all kept : List (String × Members)}
    (h : Thinned SamePlace earlier all kept) (tool : String) {seen : List String}
    (hseen : ∀ x ∈ earlier, x.1 ∈ seen) :
    parameterInputs tool seen all = parameterInputs tool seen kept := by
  induction h generalizing seen with
  | nil => rfl
  | @keep earlier _ _ x _ ih =>
      obtain ⟨name, parameter⟩ := x
      rw [parameterInputs, parameterInputs]
      split
      · refine ih fun y hy => ?_
        rcases List.mem_cons.mp hy with rfl | hy
        · exact List.contains_iff_mem.mp ‹_›
        · exact hseen y hy
      · rw [ih fun y hy => ?_]
        rcases List.mem_cons.mp hy with rfl | hy
        · exact List.mem_cons_self
        · exact List.mem_cons_of_mem _ (hseen y hy)
  | @skip _ _ _ x hrepeat _ ih =>
      obtain ⟨name, parameter⟩ := x
      obtain ⟨y, hy, hplace⟩ := hrepeat
      have hname : name ∈ seen := by
        obtain rfl : y.1 = name := congrArg (·.1) hplace
        exact hseen y hy
      rw [parameterInputs, if_pos (List.contains_iff_mem.mpr hname)]
      refine ih fun z hz => ?_
      rcases List.mem_cons.mp hz with rfl | hz
      · exact hname
      · exact hseen z hz

theorem toolInputs_of_thinned {all kept : List (String × Members)}
    (h : Thinned SamePlace [] all kept) (tool : String) (body : Value) :
    toolInputs tool all body = toolInputs tool kept body := by
  rw [toolInputs, toolInputs, parameterInputs_of_thinned h tool (by simp)]

/-- What is noted of where a parameter goes. -/
def placementOf (parameter : String × Members) : Except ToolError Placement := do
  pure ⟨parameter.1, ← requireText "location" (place parameter).2⟩

theorem placementsOf_eq (parameters : List (String × Members)) :
    placementsOf parameters = parameters.mapM placementOf := rfl

theorem placementOf_congr {x y : String × Members} (h : place x = place y) :
    placementOf x = placementOf y := by
  have hname : x.1 = y.1 := congrArg (·.1) h
  rw [placementOf, placementOf, h, hname]

/-- What was listed before may be listed again without being a new place. -/
private theorem eraseDups_append_cons {seen : List Placement} {p : Placement}
    (hp : p ∈ seen) (rest : List Placement) :
    (seen ++ p :: rest).eraseDups = (seen ++ rest).eraseDups := by
  rw [List.eraseDups_append, List.eraseDups_append, List.cons_removeAll,
    if_neg (by simpa using hp)]

private theorem placementsOf_of_thinned_after
    {earlier all kept : List (String × Members)}
    (h : Thinned SamePlace earlier all kept) {seen : List Placement}
    (hseen : ∀ x ∈ earlier, ∃ p ∈ seen, placementOf x = .ok p) :
    Agree (fun ps qs => (seen ++ ps).eraseDups = (seen ++ qs).eraseDups)
      (placementsOf all) (placementsOf kept) := by
  rw [placementsOf_eq, placementsOf_eq]
  induction h generalizing seen with
  | nil => exact .ok rfl
  | @keep earlier _ _ x _ ih =>
      rw [List.mapM_cons, List.mapM_cons]
      cases hx : placementOf x with
      | error e => exact .error e
      | ok p =>
          have hnext : ∀ y ∈ x :: earlier, ∃ q ∈ seen ++ [p],
              placementOf y = .ok q := by
            intro y hy
            rcases List.mem_cons.mp hy with rfl | hy
            · exact ⟨p, by simp, hx⟩
            · obtain ⟨q, hq, hyq⟩ := hseen y hy
              exact ⟨q, by simp [hq], hyq⟩
          refine (ih hnext).bind fun ps qs hps => .ok ?_
          rwa [List.append_assoc, List.append_assoc] at hps
  | @skip earlier _ kept x hrepeat _ ih =>
      obtain ⟨y, hy, hplace⟩ := hrepeat
      obtain ⟨p, hp, hyp⟩ := hseen y hy
      rw [List.mapM_cons, ← placementOf_congr hplace, hyp,
        ok_bind, ← bind_pure (kept.mapM placementOf)]
      have hnext : ∀ z ∈ x :: earlier, ∃ q ∈ seen, placementOf z = .ok q := by
        intro z hz
        rcases List.mem_cons.mp hz with rfl | hz
        · exact ⟨p, hp, (placementOf_congr hplace).symm.trans hyp⟩
        · exact hseen z hz
      refine (ih hnext).bind fun ps qs hps => .ok ?_
      rw [eraseDups_append_cons hp, hps]

/-- Of the places where parameters go, repeated ones may be missing. -/
theorem placementsOf_of_thinned {all kept : List (String × Members)}
    (h : Thinned SamePlace [] all kept) :
    Agree (fun ps qs => ps.eraseDups = qs.eraseDups) (placementsOf all)
      (placementsOf kept) := by
  have hnone : ∀ x ∈ ([] : List (String × Members)), ∃ p ∈ ([] : List Placement),
      placementOf x = .ok p :=
    fun x hx => absurd hx List.not_mem_nil
  exact placementsOf_of_thinned_after h hnone

end ApiWorkbench.Server
