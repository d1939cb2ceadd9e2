import ApiWorkbench.Proofs.Editor.Locality
import ApiWorkbench.Proofs.Editor.Usable

/-!
# Addresses of parts of a document

An edit names what it is about by an address: parts of objects, entries of maps and
items of lists on the way from the document to what is named. A part that is missing and
an object that is missing around it come to the same; of a map it is expected that it is
one, or blank, and likewise of a list (`Address.Fits`).

An edit is idle at an address if it finds nothing to change wherever the address leads
nowhere. Edits inside a part or a map are idle at the longer address.

## Main results

* `Edit.Idle.within`, `Edit.Idle.withinMap`, `Edit.Idle.withinMembers`: from an edit of
  a part to an edit of the whole.
* `Edit.idle_renameEntry` and the other lemmas of this form: where the basic
  edits are idle.
* `Edit.run_removeItem_iff`: taking out an item that is not there changes nothing if
  there is a list at all.
-/

namespace ApiWorkbench.Editor

open Members

/-- A step of an address. -/
inductive Address.Step where
  /-- to a member of what may be an object -/
  | part (name : Scalar)
  /-- to an entry of a map -/
  | entry (name : Scalar)
  /-- to an item of a list -/
  | item (index : Int)

/-- The way from a value to something inside it. -/
abbrev Address : Type := List Address.Step

/-- A position in a list is one of an item. -/
theorem position?_of_getElem?_eq_none {index : Int} {xs : List Value}
    (h : ((position? index xs).bind fun i => xs[i]?) = none) :
    position? index xs = none := by
  unfold position? at h ⊢
  split at h
  · rename_i hrange
    simp only [Bool.and_eq_true, decide_eq_true_eq] at hrange
    have hlt : index.toNat < xs.length := by omega
    simp [hlt] at h
  · exact if_neg ‹_›

namespace Address

variable {address rest : Address} {step : Step} {name k : Scalar} {index : Int}
  {v w : Value} {ms inner : Members}

namespace Step

/-- The name that a step into an object has. -/
def name? : Step → Option Scalar
  | .part name | .entry name => some name
  | .item _ => none

/-- What a step leads to. -/
def into? : Step → Value → Option Value
  | .part name, .object ms | .entry name, .object ms => get? name ms
  | .item index, .list xs => (position? index xs).bind fun i => xs[i]?
  | _, _ => none

/-- What a step expects of the value that it is made from. -/
def Expects : Step → Value → Prop
  | .part _, _ => True
  | .entry _, v => IsMap v
  | .item _, v => v.isBlank = true ∨ ∃ xs, v = .list xs

theorem into?_object (hstep : step.name? = some name) (ms : Members) :
    step.into? (.object ms) = get? name ms := by
  cases step with
  | part n | entry n =>
      obtain rfl := Option.some.inj hstep
      rfl
  | item index => simp [name?] at hstep

theorem into?_emptyObject (step : Step) : step.into? (.object []) = none := by
  cases step <;> rfl

/-- Something blank has no items. -/
theorem into?_item_of_isBlank (h : v.isBlank = true) : (item index).into? v = none := by
  cases v with
  | list xs =>
      obtain rfl : xs = [] := by simpa [Tree.isBlank] using h
      simp [into?, position?]
  | _ => rfl

theorem expects_emptyObject (step : Step) : step.Expects (.object []) := by
  cases step with
  | part name => trivial
  | entry name => exact isMap_object []
  | item index => exact .inl rfl

end Step

/-- What is at an address in a value. -/
def find? : Address → Value → Option Value
  | [], v => some v
  | step :: rest, v => (step.into? v).bind (find? rest)

/-- Every step along an address, as far as it leads, is made from what it expects. -/
def Fits : Address → Value → Prop
  | [], _ => True
  | step :: rest, v => step.Expects v ∧ ∀ w, step.into? v = some w → Fits rest w

theorem find?_append (address rest : Address) (v : Value) :
    find? (address ++ rest) v = (find? address v).bind (find? rest) := by
  induction address generalizing v with
  | nil => rfl
  | cons step address ih => cases h : step.into? v <;> simp [find?, h, ih]

/-- The rest of an address fits what its beginning leads to. -/
theorem Fits.of_find? (hfits : Fits (address ++ rest) v)
    (hfind : find? address v = some w) : Fits rest w := by
  induction address generalizing v with
  | nil =>
      obtain rfl := Option.some.inj hfind
      exact hfits
  | cons step address ih =>
      obtain ⟨u, hu, hfind⟩ := Option.bind_eq_some_iff.mp hfind
      exact ih (hfits.2 u hu) hfind

/-- In an object without members nothing is found, and nothing is unexpected. -/
theorem find?_emptyObject (step : Step) (rest : Address) :
    find? (step :: rest) (.object []) = none := by
  rw [find?, step.into?_emptyObject, Option.bind_none]

theorem fits_emptyObject (address : Address) : Fits address (.object []) := by
  cases address with
  | nil => trivial
  | cons step rest => exact ⟨step.expects_emptyObject, by simp [step.into?_emptyObject]⟩

/-! ## Maps and lists on the way -/

/-- The map under the first name of an address is as missing and as fit as the whole. -/
theorem exists_mapAt (hstep : step.name? = some name)
    (hmissing : find? (step :: .entry k :: rest) (.object ms) = none)
    (hfits : Fits (step :: .entry k :: rest) (.object ms)) :
    ∃ inner, mapAt name ms = .object inner ∧
      find? (.entry k :: rest) (.object inner) = none ∧
      Fits (.entry k :: rest) (.object inner) := by
  cases h : step.into? (.object ms) with
  | none =>
      rw [step.into?_object hstep] at h
      exact ⟨[], by rw [mapAt, valueAt, h]; rfl, find?_emptyObject _ _,
        fits_emptyObject _⟩
  | some v =>
      have hrest : find? (.entry k :: rest) v = none := by
        simpa [find?, h] using hmissing
      have hrestFits := hfits.2 v h
      rw [step.into?_object hstep] at h
      rw [mapAt, valueAt, h, Option.getD_some]
      by_cases hblank : v.isBlank = true
      · exact ⟨[], if_pos hblank, find?_emptyObject _ _, fits_emptyObject _⟩
      · obtain ⟨inner, hinner⟩ := hrestFits.1
        rw [Tree.orElse, if_neg hblank] at hinner ⊢
        subst hinner
        exact ⟨inner, rfl, hrest, hrestFits⟩

/-- The item that an address names is one of the list under its first name. -/
theorem exists_listAt (hstep : step.name? = some name)
    (hfits : Fits (step :: .item index :: rest) (.object ms)) :
    ∃ xs, listAt name ms = .ok xs ∧ find? (step :: .item index :: rest) (.object ms) =
      ((position? index xs).bind fun i => xs[i]?).bind (find? rest) := by
  have hposition : position? index ([] : List Value) = none := by simp [position?]
  rw [find?]
  cases h : step.into? (.object ms) with
  | none =>
      rw [step.into?_object hstep] at h
      exact ⟨[], by rw [listAt, valueAt, h]; rfl, by simp [hposition]⟩
  | some v =>
      have hrestFits := hfits.2 v h
      rw [step.into?_object hstep] at h
      rw [listAt, valueAt, h, Option.getD_some]
      rcases hrestFits.1 with hblank | ⟨xs, rfl⟩
      · refine ⟨[], if_pos hblank, ?_⟩
        rw [Option.bind_some, find?, Step.into?_item_of_isBlank hblank, hposition]
        rfl
      · exact ⟨xs, Document.itemsOrNone_list xs, rfl⟩

end Address

namespace Edit

open Address

variable {address rest : Address} {step : Step} {k : Scalar} {index : Int}
  {ms inner : Members} {e : Edit Unit}

/-! ## Idle edits -/

/-- An edit that finds nothing to change where an address leads nowhere. -/
def Idle (address : Address) (e : Edit Unit) : Prop :=
  ∀ ms, find? address (.object ms) = none → Fits address (.object ms) → e ms = .ok none

theorem Idle.run_eq (h : Idle address e) (hmissing : find? address (.object ms) = none)
    (hfits : Fits address (.object ms)) : e.run ms = .ok ms := by
  rw [run, h ms hmissing hfits, map_ok]
  rfl

/-- What is there is never missing. -/
theorem idle_nil (e : Edit Unit) : Idle [] e :=
  fun _ hmissing _ => nomatch hmissing

theorem Idle.within {name : Scalar} (hstep : step.name? = some name)
    (h : Idle address e) :
    Idle (step :: address) (within name e) := by
  intro ms hmissing hfits
  unfold Edit.within
  split
  · rename_i mark inner hget
    rw [← step.into?_object hstep] at hget
    have hinner : find? address (.object inner) = none := by
      simpa [find?, hget] using hmissing
    rw [h inner hinner (hfits.2 _ hget)]
    rfl
  · rfl

theorem Idle.withinMap {name : Scalar} (hstep : step.name? = some name)
    (h : Idle (.entry k :: rest) e) :
    Idle (step :: .entry k :: rest) (withinMap name e) := by
  intro ms hmissing hfits
  obtain ⟨inner, hmap, hinner, hinnerFits⟩ := exists_mapAt hstep hmissing hfits
  rw [Edit.withinMap, hmap, Tree.members, pure_eq_ok, ok_bind,
    h inner hinner hinnerFits]
  rfl

/-- An edit of the members that are under a name, or of none, whatever becomes of
what it finds. -/
theorem Idle.withinMembers {name : String}
    (hstep : step.name? = some (.str name)) (h : Idle (.entry k :: rest) e)
    {next : Members → Option Members → Except Fault (Option Members)}
    (hnext : ∀ ms, next ms none = nothing) :
    Idle (step :: .entry k :: rest)
      (fun ms => do next ms (← e (← (mapAt name ms).toMembers))) := by
  intro ms hmissing hfits
  obtain ⟨inner, hmap, hinner, hinnerFits⟩ := exists_mapAt hstep hmissing hfits
  dsimp only
  rw [hmap, Tree.toMembers, pure_eq_ok, ok_bind, h inner hinner hinnerFits,
    ok_bind, hnext]
  rfl

/-- A step into an object that leads nowhere names no member. -/
theorem contains_eq_false {name : Scalar} (hstep : step.name? = some name)
    (hmissing : find? [step] (.object ms) = none) : contains name ms = false := by
  have hget : step.into? (.object ms) = none := by simpa [find?] using hmissing
  rw [step.into?_object hstep] at hget
  rw [contains, hget]
  rfl

section

variable {name entry : String} (hstep : step.name? = some (.str name))
include hstep

theorem idle_renameEntry (newName : String) :
    Idle [step, .entry entry] (renameEntry name entry newName) := by
  intro ms hmissing hfits
  obtain ⟨inner, hmap, hinner, -⟩ := exists_mapAt hstep hmissing hfits
  rw [renameEntry, hmap, Tree.holds, contains_eq_false rfl hinner]
  split <;> rfl

theorem idle_removeEntry : Idle [step, .entry entry] (removeEntry name entry) := by
  intro ms hmissing hfits
  obtain ⟨inner, hmap, hinner, -⟩ := exists_mapAt hstep hmissing hfits
  rw [removeEntry, hmap, Tree.holds, contains_eq_false rfl hinner]
  rfl

theorem idle_duplicateEntry (copy : Value → Value) (base : String) :
    Idle [step, .entry entry] (duplicateEntry copy name base entry) := by
  intro ms hmissing hfits
  obtain ⟨inner, hmap, hinner, -⟩ := exists_mapAt hstep hmissing hfits
  rw [duplicateEntry, hmap, Tree.holds, contains_eq_false rfl hinner]
  rfl

theorem idle_renameScope (newScope : String) (description : Option String)
    (hname : name = "scopes") :
    Idle [step, .entry entry] (renameScope entry newScope description) := by
  subst hname
  intro ms hmissing hfits
  obtain ⟨inner, hmap, hinner, -⟩ := exists_mapAt hstep hmissing hfits
  rw [renameScope, hmap, Tree.holds, contains_eq_false rfl hinner]
  rfl

/-! ## Items -/

/-- The list that an item is missing from. -/
theorem exists_list_of_missing
    (hmissing : find? [step, .item index] (.object ms) = none)
    (hfits : Fits [step, .item index] (.object ms)) :
    ∃ xs, listAt name ms = .ok xs ∧ position? index xs = none := by
  obtain ⟨xs, hlist, hfind⟩ := exists_listAt hstep hfits
  rw [hmissing] at hfind
  refine ⟨xs, hlist, position?_of_getElem?_eq_none (hfind.trans ?_).symm⟩
  exact Option.bind_fun_some _

theorem idle_replaceItem (v : Value) :
    Idle [step, .item index] (replaceItem name index v) := by
  intro ms hmissing hfits
  obtain ⟨xs, hlist, hposition⟩ := exists_list_of_missing hstep hmissing hfits
  rw [replaceItem, hlist, ok_bind, hposition]
  rfl

/-- Taking out an item that is not there puts the list that is there, or an empty
one in its place. -/
theorem run_removeItem_iff (hmissing : find? [step, .item index] (.object ms) = none)
    (hfits : Fits [step, .item index] (.object ms)) :
    (removeItem name index).run ms = .ok ms ↔ ∃ xs, get? name ms = some (.list xs) := by
  obtain ⟨xs, hlist, hposition⟩ := exists_list_of_missing hstep hmissing hfits
  rw [run, removeItem, hlist, ok_bind, withoutItem, hposition]
  dsimp only [changed, putList]
  rw [pure_eq_ok, map_ok, Option.getD_some, Except.ok.injEq, put_eq_self_iff]
  constructor
  · exact fun h => ⟨xs, h⟩
  · rintro ⟨ys, hys⟩
    rwa [Except.ok.inj ((listAt_of_list hys).symm.trans hlist)] at hys

end

/-! ## Edits of parts that are there -/

/-- An edit of an object that is there changes nothing exactly if that of its
members does not. -/
theorem run_within_iff {name : String} (h : get? name ms = some (.object inner)) :
    (within name e).run ms = .ok ms ↔ e.run inner = .ok inner := by
  rw [run_within h, map_eq_ok]
  constructor
  · rintro ⟨inner', hrun, hput⟩
    rw [put_eq_self_iff, h] at hput
    obtain rfl := (Tree.marked.inj (Option.some.inj hput)).2
    exact hrun
  · exact fun hrun => ⟨inner, hrun, put_of_get? h⟩

theorem run_withinMap_iff {name : String} (h : get? name ms = some (.object inner)) :
    (withinMap name e).run ms = .ok ms ↔ e.run inner = .ok inner := by
  rw [run_withinMap h, ← run_within h, run_within_iff h]

end Edit

end ApiWorkbench.Editor
