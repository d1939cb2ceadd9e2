import ApiWorkbench.Proofs.Editor.OperationsApart
import ApiWorkbench.Proofs.Editor.Replacing
import Mathlib.Data.List.Perm.Basic

/-!
# Moving an operation to another method

A path item maps methods to operations, and has other members besides. When an operation
is moved to a method that has one already, the two change places: each of the two
methods stays where it is and holds the operation of the other one. Otherwise the method
is renamed where it stands. Either way no operation is lost, nothing else is touched,
and moving the operation back restores the path item, since two operations that change
places twice are where they were, and a name that was free can be given back.

## Main results

* `Members.values_put_perm`, `Members.getElem?_put_of_same_eq_false`: what putting an
  entry does to the others.
* `exchanged_moved`, `relabel_moved`: two operations that change places, and one that is
  moved to a free method.
* `renameOperation_there_and_back`: what becomes of a path item, and the way back.
* `renameOperation_undone`: the same for the document.
-/

namespace ApiWorkbench

namespace Members

variable {α : Type} {name k : Scalar} {u v w : α} {ms : List (Scalar × α)}

/-! ## Values and places of entries -/

theorem length_put_of_get? (h : get? name ms = some u) (v : α) :
    (put name v ms).length = ms.length := by
  induction ms with
  | nil => simp at h
  | cons e rest ih =>
      obtain ⟨k, x⟩ := e
      rw [get?_cons] at h
      by_cases hk : k.same name = true
      · simp [put_cons, hk]
      · rw [if_neg hk] at h
        simp [put_cons, hk, ih h]

/-- An entry of another name stays where it is when something is put under a name. -/
theorem getElem?_put_of_same_eq_false (hk : k.same name = false) {i : Nat}
    (h : ms[i]? = some (k, w)) (v : α) :
    (put name v ms)[i]? = some (k, w) := by
  induction ms generalizing i with
  | nil => simp at h
  | cons e rest ih =>
      obtain ⟨k', x⟩ := e
      rw [put_cons]
      cases i with
      | zero =>
          obtain ⟨rfl, rfl⟩ := Prod.mk.inj (Option.some.inj h)
          simp [hk]
      | succ i =>
          split
          · exact h
          · exact ih h

/-- The values after something was put in the place of something else are the earlier
ones but for these two. -/
theorem values_put_perm (h : get? name ms = some u) (v : α) :
    (u :: (put name v ms).map (·.2)).Perm (v :: ms.map (·.2)) := by
  induction ms with
  | nil => simp at h
  | cons e rest ih =>
      obtain ⟨k, x⟩ := e
      rw [get?_cons] at h
      rw [put_cons]
      split at h
      · obtain rfl := Option.some.inj h
        rw [if_pos ‹_›]
        exact .swap v x _
      · rw [if_neg ‹_›]
        exact (List.Perm.swap x u _).trans (((ih h).cons x).trans (.swap v x _))

/-- Another name in place of a name leaves the values as they are. -/
theorem values_relabel (old new : String) (ms : List (Scalar × α)) :
    (relabel old new ms).map (·.2) = ms.map (·.2) := by
  rw [relabel, List.map_map]
  rfl

end Members

namespace Editor

open Address Command Document Members

/-- The operation of one method of a path item was moved to another one. No operation is
lost, and all members of other names are where they were. -/
structure OperationMoved (old new : Method) (item item' : Members) : Prop where
  moved : get? new.name item' = get? old.name item
  length_eq : item'.length = item.length
  values : (item'.map (·.2)).Perm (item.map (·.2))
  others : ∀ (i : Nat) (k : Scalar) (v : Value), item[i]? = some (k, v) →
    k ≠ .str old.name → k ≠ .str new.name →
    item'[i]? = some (k, v)

section

variable {old new : Method} {item : Members} {v w : Value}

private theorem same_str_eq_false {k : Scalar} {name : String} (h : k ≠ .str name) :
    k.same (.str name) = false := by
  rw [Bool.eq_false_iff]
  exact fun hsame => h (Scalar.same_str_iff.mp hsame)

/-! ## Operations that change places -/

theorem exchanged_moved (hne : old ≠ new) (hold : get? old.name item = some v)
    (hnew : get? new.name item = some w) :
    OperationMoved old new item (put new.name v (put old.name w item)) := by
  have hnew' : get? new.name (put old.name w item) = some w := by
    rw [get?_put, if_neg (method_name_ne hne).symm, hnew]
  refine ⟨?_, ?_, ?_, fun i k u hi hkold hknew => ?_⟩
  · rw [get?_put, if_pos rfl, hold]
  · rw [length_put_of_get? hnew', length_put_of_get? hold]
  · -- `w` comes in for `v`, and then `v` for `w`.
    have hfirst := values_put_perm hold w
    have hsecond := values_put_perm hnew' v
    exact (hsecond.trans hfirst).cons_inv
  · have hput := getElem?_put_of_same_eq_false (same_str_eq_false hkold) hi w
    exact getElem?_put_of_same_eq_false (same_str_eq_false hknew) hput v

/-- Operations that change places twice are where they were. -/
theorem exchanged_twice (hne : old ≠ new) (hold : get? old.name item = some v)
    (hnew : get? new.name item = some w) :
    put old.name v (put new.name w (put new.name v (put old.name w item))) = item := by
  have hname := method_name_ne hne
  calc put old.name v (put new.name w (put new.name v (put old.name w item)))
      = put old.name v (put new.name w (put old.name w item)) := by rw [put_put]
    _ = put new.name w (put old.name v (put old.name w item)) :=
        put_comm hname (by rw [get?_put, if_pos rfl]) v w
    _ = put new.name w item := by rw [put_put, put_of_get? hold]
    _ = item := put_of_get? hnew

theorem renameOperation_of_both (hold : get? old.name item = some v)
    (hnew : get? new.name item = some w) :
    renameOperation old new item =
      .ok (some (put new.name v (put old.name w item))) := by
  rw [renameOperation, hold, hnew]
  rfl

/-! ## An operation that is moved to a free method -/

theorem relabel_moved (hnew : get? new.name item = none) :
    OperationMoved old new item (relabel old.name new.name item) := by
  refine ⟨?_, ?_, ?_, fun i k u hi hkold _ => ?_⟩
  · rw [get?_relabel hnew, if_pos rfl]
  · rw [relabel, List.length_map]
  · rw [values_relabel]
  · have hk := same_str_eq_false hkold
    simp [relabel, hi, hk]

theorem renameOperation_of_free (hdistinct : Distinct item)
    (hold : get? old.name item = some v) (hnew : get? new.name item = none) :
    renameOperation old new item = .ok (some (relabel old.name new.name item)) := by
  have hthere : contains old.name item = true := by
    rw [contains, hold]
    rfl
  rw [renameOperation, hold, hnew,
    renamed_eq_ok.mpr (rename?_of_free hdistinct hthere hnew)]
  rfl

/-! ## Either way -/

/-- Moving an operation to another method keeps everything else of a path item, and is
undone by moving it back. -/
theorem renameOperation_there_and_back (hdistinct : Distinct item)
    (hold : contains old.name item = true) (hne : old ≠ new) :
    ∃ item', OperationMoved old new item item' ∧
      renameOperation old new item = .ok (some item') ∧
      renameOperation new old item' = .ok (some item) := by
  obtain ⟨v, hold⟩ := Option.isSome_iff_exists.mp hold
  have hname := method_name_ne hne
  cases hnew : get? new.name item with
  | some w =>
      have hold' : get? old.name (put new.name v (put old.name w item)) = some w := by
        rw [get?_put, if_neg hname, get?_put, if_pos rfl]
      have hnew' : get? new.name (put new.name v (put old.name w item)) = some v := by
        rw [get?_put, if_pos rfl]
      refine ⟨_, exchanged_moved hne hold hnew, renameOperation_of_both hold hnew, ?_⟩
      rw [renameOperation_of_both hnew' hold', exchanged_twice hne hold hnew]
  | none =>
      have hold' : get? old.name (relabel old.name new.name item) = none := by
        rw [get?_relabel hnew, if_neg hname, if_pos rfl]
      have hnew' : get? new.name (relabel old.name new.name item) = some v := by
        rw [get?_relabel hnew, if_pos rfl, hold]
      refine ⟨_, relabel_moved hnew, renameOperation_of_free hdistinct hold hnew, ?_⟩
      rw [renameOperation_of_free (hdistinct.relabel hnew) hnew' hold',
        relabel_relabel hnew]

/-- Moving an operation of a path to another method keeps the number of members of the
path item, the places and values of all other members and the collection of all
values; under the other method is what was under the first one, and moving it back
restores the state. -/
theorem renameOperation_undone {state : State Unit} {path : String}
    (hitem : find? [.part "paths", .entry path] state.document = some (.object item))
    (hdistinct : Distinct item)
    (hold : contains old.name item = true) (hne : old ≠ new) :
    ∃ item' next, OperationMoved old new item item' ∧
      state.apply (.renameOperation path old new) = .ok next ∧
      next = state.withDocument
        (replaceAt [.part "paths", .entry path] (.object item') state.document) ∧
      next.apply (.renameOperation path new old) = .ok state := by
  obtain ⟨item', hmoved, hthere, hback⟩ :=
    renameOperation_there_and_back hdistinct hold hne
  have hedit : ∀ a b : Method, a ≠ b →
      editOf (.renameOperation path a b) =
        some (withinPath path (renameOperation a b)) := by
    intro a b hab
    rw [editOf, if_neg (by simpa [renamesToItself] using hab)]
  refine ⟨item', _, hmoved, apply_of_replacesAt (hedit old new hne) ?_ hitem, rfl,
    apply_back (hedit new old hne.symm) ?_ hitem⟩
  · exact replacesAt_withinPath (Edit.replacesAt_nil hthere)
  · exact replacesAt_withinPath (Edit.replacesAt_nil hback)

end

/-- A path item with two operations and a summary between them. -/
private def petsItem : Members :=
  [("get", .str "list"), ("summary", .str "Pets"), ("post", .str "add")]

private def petsPaths : Value :=
  .record [("openapi", .str "3.0.3"), ("paths", .record [("/pets", .object petsItem)])]

/-- One operation changes places with the other one, or is moved to a method without an
operation. Both is undone. -/
theorem renameOperation_undone_of_pets :
    find? [.part "paths", .entry "/pets"] petsPaths = some (.object petsItem) ∧
      Distinct petsItem ∧
      (∃ item' next, OperationMoved .get .post petsItem item' ∧
        (State.ofDocument petsPaths).apply (.renameOperation "/pets" .get .post) =
          .ok next ∧
        next = (State.ofDocument petsPaths).withDocument
          (replaceAt [.part "paths", .entry "/pets"] (.object item') petsPaths) ∧
        next.apply (.renameOperation "/pets" .post .get) =
          .ok (State.ofDocument petsPaths)) ∧
      (∃ item' next, OperationMoved .get .delete petsItem item' ∧
        (State.ofDocument petsPaths).apply (.renameOperation "/pets" .get .delete) =
          .ok next ∧
        next = (State.ofDocument petsPaths).withDocument
          (replaceAt [.part "paths", .entry "/pets"] (.object item') petsPaths) ∧
        next.apply (.renameOperation "/pets" .delete .get) =
          .ok (State.ofDocument petsPaths)) := by
  have hitem : find? [.part "paths", .entry "/pets"]
      (State.ofDocument petsPaths).document = some (.object petsItem) := rfl
  have hdistinct : Distinct petsItem := by simp [petsItem, Distinct]
  exact ⟨hitem, hdistinct, renameOperation_undone hitem hdistinct (by decide)
    (by decide), renameOperation_undone hitem hdistinct (by decide) (by decide)⟩

end Editor

end ApiWorkbench
