import ApiWorkbench.Proofs.Editor.Locality

/-!
# Operations are edited apart

A command about an operation looks at nothing else and changes nothing else: neither
another operation, nor the other members of its path item, nor the order of anything. So
two commands about different operations may change places. Only two operations that are
new in the same path item stand there in the order in which they were added.

## Main results

* `alters_editOperation`: an edit of an operation alters the route to it.
* `commuteAt_editOperation`: edits of two operations come to the same in either order.
* `apply_operation_apart`: both for commands.
-/

namespace ApiWorkbench.Editor

open Command Document Members

variable {path path' : String} {method method' : Method} {e e' : OperationEdit Unit}
  {ms : Members}

/-- Where an operation is. -/
def operationRoute (path : String) (method : Method) : Route :=
  ["paths", path, method.name]

theorem method_name_ne (h : method ≠ method') : method.name ≠ method'.name := by
  cases method <;> cases method' <;> first | exact absurd rfl h | decide

theorem apart_operationRoute (h : path ≠ path' ∨ method ≠ method') :
    Apart (operationRoute path method) (operationRoute path' method') := by
  refine apart_cons_iff.mpr (.inr ⟨rfl, apart_cons_iff.mpr ?_⟩)
  by_cases hpath : path = path'
  · have hmethod := h.resolve_left (absurd hpath)
    exact .inr ⟨hpath, apart_cons_iff.mpr (.inl (method_name_ne hmethod))⟩
  · exact .inl hpath

/-! ## What becomes of an operation -/

/-- What an edit of an operation makes of what is in its place. -/
def operationAfter (e : OperationEdit Unit) :
    Option Value → Except Fault (Option Value) :=
  match e with
  | .add => fun found => pure (some (found.getD Template.operation))
  | .remove => fun _ => pure none
  | e => (editWithinOperation id e).onObject

/-- Where no operation is, only adding one makes something. -/
theorem operationAfter_none (he : e ≠ .add) : operationAfter e none = .ok none := by
  cases e with
  | add => exact absurd rfl he
  | _ => rfl

private theorem operationAfter_none_succeeds (e : OperationEdit Unit) :
    Succeeds (operationAfter e none) := by
  cases e with
  | add => exact succeeds_ok _
  | _ => exact succeeds_ok none

private theorem alters_addOperation (method : Method) (item : Members) :
    Edit.Alters [method.name] (operationAfter .add) (addOperation method) item := by
  rw [Edit.Alters, Edit.run, addOperation, getAt, contains]
  cases h : get? (.str method.name) item with
  | none => rfl
  | some v => exact congrArg Except.ok (put_of_get? h).symm

private theorem alters_removeOperation (method : Method) (item : Members) :
    Edit.Alters [method.name] (operationAfter .remove)
      (removeOperation method) item := by
  rw [Edit.Alters, Edit.run, removeOperation, contains]
  cases h : get? (.str method.name) item with
  | none => exact congrArg Except.ok (erase_of_absent h).symm
  | some v => rfl

/-- An edit of an operation is an edit of its path item that alters one entry. -/
private theorem exists_itemEdit (method : Method) (e : OperationEdit Unit) :
    ∃ itemEdit : Edit Unit,
      (∀ path, editOperation id path method e = withinPath path itemEdit) ∧
      ∀ item, itemEdit.Alters [method.name] (operationAfter e) item := by
  cases e with
  | add => exact ⟨_, fun _ => rfl, alters_addOperation method⟩
  | remove => exact ⟨_, fun _ => rfl, alters_removeOperation method⟩
  | _ => exact ⟨_, fun _ => rfl, Edit.alters_within method.name _⟩

/-! ## Paths -/

/-- What a document has for its paths is a map, or nothing at all. -/
def PathsAreMap (ms : Members) : Prop :=
  Succeeds (mapAt "paths" ms).members

theorem pathsAreMap_of_run {edit : Edit Unit} {ns : Members}
    (h : (withinPath path edit).run ms = .ok ns) :
    PathsAreMap ms := by
  obtain ⟨_, hedit, -⟩ := Edit.run_eq_ok.mp h
  obtain ⟨paths, hpaths, -⟩ := bind_eq_ok.mp hedit
  exact ⟨paths, hpaths⟩

theorem PathsAreMap.setAt (h : PathsAreMap ms) (path : String) (method : Method)
    (o : Option Value) :
    PathsAreMap (setAt (operationRoute path method) o ms) := by
  rw [operationRoute, Members.setAt]
  split
  · exact ⟨_, members_mapAt_of_object (by rw [get?_put, if_pos rfl])⟩
  · exact h

/-- From an edit of a path item to the edit of the document. -/
theorem alters_withinPath {edit : Edit Unit}
    {f : Option Value → Except Fault (Option Value)} {r : Route}
    (hr : r ≠ []) (hnone : Succeeds (f none)) (hedit : ∀ item, edit.Alters r f item)
    (h : PathsAreMap ms) (path : String) :
    (withinPath path edit).Alters ("paths" :: path :: r) f ms := by
  by_cases hobject : ∃ paths, get? "paths" ms = some (.object paths)
  · obtain ⟨paths, hpaths⟩ := hobject
    exact Edit.Alters.withinMap (by simp) hpaths (Edit.Alters.within hr hnone hedit)
  · have hobject := not_exists.mp hobject
    have hroute : path :: r ≠ [] := by simp
    obtain ⟨o, ho⟩ := hnone
    obtain ⟨paths, hpaths⟩ := h
    obtain rfl := (eq_nil_or_get?_of_members hpaths).resolve_right (hobject paths)
    rw [Edit.Alters, getAt_cons_of_no_object hroute hobject,
      ho, map_ok, setAt_cons_of_no_object hroute hobject, Edit.run, withinPath,
      Edit.withinMap, hpaths]
    rfl

/-- What an edit of an operation comes to depends on what is there, and it
changes only that. -/
theorem alters_editOperation (h : PathsAreMap ms) (path : String) (method : Method)
    (e : OperationEdit Unit) :
    (editOperation id path method e).Alters (operationRoute path method)
      (operationAfter e) ms := by
  obtain ⟨itemEdit, hedit, hitem⟩ := exists_itemEdit method e
  rw [hedit path]
  exact alters_withinPath (by simp) (operationAfter_none_succeeds e) hitem h path

theorem pathsAreMap_of_editOperation {ns : Members}
    (h : (editOperation id path method e).run ms = .ok ns) :
    PathsAreMap ms := by
  obtain ⟨itemEdit, hedit, -⟩ := exists_itemEdit method e
  rw [hedit path] at h
  exact pathsAreMap_of_run h

/-! ## Two operations -/

/-- What two edits make of two operations is set in either order, unless both are new in
the same path item. -/
private theorem setAt_operations_comm (hapart : path ≠ path' ∨ method ≠ method')
    (hadd : ¬ (e = .add ∧ e' = .add ∧ path = path')) {o o' : Option Value}
    (ho : operationAfter e (getAt (operationRoute path method) ms) = .ok o)
    (ho' : operationAfter e' (getAt (operationRoute path' method') ms) = .ok o') :
    setAt (operationRoute path method) o (setAt (operationRoute path' method') o' ms) =
      setAt (operationRoute path' method') o'
        (setAt (operationRoute path method) o ms) := by
  have hroutes := apart_operationRoute hapart
  by_cases hpath : path = path'
  · by_cases hthere : getAt (operationRoute path method) ms ≠ none ∨
      getAt (operationRoute path' method') ms ≠ none
    · exact setAt_comm hroutes (hthere.imp_right .inl)
    · -- neither operation is there, and one of the edits does not add one: it
      -- changes nothing
      simp only [not_or, not_not] at hthere
      rw [hthere.1] at ho
      rw [hthere.2] at ho'
      by_cases he : e = .add
      · have he' : e' ≠ .add := fun he' => hadd ⟨he, he', hpath⟩
        obtain rfl := Except.ok.inj ((operationAfter_none he').symm.trans ho')
        rw [setAt_none hthere.2,
          setAt_none (by rw [getAt_setAt_of_apart hroutes.symm, hthere.2])]
      · obtain rfl := Except.ok.inj ((operationAfter_none he).symm.trans ho)
        rw [setAt_none hthere.1,
          setAt_none (by rw [getAt_setAt_of_apart hroutes, hthere.1])]
  · exact setAt_comm hroutes (.inr (.inr (by simpa [operationRoute] using hpath)))

/-- Edits of two operations come to the same in either order, unless both add one to the
same path item. -/
theorem commuteAt_editOperation (hapart : path ≠ path' ∨ method ≠ method')
    (hadd : ¬ (e = .add ∧ e' = .add ∧ path = path')) (ms : Members) :
    (editOperation id path method e).CommuteAt (editOperation id path' method' e')
      ms := by
  intro ns ns' hns hns'
  have hmap := pathsAreMap_of_editOperation hns
  have hroutes := apart_operationRoute hapart
  rw [alters_editOperation hmap] at hns hns'
  obtain ⟨o, ho, rfl⟩ := map_eq_ok.mp hns
  obtain ⟨o', ho', rfl⟩ := map_eq_ok.mp hns'
  refine ⟨setAt (operationRoute path' method') o'
    (setAt (operationRoute path method) o ms), ?_, ?_⟩
  · rw [alters_editOperation (hmap.setAt _ _ _), getAt_setAt_of_apart hroutes.symm,
      ho', map_ok]
  · rw [alters_editOperation (hmap.setAt _ _ _), getAt_setAt_of_apart hroutes, ho,
      map_ok, setAt_operations_comm hapart hadd ho ho']

/-! ## Commands -/

/-- A command about an operation makes the edit of the operation, or none at all. -/
private theorem editOf_operation (path : String) (method : Method)
    (e : OperationEdit Unit) :
    editOf (.operation path method e) = some (editOperation id path method e) ∨
      editOf (.operation path method e) = some fun _ => Edit.nothing := by
  unfold editOf
  split
  · exact .inr rfl
  · exact .inl rfl

/-- A command about an operation changes at most what is at the route to it. -/
private theorem differsAt_of_apply {state next : State Unit}
    (h : state.apply (.operation path method e) = .ok next) :
    DiffersAt (operationRoute path method) state.document next.document ∧
      next.snapshot = state.snapshot := by
  rcases editOf_operation path method e with hedit | hedit
  · rcases apply_cases_of_editOf hedit h with rfl | ⟨ms, ns, hms, hns, rfl⟩
    · exact ⟨.inl rfl, rfl⟩
    · have hrun := Edit.run_eq_ok.mpr ⟨_, hns, rfl⟩
      rw [alters_editOperation (pathsAreMap_of_editOperation hrun)] at hrun
      obtain ⟨o, -, ho⟩ := map_eq_ok.mp hrun
      exact ⟨.inr ⟨ms, o, hms, congrArg Value.object ho.symm⟩, rfl⟩
  · rcases apply_cases_of_editOf hedit h with rfl | ⟨ms, ns, -, hns, -⟩
    · exact ⟨.inl rfl, rfl⟩
    · exact (Edit.nothing_ne_some.mp hns).elim

/-- A command about an operation changes nothing but the operation, and comes to the
same before and after a command about another one, unless both add an operation to the
same path item. -/
theorem apply_operation_apart {state next : State Unit}
    (h : state.apply (.operation path method e) = .ok next) :
    DiffersAt (operationRoute path method) state.document next.document ∧
      next.snapshot = state.snapshot ∧
      ∀ path' method' e' next', state.apply (.operation path' method' e') = .ok next' →
        path ≠ path' ∨ method ≠ method' → ¬ (e = .add ∧ e' = .add ∧ path = path') →
        ∃ last, state.applyAll [.operation path method e, .operation path' method' e'] =
          .ok last ∧
          state.applyAll [.operation path' method' e', .operation path method e] =
            .ok last := by
  obtain ⟨hdocument, hsnapshot⟩ := differsAt_of_apply h
  refine ⟨hdocument, hsnapshot, fun path' method' e' next' h' hapart hadd => ?_⟩
  rcases editOf_operation path method e with hedit | hedit
  · rcases editOf_operation path' method' e' with hedit' | hedit'
    · exact applyAll_comm hedit hedit'
        (fun ms _ => commuteAt_editOperation hapart hadd ms) h h'
    · exact applyAll_comm hedit hedit' (fun ms _ => Edit.commuteAt_nothing _ ms) h h'
  · rcases editOf_operation path' method' e' with hedit' | hedit' <;>
      exact applyAll_comm hedit hedit'
        (fun ms _ => (Edit.commuteAt_nothing _ ms).symm) h h'

/-- In the sample an operation gets a callback and another one of the same path item is
taken away, in either order. -/
theorem apply_operation_apart_of_sample :
    ∃ next next', State.initial.apply (.operation "/pets" .get .addCallback) =
      .ok next ∧
      State.initial.apply (.operation "/pets" .post .remove) = .ok next' ∧
      ∃ last, State.initial.applyAll
          [.operation "/pets" .get .addCallback, .operation "/pets" .post .remove] =
            .ok last ∧
        State.initial.applyAll
          [.operation "/pets" .post .remove, .operation "/pets" .get .addCallback] =
            .ok last := by
  obtain ⟨next, hnext⟩ : ∃ next,
      State.initial.apply (.operation "/pets" .get .addCallback) = .ok next := ⟨_, rfl⟩
  obtain ⟨next', hnext'⟩ : ∃ next',
      State.initial.apply (.operation "/pets" .post .remove) = .ok next' := ⟨_, rfl⟩
  exact ⟨next, next', hnext, hnext', (apply_operation_apart hnext).2.2 "/pets" .post
    .remove next' hnext' (.inr (by decide)) (by simp)⟩

end ApiWorkbench.Editor
