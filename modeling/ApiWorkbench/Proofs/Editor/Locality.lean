import ApiWorkbench.Editor.State
import ApiWorkbench.Proofs.Editor.Edit
import ApiWorkbench.Proofs.Routes

/-!
# Where edits change a document

Most commands make one edit in the document and leave the snapshot alone (`editOf`).
Such an edit is seen here as a step from members to members: `Edit.run` gives back the
members it was given where the edit finds nothing to change.

An edit that looks at the end of a route, and at nothing else, and changes only what is
there *alters* that route. Two edits that alter routes apart from each other come to the
same in either order.

## Main results

* `apply_of_editOf`, `apply_cases_of_editOf`: what a command that makes an
  edit comes to.
* `Edit.Alters.within`, `Edit.Alters.withinMap`: from an edit of a part to an
  edit of the whole.
* `applyAll_comm`: commands whose edits come to the same in either order do so, too.
-/

namespace ApiWorkbench.Editor

open Members

namespace Edit

variable {e e' : Edit Unit} {ms ns inner : Members} {name : String} {r r' : Route}

/-! ## Steps -/

/-- The members after an edit; those before it where there is nothing to change. -/
def run (e : Edit Unit) (ms : Members) : Except Fault Members :=
  (·.getD ms) <$> e ms

theorem run_eq_ok : e.run ms = .ok ns ↔ ∃ found, e ms = .ok found ∧
    found.getD ms = ns :=
  map_eq_ok

/-- An edit inside an object that is there. -/
theorem run_within (h : get? name ms = some (.object inner)) :
    (within name e).run ms = (fun inner' => put name (.object inner') ms) <$>
      e.run inner := by
  rw [run, run, within, h]
  dsimp only
  cases e inner with
  | error fault => rfl
  | ok found => cases found with
    | none => exact congrArg Except.ok (put_of_get? h).symm
    | some inner' => rfl

theorem run_within_of_no_object (h : ∀ inner, get? name ms ≠ some (.object inner)) :
    (within name e).run ms = .ok ms := by
  rw [run, within]
  split
  · exact absurd ‹_› (h _)
  · rfl

/-- An edit inside a map that is there. -/
theorem run_withinMap (h : get? name ms = some (.object inner)) :
    (withinMap name e).run ms = (fun inner' => put name (.object inner') ms) <$>
      e.run inner := by
  rw [run, run, withinMap, members_mapAt_of_object h, ok_bind]
  cases e inner with
  | error fault => rfl
  | ok found => cases found with
    | none => exact congrArg Except.ok (put_of_get? h).symm
    | some inner' => rfl

/-! ## Edits of what is at a route -/

/-- What an edit comes to depends on what is at the end of a route, and it
changes only that. -/
def Alters (r : Route) (f : Option Value → Except Fault (Option Value)) (e : Edit Unit)
    (ms : Members) : Prop :=
  e.run ms = (fun o => setAt r o ms) <$> f (getAt r ms)

variable {f f' : Option Value → Except Fault (Option Value)}

/-- What an edit of an object makes of what may be one. -/
def onObject (e : Edit Unit) : Option Value → Except Fault (Option Value)
  | some (.object inner) => (fun inner' => some (.object inner')) <$> e.run inner
  | found => pure found

theorem alters_within (name : String) (e : Edit Unit) (ms : Members) :
    Alters [name] e.onObject (within name e) ms := by
  rw [Alters, getAt]
  cases h : get? (.str name) ms with
  | none =>
      rw [run_within_of_no_object (by simp [h])]
      simp only [onObject, pure_eq_ok, map_ok, setAt, setEntry, erase_of_absent h]
  | some v =>
      cases v with
      | marked mark inner =>
          rw [run_within h, onObject]
          cases e.run inner with
          | error fault => rfl
          | ok inner' => rfl
      | _ =>
          rw [run_within_of_no_object (by simp [h])]
          simp only [onObject, pure_eq_ok, map_ok, setAt, setEntry, put_of_get? h]

/-- From an edit of a part to the edit of the whole. -/
theorem Alters.within (hr : r ≠ []) (hnone : Succeeds (f none))
    (h : ∀ inner, Alters r f e inner) :
    Alters (name :: r) f (within name e) ms := by
  by_cases hobject : ∃ inner, get? name ms = some (.object inner)
  · obtain ⟨inner, hinner⟩ := hobject
    rw [Alters, run_within hinner, h inner, getAt_cons_of_object hr hinner]
    cases f (getAt r inner) with
    | error fault => rfl
    | ok o => exact congrArg Except.ok (setAt_cons_of_object hr hinner).symm
  · have hobject := not_exists.mp hobject
    obtain ⟨o, ho⟩ := hnone
    rw [Alters, run_within_of_no_object hobject, getAt_cons_of_no_object hr hobject, ho,
      map_ok, setAt_cons_of_no_object hr hobject]

/-- From an edit of a map that is there to the edit of the whole. -/
theorem Alters.withinMap (hr : r ≠ []) (hinner : get? name ms = some (.object inner))
    (h : Alters r f e inner) :
    Alters (name :: r) f (withinMap name e) ms := by
  rw [Alters, run_withinMap hinner, h, getAt_cons_of_object hr hinner]
  cases f (getAt r inner) with
  | error fault => rfl
  | ok o => exact congrArg Except.ok (setAt_cons_of_object hr hinner).symm

/-! ## Either order -/

/-- Two edits that are possible are possible one after the other, and come to the same
in either order. -/
def CommuteAt (e e' : Edit Unit) (ms : Members) : Prop :=
  ∀ ns ns', e.run ms = .ok ns → e'.run ms = .ok ns' → ∃ last, e'.run ns = .ok last ∧
    e.run ns' = .ok last

theorem CommuteAt.symm (h : e.CommuteAt e' ms) : e'.CommuteAt e ms := by
  intro ns' ns hns' hns
  obtain ⟨last, hlast, hlast'⟩ := h ns ns' hns hns'
  exact ⟨last, hlast', hlast⟩

/-- No edit is disturbed where nothing is done. -/
theorem commuteAt_nothing (e : Edit Unit) (ms : Members) :
    e.CommuteAt (fun _ => nothing) ms := by
  intro ns ns' hns hns'
  obtain rfl := Except.ok.inj hns'
  exact ⟨ns, rfl, hns⟩

end Edit

/-! ## Documents -/

/-- One document comes from another one by setting something, or nothing, at the
end of a route. -/
def DiffersAt (r : Route) (v w : Value) : Prop :=
  w = v ∨ ∃ ms o, v = .object ms ∧ w = .object (setAt r o ms)

/-- The edit that a command makes in the document, if it is one that makes an edit. -/
def editOf (command : Command Unit) : Option (Edit Unit) :=
  if renamesToItself command then some fun _ => Edit.nothing
  else match command with
  | .setDocument _ | .saveSnapshot | .undo | .loadSample | .reset => none
  | .info changes => some (changeMap "info" changes)
  | .externalDocs changes => some (changeMap "externalDocs" changes)
  | .servers e => some (editServers e)
  | .tags e => some (editTags e)
  | .paths e => some (editPaths id e)
  | .operation path method e => some (editOperation id path method e)
  | .renameOperation path oldMethod newMethod =>
      some (withinPath path (renameOperation oldMethod newMethod))
  | .security e => some (editSecurity e)
  | .schemas e => some (editSchemas id e)

variable {state state' : State Unit} {command command' : Command Unit}
  {e e' : Edit Unit} {ms : Members}

theorem State.withDocument_self {v : Value} (h : state.document = v) :
    state.withDocument v = state := by
  subst h
  rfl

/-- The state after an edit of a document that is an object. -/
theorem edit_eq_run (h : state.document = .object ms) :
    state.edit e = (fun ns => state.withDocument (.object ns)) <$> e.run ms := by
  rw [State.edit, h, Edit.run, Tree.members, pure_eq_ok, ok_bind]
  cases e ms with
  | error fault => rfl
  | ok found => cases found with
    | none => exact congrArg Except.ok (State.withDocument_self h).symm
    | some ns => rfl

/-- A command that makes an edit does nothing else to a document that is an object. -/
theorem apply_of_editOf (he : editOf command = some e)
    (h : state.document = .object ms) :
    state.apply command = (fun ns => state.withDocument (.object ns)) <$> e.run ms := by
  rw [← edit_eq_run h]
  unfold State.apply State.applyWith
  unfold editOf at he
  split
  · rw [if_pos ‹_›] at he
    obtain rfl := Option.some.inj he
    rw [edit_eq_run h]
    exact congrArg Except.ok (State.withDocument_self h).symm
  · rw [if_neg ‹_›] at he
    cases command with
    | setDocument | saveSnapshot | undo | loadSample | reset => simp at he
    | _ =>
        obtain rfl := Option.some.inj he
        rfl

/-- A command that makes an edit leaves the state as it is, or has the edit
change the document. -/
theorem apply_cases_of_editOf (he : editOf command = some e)
    (h : state.apply command = .ok state') :
    state' = state ∨
      ∃ ms ns, state.document = .object ms ∧ e ms = .ok (some ns) ∧
        state' = state.withDocument (.object ns) := by
  unfold State.apply State.applyWith at h
  unfold editOf at he
  split at h
  · exact .inl (Except.ok.inj h).symm
  · rw [if_neg ‹_›] at he
    cases command with
    | setDocument | saveSnapshot | undo | loadSample | reset => simp at he
    | _ =>
        obtain rfl := Option.some.inj he
        exact State.edit_cases h

/-- A command that makes an edit comes to nothing where the document is no object. -/
theorem eq_of_no_object (he : editOf command = some e)
    (hno : ∀ ms, state.document ≠ .object ms) (h : state.apply command = .ok state') :
    state' = state := by
  rcases apply_cases_of_editOf he h with heq | ⟨ms, ns, hms, -, -⟩
  · exact heq
  · exact absurd hms (hno ms)

/-- Commands whose edits come to the same in either order come to the same in either
order. -/
theorem applyAll_comm (he : editOf command = some e) (he' : editOf command' = some e')
    (hcomm : ∀ ms, state.document = .object ms → e.CommuteAt e' ms)
    {next next' : State Unit}
    (hnext : state.apply command = .ok next)
    (hnext' : state.apply command' = .ok next') :
    ∃ last, state.applyAll [command, command'] = .ok last ∧
      state.applyAll [command', command] = .ok last := by
  simp only [State.applyAll, List.foldlM_cons, List.foldlM_nil, hnext, hnext',
    ok_bind, bind_pure]
  by_cases h : ∃ ms, state.document = .object ms
  · obtain ⟨ms, hms⟩ := h
    rw [apply_of_editOf he hms] at hnext
    rw [apply_of_editOf he' hms] at hnext'
    obtain ⟨ns, hns, rfl⟩ := map_eq_ok.mp hnext
    obtain ⟨ns', hns', rfl⟩ := map_eq_ok.mp hnext'
    obtain ⟨last, hlast, hlast'⟩ := hcomm ms hms ns ns' hns hns'
    refine ⟨state.withDocument (.object last), ?_, ?_⟩
    · rw [apply_of_editOf he' rfl, hlast]
      rfl
    · rw [apply_of_editOf he rfl, hlast']
      rfl
  · have h := not_exists.mp h
    obtain rfl := eq_of_no_object he h hnext
    obtain rfl := eq_of_no_object he' h hnext'
    exact ⟨_, hnext', hnext⟩

end ApiWorkbench.Editor
