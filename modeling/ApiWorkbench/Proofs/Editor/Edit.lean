import ApiWorkbench.Editor.State
import ApiWorkbench.Proofs.Members

/-!
# What edits come to

An edit that finds something to change puts one value under a name, or takes the entry
there away. For each of the basic edits it is said here which value that is. What an
edit keeps, `Edit.Keeps`, is a property of members that holds after it if it held
before; edits deep inside an object keep a property of the whole if the edit of the part
keeps the matching property of the part.

## Main results

* `Edit.within_spec`, `Edit.withinMap_spec`: an edit inside a part replaces that part.
* `Edit.append_spec` and the other lemmas of this form: the value that a
  basic edit puts.
* `Edit.Keeps.within`, `Edit.Keeps.withinMap`: from an edit of a part to an
  edit of the whole.
* `State.edit_cases`: what an edit does to a state.
-/

namespace ApiWorkbench.Editor

/-- Renaming an entry that is there gives the renamed members. -/
theorem renamed_eq_ok {old new : String} {ms ns : Members} :
    renamed old new ms = .ok ns ↔
      Members.rename? (.str old) (.str new) ms = some ns := by
  unfold renamed
  split <;> simp_all

/-- The map under a name, where an object is there. -/
theorem members_mapAt_of_object {name : String} {ms inner : Members}
    (h : Members.get? (.str name) ms = some (.object inner)) :
    (Members.mapAt name ms).members = .ok inner := by
  rw [Members.mapAt, Members.valueAt, h]
  cases inner with
  | nil => rfl
  | cons e rest => rfl

/-- The map under a name is an object that is there, or has nothing in it. -/
theorem eq_nil_or_get?_of_members {name : String} {ms inner : Members}
    (h : (Members.mapAt name ms).members = .ok inner) :
    inner = [] ∨ Members.get? (.str name) ms = some (.object inner) := by
  rw [Members.mapAt, Tree.orElse] at h
  split at h
  · exact .inl (Except.ok.inj h).symm
  · rw [Members.valueAt] at h
    cases hget : Members.get? (.str name) ms with
    | none => simp [hget, Tree.members] at h
    | some v =>
        cases v with
        | marked mark members =>
            simp only [hget, Option.getD_some, Tree.members, pure_eq_ok] at h
            exact .inr (congrArg (fun ms => some (Value.object ms)) (Except.ok.inj h))
        | _ => simp [hget, Tree.members] at h

/-- The list under a name, where a list is there. -/
theorem listAt_of_list {name : String} {ms : Members} {xs : List Value}
    (h : Members.get? (.str name) ms = some (.list xs)) :
    Members.listAt name ms = .ok xs := by
  rw [Members.listAt, Members.valueAt, h]
  cases xs with
  | nil => rfl
  | cons x rest => rfl

namespace Edit

variable {ms ms' : Members}

@[simp] theorem changed_eq_some {ns : Members} :
    changed ns = .ok (some ms') ↔ ns = ms' := by
  simp [changed]

@[simp] theorem nothing_ne_some :
    (nothing = (.ok (some ms') : Except Fault (Option Members))) ↔ False := by
  simp [nothing]

/-! ## Lists -/

theorem append_spec {name : String} {item : Value}
    (h : append name item ms = .ok (some ms')) :
    ∃ items, Members.listAt name ms = .ok items ∧
      ms' = Members.put name (.list (items ++ [item])) ms := by
  obtain ⟨items, hitems, h⟩ := bind_eq_ok.mp h
  exact ⟨items, hitems, (changed_eq_some.mp h).symm⟩

theorem replaceItem_spec {name : String} {index : Int} {item : Value}
    (h : replaceItem name index item ms = .ok (some ms')) :
    ∃ items i, Members.listAt name ms = .ok items ∧
      ms' = Members.put name (.list (items.set i item)) ms := by
  obtain ⟨items, hitems, h⟩ := bind_eq_ok.mp h
  split at h
  · exact ⟨items, _, hitems, (changed_eq_some.mp h).symm⟩
  · exact (nothing_ne_some.mp h).elim

/-- What is left of a list without an item was there before. -/
theorem mem_withoutItem {μ : Type} {index : Int} {items : List (Tree μ)} {v : Tree μ}
    (h : v ∈ withoutItem index items) : v ∈ items := by
  unfold withoutItem at h
  split at h
  · exact List.mem_of_mem_eraseIdx h
  · exact h

theorem removeItem_spec {name : String} {index : Int}
    (h : removeItem name index ms = .ok (some ms')) :
    ∃ items, Members.listAt name ms = .ok items ∧
      ms' = Members.put name (.list (withoutItem index items)) ms := by
  obtain ⟨items, hitems, h⟩ := bind_eq_ok.mp h
  exact ⟨items, hitems, (changed_eq_some.mp h).symm⟩

/-! ## Parts -/

theorem within_spec {name : Scalar} {e : Edit Unit}
    (h : within name e ms = .ok (some ms')) :
    ∃ inner inner', Members.get? name ms = some (.object inner) ∧
      e inner = .ok (some inner') ∧
      ms' = Members.put name (.object inner') ms := by
  unfold within at h
  split at h
  · rename_i mark inner hget
    obtain ⟨result, hresult, h⟩ := bind_eq_ok.mp h
    split at h
    · exact ⟨inner, _, hget, hresult, (changed_eq_some.mp h).symm⟩
    · exact (nothing_ne_some.mp h).elim
  · exact (nothing_ne_some.mp h).elim

theorem withinMap_spec {name : Scalar} {e : Edit Unit}
    (h : withinMap name e ms = .ok (some ms')) :
    ∃ inner inner', (Members.mapAt name ms).members = .ok inner ∧
      e inner = .ok (some inner') ∧
      ms' = Members.put name (.object inner') ms := by
  obtain ⟨inner, hinner, h⟩ := bind_eq_ok.mp h
  obtain ⟨result, hresult, h⟩ := bind_eq_ok.mp h
  split at h
  · exact ⟨inner, _, hinner, hresult, (changed_eq_some.mp h).symm⟩
  · exact (nothing_ne_some.mp h).elim

/-! ## Entries of a map -/

theorem renameEntry_spec {name old new : String}
    (h : renameEntry name old new ms = .ok (some ms')) :
    ∃ entries entries', (Members.mapAt name ms).members = .ok entries ∧
      Members.rename? (.str old) (.str new) entries = some entries' ∧
      ms' = Members.put name (.object entries') ms := by
  unfold renameEntry at h
  split at h
  · exact (nothing_ne_some.mp h).elim
  · obtain ⟨present, -, h⟩ := bind_eq_ok.mp h
    split at h
    · obtain ⟨entries, hentries, h⟩ := bind_eq_ok.mp h
      obtain ⟨entries', hrename, h⟩ := bind_eq_ok.mp h
      exact ⟨entries, entries', hentries, renamed_eq_ok.mp hrename,
        (changed_eq_some.mp h).symm⟩
    · exact (nothing_ne_some.mp h).elim

theorem removeEntry_spec {name entry : String}
    (h : removeEntry name entry ms = .ok (some ms')) :
    ∃ entries, (Members.mapAt name ms).members = .ok entries ∧
      ms' = Members.put name (.object (Members.erase entry entries)) ms := by
  obtain ⟨present, -, h⟩ := bind_eq_ok.mp h
  split at h
  · obtain ⟨entries, hentries, h⟩ := bind_eq_ok.mp h
    exact ⟨entries, hentries, (changed_eq_some.mp h).symm⟩
  · exact (nothing_ne_some.mp h).elim

theorem putEntry_spec {name entry : String} {v : Value}
    (h : putEntry name entry v ms = .ok (some ms')) :
    ∃ entries, (Members.mapAt name ms).members = .ok entries ∧
      ms' = Members.put name (.object (Members.put entry v entries)) ms := by
  obtain ⟨entries, hentries, h⟩ := bind_eq_ok.mp h
  exact ⟨entries, hentries, (changed_eq_some.mp h).symm⟩

theorem addEntry_spec {name base : String} {v : Value}
    (h : addEntry name base v ms = .ok (some ms')) :
    ∃ entries, ∃ fresh : String, (Members.mapAt name ms).members = .ok entries ∧
      ms' = Members.put name (.object (Members.put fresh v entries)) ms := by
  obtain ⟨entries, hentries, h⟩ := bind_eq_ok.mp h
  exact ⟨entries, _, hentries, (changed_eq_some.mp h).symm⟩

theorem duplicateEntry_spec {copy : Value → Value} {name base entry : String}
    (h : duplicateEntry copy name base entry ms = .ok (some ms')) :
    ∃ entries, ∃ fresh : String, (Members.mapAt name ms).members = .ok entries ∧
      ms' = Members.put name (.object
        (Members.put fresh (copy (Members.valueAt entry entries)) entries)) ms := by
  obtain ⟨present, -, h⟩ := bind_eq_ok.mp h
  split at h
  · obtain ⟨entries, hentries, h⟩ := bind_eq_ok.mp h
    exact ⟨entries, _, hentries, (changed_eq_some.mp h).symm⟩
  · exact (nothing_ne_some.mp h).elim

/-! ## Edits of one member -/

/-- An edit that puts an object under a name, and changes nothing else. -/
def PutsObject (name : String) (e : Edit Unit) : Prop :=
  ∀ ms ms', e ms = .ok (some ms') → ∃ inner, ms' = Members.put name (.object inner) ms

theorem putsObject_within (name : String) (e : Edit Unit) :
    PutsObject name (within name e) := by
  intro ms ms' h
  obtain ⟨_, inner', _, _, rfl⟩ := within_spec h
  exact ⟨inner', rfl⟩

theorem putsObject_withinMap (name : String) (e : Edit Unit) :
    PutsObject name (withinMap name e) := by
  intro ms ms' h
  obtain ⟨_, inner', _, _, rfl⟩ := withinMap_spec h
  exact ⟨inner', rfl⟩

theorem putsObject_renameEntry (name old new : String) :
    PutsObject name (renameEntry name old new) := by
  intro ms ms' h
  obtain ⟨_, entries', _, _, rfl⟩ := renameEntry_spec h
  exact ⟨entries', rfl⟩

theorem putsObject_removeEntry (name entry : String) :
    PutsObject name (removeEntry name entry) := by
  intro ms ms' h
  obtain ⟨_, _, rfl⟩ := removeEntry_spec h
  exact ⟨_, rfl⟩

theorem putsObject_putEntry (name entry : String) (v : Value) :
    PutsObject name (putEntry name entry v) := by
  intro ms ms' h
  obtain ⟨_, _, rfl⟩ := putEntry_spec h
  exact ⟨_, rfl⟩

theorem putsObject_addEntry (name base : String) (v : Value) :
    PutsObject name (addEntry name base v) := by
  intro ms ms' h
  obtain ⟨_, _, _, rfl⟩ := addEntry_spec h
  exact ⟨_, rfl⟩

theorem putsObject_duplicateEntry (copy : Value → Value) (name base entry : String) :
    PutsObject name (duplicateEntry copy name base entry) := by
  intro ms ms' h
  obtain ⟨_, _, _, rfl⟩ := duplicateEntry_spec h
  exact ⟨_, rfl⟩

/-- An edit that puts something under a name or takes away what is there, and
changes nothing else. -/
def ChangesOnly (name : String) (e : Edit Unit) : Prop :=
  ∀ ms ms', e ms = .ok (some ms') → (∃ v, ms' = Members.put name v ms) ∨
    ms' = Members.erase name ms

theorem PutsObject.changesOnly {name : String} {e : Edit Unit} (h : PutsObject name e) :
    ChangesOnly name e := by
  intro ms ms' hedit
  obtain ⟨inner, rfl⟩ := h ms ms' hedit
  exact .inl ⟨_, rfl⟩

/-! ## Properties that are kept -/

/-- A property of members that holds after an edit if it held before. -/
def Keeps (P : Members → Prop) (e : Edit Unit) : Prop :=
  ∀ ms ms', P ms → e ms = .ok (some ms') → P ms'

/-- An edit of a part keeps a property of the whole. -/
theorem Keeps.within {P Q : Members → Prop} {name : Scalar} {e : Edit Unit}
    (hread : ∀ ms inner, P ms → Members.get? name ms = some (.object inner) → Q inner)
    (hput : ∀ ms inner, P ms → Q inner → P (Members.put name (.object inner) ms))
    (he : Keeps Q e) : Keeps P (within name e) := by
  intro ms ms' hms h
  obtain ⟨inner, inner', hinner, hedit, rfl⟩ := within_spec h
  exact hput ms inner' hms (he inner inner' (hread ms inner hms hinner) hedit)

/-- An edit of a map keeps a property of the whole. -/
theorem Keeps.withinMap {P Q : Members → Prop} {name : Scalar} {e : Edit Unit}
    (hread : ∀ ms inner, P ms → (Members.mapAt name ms).members = .ok inner → Q inner)
    (hput : ∀ ms inner, P ms → Q inner → P (Members.put name (.object inner) ms))
    (he : Keeps Q e) : Keeps P (withinMap name e) := by
  intro ms ms' hms h
  obtain ⟨inner, inner', hinner, hedit, rfl⟩ := withinMap_spec h
  exact hput ms inner' hms (he inner inner' (hread ms inner hms hinner) hedit)

end Edit

/-- An edit leaves the state as it is, or changes the members of its document. -/
theorem State.edit_cases {state state' : State Unit} {e : Edit Unit}
    (h : state.edit e = .ok state') :
    state' = state ∨
      ∃ ms ns, state.document = .object ms ∧ e ms = .ok (some ns) ∧
        state' = state.withDocument (.object ns) := by
  obtain ⟨ms, hms, h⟩ := bind_eq_ok.mp h
  obtain ⟨found, hfound, h⟩ := bind_eq_ok.mp h
  have hdocument : state.document = .object ms := by
    cases hv : state.document <;> simp_all [Tree.members]
  split at h
  · exact .inr ⟨ms, _, hdocument, hfound, (Except.ok.inj h).symm⟩
  · exact .inl (Except.ok.inj h).symm

end ApiWorkbench.Editor
