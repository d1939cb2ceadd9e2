import ApiWorkbench.Editor.State
import ApiWorkbench.Proofs.Document.Completeness
import ApiWorkbench.Proofs.Editor.Edit

/-!
# What every path item and every operation has

A property that every path item of a document has is kept by whatever moves path items
as a whole: renaming, removing and duplicating paths; and by edits inside a path item,
if they keep it there. A property of operations is one of path items, too: that all
operations in them have it. Moving operations keeps it, so it is kept by all edits if it
is kept by those inside an operation and a new operation has it; and completion keeps it
if completing a single operation does. Operations inside callbacks are not looked at.

## Main results

* `pathItemsHave_withinPath`, `pathItemsHave_editPaths`: edits keep what every
  path item has.
* `operationsHave_renameOperation`, `operationsHave_editOperation`: edits keep what
  every operation has.
* `operationsHave_completion`: from the completion of an operation to that of the paths.
-/

namespace ApiWorkbench.Editor

open Document Command

/-- What an object has to be; any other value need not be anything. -/
def IfObject (P : Members → Prop) : Value → Prop
  | .object ms => P ms
  | _ => True

instance (P : Members → Prop) [DecidablePred P] : DecidablePred (IfObject P)
  | .object ms => inferInstanceAs (Decidable (P ms))
  | .scalar _ | .list _ | .pair _ _ | .set _ => isTrue trivial

/-- Every path item among paths has a property. -/
def PathsHave (Q : Members → Prop) (paths : Members) : Prop :=
  Members.All (fun _ v => IfObject Q v) paths

/-- Every path item of a document has a property. -/
def PathItemsHave (Q : Members → Prop) (ms : Members) : Prop :=
  ∀ v ∈ Members.get? "paths" ms, IfObject (PathsHave Q) v

/-- Every operation of a path item has a property. -/
def ItemHas (P : Members → Prop) (item : Members) : Prop :=
  Members.All (fun name v => isMethod name = true → IfObject P v) item

/-- Every operation among the paths of a document has a property. -/
abbrev OperationsHave (P : Members → Prop) : Members → Prop :=
  PathItemsHave (ItemHas P)

section

variable (P : Members → Prop) [DecidablePred P]

instance : DecidablePred (PathsHave P) :=
  fun paths => inferInstanceAs (Decidable (∀ e ∈ paths, IfObject P e.2))

instance : DecidablePred (PathItemsHave P) :=
  fun ms => inferInstanceAs
    (Decidable (∀ v ∈ Members.get? "paths" ms, IfObject (PathsHave P) v))

instance : DecidablePred (ItemHas P) :=
  fun item =>
    inferInstanceAs (Decidable (∀ e ∈ item, isMethod e.1 = true → IfObject P e.2))

end

variable {P Q : Members → Prop} {ms item paths : Members}

/-! ## Path items of a document -/

theorem PathItemsHave.members (h : PathItemsHave Q ms)
    (hread : (Members.mapAt "paths" ms).members = .ok paths) :
    PathsHave Q paths := by
  rcases eq_nil_or_get?_of_members hread with rfl | hget
  · exact fun e he => by simp at he
  · exact h _ hget

theorem PathsHave.put (h : PathsHave Q paths) (ms : Members) :
    PathItemsHave Q (Members.put "paths" (.object paths) ms) := by
  intro v hv
  obtain rfl : Value.object paths = v := by simpa using hv
  exact h

/-- What stands elsewhere does not count. -/
theorem PathItemsHave.congr {ns : Members} (h : PathItemsHave Q ms)
    (hsame : Members.get? "paths" ns = Members.get? "paths" ms) :
    PathItemsHave Q ns := by
  intro v hv
  rw [hsame] at hv
  exact h v hv

theorem pathItemsHave_withinPath (path : String) {e : Edit Unit} (he : Edit.Keeps Q e) :
    Edit.Keeps (PathItemsHave Q) (withinPath path e) := by
  refine Edit.Keeps.withinMap (fun _ _ hms hread => hms.members hread)
    (fun ms _ _ hpaths => hpaths.put ms) (Edit.Keeps.within ?_ ?_ he)
  · intro paths item hpaths hitem
    exact hpaths.of_get? hitem
  · intro paths item hpaths hitem
    exact Members.All.put hpaths hitem

theorem addPath_spec {item : Members → Option Value} {ms' : Members}
    (h : addPath item ms = .ok (some ms')) :
    ∃ paths v, (Members.mapAt "paths" ms).members = .ok paths ∧ item paths = some v ∧
      ms' = Members.put "paths" (.object (Members.put newPath v paths)) ms := by
  obtain ⟨_, _, h⟩ := bind_eq_ok.mp h
  split at h
  · exact (Edit.nothing_ne_some.mp h).elim
  · obtain ⟨paths, hread, h⟩ := bind_eq_ok.mp h
    split at h
    · rename_i v hv
      exact ⟨paths, v, hread, hv, (Edit.changed_eq_some.mp h).symm⟩
    · exact (Edit.nothing_ne_some.mp h).elim

/-- Duplicating a path is adding what is under it. -/
theorem duplicatePath_spec {path : String} {ms' : Members}
    (h : duplicatePath id path ms = .ok (some ms')) :
    addPath (Members.get? path) ms = .ok (some ms') := by
  obtain ⟨_, _, h⟩ := bind_eq_ok.mp h
  split at h
  · exact (Edit.nothing_ne_some.mp h).elim
  · obtain ⟨_, _, h⟩ := bind_eq_ok.mp h
    split at h
    · simpa only [Option.map_id_fun, id] using h
    · exact (Edit.nothing_ne_some.mp h).elim

/-- Edits of the paths put a map of paths. -/
theorem putsObject_editPaths (e : PathEdit Unit) :
    Edit.PutsObject "paths" (editPaths id e) := by
  cases e with
  | add =>
      intro ms ms' h
      change addPath (fun _ => some .emptyObject) ms = .ok (some ms') at h
      obtain ⟨_, _, _, _, rfl⟩ := addPath_spec h
      exact ⟨_, rfl⟩
  | rename oldPath newPath => exact Edit.putsObject_renameEntry _ _ _
  | update path item => exact Edit.putsObject_withinMap _ _
  | remove path => exact Edit.putsObject_removeEntry _ _
  | duplicate path =>
      intro ms ms' h
      obtain ⟨_, _, _, _, rfl⟩ := addPath_spec (duplicatePath_spec h)
      exact ⟨_, rfl⟩
  | removeAll =>
      intro ms ms' h
      exact ⟨[], (Edit.changed_eq_some.mp h).symm⟩

/-- Edits of the paths keep what every path item has, if a new one has it, but for the
edit that puts members of the user's choice over a path item. -/
theorem pathItemsHave_editPaths (hnew : Q []) {e : PathEdit Unit}
    (he : ∀ path item, e ≠ .update path item) :
    Edit.Keeps (PathItemsHave Q) (editPaths id e) := by
  cases e with
  | add =>
      intro ms ms' hms h
      change addPath (fun _ => some .emptyObject) ms = .ok (some ms') at h
      obtain ⟨paths, v, hread, hv, rfl⟩ := addPath_spec h
      obtain rfl := Option.some.inj hv
      have hitem : IfObject Q .emptyObject := hnew
      exact PathsHave.put (Members.All.put (hms.members hread) hitem) ms
  | rename oldPath newPath =>
      intro ms ms' hms h
      obtain ⟨paths, paths', hread, hrename, rfl⟩ := Edit.renameEntry_spec h
      exact PathsHave.put (Members.All.rename? (fun _ _ _ _ hv => hv)
        (hms.members hread) hrename fun _ hv => hv) ms
  | update path item => exact absurd rfl (he path item)
  | remove path =>
      intro ms ms' hms h
      obtain ⟨paths, hread, rfl⟩ := Edit.removeEntry_spec h
      exact PathsHave.put (Members.All.erase (hms.members hread) path) ms
  | duplicate path =>
      intro ms ms' hms h
      obtain ⟨paths, v, hread, hv, rfl⟩ := addPath_spec (duplicatePath_spec h)
      have hpaths := hms.members hread
      exact PathsHave.put (Members.All.put hpaths (hpaths.of_get? hv)) ms
  | removeAll =>
      intro ms ms' hms h
      obtain rfl := Edit.changed_eq_some.mp h
      exact PathsHave.put (fun e he => by simp at he) ms

/-! ## Operations of a path item -/

/-- What is asked of the members of a path item does not tell a method from
another name for it. -/
private theorem respectsNames_itemHas (P : Members → Prop) :
    Members.RespectsNames fun name v => isMethod name = true → IfObject P v := by
  intro k k' v hsame h hmethod
  obtain ⟨method, rfl⟩ := isMethod_iff.mp hmethod
  obtain rfl := Scalar.str_same_iff.mp hsame
  exact h hmethod

private theorem ItemHas.get?_method (h : ItemHas P item) {method : Method} {v : Value}
    (hv : Members.get? method.name item = some v) : IfObject P v :=
  h.of_get? hv (isMethod_name method)

private theorem ItemHas.put_method (h : ItemHas P item) (method : Method) {v : Value}
    (hv : IfObject P v) :
    ItemHas P (Members.put method.name v item) :=
  h.put fun _ => hv

theorem itemHas_addOperation (hnew : IfObject P Template.operation) (method : Method) :
    Edit.Keeps (ItemHas P) (addOperation method) := by
  intro item item' hitem h
  unfold addOperation at h
  split at h
  · exact (Edit.nothing_ne_some.mp h).elim
  · obtain rfl := Edit.changed_eq_some.mp h
    exact hitem.put_method method hnew

theorem itemHas_removeOperation (method : Method) :
    Edit.Keeps (ItemHas P) (removeOperation method) := by
  intro item item' hitem h
  unfold removeOperation at h
  split at h
  · obtain rfl := Edit.changed_eq_some.mp h
    exact hitem.erase _
  · exact (Edit.nothing_ne_some.mp h).elim

theorem itemHas_renameOperation (oldMethod newMethod : Method) :
    Edit.Keeps (ItemHas P) (renameOperation oldMethod newMethod) := by
  intro item item' hitem h
  unfold renameOperation at h
  split at h
  · exact (Edit.nothing_ne_some.mp h).elim
  · rename_i v w hv hw
    obtain rfl := Edit.changed_eq_some.mp h
    exact (hitem.put_method oldMethod (hitem.get?_method hw)).put_method newMethod
      (hitem.get?_method hv)
  · obtain ⟨entries, hentries, h⟩ := bind_eq_ok.mp h
    obtain rfl := Edit.changed_eq_some.mp h
    exact hitem.rename? (respectsNames_itemHas P) (renamed_eq_ok.mp hentries)
        fun v hv _ =>
      hv (isMethod_name oldMethod)

theorem itemHas_within (method : Method) {e : Edit Unit} (he : Edit.Keeps P e) :
    Edit.Keeps (ItemHas P) (Edit.within method.name e) :=
  Edit.Keeps.within (fun _ _ hitem hop => hitem.get?_method hop)
    (fun _ _ hitem hop => hitem.put_method method hop) he

/-! ## Operations of a document -/

theorem operationsHave_renameOperation (path : String) (oldMethod newMethod : Method) :
    Edit.Keeps (OperationsHave P)
      (withinPath path (renameOperation oldMethod newMethod)) :=
  pathItemsHave_withinPath path (itemHas_renameOperation oldMethod newMethod)

/-- An edit of an operation keeps what every operation has, if it does so inside the
operation and a new operation has it. -/
theorem operationsHave_editOperation (path : String)
    (method : Method) {e : OperationEdit Unit} (hnew : IfObject P Template.operation)
    (he : Edit.Keeps P (editWithinOperation id e)) :
    Edit.Keeps (OperationsHave P) (editOperation id path method e) := by
  unfold editOperation
  split
  · exact pathItemsHave_withinPath path (itemHas_addOperation hnew method)
  · exact pathItemsHave_withinPath path (itemHas_removeOperation method)
  · exact pathItemsHave_withinPath path (itemHas_within method he)

/-! ## Completion -/

private theorem itemHas_iff : ItemHas P item ↔ ∀ op, HoldsOperation item op → P op := by
  constructor
  · rintro h op ⟨name, hmethod, hmem⟩
    exact h _ hmem hmethod
  · rintro h ⟨name, v⟩ hmem hmethod
    cases v with
    | marked mark op => exact h op ⟨name, hmethod, hmem⟩
    | _ => trivial

private theorem pathsHave_iff :
    PathsHave Q paths ↔ ∀ item, HoldsItem paths item → Q item := by
  constructor
  · rintro h item ⟨name, hmem⟩
    exact h _ hmem
  · rintro h ⟨name, v⟩ hmem
    cases v with
    | marked mark item => exact h item ⟨name, hmem⟩
    | _ => trivial

/-- Completing paths keeps what every operation has, if completing the operation with
its callbacks does. -/
theorem operationsHave_completion {paths' : Members}
    (hstep : ∀ item op op₁ op', P op → PathItemEdit.nested completion op = .ok op₁ →
      completeOperation item op₁ = .ok op' → P op')
    (hpaths : PathsHave (ItemHas P) paths)
    (h : PathItemEdit.pathItems completion paths = .ok paths') :
    PathsHave (ItemHas P) paths' := by
  refine pathsHave_iff.mpr fun item' hitem' => itemHas_iff.mpr ?_
  obtain ⟨item, changed, hitem, hchanged, rfl⟩ :=
    PathItemEdit.holdsItem_pathItems h hitem'
  rintro op' ⟨name, hmethod, hmem⟩
  obtain ⟨op, op₁, hop, hnested, hop'⟩ :=
    PathItemEdit.holdsOperation_operations hchanged
      ⟨name, hmethod, Members.mem_erase hmem⟩
  exact hstep item op op₁ op'
    (itemHas_iff.mp (pathsHave_iff.mp hpaths item hitem) op hop) hnested hop'

end ApiWorkbench.Editor
