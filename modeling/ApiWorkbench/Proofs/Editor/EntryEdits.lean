import ApiWorkbench.Editor.State
import ApiWorkbench.Proofs.Editor.Edit

/-!
# Edits of one entry

Many edits look at one member of an object only, and put another one in its place if
they change anything: an edit *acts on* a name if it comes to the same on any two
objects that have the same under that name. The edits of lists and of maps are such
edits, and so is whatever is done inside a map: it acts on the name of the map.

## Main results

* `Edit.actsOn_withinMap`, `Edit.actsOn_append` and the other lemmas of this form: what
  the basic edits act on.
* `editServers_actsOn`, `editTags_actsOn`, `editPaths_actsOn`, `editOperation_actsOn`:
  the same for whole sections.
* `removeScheme_spec` and the other lemmas of this form: what edits of security schemes
  and requirements put.
-/

namespace ApiWorkbench.Editor

open Command Document Members

namespace Edit

variable {name : String} {ms ns : Members}

/-- Two edits end alike if both change nothing, or both put the same under a name; or if
both end with one fault. -/
def PutAlike (name : String) (ms ns : Members) :
    (x y : Except Fault (Option Members)) → Prop :=
  Agree fun found found' =>
    found = none ∧ found' = none ∨ ∃ v, found = some (put name v ms) ∧
    found' = some (put name v ns)

theorem putAlike_nothing : PutAlike name ms ns nothing nothing :=
  .ok (.inl ⟨rfl, rfl⟩)

theorem putAlike_changed (v : Value) :
    PutAlike name ms ns (changed (put name v ms)) (changed (put name v ns)) :=
  .ok (.inr ⟨v, rfl, rfl⟩)

/-- After the same step, edits end alike if they do so on its result. -/
theorem putAlike_bind {α : Type}
    {x : Except Fault α} {f g : α → Except Fault (Option Members)}
    (h : ∀ a, PutAlike name ms ns (f a) (g a)) :
    PutAlike name ms ns (x >>= f) (x >>= g) := by
  cases x with
  | error fault => exact .error fault
  | ok a => exact h a

/-- An edit that looks at what is under a name only, and changes only that. -/
def ActsOn (name : String) (e : Edit Unit) : Prop :=
  ∀ ms ns, get? name ms = get? name ns → PutAlike name ms ns (e ms) (e ns)

/-- An edit that acts on a name puts something under it, if it changes anything. -/
theorem ActsOn.eq_put {e : Edit Unit} (h : ActsOn name e)
    (hchange : e ms = .ok (some ns)) :
    ∃ v, ns = put name v ms := by
  have halike := h ms ms rfl
  rw [hchange] at halike
  cases halike with
  | ok hput =>
      rcases hput with ⟨hnone, -⟩ | ⟨v, hv, -⟩
      · contradiction
      · exact ⟨v, Option.some.inj hv⟩

/-- An edit that leaves what is under a name. -/
def Leaves (name : String) (e : Edit Unit) : Prop :=
  ∀ ms ms', e ms = .ok (some ms') → get? name ms' = get? name ms

theorem ActsOn.leaves {e : Edit Unit} (h : ActsOn name e) {other : String}
    (hne : other ≠ name) : Leaves other e := by
  intro ms ms' hchange
  obtain ⟨v, rfl⟩ := h.eq_put hchange
  rw [get?_put, if_neg hne]

/-! ## Lists -/

theorem actsOn_append (name : String) (item : Value) :
    ActsOn name (append name item) := by
  intro ms ns h
  simp only [append, listAt, valueAt, h]
  exact putAlike_bind fun items => putAlike_changed _

theorem actsOn_replaceItem (name : String) (index : Int) (item : Value) :
    ActsOn name (replaceItem name index item) := by
  intro ms ns h
  simp only [replaceItem, listAt, valueAt, h]
  refine putAlike_bind fun items => ?_
  split
  · exact putAlike_changed _
  · exact putAlike_nothing

theorem actsOn_removeItem (name : String) (index : Int) :
    ActsOn name (removeItem name index) := by
  intro ms ns h
  simp only [removeItem, listAt, valueAt, h]
  exact putAlike_bind fun items => putAlike_changed _

/-! ## Maps -/

theorem actsOn_withinMap (name : String) (e : Edit Unit) :
    ActsOn name (withinMap name e) := by
  intro ms ns h
  simp only [withinMap, mapAt, valueAt, h]
  refine putAlike_bind fun inner => putAlike_bind fun found => ?_
  cases found with
  | none => exact putAlike_nothing
  | some inner' => exact putAlike_changed _

theorem actsOn_renameEntry (name old new : String) :
    ActsOn name (renameEntry name old new) := by
  intro ms ns h
  simp only [renameEntry, mapAt, valueAt, h]
  split
  · exact putAlike_nothing
  · refine putAlike_bind fun present => ?_
    split
    · exact putAlike_bind fun entries => putAlike_bind fun entries' =>
        putAlike_changed _
    · exact putAlike_nothing

theorem actsOn_removeEntry (name entry : String) :
    ActsOn name (removeEntry name entry) := by
  intro ms ns h
  simp only [removeEntry, mapAt, valueAt, h]
  refine putAlike_bind fun present => ?_
  split
  · exact putAlike_bind fun entries => putAlike_changed _
  · exact putAlike_nothing

theorem actsOn_putEntry (name entry : String) (v : Value) :
    ActsOn name (putEntry name entry v) := by
  intro ms ns h
  simp only [putEntry, mapAt, valueAt, h]
  exact putAlike_bind fun entries => putAlike_changed _

theorem actsOn_addEntry (name base : String) (v : Value) :
    ActsOn name (addEntry name base v) := by
  intro ms ns h
  simp only [addEntry, mapAt, valueAt, h]
  exact putAlike_bind fun entries => putAlike_changed _

theorem actsOn_duplicateEntry (copy : Value → Value) (name base entry : String) :
    ActsOn name (duplicateEntry copy name base entry) := by
  intro ms ns h
  simp only [duplicateEntry, mapAt, valueAt, h]
  refine putAlike_bind fun present => ?_
  split
  · exact putAlike_bind fun entries => putAlike_changed _
  · exact putAlike_nothing

theorem actsOn_changeMap (name : String) (changes : Members) :
    ActsOn name (changeMap name changes) := by
  intro ms ns h
  simp only [changeMap, mapAt, valueAt, h]
  exact putAlike_bind fun map => putAlike_changed _

end Edit

/-! ## Sections of a document -/

private theorem editServerVariables_actsOn (index : Int) (edit : Members → Members) :
    Edit.ActsOn "servers" (editServerVariables index edit) := by
  intro ms ns h
  simp only [editServerVariables, listAt, valueAt, h]
  refine Edit.putAlike_bind fun servers => ?_
  split
  · exact Edit.putAlike_nothing
  · exact Edit.putAlike_bind fun server => Edit.putAlike_changed _

theorem editServers_actsOn (e : ServerEdit Unit) :
    Edit.ActsOn "servers" (editServers e) := by
  cases e with
  | add => exact Edit.actsOn_append _ _
  | update index server => exact Edit.actsOn_replaceItem _ _ _
  | remove index => exact Edit.actsOn_removeItem _ _
  | addVariable | updateVariable | removeVariable =>
      exact editServerVariables_actsOn _ _

theorem editTags_actsOn (e : TagEdit Unit) : Edit.ActsOn "tags" (editTags e) := by
  cases e with
  | add => exact Edit.actsOn_append _ _
  | update index tag => exact Edit.actsOn_replaceItem _ _ _
  | remove index => exact Edit.actsOn_removeItem _ _

private theorem addPath_actsOn (item : Members → Option Value) :
    Edit.ActsOn "paths" (addPath item) := by
  intro ms ns h
  simp only [addPath, mapAt, valueAt, h]
  refine Edit.putAlike_bind fun present => ?_
  split
  · exact Edit.putAlike_nothing
  · refine Edit.putAlike_bind fun paths => ?_
    split
    · exact Edit.putAlike_changed _
    · exact Edit.putAlike_nothing

private theorem duplicatePath_actsOn (copy : Value → Value) (path : String) :
    Edit.ActsOn "paths" (duplicatePath copy path) := by
  intro ms ns h
  have hadd := addPath_actsOn (fun paths => (get? path paths).map copy) ms ns h
  simp only [duplicatePath, mapAt, valueAt, h]
  refine Edit.putAlike_bind fun taken => ?_
  split
  · exact Edit.putAlike_nothing
  · refine Edit.putAlike_bind fun present => ?_
    split
    · exact hadd
    · exact Edit.putAlike_nothing

theorem editPaths_actsOn (e : PathEdit Unit) :
    Edit.ActsOn "paths" (editPaths id e) := by
  cases e with
  | add => exact addPath_actsOn fun _ => some .emptyObject
  | rename oldPath newPath => exact Edit.actsOn_renameEntry _ _ _
  | update path item => exact Edit.actsOn_withinMap _ _
  | remove path => exact Edit.actsOn_removeEntry _ _
  | duplicate path => exact duplicatePath_actsOn _ _
  | removeAll => exact fun ms ns _ => Edit.putAlike_changed _

theorem editOperation_actsOn (path : String) (method : Method)
    (e : OperationEdit Unit) :
    Edit.ActsOn "paths" (editOperation id path method e) := by
  cases e <;> exact Edit.actsOn_withinMap _ _

/-! ## Security -/

section

variable {ms ms' : Members} {name : String}

theorem removeScheme_spec (h : removeScheme name ms = .ok (some ms')) :
    ∃ schemes security kept, (schemesOf ms >>= Tree.members) = .ok schemes ∧
      listAt "security" ms = .ok security ∧
      security.filterM
        (fun requirement : Value => do pure !(← requirement.holds name)) = .ok kept ∧
      putSchemes (erase name schemes) (putList "security" kept ms) = .ok ms' := by
  obtain ⟨found, hfound, h⟩ := bind_eq_ok.mp h
  obtain ⟨schemes, hschemes, h⟩ := bind_eq_ok.mp h
  obtain ⟨security, hsecurity, h⟩ := bind_eq_ok.mp h
  obtain ⟨kept, hkept, h⟩ := bind_eq_ok.mp h
  obtain ⟨result, hput, h⟩ := bind_eq_ok.mp h
  obtain rfl := Edit.changed_eq_some.mp h
  exact ⟨schemes, security, kept, bind_eq_ok.mpr ⟨found, hfound, hschemes⟩,
    hsecurity, hkept, hput⟩

theorem renameScheme_spec {newName : String}
    (h : renameScheme name newName ms = .ok (some ms')) :
    ∃ schemes security schemes' security',
      (schemesOf ms >>= Tree.members) = .ok schemes ∧
      listAt "security" ms = .ok security ∧
        security.mapM (renameInRequirement name newName) = .ok security' ∧
      rename? (.str name) (.str newName) schemes = some schemes' ∧
      putSchemes schemes' (putList "security" security' ms) = .ok ms' := by
  obtain ⟨found, hfound, h⟩ := bind_eq_ok.mp h
  split at h
  · exact (Edit.nothing_ne_some.mp h).elim
  · obtain ⟨present, -, h⟩ := bind_eq_ok.mp h
    split at h
    · obtain ⟨security, hsecurity, h⟩ := bind_eq_ok.mp h
      obtain ⟨security', hsecurity', h⟩ := bind_eq_ok.mp h
      obtain ⟨schemes, hschemes, h⟩ := bind_eq_ok.mp h
      obtain ⟨schemes', hrename, h⟩ := bind_eq_ok.mp h
      obtain ⟨result, hput, h⟩ := bind_eq_ok.mp h
      obtain rfl := Edit.changed_eq_some.mp h
      exact ⟨schemes, security, schemes', security', bind_eq_ok.mpr ⟨found, hfound,
        hschemes⟩, hsecurity, hsecurity', renamed_eq_ok.mp hrename, hput⟩
    · exact (Edit.nothing_ne_some.mp h).elim

theorem requireScheme_spec (h : requireScheme name ms = .ok (some ms')) :
    ∃ security scopes, listAt "security" ms = .ok security ∧
      ms' = putList "security" (security ++ [.record [(name, .list scopes)]]) ms := by
  obtain ⟨security, hsecurity, h⟩ := bind_eq_ok.mp h
  obtain ⟨_, _, h⟩ := bind_eq_ok.mp h
  split at h
  · exact (Edit.nothing_ne_some.mp h).elim
  · obtain ⟨_, _, h⟩ := bind_eq_ok.mp h
    obtain ⟨_, _, h⟩ := bind_eq_ok.mp h
    obtain ⟨scopes, _, h⟩ := bind_eq_ok.mp h
    exact ⟨security, scopes, hsecurity, (Edit.changed_eq_some.mp h).symm⟩

theorem releaseScheme_spec (h : releaseScheme name ms = .ok (some ms')) :
    ∃ security kept, listAt "security" ms = .ok security ∧
      security.filterM
        (fun requirement : Value => do pure !(← requirement.holds name)) = .ok kept ∧
      ms' = putList "security" kept ms := by
  obtain ⟨security, hsecurity, h⟩ := bind_eq_ok.mp h
  obtain ⟨kept, hkept, h⟩ := bind_eq_ok.mp h
  exact ⟨security, kept, hsecurity, hkept, (Edit.changed_eq_some.mp h).symm⟩

theorem get?_putSchemes {schemes document : Members}
    (h : putSchemes schemes document = .ok ms) (hname : name ≠ "components") :
    get? name ms = get? name document := by
  obtain ⟨components, -, h⟩ := bind_eq_ok.mp h
  obtain rfl := Except.ok.inj h
  rw [get?_put, if_neg hname]

/-- Edits of the security of a document change its components and requirements only. -/
theorem editSecurity_leaves (hcomponents : name ≠ "components")
    (hsecurity : name ≠ "security") (e : SecurityEdit Unit) :
    Edit.Leaves name (editSecurity e) := by
  have hputList : ∀ (items : List Value) (ms : Members),
      get? name (putList "security" items ms) = get? name ms := by
    intro items ms
    rw [putList, get?_put, if_neg hsecurity]
  cases e with
  | add | update | changeType | toggleFlow | addScope | renameScope | removeScope =>
      exact (Edit.actsOn_withinMap "components" _).leaves hcomponents
  | remove scheme =>
      intro ms ms' h
      obtain ⟨_, _, _, -, -, -, hput⟩ := removeScheme_spec h
      rw [get?_putSchemes hput hcomponents, hputList]
  | rename oldName newName =>
      intro ms ms' h
      obtain ⟨_, _, _, _, -, -, -, -, hput⟩ := renameScheme_spec h
      rw [get?_putSchemes hput hcomponents, hputList]
  | toggleGlobal scheme enabled =>
      intro ms ms' h
      obtain ⟨items, rfl⟩ : ∃ items, ms' = putList "security" items ms := by
        dsimp only [editSecurity] at h
        split at h
        · obtain ⟨_, _, -, rfl⟩ := requireScheme_spec h
          exact ⟨_, rfl⟩
        · obtain ⟨_, _, -, -, rfl⟩ := releaseScheme_spec h
          exact ⟨_, rfl⟩
      exact hputList items ms

end

end ApiWorkbench.Editor
