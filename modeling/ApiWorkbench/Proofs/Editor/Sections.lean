import ApiWorkbench.Proofs.Document.CompleteParts
import ApiWorkbench.Proofs.Editor.EntryEdits
import ApiWorkbench.Proofs.Editor.Locality

/-!
# The sections of a document

The commands that make edits fall into sections, and each section owns one or two
places in the document. Schemas and security schemes both stand among the
components, and the security schemes share their section with what the document
requires of them. In a document that has all its parts, a command looks at the
places of its section only and changes nothing else, so commands of different
sections come to the same in either order.

The tags of a document may be missing. A command that brings them in puts them at the
end, but since the places of all other sections are there, nothing else is put there
before or after them.

## Main results

* `actsAt_of_sectionOf`: a command of a section looks only at the places of the section,
  and changes only them.
* `Edit.ActsAt.commuteAt`: edits of places apart from each other come to the same
  in either order.
* `apply_section_apart`: both for commands.
-/

namespace ApiWorkbench

open Document Command

namespace Members

variable {ms : Members} {r : Route} {v : Value}
  {changes changes' : List (Route × Value)}

/-- The members with values set at the ends of routes, one after the other. -/
def setAll (changes : List (Route × Value)) (ms : Members) : Members :=
  changes.foldl (fun ms change => setAt change.1 (some change.2) ms) ms

@[simp] theorem setAll_nil (ms : Members) : setAll [] ms = ms := rfl

@[simp] theorem setAll_cons (change : Route × Value) (changes : List (Route × Value))
    (ms : Members) :
    setAll (change :: changes) ms =
      setAll changes (setAt change.1 (some change.2) ms) := rfl

/-- What is set at other routes is not seen. -/
theorem getAt_setAll_of_apart (h : ∀ change ∈ changes, Apart r change.1) :
    getAt r (setAll changes ms) = getAt r ms := by
  induction changes generalizing ms with
  | nil => rfl
  | cons change rest ih =>
      rw [setAll_cons, ih fun c hc => h c (by simp [hc]),
        getAt_setAt_of_apart (h change (by simp))]

/-- Where something is, something is still there after values were set there or
apart from it. -/
theorem getAt_setAll_ne_none (h : ∀ change ∈ changes, r = change.1 ∨ Apart r change.1)
    (hr : getAt r ms ≠ none) :
    getAt r (setAll changes ms) ≠ none := by
  induction changes generalizing ms with
  | nil => exact hr
  | cons change rest ih =>
      exact ih (fun c hc => h c (by simp [hc]))
        (getAt_setAt_ne_none (h change (by simp)) hr change.2)

/-- A value set at a place that is there may be set before or after others that are
set elsewhere. -/
private theorem setAt_setAll_comm (h : ∀ change ∈ changes, Apart r change.1)
    (hr : getAt r ms ≠ none) :
    setAt r (some v) (setAll changes ms) = setAll changes (setAt r (some v) ms) := by
  induction changes generalizing ms with
  | nil => rfl
  | cons change rest ih =>
      have hchange := h change (by simp)
      rw [setAll_cons, setAll_cons, ih (fun c hc => h c (by simp [hc]))
        (by rwa [getAt_setAt_of_apart hchange]), setAt_comm hchange (.inl hr)]

/-- Values are set at places that are there before or after others that are
set elsewhere. -/
theorem setAll_comm
    (hapart : ∀ change ∈ changes, ∀ change' ∈ changes', Apart change.1 change'.1)
    (hsame : ∀ change ∈ changes, ∀ other ∈ changes, change.1 = other.1 ∨
      Apart change.1 other.1) (hthere : ∀ change ∈ changes, getAt change.1 ms ≠ none) :
    setAll changes (setAll changes' ms) = setAll changes' (setAll changes ms) := by
  induction changes generalizing ms with
  | nil => rfl
  | cons change rest ih =>
      rw [setAll_cons, setAll_cons,
        setAt_setAll_comm (hapart change (by simp)) (hthere change (by simp))]
      refine ih (fun c hc => hapart c (by simp [hc]))
        (fun c hc d hd => hsame c (by simp [hc]) d (by simp [hd])) ?_
      exact fun c hc => getAt_setAt_ne_none (hsame c (by simp [hc]) change (by simp))
        (hthere c (by simp [hc])) _

end Members

namespace Editor

open Members

/-! ## Places -/

/-- The sections of a document. -/
inductive Section where
  | info
  | externalDocs
  | servers
  | tags
  | paths
  | schemas
  | security
deriving DecidableEq, Repr

/-- The places of a section. -/
def Section.routes : Section → List Route
  | info => [["info"]]
  | externalDocs => [["externalDocs"]]
  | servers => [["servers"]]
  | tags => [["tags"]]
  | paths => [["paths"]]
  | schemas => [["components", "schemas"]]
  | security => [["components", "securitySchemes"], ["security"]]

/-- The section that a command belongs to; none for a command that brings in a whole
document or that is about the snapshot. -/
def sectionOf : Command Unit → Option Section
  | .setDocument _ | .saveSnapshot | .undo | .loadSample | .reset => none
  | .info _ => some .info
  | .externalDocs _ => some .externalDocs
  | .servers _ => some .servers
  | .tags _ => some .tags
  | .paths _ | .operation _ _ _ | .renameOperation _ _ _ => some .paths
  | .security _ => some .security
  | .schemas _ => some .schemas

/-- The places of all sections. -/
def places : List Route :=
  [["info"], ["externalDocs"], ["servers"], ["tags"], ["paths"],
    ["components", "schemas"], ["components", "securitySchemes"], ["security"]]

/-- All places are there, except perhaps that of the tags. -/
def HasParts (ms : Members) : Prop :=
  ∀ r ∈ places, r ≠ ["tags"] → getAt r ms ≠ none

instance (ms : Members) : Decidable (HasParts ms) :=
  inferInstanceAs (Decidable (∀ r ∈ places, r ≠ ["tags"] → getAt r ms ≠ none))

private theorem places_apart : ∀ r ∈ places, ∀ r' ∈ places, r = r' ∨ Apart r r' := by
  decide

private theorem routes_subset (s : Section) : s.routes ⊆ places := by
  cases s <;> decide

private theorem routes_apart {s s' : Section} (h : s ≠ s') :
    ∀ r ∈ s.routes, ∀ r' ∈ s'.routes, Apart r r' := by
  cases s <;> cases s' <;> first | exact absurd rfl h | decide

/-- Of two sections, one has no tags. -/
private theorem tags_not_mem {s s' : Section} (h : s ≠ s') :
    ["tags"] ∉ s.routes ∨ ["tags"] ∉ s'.routes := by
  cases s <;> cases s' <;> first | exact absurd rfl h | decide

/-- A document that has its parts has the same parts after something was set
in the places. -/
private theorem HasParts.setAll
    {ms : Members} (h : HasParts ms) {changes : List (Route × Value)}
    (hchanges : ∀ change ∈ changes, change.1 ∈ places) : HasParts (setAll changes ms) :=
  fun r hr htags => getAt_setAll_ne_none
    (fun change hchange => places_apart r hr _ (hchanges change hchange)) (h r hr htags)

/-- Every completed document has its parts. -/
theorem hasParts_of_complete {ms : Members} (h : Complete ms) : HasParts ms := by
  obtain ⟨info, hinfo, -⟩ := h.info
  obtain ⟨paths, hpaths, -⟩ := h.paths
  obtain ⟨components, hcomponents, hfilled⟩ := h.components
  obtain ⟨externalDocs, hexternalDocs, -⟩ := h.externalDocs
  obtain ⟨security, hsecurity, -⟩ := h.security
  obtain ⟨servers, hservers, -⟩ := h.servers
  obtain ⟨schemas, hschemas, -⟩ := hfilled "schemas" (by decide)
  obtain ⟨schemes, hschemes, -⟩ := hfilled "securitySchemes" (by decide)
  simp [HasParts, places, getAt, hinfo, hpaths, hcomponents, hexternalDocs, hsecurity,
    hservers, hschemas, hschemes]

/-! ## Edits at the places of a section -/

namespace Edit

variable {ms ns inner inner' : Members} {rs rs' : List Route} {e e' : Edit Unit}
  {name : String}

/-- Two edits end alike if they set the same at some places, and change nothing else; or
if both end with one fault. -/
def SetAlike (rs : List Route) (ms ns : Members) :
    (x y : Except Fault (Option Members)) → Prop :=
  Agree fun found found' => ∃ changes : List (Route × Value),
    (∀ change ∈ changes, change.1 ∈ rs) ∧
    found.getD ms = setAll changes ms ∧ found'.getD ns = setAll changes ns

theorem setAlike_nothing : SetAlike rs ms ns nothing nothing :=
  .ok ⟨[], by simp, rfl, rfl⟩

theorem setAlike_changed {changes : List (Route × Value)}
    (h : ∀ change ∈ changes, change.1 ∈ rs) :
    SetAlike rs ms ns (changed (setAll changes ms)) (changed (setAll changes ns)) :=
  .ok ⟨changes, h, rfl, rfl⟩

/-- After the same step, edits end alike if they do so on its result. -/
theorem setAlike_bind {α : Type} {x : Except Fault α}
    {f g : α → Except Fault (Option Members)} (h : ∀ a, SetAlike rs ms ns (f a) (g a)) :
    SetAlike rs ms ns (x >>= f) (x >>= g) := by
  cases x with
  | error fault => exact .error fault
  | ok a => exact h a

/-- An edit that looks at some places only, and changes only what is there, in documents
that have their parts. -/
def ActsAt (rs : List Route) (e : Edit Unit) : Prop :=
  ∀ ms ns, HasParts ms → HasParts ns → (∀ r ∈ rs, getAt r ms = getAt r ns) →
    SetAlike rs ms ns (e ms) (e ns)

/-- What an edit comes to in a document it also comes to in another one with the same
at the places. -/
theorem ActsAt.run (h : ActsAt rs e) (hms : HasParts ms) (hns : HasParts ns)
    (hsame : ∀ r ∈ rs, getAt r ms = getAt r ns) {ms' : Members}
    (hrun : e.run ms = .ok ms') :
    ∃ changes : List (Route × Value), (∀ change ∈ changes, change.1 ∈ rs) ∧
      ms' = setAll changes ms ∧
      e.run ns = .ok (setAll changes ns) := by
  obtain ⟨found, hfound, rfl⟩ := run_eq_ok.mp hrun
  have halike := h ms ns hms hns hsame
  rw [hfound] at halike
  cases hns : e ns with
  | error fault =>
      rw [hns] at halike
      cases halike
  | ok found' =>
      rw [hns] at halike
      cases halike with
      | ok hchanges =>
          obtain ⟨changes, hmem, heq, heq'⟩ := hchanges
          exact ⟨changes, hmem, heq, run_eq_ok.mpr ⟨found', hns, heq'⟩⟩

theorem ActsAt.mono (h : ActsAt rs e) (hsub : rs ⊆ rs') : ActsAt rs' e := by
  intro ms ns hms hns hsame
  refine (h ms ns hms hns fun r hr => hsame r (hsub hr)).imp ?_
  rintro found found' ⟨changes, hmem, heq⟩
  exact ⟨changes, fun change hchange => hsub (hmem change hchange), heq⟩

/-- An edit of one entry acts at the place of that entry. -/
theorem ActsOn.actsAt (h : ActsOn name e) : ActsAt [[name]] e := by
  intro ms ns _ _ hsame
  refine (h ms ns (hsame [name] (by simp))).imp ?_
  rintro found found' (⟨rfl, rfl⟩ | ⟨v, rfl, rfl⟩)
  · exact ⟨[], by simp, rfl, rfl⟩
  · exact ⟨[([name], v)], by simp, rfl, rfl⟩

/-- Edits of places apart from each other come to the same in either order, if all the
places of one are there. -/
theorem ActsAt.commuteAt (h : ActsAt rs e) (h' : ActsAt rs' e') (hrs : rs ⊆ places)
    (hrs' : rs' ⊆ places) (hapart : ∀ r ∈ rs, ∀ r' ∈ rs', Apart r r')
    (htags : ["tags"] ∉ rs) (hms : HasParts ms) : e.CommuteAt e' ms := by
  intro ns ns' hns hns'
  -- the second edit after the first
  obtain ⟨changes, hchanges, rfl, -⟩ := h.run hms hms (fun _ _ => rfl) hns
  have hparts := hms.setAll fun change hmem => hrs (hchanges change hmem)
  obtain ⟨changes', hchanges', rfl, hlast⟩ :=
    h'.run hms hparts (fun r hr => (getAt_setAll_of_apart fun change hmem =>
    (hapart _ (hchanges change hmem) r hr).symm).symm) hns'
  -- the first edit after the second
  have hparts' := hms.setAll fun change hmem => hrs' (hchanges' change hmem)
  obtain ⟨again, hagain, heq, hlast'⟩ :=
    h.run hms hparts' (fun r hr => (getAt_setAll_of_apart fun change hmem =>
    hapart r hr _ (hchanges' change hmem)).symm) hns
  refine ⟨_, hlast, hlast'.trans (congrArg Except.ok ?_)⟩
  rw [heq]
  refine setAll_comm (fun c hc c' hc' => hapart _ (hagain c hc) _ (hchanges' c' hc'))
    (fun c hc d hd => places_apart _ (hrs (hagain c hc)) _ (hrs (hagain d hd)))
      fun c hc => ?_
  exact hms _ (hrs (hagain c hc)) fun heq => htags (heq ▸ hagain c hc)

end Edit

/-! ## Components -/

section

variable {ms ns : Members} {e : Edit Unit} {name : String}

private theorem components_of_hasParts (h : HasParts ms) :
    ∃ components, get? "components" ms = some (.object components) := by
  obtain ⟨components, hcomponents, -⟩ :=
    object_of_getAt (h ["components", "schemas"] (by decide) (by decide))
  exact ⟨components, hcomponents⟩

/-- An edit of one entry of the components acts at the place of that entry. -/
private theorem withinComponents_actsAt (h : e.ActsOn name) :
    Edit.ActsAt [["components", name]] (withinComponents e) := by
  intro ms ns hms hns hsame
  obtain ⟨inner, hinner⟩ := components_of_hasParts hms
  obtain ⟨inner', hinner'⟩ := components_of_hasParts hns
  have hname : get? name inner = get? name inner' := by
    simpa only [getAt, hinner, hinner'] using hsame ["components", name] (by simp)
  rw [withinComponents, Edit.withinMap, Edit.withinMap, members_mapAt_of_object hinner,
    members_mapAt_of_object hinner', ok_bind, ok_bind]
  refine Agree.bind (h inner inner' hname) ?_
  rintro found found' (⟨rfl, rfl⟩ | ⟨v, rfl, rfl⟩)
  · exact Edit.setAlike_nothing
  · exact .ok ⟨[(["components", name], v)], by simp, by simp [setAt, setEntry, hinner],
      by simp [setAt, setEntry, hinner']⟩

theorem editSchemas_actsAt (e : SchemaEdit Unit) :
    Edit.ActsAt Section.schemas.routes (editSchemas id e) := by
  cases e with
  | add => exact withinComponents_actsAt (Edit.actsOn_addEntry _ _ _)
  | update name schema => exact withinComponents_actsAt (Edit.actsOn_putEntry _ _ _)
  | remove name => exact withinComponents_actsAt (Edit.actsOn_removeEntry _ _)
  | rename oldName newName =>
      exact withinComponents_actsAt (Edit.actsOn_renameEntry _ _ _)
  | duplicate name => exact withinComponents_actsAt (Edit.actsOn_duplicateEntry _ _ _ _)

/-! ## Security -/

/-- The schemes and the requirements are the same where the places of the section
have the same. -/
private theorem security_congr (hms : HasParts ms) (hns : HasParts ns)
    (hsame : ∀ r ∈ Section.security.routes, getAt r ms = getAt r ns) :
    schemesOf ms = schemesOf ns ∧ listAt "security" ms = listAt "security" ns := by
  obtain ⟨inner, hinner⟩ := components_of_hasParts hms
  obtain ⟨inner', hinner'⟩ := components_of_hasParts hns
  have hschemes : get? "securitySchemes" inner = get? "securitySchemes" inner' := by
    simpa only [getAt, hinner, hinner']
      using hsame ["components", "securitySchemes"] (by decide)
  have hsecurity : get? "security" ms = get? "security" ns :=
    hsame ["security"] (by decide)
  refine ⟨?_, by simp only [listAt, valueAt, hsecurity]⟩
  rw [schemesOf, schemesOf, members_mapAt_of_object hinner, members_mapAt_of_object
    hinner', ok_bind, ok_bind, mapAt, mapAt, valueAt, valueAt, hschemes]

/-- Setting the requirements and then the schemes. -/
private theorem putSchemes_putList (h : HasParts ms) (schemes : Members)
    (items : List Value) :
    putSchemes schemes (putList "security" items ms) =
      .ok (setAll [(["security"], .list items),
        (["components", "securitySchemes"], .object schemes)] ms) := by
  obtain ⟨inner, hinner⟩ := components_of_hasParts h
  have hkept : get? "components" (putList "security" items ms) =
      some (.object inner) := by
    rw [putList, get?_put, if_neg (by decide), hinner]
  rw [putSchemes, members_mapAt_of_object hkept, ok_bind, pure_eq_ok]
  simp only [setAll_cons, setAll_nil, setAt, setEntry]
  rw [putList] at hkept
  rw [hkept, putList]

/-- Changing the requirements only. -/
private theorem putList_eq_setAll (items : List Value) (ms : Members) :
    putList "security" items ms = setAll [(["security"], .list items)] ms := rfl

private theorem removeScheme_actsAt (name : String) :
    Edit.ActsAt Section.security.routes (removeScheme name) := by
  intro ms ns hms hns hsame
  obtain ⟨hschemes, hsecurity⟩ := security_congr hms hns hsame
  simp only [removeScheme, hschemes, hsecurity, putSchemes_putList hms,
    putSchemes_putList hns, ok_bind]
  exact Edit.setAlike_bind fun map => Edit.setAlike_bind fun schemes =>
    Edit.setAlike_bind fun items =>
    Edit.setAlike_bind fun kept => Edit.setAlike_changed (by simp [Section.routes])

private theorem renameScheme_actsAt (oldName newName : String) :
    Edit.ActsAt Section.security.routes (renameScheme oldName newName) := by
  intro ms ns hms hns hsame
  obtain ⟨hschemes, hsecurity⟩ := security_congr hms hns hsame
  simp only [renameScheme, hschemes, hsecurity, putSchemes_putList hms,
    putSchemes_putList hns, ok_bind]
  refine Edit.setAlike_bind fun schemes => ?_
  split
  · exact Edit.setAlike_nothing
  · refine Edit.setAlike_bind fun present => ?_
    split
    · exact Edit.setAlike_bind fun items => Edit.setAlike_bind fun security =>
        Edit.setAlike_bind fun map =>
        Edit.setAlike_bind fun renamed =>
          Edit.setAlike_changed (by simp [Section.routes])
    · exact Edit.setAlike_nothing

private theorem requireScheme_actsAt (name : String) :
    Edit.ActsAt Section.security.routes (requireScheme name) := by
  intro ms ns hms hns hsame
  obtain ⟨hschemes, hsecurity⟩ := security_congr hms hns hsame
  simp only [requireScheme, hschemes, hsecurity, putList_eq_setAll]
  refine Edit.setAlike_bind fun security => Edit.setAlike_bind fun present => ?_
  split
  · exact Edit.setAlike_nothing
  · exact Edit.setAlike_bind fun schemes => Edit.setAlike_bind fun scheme =>
      Edit.setAlike_bind fun scopes =>
      Edit.setAlike_changed (by simp [Section.routes])

private theorem releaseScheme_actsAt (name : String) :
    Edit.ActsAt Section.security.routes (releaseScheme name) := by
  intro ms ns hms hns hsame
  obtain ⟨-, hsecurity⟩ := security_congr hms hns hsame
  simp only [releaseScheme, hsecurity, putList_eq_setAll]
  exact Edit.setAlike_bind fun items => Edit.setAlike_bind fun kept =>
    Edit.setAlike_changed (by simp [Section.routes])

/-- An edit of the security schemes alone acts at one of the places of their section. -/
private theorem withinSchemes_actsAt (h : e.ActsOn "securitySchemes") :
    Edit.ActsAt Section.security.routes (withinComponents e) :=
  (withinComponents_actsAt h).mono (by decide)

theorem editSecurity_actsAt (e : SecurityEdit Unit) :
    Edit.ActsAt Section.security.routes (editSecurity e) := by
  cases e with
  | add => exact withinSchemes_actsAt (Edit.actsOn_addEntry _ _ _)
  | update name scheme => exact withinSchemes_actsAt (Edit.actsOn_putEntry _ _ _)
  | remove name => exact removeScheme_actsAt name
  | rename oldName newName => exact renameScheme_actsAt oldName newName
  | changeType | toggleFlow | addScope | renameScope | removeScope =>
      exact withinSchemes_actsAt (Edit.actsOn_withinMap "securitySchemes" _)
  | toggleGlobal name enabled =>
      dsimp only [editSecurity]
      split
      · exact requireScheme_actsAt name
      · exact releaseScheme_actsAt name

end

/-! ## Commands -/

/-- A command of a section makes an edit that looks only at the places of the section,
and changes only them. -/
theorem actsAt_of_sectionOf {command : Command Unit} {s : Section}
    (h : sectionOf command = some s) :
    ∃ e, editOf command = some e ∧ e.ActsAt s.routes := by
  unfold editOf
  split
  · exact ⟨_, rfl, fun ms ns _ _ _ => Edit.setAlike_nothing⟩
  · cases command with
    | setDocument | saveSnapshot | undo | loadSample | reset => simp [sectionOf] at h
    | info changes =>
        obtain rfl := Option.some.inj h
        exact ⟨_, rfl, (Edit.actsOn_changeMap "info" changes).actsAt⟩
    | externalDocs changes =>
        obtain rfl := Option.some.inj h
        exact ⟨_, rfl, (Edit.actsOn_changeMap "externalDocs" changes).actsAt⟩
    | servers e =>
        obtain rfl := Option.some.inj h
        exact ⟨_, rfl, (editServers_actsOn e).actsAt⟩
    | tags e =>
        obtain rfl := Option.some.inj h
        exact ⟨_, rfl, (editTags_actsOn e).actsAt⟩
    | paths e =>
        obtain rfl := Option.some.inj h
        exact ⟨_, rfl, (editPaths_actsOn e).actsAt⟩
    | operation path method e =>
        obtain rfl := Option.some.inj h
        exact ⟨_, rfl, (editOperation_actsOn path method e).actsAt⟩
    | renameOperation path oldMethod newMethod =>
        obtain rfl := Option.some.inj h
        exact ⟨_, rfl, (Edit.actsOn_withinMap "paths" _).actsAt⟩
    | security e =>
        obtain rfl := Option.some.inj h
        exact ⟨_, rfl, editSecurity_actsAt e⟩
    | schemas e =>
        obtain rfl := Option.some.inj h
        exact ⟨_, rfl, editSchemas_actsAt e⟩

/-- A command of a section changes nothing but what is at the places of the section, and
comes to the same before and after a command of another section. -/
theorem apply_section_apart {state next : State Unit} {command : Command Unit}
    {s : Section} {ms : Members} (hdocument : state.document = .object ms)
    (hparts : HasParts ms) (hs : sectionOf command = some s)
    (h : state.apply command = .ok next) :
    (∃ changes : List (Route × Value), (∀ change ∈ changes, change.1 ∈ s.routes) ∧
        next.document = .object (setAll changes ms)) ∧
      next.snapshot = state.snapshot ∧
      ∀ command' s' next', sectionOf command' = some s' → s ≠ s' →
        state.apply command' = .ok next' →
        ∃ last, state.applyAll [command, command'] = .ok last ∧
          state.applyAll [command', command] = .ok last := by
  obtain ⟨e, he, hacts⟩ := actsAt_of_sectionOf hs
  have happly := h
  rw [apply_of_editOf he hdocument] at happly
  obtain ⟨ns, hns, rfl⟩ := map_eq_ok.mp happly
  obtain ⟨changes, hchanges, rfl, -⟩ := hacts.run hparts hparts (fun _ _ => rfl) hns
  refine ⟨⟨changes, hchanges, rfl⟩, rfl, fun command' s' next' hs' hne h' => ?_⟩
  obtain ⟨e', he', hacts'⟩ := actsAt_of_sectionOf hs'
  refine applyAll_comm he he' (fun ms' hms' => ?_) h h'
  obtain rfl : ms' = ms := by simpa [hdocument] using hms'.symm
  rcases tags_not_mem hne with htags | htags
  · exact hacts.commuteAt hacts' (routes_subset s) (routes_subset s')
      (routes_apart hne) htags hparts
  · exact (hacts'.commuteAt hacts (routes_subset s') (routes_subset s)
      (routes_apart hne.symm) htags hparts).symm

/-- The sample has its parts; in it a schema is added and a security scheme renamed,
in either order. -/
theorem apply_section_apart_of_sample :
    ∃ ms next next', (State.initial : State Unit).document = .object ms ∧ HasParts ms ∧
      State.initial.apply (.schemas .add) = .ok next ∧
      State.initial.apply (.security (.rename "api_key" "key")) = .ok next' ∧
      ∃ last, State.initial.applyAll
        [.schemas .add, .security (.rename "api_key" "key")] = .ok last ∧
        State.initial.applyAll [.security (.rename "api_key" "key"), .schemas .add] =
          .ok last := by
  obtain ⟨ms, hms, hcomplete⟩ := canonical_iff.mp canonical_sample
  obtain ⟨next, hnext⟩ : ∃ next, State.initial.apply (.schemas .add) = .ok next :=
    ⟨_, rfl⟩
  obtain ⟨next', hnext'⟩ : ∃ next',
      State.initial.apply (.security (.rename "api_key" "key")) = .ok next' := ⟨_, rfl⟩
  have hparts := hasParts_of_complete hcomplete
  exact ⟨ms, next, next', hms, hparts, hnext, hnext',
    (apply_section_apart hms hparts rfl hnext).2.2 _ .security next'
      rfl (by decide) hnext'⟩

end Editor

end ApiWorkbench
