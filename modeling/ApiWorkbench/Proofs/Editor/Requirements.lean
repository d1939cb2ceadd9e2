import ApiWorkbench.Proofs.Document.EditedPlaces
import ApiWorkbench.Proofs.Editor.Canonical
import ApiWorkbench.Proofs.Editor.EntryEdits
import ApiWorkbench.Proofs.Editor.Locality
import ApiWorkbench.Proofs.Editor.Usable
import ApiWorkbench.Proofs.Names

/-!
# Security requirements and the schemes they name

A security requirement of a document names security schemes. Taking a scheme away takes
the requirements away that name it, and renaming a scheme renames it in the
requirements, also where the new name was taken before. So requirements that name
schemes of the document go on doing so, whatever commands are applied.

There is one way out: a requirement may be asked for a scheme that the document does not
have, and it is made. A run keeps all requirements met exactly if nothing of this kind
is asked for on the way.

## Main results

* `editSecurity_keeps_met`: edits of schemes and requirements keep the requirements met,
  but for asking for a scheme.
* `apply_met_iff`: when a command keeps the requirements met.
* `requirementsMet_throughout_iff`: when all of a run does.
-/

namespace ApiWorkbench.Editor

open Command Document Members

/-! ## Requirements and schemes -/

/-- A requirement of the document names a scheme. -/
def Requires (ms : Members) (name : Scalar) : Prop :=
  ∃ security entries, listAt "security" ms = .ok security ∧
    Value.object entries ∈ security ∧
    contains name entries = true

/-- The document has a security scheme under a name. -/
def Defines (ms : Members) (name : Scalar) : Prop :=
  ∃ components schemes, get? "components" ms = some (.object components) ∧
    get? "securitySchemes" components = some (.object schemes) ∧
      contains name schemes = true

/-- All schemes that requirements of the document name are there. -/
def RequirementsMet (ms : Members) : Prop :=
  ∀ name, Requires ms name → Defines ms name

/-- The requirements of the document and of the snapshot, if there is one, are met. -/
structure StateRequirementsMet (state : State Unit) : Prop where
  document : IfObject RequirementsMet state.document
  snapshot : ∀ v ∈ state.snapshot, IfObject RequirementsMet v

section

variable {ms ms' security schemes : Members} {name : Scalar} {items : List Value}

theorem requires_iff (h : listAt "security" ms = .ok items) :
    Requires ms name ↔ ∃ entries, Value.object entries ∈ items ∧
      contains name entries = true := by
  constructor
  · rintro ⟨items', entries, hitems', hmem, hname⟩
    obtain rfl := Except.ok.inj (h.symm.trans hitems')
    exact ⟨entries, hmem, hname⟩
  · rintro ⟨entries, hmem, hname⟩
    exact ⟨items, entries, h, hmem, hname⟩

theorem requires_congr (h : get? "security" ms' = get? "security" ms) :
    Requires ms' name ↔ Requires ms name := by
  rw [Requires, Requires, listAt, listAt, valueAt, valueAt, h]

theorem defines_congr (h : get? "components" ms' = get? "components" ms) :
    Defines ms' name ↔ Defines ms name := by
  rw [Defines, Defines, h]

/-- The schemes that are read from a document are those that it defines. -/
theorem contains_of_defines (h : (schemesOf ms >>= Tree.members) = .ok schemes)
    (hname : Defines ms name) :
    contains name schemes = true := by
  obtain ⟨components, schemes', hcomponents, hschemes', hname⟩ := hname
  rw [schemesOf, members_mapAt_of_object hcomponents, ok_bind, pure_eq_ok, ok_bind,
    members_mapAt_of_object hschemes'] at h
  exact Except.ok.inj h ▸ hname

/-- A document in which nothing is required. -/
theorem requirementsMet_of_nothing (h : listAt "security" ms = .ok []) :
    RequirementsMet ms := by
  intro name hname
  obtain ⟨entries, hmem, -⟩ := (requires_iff h).mp hname
  simp at hmem

theorem requirementsMet_sample : IfObject RequirementsMet sample :=
  requirementsMet_of_nothing rfl

theorem requirementsMet_template : IfObject RequirementsMet Template.document :=
  requirementsMet_of_nothing rfl

/-- What the document defines, it also does after completion. -/
private theorem Defines.complete {ns : Members} (h : Defines ms name)
    (hcomplete : complete (.object ms) = .ok (.object ns)) : Defines ns name := by
  obtain ⟨components, schemes, hcomponents, hschemes, hname⟩ := h
  obtain ⟨⟨components', hread, hget⟩, -⟩ := complete_parts hcomplete
  rw [hcomponents, Option.getD_some, orElse_object] at hread
  obtain rfl := (Tree.marked.inj hread).2
  refine ⟨_, schemes, hget, ?_, hname⟩
  rw [completeComponents_eq, get?_fill_self, get?_fill_of_ne (by decide),
    get?_fill_of_ne (by decide), get?_fill_of_ne (by decide), hschemes,
    Option.getD_some, orElse_object]

/-- Completion keeps requirements met. -/
theorem complete_met {document result : Value}
    (hdocument : IfObject RequirementsMet document)
    (h : complete document = .ok result) : IfObject RequirementsMet result := by
  obtain ⟨ms, hms, -⟩ := bind_eq_ok.mp h
  obtain rfl := members_eq_ok.mp hms
  obtain ⟨ns, rfl, -⟩ := complete_of_ok h
  intro name hname
  rw [Requires, listAt_complete (by simp) h] at hname
  exact (hdocument name hname).complete h

end

/-! ## Edits of schemes -/

/-- An edit that leaves the requirements, and under each name a scheme if there was
one. -/
structure KeepsSchemes (e : Edit Unit) : Prop where
  security : e.Leaves "security"
  defines : ∀ ms ms', e ms = .ok (some ms') → ∀ name, Defines ms name → Defines ms' name

theorem KeepsSchemes.keeps_met {e : Edit Unit} (he : KeepsSchemes e) :
    Edit.Keeps RequirementsMet e := by
  intro ms ms' hms h name hname
  rw [requires_congr (he.security ms ms' h)] at hname
  exact he.defines ms ms' h name (hms name hname)

/-- An edit that touches neither the requirements nor the components. -/
theorem keepsSchemes_of_leaves {e : Edit Unit} (hsecurity : e.Leaves "security")
    (hcomponents : e.Leaves "components") :
    KeepsSchemes e where
  security := hsecurity
  defines ms ms' h _ := (defines_congr (hcomponents ms ms' h)).mpr

/-- An edit that acts on another member of the document. -/
theorem keepsSchemes_of_actsOn {e : Edit Unit} {name : String} (he : e.ActsOn name)
    (hsecurity : "security" ≠ name) (hcomponents : "components" ≠ name) :
    KeepsSchemes e :=
  keepsSchemes_of_leaves (he.leaves hsecurity) (he.leaves hcomponents)

/-- An edit of components keeps the schemes if what it leaves of them has the names
that were there. -/
theorem keepsSchemes_withinComponents {e : Edit Unit}
    (he : ∀ components components' schemes, e components = .ok (some components') →
      get? "securitySchemes" components = some (.object schemes) →
      ∃ schemes', get? "securitySchemes" components' = some (.object schemes') ∧
        ∀ name, contains name schemes = true → contains name schemes' = true) :
    KeepsSchemes (withinComponents e) where
  security := (Edit.actsOn_withinMap "components" e).leaves (by decide)
  defines ms ms' h name hname := by
    obtain ⟨components, schemes, hcomponents, hschemes, hname⟩ := hname
    obtain ⟨inner, inner', hinner, hedit, rfl⟩ := Edit.withinMap_spec h
    rw [members_mapAt_of_object hcomponents] at hinner
    obtain rfl := Except.ok.inj hinner
    obtain ⟨schemes', hschemes', hnames⟩ := he _ _ schemes hedit hschemes
    exact ⟨inner', schemes', by simp, hschemes', hnames name hname⟩

/-- An edit that puts something under a name of the schemes keeps them. -/
private theorem keepsSchemes_putScheme {e : Edit Unit}
    (he : ∀ components components', e components = .ok (some components') → ∃ schemes,
      ∃ name : String, ∃ v, (mapAt "securitySchemes" components).members = .ok schemes ∧
        components' = put "securitySchemes" (.object (put name v schemes)) components) :
    KeepsSchemes (withinComponents e) := by
  refine keepsSchemes_withinComponents fun components components' schemes h hschemes =>
    ?_
  obtain ⟨schemes', name, v, hread, rfl⟩ := he components components' h
  rw [members_mapAt_of_object hschemes] at hread
  obtain rfl := Except.ok.inj hread
  exact ⟨put name v schemes, by simp, fun _ hname => contains_put.mpr (.inr hname)⟩

private theorem withinScheme_keepsSchemes (name : String) (e : Edit Unit) :
    KeepsSchemes (withinScheme name e) := by
  refine keepsSchemes_putScheme fun components components' h => ?_
  obtain ⟨schemes, schemes', hread, hedit, rfl⟩ := Edit.withinMap_spec h
  obtain ⟨_, scheme', _, _, rfl⟩ := Edit.within_spec hedit
  exact ⟨schemes, name, .object scheme', hread, rfl⟩

theorem editSchemas_keepsSchemes (e : SchemaEdit Unit) :
    KeepsSchemes (editSchemas id e) := by
  have hschemas : ∀ e : Edit Unit, e.ActsOn "schemas" →
      KeepsSchemes (withinComponents e) := by
    intro e he
    refine keepsSchemes_withinComponents
      fun components components' schemes h hschemes => ?_
    exact ⟨schemes, by rw [he.leaves (by decide) components components' h, hschemes],
      fun _ => id⟩
  cases e with
  | add => exact hschemas _ (Edit.actsOn_addEntry _ _ _)
  | update name schema => exact hschemas _ (Edit.actsOn_putEntry _ _ _)
  | remove name => exact hschemas _ (Edit.actsOn_removeEntry _ _)
  | rename oldName newName => exact hschemas _ (Edit.actsOn_renameEntry _ _ _)
  | duplicate name => exact hschemas _ (Edit.actsOn_duplicateEntry _ _ _ _)

/-! ## Edits of requirements -/

section

variable {ms ms' schemes : Members} {name : String} {items kept : List Value}

/-- After schemes and requirements were put, the names in the requirements are to be
found among the schemes. -/
private theorem met_of_putSchemes
    (h : putSchemes schemes (putList "security" items ms) = .ok ms') (hmet :
      ∀ name entries, Value.object entries ∈ items → contains name entries = true →
      contains name schemes = true) : RequirementsMet ms' := by
  intro name hname
  have hsecurity : listAt "security" ms' = .ok items := by
    refine listAt_of_list ?_
    rw [get?_putSchemes h (by decide), putList, get?_put, if_pos rfl]
  obtain ⟨entries, hmem, hentries⟩ := (requires_iff hsecurity).mp hname
  obtain ⟨components, -, h⟩ := bind_eq_ok.mp h
  obtain rfl := Except.ok.inj h
  exact ⟨_, schemes, by rw [get?_put, if_pos rfl], by rw [get?_put, if_pos rfl],
    hmet name entries hmem hentries⟩

/-- After requirements were put, the names in them are to be found among the schemes
that were there. -/
private theorem met_of_putList (hmet : ∀ name entries, Value.object entries ∈ items →
      contains name entries = true →
    Defines ms name) : RequirementsMet (putList "security" items ms) := by
  intro name hname
  have hsecurity : listAt "security" (putList "security" items ms) = .ok items :=
    listAt_of_list (by rw [putList, get?_put, if_pos rfl])
  obtain ⟨entries, hmem, hentries⟩ := (requires_iff hsecurity).mp hname
  exact (defines_congr (by rw [putList, get?_put, if_neg (by decide)])).mpr
    (hmet name entries hmem hentries)

/-- Requirements that are kept when a scheme is released were there and do not name
it. -/
private theorem mem_released {entries : Members}
    (h : items.filterM
      (fun requirement : Value => do pure !(← requirement.holds name)) = .ok kept)
    (hentries : Value.object entries ∈ kept) :
    Value.object entries ∈ items ∧ contains (.str name) entries = false := by
  obtain ⟨hmem, htest⟩ := mem_filterM h hentries
  obtain ⟨found, hfound, htest⟩ := bind_eq_ok.mp htest
  obtain rfl : contains (.str name) entries = found := Except.ok.inj hfound
  exact ⟨hmem, by simpa using htest⟩

theorem removeScheme_keeps_met (name : String) :
    Edit.Keeps RequirementsMet (removeScheme name) := by
  intro ms ms' hms h
  obtain ⟨schemes, security, kept, hschemes, hsecurity, hkept, hput⟩ :=
    removeScheme_spec h
  refine met_of_putSchemes hput fun required entries hentries hrequired => ?_
  obtain ⟨hmem, hreleased⟩ := mem_released hkept hentries
  have hdefined :=
    hms required ((requires_iff hsecurity).mpr ⟨entries, hmem, hrequired⟩)
  refine contains_erase.mpr ⟨contains_of_defines hschemes hdefined, ?_⟩
  rintro rfl
  simp [hreleased] at hrequired

/-- The names in a requirement with a scheme renamed: the new name, and others
that were there. -/
private theorem contains_renameInRequirement
    {old new : String} {v : Value} {entries : Members}
    {required : Scalar} (h : renameInRequirement old new v = .ok (.object entries))
    (hrequired : contains required entries = true) :
    required = .str new ∨
      required ≠ .str old ∧ ∃ entries, v = .object entries ∧
        contains required entries = true := by
  obtain ⟨found, hfound, h⟩ := bind_eq_ok.mp h
  split at h
  · obtain ⟨entries₀, hentries₀, h⟩ := bind_eq_ok.mp h
    obtain ⟨entries', hrename, h⟩ := bind_eq_ok.mp h
    obtain rfl := (Tree.marked.inj (Except.ok.inj h)).2
    rcases (contains_rename? (renamed_eq_ok.mp hrename)).mp hrequired with hnew
      | ⟨hthere, hold⟩
    · exact .inl hnew
    · exact .inr ⟨hold, entries₀, members_eq_ok.mp hentries₀, hthere⟩
  · obtain rfl := Except.ok.inj h
    refine .inr ⟨?_, entries, rfl, hrequired⟩
    rintro rfl
    obtain rfl : contains (.str old) entries = found := Except.ok.inj hfound
    contradiction

theorem renameScheme_keeps_met (old new : String) :
    Edit.Keeps RequirementsMet (renameScheme old new) := by
  intro ms ms' hms h
  obtain ⟨schemes, security, schemes', security', hschemes, hsecurity, hrequirements,
      hrename, hput⟩ :=
    renameScheme_spec h
  refine met_of_putSchemes hput fun required entries hentries hrequired => ?_
  obtain ⟨v, hv, hrenamed⟩ := exists_of_mem_mapM hrequirements hentries
  rw [contains_rename? hrename]
  rcases contains_renameInRequirement hrenamed hrequired with hnew
    | ⟨hold, entries₀, rfl, hthere⟩
  · exact .inl hnew
  · have hdefined := hms required ((requires_iff hsecurity).mpr ⟨entries₀, hv, hthere⟩)
    exact .inr ⟨contains_of_defines hschemes hdefined, hold⟩

theorem releaseScheme_keeps_met (name : String) :
    Edit.Keeps RequirementsMet (releaseScheme name) := by
  intro ms ms' hms h
  obtain ⟨security, kept, hsecurity, hkept, rfl⟩ := releaseScheme_spec h
  refine met_of_putList fun required entries hentries hrequired => ?_
  obtain ⟨hmem, -⟩ := mem_released hkept hentries
  exact hms required ((requires_iff hsecurity).mpr ⟨entries, hmem, hrequired⟩)

/-- A scheme that is asked for is required afterwards, and nothing else but what was
required before. -/
theorem requires_requireScheme (h : requireScheme name ms = .ok (some ms'))
    {required : Scalar} :
    Requires ms' required ↔ required = .str name ∨ Requires ms required := by
  obtain ⟨security, scopes, hsecurity, rfl⟩ := requireScheme_spec h
  have hlist : ∀ xs : List Value,
      listAt "security" (putList "security" xs ms) = .ok xs := fun xs =>
    listAt_of_list (by rw [putList, get?_put, if_pos rfl])
  rw [requires_iff (hlist _), requires_iff hsecurity]
  have hasked : contains required [(Scalar.str name, (.list scopes : Value))] = true ↔
      required = .str name := by
    rw [contains_iff]
    simp [Scalar.str_same_iff]
  constructor
  · rintro ⟨entries, hmem, hrequired⟩
    rcases List.mem_append.mp hmem with hmem | hmem
    · exact .inr ⟨entries, hmem, hrequired⟩
    · obtain rfl := (Tree.marked.inj (List.mem_singleton.mp hmem)).2
      exact .inl (hasked.mp hrequired)
  · rintro (hname | ⟨entries, hmem, hrequired⟩)
    · exact ⟨_, by simp [Tree.record], hasked.mpr hname⟩
    · exact ⟨entries, by simp [hmem], hrequired⟩

/-- After a scheme was asked for, the requirements are met if they were before and the
scheme is there. -/
theorem requireScheme_met_iff (hms : RequirementsMet ms)
    (h : requireScheme name ms = .ok (some ms')) :
    RequirementsMet ms' ↔ Defines ms name := by
  have hdefines : ∀ name, Defines ms' name ↔ Defines ms name := by
    obtain ⟨_, _, -, rfl⟩ := requireScheme_spec h
    exact fun name => defines_congr (by rw [putList, get?_put, if_neg (by decide)])
  constructor
  · intro hmet
    exact (hdefines _).mp (hmet _ ((requires_requireScheme h).mpr (.inl rfl)))
  · intro hname required hrequired
    rw [hdefines]
    rcases (requires_requireScheme h).mp hrequired with rfl | hbefore
    · exact hname
    · exact hms required hbefore

end

/-- Edits of schemes and requirements keep the requirements met, but for
asking for a scheme. -/
theorem editSecurity_keeps_met {e : SecurityEdit Unit}
    (he : ∀ name, e ≠ .toggleGlobal name true) :
    Edit.Keeps RequirementsMet (editSecurity e) := by
  cases e with
  | add =>
      refine (keepsSchemes_putScheme fun components components' h => ?_).keeps_met
      obtain ⟨schemes, fresh, hread, rfl⟩ := Edit.addEntry_spec h
      exact ⟨schemes, fresh, _, hread, rfl⟩
  | update name scheme =>
      refine (keepsSchemes_putScheme fun components components' h => ?_).keeps_met
      obtain ⟨schemes, hread, rfl⟩ := Edit.putEntry_spec h
      exact ⟨schemes, name, _, hread, rfl⟩
  | changeType | toggleFlow | addScope | renameScope | removeScope =>
      exact (withinScheme_keepsSchemes _ _).keeps_met
  | remove name => exact removeScheme_keeps_met name
  | rename oldName newName => exact renameScheme_keeps_met oldName newName
  | toggleGlobal name enabled =>
      cases enabled with
      | true => exact absurd rfl (he name)
      | false => exact releaseScheme_keeps_met name

/-! ## Commands and runs -/

/-- The edit that a command makes keeps requirements met, unless it asks for a
scheme. -/
theorem keeps_met_of_editOf {command : Command Unit} {e : Edit Unit}
    (hcommand : ∀ name, command ≠ .security (.toggleGlobal name true))
    (he : editOf command = some e) :
    Edit.Keeps RequirementsMet e := by
  unfold editOf at he
  split at he
  · obtain rfl := Option.some.inj he
    exact fun ms ms' _ h => (Edit.nothing_ne_some.mp h).elim
  · cases command with
    | setDocument | saveSnapshot | undo | loadSample | reset => simp at he
    | info | externalDocs =>
        obtain rfl := Option.some.inj he
        exact (keepsSchemes_of_actsOn (Edit.actsOn_changeMap _ _) (by decide)
          (by decide)).keeps_met
    | servers edit =>
        obtain rfl := Option.some.inj he
        exact (keepsSchemes_of_actsOn (editServers_actsOn edit) (by decide)
          (by decide)).keeps_met
    | tags edit =>
        obtain rfl := Option.some.inj he
        exact (keepsSchemes_of_actsOn (editTags_actsOn edit) (by decide)
          (by decide)).keeps_met
    | paths edit =>
        obtain rfl := Option.some.inj he
        exact (keepsSchemes_of_actsOn (editPaths_actsOn edit) (by decide)
          (by decide)).keeps_met
    | operation path method edit =>
        obtain rfl := Option.some.inj he
        exact (keepsSchemes_of_actsOn (editOperation_actsOn path method edit)
          (by decide) (by decide)).keeps_met
    | renameOperation path oldMethod newMethod =>
        obtain rfl := Option.some.inj he
        exact (keepsSchemes_of_actsOn (Edit.actsOn_withinMap "paths" _) (by decide)
          (by decide)).keeps_met
    | security edit =>
        obtain rfl := Option.some.inj he
        exact editSecurity_keeps_met fun name heq =>
          hcommand name (congrArg Command.security heq)
    | schemas edit =>
        obtain rfl := Option.some.inj he
        exact (editSchemas_keepsSchemes edit).keeps_met

/-- If a command asks for a scheme, then for one that the document has, or
nothing changes. -/
def AsksForDefined (state : State Unit) (command : Command Unit) : Prop :=
  ∀ name, command = .security (.toggleGlobal name true) →
    state.apply command = .ok state ∨ ∃ ms, state.document = .object ms ∧
      Defines ms name

/-- A command that brings in no document and asks for no scheme keeps the requirements
of a state met. -/
theorem apply_met {state next : State Unit} {command : Command Unit}
    (hdocument : ∀ document, command ≠ .setDocument document)
    (hcommand : ∀ name, command ≠ .security (.toggleGlobal name true))
    (hstate : StateRequirementsMet state)
    (h : state.apply command = .ok next) : StateRequirementsMet next := by
  cases hedit : editOf command with
  | some e =>
      rcases apply_cases_of_editOf hedit h with rfl | ⟨ms, ns, hms, hns, rfl⟩
      · exact hstate
      · have hmet := hstate.document
        rw [hms] at hmet
        exact ⟨keeps_met_of_editOf hcommand hedit ms ns hmet hns, hstate.snapshot⟩
  | none =>
      cases command with
      | setDocument document => exact absurd rfl (hdocument document)
      | saveSnapshot =>
          obtain rfl := Except.ok.inj h
          refine ⟨hstate.document, ?_⟩
          rintro v hv
          obtain rfl := Option.some.inj hv
          exact hstate.document
      | undo =>
          change state.goBack .plain = .ok next at h
          unfold State.goBack at h
          split at h
          · rename_i v hsnapshot
            obtain ⟨completed, hcompleted, h⟩ := bind_eq_ok.mp h
            obtain rfl := Except.ok.inj h
            exact ⟨complete_met (hstate.snapshot v hsnapshot) hcompleted,
              hstate.snapshot⟩
          · obtain rfl := Except.ok.inj h
            exact hstate
      | loadSample =>
          obtain rfl := Except.ok.inj h
          exact ⟨requirementsMet_sample, hstate.snapshot⟩
      | reset =>
          obtain rfl := Except.ok.inj h
          exact ⟨requirementsMet_template, hstate.snapshot⟩
      | _ =>
          unfold editOf at hedit
          split at hedit <;> contradiction

/-- Asking for a scheme keeps the requirements of a state met exactly if the scheme is
there, or nothing changes. -/
private theorem apply_toggle_met_iff
    {state next : State Unit} {name : String} (hstate : StateRequirementsMet state)
    (h : state.apply (.security (.toggleGlobal name true)) = .ok next) :
    StateRequirementsMet next ↔
      next = state ∨ ∃ ms, state.document = .object ms ∧ Defines ms name := by
  rcases State.edit_cases (e := requireScheme name) h with rfl | ⟨ms, ns, hms, hns, rfl⟩
  · exact iff_of_true hstate (.inl rfl)
  · have hmet := hstate.document
    rw [hms] at hmet
    constructor
    · intro hnext
      exact .inr ⟨ms, hms, (requireScheme_met_iff hmet hns).mp hnext.document⟩
    · rintro (heq | ⟨ms', hms', hname⟩)
      · rwa [heq]
      · obtain rfl := (Tree.marked.inj (hms.symm.trans hms')).2
        exact ⟨(requireScheme_met_iff hmet hns).mpr hname, hstate.snapshot⟩

/-- A command that brings in no document keeps the requirements of a state met exactly
if it asks for no scheme that is not there. -/
theorem apply_met_iff {state next : State Unit} {command : Command Unit}
    (hcommand : ∀ document, command ≠ .setDocument document)
    (hstate : StateRequirementsMet state)
    (h : state.apply command = .ok next) : StateRequirementsMet next ↔
      AsksForDefined state command := by
  by_cases hasks : ∃ name, command = .security (.toggleGlobal name true)
  · obtain ⟨name, rfl⟩ := hasks
    rw [apply_toggle_met_iff hstate h, AsksForDefined, h, Except.ok.injEq]
    constructor
    · intro hdefined other heq
      obtain rfl : name = other := by simpa using heq
      exact hdefined
    · exact fun hdefined => hdefined name rfl
  · have hasks := not_exists.mp hasks
    exact iff_of_true (apply_met hcommand hasks hstate h) fun name heq =>
      absurd heq (hasks name)

/-- From a state whose requirements are met, every state that a run passes through has
its requirements met exactly if no command of the run asks for a scheme that is not
there at that moment. -/
theorem requirementsMet_throughout_iff {state last : State Unit}
    {commands : List (Command Unit)} (hstate : StateRequirementsMet state)
    (hcommands : ∀ document, Command.setDocument document ∉ commands)
    (hrun : state.applyAll commands = .ok last) :
    (∀ n reached, state.applyAll (commands.take n) = .ok reached →
      StateRequirementsMet reached) ↔
      ∀ n reached command, state.applyAll (commands.take n) = .ok reached →
        commands[n]? = some command →
        AsksForDefined reached command := by
  induction commands generalizing state with
  | nil =>
      refine iff_of_true (fun n reached h => ?_) (by simp)
      rw [List.take_nil] at h
      exact Except.ok.inj h ▸ hstate
  | cons command rest ih =>
      obtain ⟨next, hnext, hrest⟩ := bind_eq_ok.mp hrun
      have hstep := apply_met_iff
        (fun document heq => hcommands document (by simp [heq])) hstate hnext
      have hrun' : ∀ n, state.applyAll ((command :: rest).take (n + 1)) =
          next.applyAll (rest.take n) := by
        intro n
        rw [List.take_succ_cons, State.applyAll, List.foldlM_cons, hnext, ok_bind]
        rfl
      constructor
      · intro hmet n reached asked hreached hasked
        have hnextMet : StateRequirementsMet next := hmet 1 next (by rw [hrun' 0]; rfl)
        cases n with
        | zero =>
            obtain rfl := Except.ok.inj hreached
            obtain rfl := Option.some.inj hasked
            exact hstep.mp hnextMet
        | succ n =>
            refine (ih hnextMet (fun document hmem => hcommands document
              (by simp [hmem])) hrest).mp ?_ n reached asked (hrun' n ▸ hreached) hasked
            exact fun n reached h => hmet (n + 1) reached (hrun' n ▸ h)
      · intro hasks n reached hreached
        cases n with
        | zero => exact Except.ok.inj hreached ▸ hstate
        | succ n =>
            have hnextMet := hstep.mpr (hasks 0 state command rfl rfl)
            refine (ih hnextMet (fun document hmem => hcommands document
              (by simp [hmem])) hrest).mpr ?_ n reached (hrun' n ▸ hreached)
            exact fun n reached asked h hasked =>
              hasks (n + 1) reached asked (hrun' n ▸ h) hasked

/-- In the sample a scheme is asked for, renamed in the document that is remembered,
taken away, and brought back. -/
theorem requirementsMet_throughout_iff_of_sample :
    ∃ commands last, commands =
      [.security (.toggleGlobal "api_key" true), .saveSnapshot,
      .security (.rename "api_key" "key"), .security (.remove "key"), .undo] ∧
      State.initial.applyAll commands = .ok last ∧ StateRequirementsMet State.initial ∧
      ∀ n reached, State.initial.applyAll (commands.take n) = .ok reached →
        StateRequirementsMet reached := by
  have hsample : StateRequirementsMet State.initial :=
    ⟨requirementsMet_sample, fun v hv => nomatch hv⟩
  obtain ⟨last, hrun⟩ : ∃ last,
      State.initial.applyAll [.security (.toggleGlobal "api_key" true), .saveSnapshot,
      .security (.rename "api_key" "key"), .security (.remove "key"), .undo] =
      .ok last := ⟨_, rfl⟩
  refine ⟨_, last, rfl, hrun, hsample,
    (requirementsMet_throughout_iff hsample (by simp) hrun).mpr ?_⟩
  rintro n reached _ hreached hcommand name rfl
  match n with
  | 0 =>
      obtain rfl : "api_key" = name := by simpa using hcommand
      obtain rfl := Except.ok.inj hreached
      exact .inr ⟨_, rfl, _, _, rfl, rfl, by decide⟩
  | 1 | 2 | 3 | 4 | n + 5 => simp at hcommand

/-- In a new document a scheme may be asked for that is not there. -/
theorem requirement_not_met :
    ∃ next, (State.ofDocument Template.document).apply
      (.security (.toggleGlobal "missing" true)) = .ok next ∧
      StateRequirementsMet (State.ofDocument Template.document) ∧
        ¬ StateRequirementsMet next := by
  have htemplate : StateRequirementsMet (State.ofDocument Template.document) :=
    ⟨requirementsMet_template, fun v hv => nomatch hv⟩
  refine ⟨_, rfl, htemplate, fun hnext => ?_⟩
  obtain ⟨components, schemes, hcomponents, hschemes, hname⟩ :=
    hnext.document (.str "missing") ⟨_, [(.str "missing", .list [])],
      rfl, by simp [Tree.record], by decide⟩
  obtain rfl := (Tree.marked.inj (Option.some.inj hcomponents)).2
  obtain rfl := (Tree.marked.inj (Option.some.inj hschemes)).2
  simp [contains] at hname

end ApiWorkbench.Editor
