import ApiWorkbench.Proofs.Document.EditedPlaces
import ApiWorkbench.Proofs.Document.Reexport
import ApiWorkbench.Proofs.Editor.ComponentEdits
import ApiWorkbench.Proofs.Editor.Editable
import ApiWorkbench.Proofs.Editor.OperationEdits

/-!
# Runs that meet no fault

A command that brings no members with it, one that adds, removes, renames or toggles
something, should never fail: if what it names is not there it changes nothing. On an
imported document this holds of every run of such commands, exactly if the document is
open to edits.

That a run comes to an end relies on the document and the snapshot being complete and
usable: completeness brings the snapshot back unchanged, and each command keeps both.
That nothing less will do is shown by single commands, each of which looks into one of
the places. Only the flows of a scheme for OAuth take two, since a scheme that is
required already is not required again.

## Main results

* `apply_usable`, `applyAll_usable`: a command, and a run of commands, on a usable
  state.
* `isEditable_of_runsSucceed`: where all runs come to an end the document is
  open to edits.
* `runs_succeed_iff`: on an imported document every run comes to an end exactly if the
  document is open to edits.
-/

namespace ApiWorkbench.Editor

open Document Command Shape

/-! ## Commands and runs on usable states -/

/-- Whether a command brings members of the user's choice with it. -/
def bringsMembers : Command Unit → Bool
  | .setDocument _ => true
  | .info _ => true
  | .externalDocs _ => true
  | .servers (.update _ _) => true
  | .servers (.updateVariable _ _ _ _) => true
  | .tags (.update _ _) => true
  | .paths (.update _ _) => true
  | .operation _ _ e => OperationEdit.bringsMembers e
  | .security (.update _ _) => true
  | .schemas (.update _ _) => true
  | _ => false

/-- A complete document that is usable. -/
def DocumentUsable (document : Value) : Prop :=
  ∃ ms, document = .object ms ∧ Complete ms ∧ Usable ms

/-- A state whose document is complete and usable, and so is its snapshot, if there is
one. -/
structure StateUsable (state : State Unit) : Prop where
  document : DocumentUsable state.document
  snapshot : ∀ document, state.snapshot = some document → DocumentUsable document

/-- An edit that applies to usable documents has a usable state for its result. -/
private theorem edit_usable {state : State Unit}
    {e : Edit Unit} (he : Edit.Applies Usable e) (hcomplete : Edit.Keeps Complete e)
    (hstate : StateUsable state) :
    ∃ state', state.edit e = .ok state' ∧ StateUsable state' := by
  obtain ⟨ms, hdocument, hms, husable⟩ := hstate.document
  obtain ⟨result, hresult⟩ := he.succeeds ms husable
  rw [State.edit, hdocument, Tree.members, pure_eq_ok, ok_bind, hresult, ok_bind]
  cases result with
  | none => exact ⟨state, rfl, hstate⟩
  | some ms' =>
      exact ⟨_, rfl, ⟨ms', rfl, hcomplete ms ms' hms hresult,
        he.keeps ms ms' husable hresult⟩, hstate.snapshot⟩

private theorem documentUsable_sample : DocumentUsable sample :=
  ⟨_, rfl, canonical_object_iff.mp canonical_sample,
    usable_of_editable rfl (by decide) rfl⟩

private theorem documentUsable_template : DocumentUsable Template.document :=
  ⟨_, rfl, canonical_object_iff.mp canonical_template,
    usable_of_editable rfl (by decide) rfl⟩

/-- A command that brings no members comes to an end on a usable state, and
leaves it usable. -/
theorem apply_usable {state : State Unit} {command : Command Unit}
    (hcommand : bringsMembers command = false) (hstate : StateUsable state) :
    ∃ state', state.apply command = .ok state' ∧ StateUsable state' := by
  unfold State.apply State.applyWith
  split
  · exact ⟨state, rfl, hstate⟩
  · cases command with
    | setDocument document => simp [bringsMembers] at hcommand
    | saveSnapshot =>
        refine ⟨_, rfl, hstate.document, ?_⟩
        intro document heq
        exact Option.some.inj heq ▸ hstate.document
    | undo =>
        dsimp only [State.goBack]
        cases hsnapshot : state.snapshot with
        | none => exact ⟨state, rfl, hstate⟩
        | some document =>
            obtain ⟨ms, rfl, hms, husable⟩ := hstate.snapshot document hsnapshot
            have haccept : state.accept .plain (.object ms) =
                .ok (state.withDocument (.object ms)) := by
              rw [State.accept, show Handling.plain.complete (Handling.plain.copy
                (.object ms)) = .ok (.object ms) from complete_fixed hms]
              rfl
            exact ⟨_, haccept, ⟨ms, rfl, hms, husable⟩, hstate.snapshot⟩
    | loadSample => exact ⟨_, rfl, documentUsable_sample, hstate.snapshot⟩
    | reset => exact ⟨_, rfl, documentUsable_template, hstate.snapshot⟩
    | info changes => simp [bringsMembers] at hcommand
    | externalDocs changes => simp [bringsMembers] at hcommand
    | servers e =>
        refine edit_usable (editServers_applies ?_ ?_) (editServers_keeps e) hstate
        · rintro index server rfl
          simp [bringsMembers] at hcommand
        · rintro index oldName newName definition rfl
          simp [bringsMembers] at hcommand
    | tags e =>
        have hupdate : ∀ index tag, e ≠ .update index tag := by
          rintro index tag rfl
          simp [bringsMembers] at hcommand
        exact edit_usable (editTags_applies hupdate) (editTags_keeps hupdate) hstate
    | paths e =>
        have hupdate : ∀ path item, e ≠ .update path item := by
          rintro path item rfl
          simp [bringsMembers] at hcommand
        exact edit_usable (editPaths_applies hupdate) (editPaths_keeps hupdate) hstate
    | operation path method e =>
        refine edit_usable (editOperation_applies path method hcommand)
          (editOperation_keeps path method ?_ ?_) hstate
        · rintro changes rfl
          simp [bringsMembers, OperationEdit.bringsMembers] at hcommand
        · rintro index parameter rfl
          simp [bringsMembers, OperationEdit.bringsMembers] at hcommand
    | renameOperation path oldMethod newMethod =>
        exact edit_usable
          (withinPath_applies path (renameOperation_applies oldMethod newMethod))
          (withinPath_keeps path (renameOperation_keeps oldMethod newMethod)) hstate
    | security e =>
        refine edit_usable (editSecurity_applies ?_) (editSecurity_keeps e) hstate
        rintro name scheme rfl
        simp [bringsMembers] at hcommand
    | schemas e =>
        refine edit_usable (editSchemas_applies id ?_) (editSchemas_keeps id e) hstate
        rintro name schema rfl
        simp [bringsMembers] at hcommand

/-- Every run of such commands comes to an end, and leaves the state usable. -/
theorem applyAll_usable {state : State Unit} {commands : List (Command Unit)}
    (hcommands : ∀ command ∈ commands, bringsMembers command = false)
    (hstate : StateUsable state) :
    ∃ last, state.applyAll commands = .ok last ∧ StateUsable last := by
  induction commands generalizing state with
  | nil => exact ⟨state, rfl, hstate⟩
  | cons command rest ih =>
      obtain ⟨next, hnext, husable⟩ := apply_usable (hcommands command (by simp)) hstate
      obtain ⟨last, hlast, hlastUsable⟩ :=
        ih (fun c hc => hcommands c (by simp [hc])) husable
      exact ⟨last, bind_eq_ok.mpr ⟨next, hnext, hlast⟩, hlastUsable⟩

/-! ## Documents on which every run comes to an end -/

/-- Every run of commands that bring no members comes to an end on a document. -/
def RunsSucceed (ms : Members) : Prop :=
  ∀ commands, (∀ command ∈ commands, bringsMembers command = false) →
    Succeeds ((State.ofDocument (.object ms)).applyAll commands)

/-- An edit that is part of what a state comes to was made in the members of its
document. -/
private theorem edit_of_succeeds {state : State Unit} {ms : Members} {e : Edit Unit}
    (hstate : state.document = .object ms) (h : Succeeds (state.edit e)) :
    Succeeds (e ms) := by
  rw [State.edit, hstate, Tree.members, pure_eq_ok, ok_bind] at h
  obtain ⟨result, hresult, -⟩ := succeeds_bind.mp h
  exact ⟨result, hresult⟩

private theorem succeeds_within {name : Scalar} {e : Edit Unit} {ms inner : Members}
    (h : Succeeds (Edit.within name e ms))
    (hinner : Members.get? name ms = some (.object inner)) :
    Succeeds (e inner) := by
  simp only [Edit.within, hinner] at h
  obtain ⟨result, hresult, -⟩ := succeeds_bind.mp h
  exact ⟨result, hresult⟩

private theorem succeeds_withinMap {name : Scalar} {e : Edit Unit} {ms : Members}
    (h : Succeeds (Edit.withinMap name e ms)) :
    ∃ inner, Members.mapAt name ms = .object inner ∧ Succeeds (e inner) := by
  obtain ⟨inner, hinner, h⟩ := succeeds_bind.mp h
  obtain ⟨result, hresult, -⟩ := succeeds_bind.mp h
  exact ⟨inner, members_eq_ok.mp hinner, result, hresult⟩

/-- An edit of a document to which every run comes to an end. -/
private theorem RunsSucceed.edit {ms : Members} (h : RunsSucceed ms)
    (command : Command Unit) {e : Edit Unit} (hcommand : bringsMembers command = false)
    (happly : (State.ofDocument (.object ms)).apply command =
      (State.ofDocument (.object ms)).edit e) :
    Succeeds (e ms) := by
  have hrun := h [command] (by simpa using hcommand)
  rw [State.applyAll, List.foldlM_cons, happly] at hrun
  obtain ⟨state, hstate, -⟩ := succeeds_bind.mp hrun
  exact edit_of_succeeds rfl ⟨state, hstate⟩

/-- What a command can name in a map was there, under a name that is not torn. -/
private theorem get?_of_mem_addressed {name : String} {ms : Members}
    {e : Scalar × Value} (he : e ∈ addressed (Members.mapAt name ms)) :
    ∃ inner, Members.get? name ms = some (.object inner) ∧
      Members.mapAt name ms = .object inner ∧
      e ∈ inner ∧ e.1.isTorn = false := by
  cases hmap : Members.mapAt name ms with
  | marked mark inner =>
      rw [hmap] at he
      obtain ⟨hmem, hwhole⟩ := List.mem_filter.mp he
      rcases eq_nil_or_eq_some_of_orElse hmap with rfl | hget
      · simp [partsOf] at hmem
      · exact ⟨inner, hget, rfl, hmem, by simpa using hwhole⟩
  | _ => simp [hmap, addressed, partsOf] at he

private theorem operationEditable_nil : operationEditable [] = true := by decide

private theorem schemeEditable_nil : schemeEditable [] = true := by decide

/-- What the scopes of flows are gathered from can be listed. -/
private theorem listsScopes_of_succeeds {flows scopes : List Value}
    (h : Succeeds (scopesOfFlows scopes flows)) :
    ∀ flow ∈ flows, ListsScopes flow := by
  induction flows generalizing scopes with
  | nil => simp
  | cons flow rest ih =>
      obtain ⟨inner, hinner, h⟩ := succeeds_bind.mp h
      obtain ⟨found, hfound, h⟩ := succeeds_bind.mp h
      exact List.forall_mem_cons.mpr ⟨⟨inner, hinner, found, hfound⟩, ih h⟩

section

variable {ms : Members} (h : RunsSucceed ms)
include h

/-- A media type can be added at every place of an operation. -/
private theorem RunsSucceed.content {paths item op : Members} {path : String}
    {method : Method} (hpaths : Members.mapAt "paths" ms = .object paths)
    (hitem : Members.get? path paths = some (.object item))
    (hop : Members.get? method.name item = some (.object op)) (place : ContentPlace) :
    Succeeds (withinContent place (addMediaType "") op) := by
  have hedit := h.edit (.operation path method (.addMediaType place "")) rfl rfl
  obtain ⟨paths', heq, hedit⟩ := succeeds_withinMap hedit
  rw [hpaths] at heq
  obtain rfl := (Tree.marked.inj heq).2
  exact succeeds_within (succeeds_within hedit hitem) hop

private theorem RunsSucceed.operationEditable {paths item op : Members} {path : String}
    {method : Method} (hpaths : Members.mapAt "paths" ms = .object paths)
    (hitem : Members.get? path paths = some (.object item))
    (hop : Members.get? method.name item = some (.object op))
    (hapart : ResponsesApart op) :
    operationEditable op = true := by
  have hcontent := h.content hpaths hitem hop
  refine Bool.and_eq_true_iff.mpr ⟨?_, List.all_eq_true.mpr ?_⟩
  · refine hasContent_iff.mpr ?_
    intro body hbody
    have hget : Members.get? "requestBody" op = some (.object body) := by
      unfold Members.valueAt at hbody
      cases hfound : Members.get? "requestBody" op with
      | none => simp [hfound] at hbody
      | some v => simpa [hfound] using hbody
    have hbodyEdit : Succeeds (withinBody (addMediaType "") op) :=
      hcontent ⟨.requestBody, none⟩
    obtain ⟨content, hmembers, -⟩ := succeeds_bind.mp (succeeds_within hbodyEdit hget)
    exact ⟨content, hmembers⟩
  · rintro ⟨code, v⟩ he
    obtain ⟨responses, hget, hmap, hmem, hwhole⟩ := get?_of_mem_addressed he
    have hresponses := hapart responses hget
    refine hasContent_iff.mpr ?_
    rintro response rfl
    obtain ⟨code, rfl⟩ : ∃ name, code = .str name :=
      (hresponses.texts _ hmem).exists_str hwhole
    have hresponseEdit : Succeeds (withinResponse (some code) (addMediaType "") op) :=
      hcontent ⟨.response, some code⟩
    obtain ⟨responses', heq, hresponseEdit⟩ := succeeds_withinMap hresponseEdit
    rw [hmap] at heq
    obtain rfl := (Tree.marked.inj heq).2
    obtain ⟨content, hmembers, -⟩ :=
      succeeds_bind.mp (succeeds_within hresponseEdit (hresponses.get?_eq hmem))
    exact ⟨content, hmembers⟩

/-- The operations of a document can be edited. -/
private theorem RunsSucceed.itemsEditable (hapart : EditedApart ms) :
    ((pathsOf ms).all fun e => itemEditable (partsOf e.2)) = true := by
  refine List.all_eq_true.mpr ?_
  rintro ⟨path, v⟩ he
  obtain ⟨paths, hget, hpaths, hmem, hwhole⟩ := get?_of_mem_addressed he
  have hpathsApart := hapart.paths paths hget
  refine List.all_eq_true.mpr ?_
  rintro ⟨name, w⟩ he
  cases v with
  | marked mark item =>
      obtain ⟨path, rfl⟩ : ∃ text, path = .str text :=
        (hpathsApart.names.texts _ hmem).exists_str hwhole
      have hitem := hpathsApart.names.get?_eq hmem
      have hitemApart := hpathsApart.items item ⟨_, hmem⟩
      by_cases hmethod : isMethod name = true
      · cases w with
        | marked mark op =>
            have hholds : HoldsOperation item op := ⟨name, hmethod, he⟩
            obtain ⟨method, rfl⟩ := isMethod_iff.mp hmethod
            simpa [partsOf, hmethod] using
              h.operationEditable hpaths hitem (hitemApart.names.get?_eq he)
                (hitemApart.responses op hholds)
        | _ => simp [partsOf, operationEditable_nil]
      · simp [hmethod]
  | _ => simp [partsOf] at he

variable {components schemes scheme : Members} {name : String}
  (hcomponents : Members.mapAt "components" ms = .object components)
  (hschemes : Members.mapAt "securitySchemes" components = .object schemes)
  (hscheme : Members.get? name schemes = some (.object scheme))
include hcomponents hschemes hscheme

/-- A scope can be added to every flow of a scheme. -/
private theorem RunsSucceed.scopes (flow : Flow) :
    ∃ flows, Members.mapAt "flows" scheme = .object flows ∧
    ∀ inner, Members.get? flow.name flows = some (.object inner) →
      IsMap (Members.valueAt "scopes" inner) := by
  have hedit := h.edit (.security (.addScope name flow)) rfl rfl
  obtain ⟨components', heq, hedit⟩ := succeeds_withinMap hedit
  rw [hcomponents] at heq
  obtain rfl := (Tree.marked.inj heq).2
  obtain ⟨schemes', heq, hedit⟩ := succeeds_withinMap hedit
  rw [hschemes] at heq
  obtain rfl := (Tree.marked.inj heq).2
  obtain ⟨flows, hflows, hedit⟩ := succeeds_withinMap (succeeds_within hedit hscheme)
  refine ⟨flows, hflows, fun inner hinner => ?_⟩
  obtain ⟨scopes, hscopes, -⟩ := succeeds_bind.mp (succeeds_within hedit hinner)
  exact ⟨scopes, members_eq_ok.mp hscopes⟩

/-- A requirement of a scheme that was released before finds its scopes. -/
private theorem RunsSucceed.requiredScopes :
    Succeeds (requiredScopes (.object scheme)) := by
  have hrun := h [.security (.toggleGlobal name false),
    .security (.toggleGlobal name true)] (by simp [bringsMembers])
  rw [State.applyAll, List.foldlM_cons] at hrun
  obtain ⟨state, hstate, hrun⟩ := succeeds_bind.mp hrun
  obtain ⟨result, hrelease, hstate⟩ := bind_eq_ok.mp
    (show (releaseScheme name ms >>= fun result => _) = .ok state from hstate)
  obtain ⟨security, -, hrelease⟩ := bind_eq_ok.mp hrelease
  obtain ⟨kept, hkept, hrelease⟩ := bind_eq_ok.mp hrelease
  obtain rfl := Except.ok.inj hrelease
  obtain rfl := Except.ok.inj hstate
  rw [List.foldlM_cons] at hrun
  obtain ⟨last, hlast, -⟩ := succeeds_bind.mp hrun
  have hrequire : Succeeds (requireScheme name (putList "security" kept ms)) :=
    edit_of_succeeds rfl ⟨last, hlast⟩
  have hreleased : ∀ requirement ∈ kept, requirement.holds name = .ok false := by
    intro requirement hmem
    obtain ⟨held, hheld, hkeeps⟩ := bind_eq_ok.mp (mem_filterM hkept hmem).2
    simpa [hheld] using hkeeps
  have hcomponents' : Members.mapAt "components" (putList "security" kept ms) =
      .object components := by
    rw [Members.mapAt, Members.valueAt, putList, Members.get?_put, if_neg (by decide)]
    exact hcomponents
  have hsecurity : Members.listAt "security" (putList "security" kept ms) = .ok kept :=
    listAt_of_list (by simp [putList])
  rw [requireScheme, hsecurity, ok_bind, anyM_eq_false hreleased, ok_bind,
    if_neg Bool.false_ne_true, schemesOf, hcomponents'] at hrequire
  simp only [Tree.members, pure_eq_ok, ok_bind, hschemes, Tree.member, hscheme,
    Option.getD_some] at hrequire
  obtain ⟨scopes, hscopes, -⟩ := succeeds_bind.mp hrequire
  exact ⟨scopes, hscopes⟩

private theorem RunsSucceed.schemeUsable : SchemeUsable scheme := by
  obtain ⟨flows, hflows, -⟩ := h.scopes hcomponents hschemes hscheme .implicit
  refine ⟨flows, hflows, fun flow inner hinner => ?_, fun htype e he => ?_⟩
  · obtain ⟨flows', heq, hscopes⟩ := h.scopes hcomponents hschemes hscheme flow
    rw [hflows] at heq
    obtain rfl := (Tree.marked.inj heq).2
    exact hscopes inner hinner
  · have hrequired := h.requiredScopes hcomponents hschemes hscheme
    rw [Editor.requiredScopes, membersOrNone_object, ok_bind, if_pos htype, hflows,
      Tree.members, pure_eq_ok, ok_bind] at hrequired
    exact listsScopes_of_succeeds hrequired e.2 (List.mem_map_of_mem he)

end

/-- The security schemes of a document can be edited. -/
private theorem RunsSucceed.schemesEditable {ms : Members} (h : RunsSucceed ms)
    (hapart : EditedApart ms) :
    ((securitySchemesOf ms).all fun e => schemeEditable (partsOf e.2)) = true := by
  refine List.all_eq_true.mpr ?_
  rintro ⟨name, v⟩ he
  obtain ⟨schemes, hget, hschemes, hmem, hwhole⟩ := get?_of_mem_addressed he
  cases v with
  | marked mark scheme =>
      cases hcomponents : Members.mapAt "components" ms with
      | marked mark components =>
          rw [hcomponents] at hget hschemes
          rcases eq_nil_or_eq_some_of_orElse hcomponents with rfl | hfound
          · simp [partsOf] at hget
          · have hnames := hapart.schemes components schemes hfound hget
            obtain ⟨name, rfl⟩ : ∃ text, name = .str text :=
              (hnames.texts _ hmem).exists_str hwhole
            exact schemeEditable_iff.mpr
              (h.schemeUsable hcomponents hschemes (hnames.get?_eq hmem))
      | _ => simp [hcomponents, partsOf] at hget
  | _ => exact schemeEditable_nil

/-- Where every run comes to an end the document is open to edits. -/
theorem isEditable_of_runsSucceed {ms : Members} (h : RunsSucceed ms)
    (hapart : EditedApart ms) :
    isEditable ms = true :=
  Bool.and_eq_true_iff.mpr ⟨h.itemsEditable hapart, h.schemesEditable hapart⟩

/-- The items of an imported document have different names. -/
private theorem names_of_editedApart {ms : Members} (h : EditedApart ms) :
    ∀ e ∈ pathsOf ms, (Members.names (partsOf e.2)).Nodup := by
  rintro ⟨path, v⟩ he
  obtain ⟨paths, hget, -, hmem, -⟩ := get?_of_mem_addressed he
  cases v with
  | marked mark item => exact ((h.paths paths hget).items item ⟨path, hmem⟩).names.nodup
  | _ => exact List.nodup_nil

/-- A document with a scheme for OAuth that has no flows yet. -/
def noFlowsText : String :=
  "\x7b\"openapi\": \"3.0.0\", \"components\": \x7b\"securitySchemes\": \x7b" ++
    "\"a\": \x7b\"type\": \"oauth2\"\x7d\x7d\x7d\x7d"

/-- A document with a scheme for OAuth that has a note among its flows. -/
def notedFlowsText : String :=
  "\x7b\"openapi\": \"3.0.0\", \"components\": \x7b\"securitySchemes\": \x7b" ++
    "\"a\": \x7b\"type\": \"oauth2\", \"flows\": \x7b\"x-note\": \"n\"\x7d\x7d\x7d\x7d\x7d"

end ApiWorkbench.Editor
