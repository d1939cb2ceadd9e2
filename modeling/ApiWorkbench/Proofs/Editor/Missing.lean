import ApiWorkbench.Proofs.Editor.Addresses
import ApiWorkbench.Proofs.Editor.EntryEdits

/-!
# Commands that name what is not there

A command that takes away, renames, copies or changes something names it by an address
in the document (`named?`). If nothing is there, the edit of nearly every command is
idle: it asks first whether there is anything to change. Six kinds of commands do not
ask. They put a list or a map together anew without what they take away, and what they
put differs from what was there in four cases only:

* tags that are not a list are replaced by an empty list,
* a server that is no object is replaced by one, and blank variables of a
  server disappear,
* an operation without responses gets the fallback response,
* requirements of a security scheme are dropped although there is no such scheme.

`Disturbs` says when one of these cases is met.

## Main results

* `run_editOperation_iff`, `run_editSecurity_iff` and the other lemmas of this form:
  what the edits of one section come to where nothing is there to be edited.
* `apply_missing_iff`: a command that names what is not there leaves the state exactly
  as it is, except in those cases.
* `missing_disturbed`: the four cases are met in canonical documents.
-/

namespace ApiWorkbench.Editor

open Address Command Document Members

/-! ## What commands name -/

/-- Where an operation is in a document. -/
def operationAddress (path : String) (method : Method) : Address :=
  [.part "paths", .entry path, .part method.name]

/-- Where the content that is edited is in an operation. -/
def contentAddress (place : ContentPlace) : Address :=
  match place.target with
  | .requestBody => [.part "requestBody", .part "content"]
  | .response =>
    let name : Scalar := match place.statusCode with
      | some code => .str code
      | none => .null
    [.part "responses", .entry name, .part "content"]

/-- What an edit of the servers names, if it changes or takes away something. -/
def namedServer? : ServerEdit Unit → Option Address
  | .update index _ | .remove index => some [.part "servers", .item index]
  | .removeVariable index name =>
      some [.part "servers", .item index, .entry "variables", .entry name]
  | .add | .addVariable .. | .updateVariable .. => none

/-- What an edit of the tags names. -/
def namedTag? : TagEdit Unit → Option Address
  | .update index _ | .remove index => some [.part "tags", .item index]
  | .add => none

/-- What an edit of the paths names. -/
def namedPath? : PathEdit Unit → Option Address
  | .rename path _ | .update path _ | .remove path | .duplicate path =>
      some [.part "paths", .entry path]
  | .add | .removeAll => none

/-- What an edit of an operation names in the operation; nothing more if it is the
operation itself. -/
def namedInOperation? : OperationEdit Unit → Option Address
  | .update _ | .remove => some []
  | .updateParameter index _ | .removeParameter index =>
      some [.part "parameters", .item index]
  | .removeResponse status | .renameResponse status _ =>
      some [.part "responses", .entry status]
  | .removeRequestBody => some [.part "requestBody"]
  | .renameMediaType place mediaType _ | .removeMediaType place mediaType =>
    some (contentAddress place ++ [.entry mediaType])
  | .renameCallback name _ | .removeCallback name | .duplicateCallback name =>
      some [.part "callbacks", .entry name]
  | .add | .addParameter | .addResponse _ | .updateResponse
      .. | .addRequestBody | .updateRequestBody _
  | .addMediaType .. | .addCallback => none

/-- What an edit of the security schemes names. -/
def namedScheme? : SecurityEdit Unit → Option Address
  | .remove name | .rename name _ =>
      some [.part "components", .entry "securitySchemes", .entry name]
  | .renameScope name flow scope _ _ | .removeScope name flow scope =>
    some [.part "components", .entry "securitySchemes", .entry name, .part "flows",
      .entry flow.name, .part "scopes", .entry scope]
  | .add | .update .. | .changeType .. | .toggleFlow .. | .addScope ..
  | .toggleGlobal .. => none

/-- What an edit of the schemas names. -/
def namedSchema? : SchemaEdit Unit → Option Address
  | .remove name | .rename name _ | .duplicate name =>
      some [.part "components", .entry "schemas", .entry name]
  | .add | .update .. => none

/-- What a command names that is to be changed, taken away, renamed or copied. -/
def named? : Command Unit → Option Address
  | .servers e => namedServer? e
  | .tags e => namedTag? e
  | .paths e => namedPath? e
  | .operation path method e =>
      (namedInOperation? e).map (operationAddress path method ++ ·)
  | .renameOperation path method _ => some (operationAddress path method)
  | .security e => namedScheme? e
  | .schemas e => namedSchema? e
  | .setDocument _ | .saveSnapshot | .undo | .loadSample | .reset | .info _
  | .externalDocs _ => none

/-- The cases in which a command changes the document although what it names is not
there. -/
def Disturbs (document : Value) : Command Unit → Prop
  | .tags (.remove _) => ¬ ∃ tags, find? [.part "tags"] document = some (.list tags)
  | .servers (.removeVariable index _) =>
    ∃ server, find? [.part "servers", .item index] document = some server ∧
      ∀ ms, server = .object ms → ∃ v, get? "variables" ms = some v ∧ v.isBlank = true
  | .operation path method (.removeResponse _) =>
    ∃ op, find? (operationAddress path method) document = some (.object op) ∧
      (valueAt "responses" op).isBlank = true
  | .security (.remove name) =>
    ¬ ∃ requirements, find? [.part "security"] document = some (.list requirements) ∧
      ∀ requirement ∈ requirements, requirement.holds name = .ok false
  | _ => False

section

variable {address rest : Address} {ms op : Members} {e : Edit Unit} {path name : String}
  {method : Method}

theorem find?_part (name : Scalar) (ms : Members) :
    find? [.part name] (.object ms) = get? name ms := by
  rw [find?, Step.into?_object rfl]
  cases get? name ms <;> rfl

theorem Edit.Idle.run_iff {P : Prop} (h : e.Idle address)
    (hmissing : find? address (.object ms) = none) (hfits : Fits address (.object ms))
    (hP : ¬ P) : e.run ms = .ok ms ↔ ¬ P :=
  iff_of_true (h.run_eq hmissing hfits) hP

/-! ## Tags and servers -/

theorem run_editTags_iff {e : TagEdit Unit} (hnamed : namedTag? e = some address)
    (hmissing : find? address (.object ms) = none) (hfits : Fits address (.object ms)) :
    (editTags e).run ms = .ok ms ↔ ¬ Disturbs (.object ms) (.tags e) := by
  cases e with
  | add => simp [namedTag?] at hnamed
  | update index tag =>
      obtain rfl := Option.some.inj hnamed
      exact (Edit.idle_replaceItem rfl _).run_iff hmissing hfits id
  | remove index =>
      obtain rfl := Option.some.inj hnamed
      simp only [editTags, Disturbs, not_not, find?_part]
      exact Edit.run_removeItem_iff rfl hmissing hfits

/-- The servers of a complete document that an address fits are a list. -/
theorem servers_of_complete {index : Int} (hms : Complete ms)
    (hfits : Fits (.part "servers" :: .item index :: rest) (.object ms)) :
    ∃ servers, get? "servers" ms = some (.list servers) := by
  obtain ⟨v, hget, hblank⟩ := hms.servers
  rcases (hfits.2 v hget).1 with h | ⟨servers, rfl⟩
  · exact ⟨[], by rw [hget, hblank h]⟩
  · exact ⟨servers, hget⟩

/-- Taking away a variable that is not there makes an object of a server, without its
variables if they are blank. -/
theorem editVariables_erase_object {server : Members}
    (hmissing : find? [.entry "variables", .entry name] (.object server) = none)
    (hfits : Fits [.entry "variables", .entry name] (.object server)) :
    editVariables (erase name) (.object server) = .ok (.object server) ↔
      ∀ v, get? "variables" server = some v → v.isBlank = false := by
  obtain ⟨definitions, hmap, hname, -⟩ := exists_mapAt rfl hmissing hfits
  have herase : erase name definitions = definitions :=
    erase_of_absent ((find?_part _ _).symm.trans hname)
  have hresult : editVariables (erase name) (.object server) =
      .ok (.object (putUnlessEmpty "variables" definitions server)) := by
    rw [editVariables, Tree.toMembers, pure_eq_ok, ok_bind, hmap, Tree.toMembers,
      pure_eq_ok, ok_bind, herase]
    rfl
  rw [hresult, Except.ok.injEq, Tree.marked.injEq, eq_self_iff_true, true_and]
  rw [mapAt, valueAt] at hmap
  cases hget : get? "variables" server with
  | none =>
      rw [hget] at hmap
      obtain rfl : [] = definitions := (Tree.marked.inj hmap).2
      simpa [putUnlessEmpty] using erase_of_absent hget
  | some v =>
      rw [hget, Option.getD_some, Tree.orElse] at hmap
      by_cases hblank : v.isBlank = true
      · rw [if_pos hblank] at hmap
        obtain rfl : [] = definitions := (Tree.marked.inj hmap).2
        refine iff_of_false (fun heq => ?_) (fun h => by simp [hblank] at h)
        have hgone : get? "variables" (erase "variables" server) = none := by simp
        rw [show erase "variables" server = server from heq, hget] at hgone
        contradiction
      · rw [if_neg hblank] at hmap
        subst hmap
        have hnonempty : definitions.isEmpty = false := by
          simpa [Tree.isBlank] using hblank
        rw [putUnlessEmpty, hnonempty, if_neg Bool.false_ne_true]
        refine iff_of_true (put_of_get? hget) (fun w hw => ?_)
        obtain rfl := Option.some.inj hw
        simpa using hblank

/-- Taking a variable that is not there away from a server makes an object of the
server. -/
theorem editVariables_erase_iff
    {server : Value} (hmissing : find? [.entry "variables", .entry name] server = none)
    (hfits : Fits [.entry "variables", .entry name] server) :
    editVariables (erase name) server = .ok server ↔
      ∃ ms, server = .object ms ∧ ∀ v, get? "variables" ms = some v →
        v.isBlank = false := by
  constructor
  · intro h
    obtain ⟨ms, rfl⟩ : ∃ ms, server = .object ms := by
      obtain ⟨ms, -, h⟩ := bind_eq_ok.mp h
      obtain ⟨definitions, -, h⟩ := bind_eq_ok.mp h
      exact ⟨_, (Except.ok.inj h).symm⟩
    exact ⟨ms, rfl, (editVariables_erase_object hmissing hfits).mp h⟩
  · rintro ⟨ms, rfl, hvariables⟩
    exact (editVariables_erase_object hmissing hfits).mpr hvariables

/-- Changing the variables of a server that is there changes nothing exactly if the
server stays the same. -/
theorem run_editServerVariables_iff {edit : Members → Members} {index : Int}
    {i : Nat} {servers : List Value}
    {server : Value} (hservers : get? "servers" ms = some (.list servers))
    (hposition : position? index servers = some i)
    (hserver : servers[i]? = some server) :
    (editServerVariables index edit).run ms = .ok ms ↔
      editVariables edit server = .ok server := by
  have hstart : (editServerVariables index edit).run ms =
      (fun changed => putList "servers" (servers.set i changed) ms) <$>
        editVariables edit server := by
    rw [Edit.run, editServerVariables, listAt_of_list hservers, ok_bind, hposition]
    dsimp only
    rw [List.getD_eq_getElem?_getD, hserver, Option.getD_some]
    cases editVariables edit server <;> rfl
  rw [hstart, map_eq_ok]
  have hput (changed : Value) : putList "servers" (servers.set i changed) ms = ms ↔
      changed = server := by
    obtain ⟨hi, rfl⟩ := List.getElem?_eq_some_iff.mp hserver
    rw [putList, put_eq_self_iff, hservers, Option.some.injEq, Tree.list.injEq]
    constructor
    · intro heq
      have hitem : servers[i]? = (servers.set i changed)[i]? := congrArg (·[i]?) heq
      simpa [hi] using hitem.symm
    · rintro rfl
      exact (List.set_getElem_self hi).symm
  simp only [hput, exists_eq_right]

theorem run_editServers_iff {e : ServerEdit Unit}
    (hnamed : namedServer? e = some address) (hms : Complete ms)
    (hmissing : find? address (.object ms) = none) (hfits : Fits address (.object ms)) :
    (editServers e).run ms = .ok ms ↔ ¬ Disturbs (.object ms) (.servers e) := by
  cases e with
  | add | addVariable | updateVariable => simp [namedServer?] at hnamed
  | update index server =>
      obtain rfl := Option.some.inj hnamed
      exact (Edit.idle_replaceItem rfl _).run_iff hmissing hfits id
  | remove index =>
      obtain rfl := Option.some.inj hnamed
      exact iff_of_true ((Edit.run_removeItem_iff rfl hmissing hfits).mpr
        (servers_of_complete hms hfits)) id
  | removeVariable index name =>
      obtain rfl := Option.some.inj hnamed
      obtain ⟨servers, hservers⟩ := servers_of_complete hms hfits
      have hitem : find? [.part "servers", .item index] (.object ms) =
          (position? index servers).bind fun i => servers[i]? := by
        simp [find?, Step.into?, hservers]
      cases hserver : find? [.part "servers", .item index] (.object ms) with
      | none =>
          have hposition := position?_of_getElem?_eq_none (hitem.symm.trans hserver)
          refine iff_of_true ?_ (by simp [Disturbs, hserver])
          simp only [editServers, Edit.run, editServerVariables,
            listAt_of_list hservers, ok_bind, hposition]
          rfl
      | some server =>
          obtain ⟨i, hposition, hi⟩ :=
            Option.bind_eq_some_iff.mp (hitem.symm.trans hserver)
          have hinner : find? [.entry "variables", .entry name] server = none := by
            have happend := find?_append [.part "servers", .item index]
              [.entry "variables", .entry name] (.object ms)
            rw [hserver] at happend
            exact happend.symm.trans hmissing
          have hinnerFits : Fits [.entry "variables", .entry name] server :=
            Fits.of_find? (show Fits ([.part "servers", .item index] ++ _) _ from hfits)
              hserver
          simp only [editServers, Disturbs, hserver]
          rw [run_editServerVariables_iff hservers hposition hi,
            editVariables_erase_iff hinner hinnerFits]
          simp

/-! ## Paths -/

theorem idle_withinPath (h : e.Idle rest) :
    (withinPath path e).Idle (.part "paths" :: .entry path :: rest) :=
  .withinMap rfl (.within rfl h)

theorem idle_duplicatePath (path : String) :
    (duplicatePath id path).Idle [.part "paths", .entry path] := by
  intro ms hmissing hfits
  obtain ⟨paths, hmap, hpath, -⟩ := exists_mapAt rfl hmissing hfits
  rw [duplicatePath, hmap, Tree.holds, Tree.holds, Edit.contains_eq_false rfl hpath]
  cases contains newPath paths <;> rfl

theorem idle_renameOperation (oldMethod newMethod : Method) :
    (renameOperation oldMethod newMethod).Idle [.part oldMethod.name] := by
  intro item hmissing _
  rw [find?_part] at hmissing
  rw [renameOperation, hmissing]
  rfl

theorem run_editPaths {e : PathEdit Unit} (hnamed : namedPath? e = some address)
    (hmissing : find? address (.object ms) = none) (hfits : Fits address (.object ms)) :
    (editPaths id e).run ms = .ok ms := by
  cases e with
  | add | removeAll => simp [namedPath?] at hnamed
  | rename path newPath =>
      obtain rfl := Option.some.inj hnamed
      exact (Edit.idle_renameEntry rfl _).run_eq hmissing hfits
  | update path item =>
      obtain rfl := Option.some.inj hnamed
      exact (idle_withinPath (Edit.idle_nil _)).run_eq hmissing hfits
  | remove path =>
      obtain rfl := Option.some.inj hnamed
      exact (Edit.idle_removeEntry rfl).run_eq hmissing hfits
  | duplicate path =>
      obtain rfl := Option.some.inj hnamed
      exact (idle_duplicatePath path).run_eq hmissing hfits

/-! ## Operations -/

theorem idle_removeOperation (method : Method) :
    (removeOperation method).Idle [.part method.name] := by
  intro item hmissing _
  rw [removeOperation, Edit.contains_eq_false rfl hmissing]
  rfl

theorem idle_withinContent {place : ContentPlace} {k : Scalar} (h : e.Idle [.entry k]) :
    (withinContent place e).Idle (contentAddress place ++ [.entry k]) := by
  have hstep : (Step.part "content").name? = some (.str "content") := rfl
  unfold withinContent contentAddress
  cases place.target with
  | requestBody => exact .within rfl (Edit.Idle.withinMembers hstep h fun body => rfl)
  | response =>
      exact .withinMap
        rfl (.within rfl (Edit.Idle.withinMembers hstep h fun response => rfl))

theorem idle_renameMediaType (oldType newType : String) :
    (renameMediaType oldType newType).Idle [.entry oldType] := by
  intro content hmissing _
  rw [renameMediaType, Edit.contains_eq_false rfl hmissing]
  simp [Edit.nothing]

theorem idle_removeMediaType (target : Target) (mediaType : String) :
    (removeMediaType target mediaType).Idle [.entry mediaType] := by
  intro content hmissing _
  rw [removeMediaType, Edit.contains_eq_false rfl hmissing]
  rfl

theorem idle_renameCallback (oldName newName : String) :
    (renameCallback oldName newName).Idle [.entry oldName] := by
  intro callbacks hmissing _
  rw [renameCallback, Edit.contains_eq_false rfl hmissing]
  simp [Edit.nothing]

theorem idle_removeCallback (name : String) :
    (removeCallback name).Idle [.entry name] := by
  intro callbacks hmissing _
  rw [removeCallback, Edit.contains_eq_false rfl hmissing]
  rfl

theorem idle_duplicateCallback (name : String) :
    (duplicateCallback id name).Idle [.entry name] := by
  intro callbacks hmissing _
  have hget : get? (.str name) callbacks = none := by
    simpa [find?, Step.into?] using hmissing
  rw [duplicateCallback, hget]
  rfl

theorem idle_withinCallbacks (h : e.Idle [.entry name]) :
    (withinCallbacks e).Idle [.part "callbacks", .entry name] := by
  have hstep : (Step.part "callbacks").name? = some (.str "callbacks") := rfl
  exact Edit.Idle.withinMembers hstep h fun op => rfl

theorem idle_removeRequestBody :
    (editWithinOperation id .removeRequestBody).Idle [.part "requestBody"] := by
  intro op hmissing _
  dsimp only [editWithinOperation]
  rw [Edit.contains_eq_false rfl hmissing]
  rfl

/-- Most edits inside an operation are idle. -/
theorem idle_editWithinOperation {e : OperationEdit Unit}
    (hnamed : namedInOperation? e = some rest)
    (hparameter : ∀ index, e ≠ .removeParameter index)
    (hresponse : ∀ status, e ≠ .removeResponse status) :
    (editWithinOperation id e).Idle rest := by
  cases e with
  | update | remove =>
      obtain rfl := Option.some.inj hnamed
      exact Edit.idle_nil _
  | updateParameter =>
      obtain rfl := Option.some.inj hnamed
      exact Edit.idle_replaceItem rfl _
  | removeParameter index => exact absurd rfl (hparameter index)
  | removeResponse status => exact absurd rfl (hresponse status)
  | renameResponse =>
      obtain rfl := Option.some.inj hnamed
      exact Edit.idle_renameEntry rfl _
  | removeRequestBody =>
      obtain rfl := Option.some.inj hnamed
      exact idle_removeRequestBody
  | renameMediaType =>
      obtain rfl := Option.some.inj hnamed
      exact idle_withinContent (idle_renameMediaType _ _)
  | removeMediaType =>
      obtain rfl := Option.some.inj hnamed
      exact idle_withinContent (idle_removeMediaType _ _)
  | renameCallback =>
      obtain rfl := Option.some.inj hnamed
      exact idle_withinCallbacks (idle_renameCallback _ _)
  | removeCallback =>
      obtain rfl := Option.some.inj hnamed
      exact idle_withinCallbacks (idle_removeCallback _)
  | duplicateCallback =>
      obtain rfl := Option.some.inj hnamed
      exact idle_withinCallbacks (idle_duplicateCallback _)
  | _ => simp [namedInOperation?] at hnamed

/-- What is found at the place of an operation. -/
theorem find?_operationAddress
    {paths : Members} (hpaths : get? "paths" ms = some (.object paths)) (path : String)
    (method : Method) : find? (operationAddress path method) (.object ms) =
    (get? path paths).bind (find? [.part method.name]) := by
  simp [operationAddress, find?, Step.into?, hpaths]

/-- An edit inside an operation that is there changes nothing exactly if it changes
nothing in the operation. -/
theorem run_withinOperation_iff (hms : Complete ms)
    (hop : find? (operationAddress path method) (.object ms) = some (.object op)) :
    (withinPath path (.within method.name e)).run ms = .ok ms ↔ e.run op = .ok op := by
  obtain ⟨paths, hpaths, -⟩ := hms.paths
  rw [find?_operationAddress hpaths] at hop
  obtain ⟨v, hv, hop⟩ := Option.bind_eq_some_iff.mp hop
  cases v with
  | marked mark item =>
      rw [find?_part] at hop
      rw [withinPath, Edit.run_withinMap_iff hpaths, Edit.run_within_iff hv,
        Edit.run_within_iff hop]
  | _ => simp [find?, Step.into?] at hop

/-- An operation of a complete document that is found is complete. -/
theorem operationComplete_of_find? (hms : Complete ms)
    (hop : find? (operationAddress path method) (.object ms) = some (.object op)) :
    OperationComplete op := by
  obtain ⟨paths, hpaths, hcomplete⟩ := hms.paths
  rw [find?_operationAddress hpaths] at hop
  obtain ⟨v, hv, hop⟩ := Option.bind_eq_some_iff.mp hop
  cases v with
  | marked mark item =>
      rw [find?_part] at hop
      have hitem : PathComplete (.object item) :=
        (completePaths_iff.mp hcomplete).of_get? hv
      exact (hitem item rfl).operations.of_get? hop (isMethod_name method) op rfl
  | _ => simp [find?, Step.into?] at hop

/-- Taking away a parameter that is not there changes nothing in an operation
with parameters. -/
theorem run_removeParameter {index : Int} (hop : OperationComplete op)
    (hmissing : find? [.part "parameters", .item index] (.object op) = none)
    (hfits : Fits [.part "parameters", .item index] (.object op)) :
    (editWithinOperation id (.removeParameter index)).run op = .ok op := by
  obtain ⟨own, hown, -⟩ := hop.parameters
  exact (Edit.run_removeItem_iff rfl hmissing hfits).mpr ⟨own, hown⟩

/-- Taking away a response that is not there changes nothing exactly in an operation
with responses. -/
theorem run_removeResponse_iff {status : String}
    (hmissing : find? [.part "responses", .entry status] (.object op) = none)
    (hfits : Fits [.part "responses", .entry status] (.object op)) :
    (editWithinOperation id (.removeResponse status)).run op = .ok op ↔
      ¬ (valueAt "responses" op).isBlank = true := by
  obtain ⟨responses, hmap, hstatus, -⟩ := exists_mapAt rfl hmissing hfits
  have herase : erase status responses = responses :=
    erase_of_absent ((find?_part _ _).symm.trans hstatus)
  dsimp only [editWithinOperation]
  rw [Edit.run, removeResponse, hmap, Tree.members, pure_eq_ok, ok_bind, herase]
  dsimp only [Edit.changed]
  rw [pure_eq_ok, map_ok, Option.getD_some, Except.ok.injEq, put_eq_self_iff]
  rw [mapAt, Tree.orElse] at hmap
  by_cases hblank : (valueAt "responses" op).isBlank = true
  · rw [if_pos hblank] at hmap
    obtain rfl : [] = responses := (Tree.marked.inj hmap).2
    refine iff_of_false (fun hget => ?_) (not_not_intro hblank)
    rw [valueAt, hget] at hblank
    simp [Tree.isBlank] at hblank
  · rw [if_neg hblank] at hmap
    rw [hmap] at hblank
    have hnonempty : responses.isEmpty = false := by simpa [Tree.isBlank] using hblank
    refine iff_of_true ?_ (by rwa [hmap])
    rw [hnonempty, if_neg Bool.false_ne_true]
    cases hget : get? "responses" op with
    | none =>
        rw [valueAt, hget] at hmap
        simp at hmap
    | some v =>
        rw [valueAt, hget, Option.getD_some] at hmap
        rw [hmap]

/-- An edit inside an operation that is not there changes nothing. -/
theorem run_withinOperation_of_missing (hms : Complete ms)
    (hop : ∀ op, find? (operationAddress path method) (.object ms) ≠
      some (.object op)) :
    (withinPath path (.within method.name e)).run ms = .ok ms := by
  obtain ⟨paths, hpaths, -⟩ := hms.paths
  rw [find?_operationAddress hpaths] at hop
  rw [withinPath, Edit.run_withinMap_iff hpaths]
  by_cases hitem : ∃ item, get? path paths = some (.object item)
  · obtain ⟨item, hitem⟩ := hitem
    rw [hitem, Option.bind_some, find?_part] at hop
    rw [Edit.run_within_iff hitem, Edit.run_within_of_no_object hop]
  · rw [Edit.run_within_of_no_object (not_exists.mp hitem)]

/-- The rest of an address leads nowhere in the operation that its beginning leads
to. -/
theorem missing_in_operation
    (hmissing : find? (operationAddress path method ++ rest) (.object ms) = none)
    (hop : find? (operationAddress path method) (.object ms) = some (.object op)) :
    find? rest (.object op) = none := by
  rwa [find?_append, hop, Option.bind_some] at hmissing

theorem run_editOperation_iff {e : OperationEdit Unit}
    (hnamed : namedInOperation? e = some rest) (hms : Complete ms)
    (hmissing : find? (operationAddress path method ++ rest) (.object ms) = none)
    (hfits : Fits (operationAddress path method ++ rest) (.object ms)) :
    (editOperation id path method e).run ms = .ok ms ↔
      ¬ Disturbs (.object ms) (.operation path method e) := by
  cases e with
  | add => simp [namedInOperation?] at hnamed
  | remove =>
      obtain rfl := Option.some.inj hnamed
      exact (idle_withinPath (idle_removeOperation method)).run_iff hmissing hfits id
  | removeParameter index =>
      obtain rfl := Option.some.inj hnamed
      refine iff_of_true ?_ id
      by_cases hop : ∃ op, find? (operationAddress path method) (.object ms) =
        some (.object op)
      · obtain ⟨op, hop⟩ := hop
        exact (run_withinOperation_iff hms hop).mpr
          (run_removeParameter (operationComplete_of_find? hms hop)
          (missing_in_operation hmissing hop) (hfits.of_find? hop))
      · exact run_withinOperation_of_missing hms (not_exists.mp hop)
  | removeResponse status =>
      obtain rfl := Option.some.inj hnamed
      dsimp only [Disturbs]
      by_cases hop : ∃ op, find? (operationAddress path method) (.object ms) =
        some (.object op)
      · obtain ⟨op, hop⟩ := hop
        refine (run_withinOperation_iff hms hop).trans ?_
        rw [run_removeResponse_iff (missing_in_operation hmissing hop)
          (hfits.of_find? hop), hop]
        simp
      · refine iff_of_true (run_withinOperation_of_missing hms (not_exists.mp hop)) ?_
        rintro ⟨op, hfound, -⟩
        exact hop ⟨op, hfound⟩
  | _ =>
      have hidle := idle_editWithinOperation hnamed (by simp) (by simp)
      exact (idle_withinPath (.within rfl hidle)).run_iff hmissing hfits id

/-! ## Components -/

theorem run_editSchemas {e : SchemaEdit Unit} (hnamed : namedSchema? e = some address)
    (hmissing : find? address (.object ms) = none) (hfits : Fits address (.object ms)) :
    (editSchemas id e).run ms = .ok ms := by
  have hschemas : (Step.entry "schemas").name? = some (.str "schemas") := rfl
  cases e with
  | add | update => simp [namedSchema?] at hnamed
  | remove name =>
      obtain rfl := Option.some.inj hnamed
      exact (Edit.Idle.withinMap rfl (Edit.idle_removeEntry hschemas)).run_eq
        hmissing hfits
  | rename name newName =>
      obtain rfl := Option.some.inj hnamed
      exact (Edit.Idle.withinMap rfl (Edit.idle_renameEntry hschemas newName)).run_eq
        hmissing hfits
  | duplicate name =>
      obtain rfl := Option.some.inj hnamed
      exact (Edit.Idle.withinMap
        rfl (Edit.idle_duplicateEntry hschemas id newSchema)).run_eq hmissing hfits

/-- The security schemes that a scheme is missing from. -/
theorem exists_schemesOf (hmissing : find?
      [.part "components", .entry "securitySchemes", .entry name] (.object ms) = none)
    (hfits : Fits [.part "components", .entry "securitySchemes", .entry name]
      (.object ms)) :
    ∃ schemes, schemesOf ms = .ok (.object schemes) ∧ get? name schemes = none := by
  obtain ⟨components, hcomponents, hscheme, hschemeFits⟩ :=
    exists_mapAt rfl hmissing hfits
  obtain ⟨schemes, hschemes, hname, -⟩ := exists_mapAt rfl hscheme hschemeFits
  refine ⟨schemes, ?_, (find?_part _ _).symm.trans hname⟩
  rw [schemesOf, hcomponents, Tree.members, pure_eq_ok, ok_bind, hschemes]
  rfl

theorem idle_renameScheme (name newName : String) :
    (renameScheme name newName).Idle [.part "components", .entry "securitySchemes",
      .entry name] := by
  intro ms hmissing hfits
  obtain ⟨schemes, hschemes, hname⟩ := exists_schemesOf hmissing hfits
  rw [renameScheme, hschemes, ok_bind, Tree.holds, contains, hname]
  split <;> rfl

/-- Putting the schemes that are there changes nothing. -/
theorem putSchemes_self {schemes : Members} (hms : Complete ms)
    (hschemes : schemesOf ms = .ok (.object schemes)) :
    putSchemes schemes ms = .ok ms := by
  obtain ⟨components, hcomponents, hcomplete⟩ := hms.components
  have hmembers : (mapAt "components" ms).members = .ok components :=
    members_mapAt_of_object hcomponents
  obtain ⟨v, hv, hblank⟩ := hcomplete "securitySchemes" (by decide)
  have hself : put "securitySchemes" (.object schemes) components = components := by
    rw [schemesOf, hmembers, ok_bind, pure_eq_ok, Except.ok.injEq, mapAt, valueAt, hv,
      Option.getD_some, Tree.orElse] at hschemes
    refine put_of_get? (hv.trans (congrArg some ?_))
    split at hschemes
    · exact (hblank ‹_›).trans hschemes
    · exact hschemes
  rw [putSchemes, hmembers, ok_bind, hself, put_of_get? hcomponents]
  rfl

/-- Taking away a scheme that is not there changes nothing exactly if no requirement
holds its name. -/
theorem run_removeScheme_iff (hms : Complete ms)
    (hmissing : find? [.part "components", .entry "securitySchemes", .entry name]
      (.object ms) = none)
    (hfits : Fits [.part "components", .entry "securitySchemes", .entry name]
      (.object ms)) :
    (removeScheme name).run ms = .ok ms ↔
      ∃ requirements, get? "security" ms = some (.list requirements) ∧
      ∀ requirement ∈ requirements, requirement.holds name = .ok false := by
  have hkeeps (requirement : Value) :
      (do pure !(← requirement.holds name) : Except Fault Bool) = .ok true ↔
        requirement.holds name = .ok false := by
    cases requirement.holds name with
    | error fault => simp
    | ok found => cases found <;> simp
  constructor
  · intro h
    obtain ⟨found, hfound, hself⟩ := Edit.run_eq_ok.mp h
    have hsome : removeScheme name ms = .ok (some ms) := by
      obtain ⟨_, -, hchain⟩ := bind_eq_ok.mp hfound
      obtain ⟨_, -, hchain⟩ := bind_eq_ok.mp hchain
      obtain ⟨_, -, hchain⟩ := bind_eq_ok.mp hchain
      obtain ⟨_, -, hchain⟩ := bind_eq_ok.mp hchain
      obtain ⟨result, -, hchain⟩ := bind_eq_ok.mp hchain
      obtain rfl := Except.ok.inj hchain
      exact hself ▸ hfound
    obtain ⟨schemes, security, kept, -, hsecurity, hkept, hput⟩ :=
      removeScheme_spec hsome
    have hget : get? "security" ms = some (.list kept) := by
      rw [get?_putSchemes hput (by decide), putList, get?_put, if_pos rfl]
    obtain rfl : kept = security :=
      Except.ok.inj ((listAt_of_list hget).symm.trans hsecurity)
    exact ⟨kept, hget, fun requirement hmem =>
      (hkeeps requirement).mp (filterM_eq_self_iff.mp hkept _ hmem)⟩
  · rintro ⟨requirements, hget, hfree⟩
    obtain ⟨schemes, hschemes, hname⟩ := exists_schemesOf hmissing hfits
    have hkept : requirements.filterM
        (fun requirement : Value => do pure !(← requirement.holds name)) =
        .ok requirements :=
      filterM_eq_self_iff.mpr fun requirement hmem =>
        (hkeeps requirement).mpr (hfree requirement hmem)
    have hput : putList "security" requirements ms = ms := put_of_get? hget
    rw [Edit.run, removeScheme, hschemes, ok_bind, Tree.members, pure_eq_ok, ok_bind,
      listAt_of_list hget, ok_bind, hkept, ok_bind, hput, erase_of_absent hname,
      putSchemes_self hms hschemes]
    rfl

/-- An edit of the scopes of a flow that is idle among the scopes is idle in the
document. -/
theorem idle_withinFlow {scope : String} {flow : Flow}
    (h : e.Idle [.part "scopes", .entry scope]) :
    (withinFlow name flow e).Idle [.part "components", .entry "securitySchemes",
      .entry name, .part "flows", .entry flow.name, .part "scopes", .entry scope] :=
  .withinMap rfl (.withinMap rfl (.within rfl (.withinMap rfl (.within rfl h))))

theorem run_editSecurity_iff {e : SecurityEdit Unit}
    (hnamed : namedScheme? e = some address) (hms : Complete ms)
    (hmissing : find? address (.object ms) = none) (hfits : Fits address (.object ms)) :
    (editSecurity e).run ms = .ok ms ↔ ¬ Disturbs (.object ms) (.security e) := by
  have hscopes : (Step.part "scopes").name? = some (.str "scopes") := rfl
  cases e with
  | add | update | changeType | toggleFlow | addScope | toggleGlobal =>
      simp [namedScheme?] at hnamed
  | remove name =>
      obtain rfl := Option.some.inj hnamed
      simp only [editSecurity, Disturbs, not_not, find?_part]
      exact run_removeScheme_iff hms hmissing hfits
  | rename name newName =>
      obtain rfl := Option.some.inj hnamed
      exact (idle_renameScheme name newName).run_iff hmissing hfits id
  | renameScope name flow scope newScope description =>
      obtain rfl := Option.some.inj hnamed
      exact (idle_withinFlow (Edit.idle_renameScope hscopes newScope description
        rfl)).run_iff hmissing hfits id
  | removeScope name flow scope =>
      obtain rfl := Option.some.inj hnamed
      exact (idle_withinFlow (Edit.idle_removeEntry hscopes)).run_iff hmissing hfits id

end

/-! ## Commands -/

variable {source : Value} {state : State Unit} {command : Command Unit} {e : Edit Unit}
  {address : Address} {ms : Members}

/-- A command that makes an edit leaves the state exactly if the edit leaves the members
of the document. -/
theorem apply_eq_self_iff (he : editOf command = some e)
    (hms : state.document = .object ms) :
    state.apply command = .ok state ↔ e.run ms = .ok ms := by
  rw [apply_of_editOf he hms, map_eq_ok]
  constructor
  · rintro ⟨ns, hrun, hstate⟩
    have hdocument : Value.object ns = state.document := congrArg State.document hstate
    obtain rfl := (Tree.marked.inj (hdocument.trans hms)).2
    exact hrun
  · exact fun hrun => ⟨ms, hrun, State.withDocument_self hms⟩

/-- A command that names something makes an edit. -/
theorem exists_editOf_of_named (hnamed : named? command = some address) :
    ∃ e, editOf command = some e := by
  unfold editOf
  split
  · exact ⟨_, rfl⟩
  · cases command with
    | setDocument | saveSnapshot | undo | loadSample | reset => simp [named?] at hnamed
    | _ => exact ⟨_, rfl⟩

theorem not_disturbs_of_renamesToItself {document : Value}
    (h : renamesToItself command = true) :
    ¬ Disturbs document command := by
  cases command with
  | renameOperation => exact id
  | operation path method edit => cases edit <;> simp_all [renamesToItself, Disturbs]
  | _ => simp [renamesToItself] at h

/-- The edit of a command where nothing is there to be edited. -/
theorem run_editOf_iff (he : editOf command = some e)
    (hms : Complete ms) (hnamed : named? command = some address)
    (hmissing : find? address (.object ms) = none) (hfits : Fits address (.object ms)) :
    e.run ms = .ok ms ↔ ¬ Disturbs (.object ms) command := by
  unfold editOf at he
  split at he
  · obtain rfl := Option.some.inj he
    exact iff_of_true rfl (not_disturbs_of_renamesToItself ‹_›)
  · cases command with
    | setDocument | saveSnapshot | undo | loadSample | reset | info | externalDocs =>
        simp [named?] at hnamed
    | servers edit =>
        obtain rfl := Option.some.inj he
        exact run_editServers_iff hnamed hms hmissing hfits
    | tags edit =>
        obtain rfl := Option.some.inj he
        exact run_editTags_iff hnamed hmissing hfits
    | paths edit =>
        obtain rfl := Option.some.inj he
        exact iff_of_true (run_editPaths hnamed hmissing hfits) id
    | operation path method edit =>
        obtain rfl := Option.some.inj he
        obtain ⟨rest, hrest, rfl⟩ := Option.map_eq_some_iff.mp hnamed
        exact run_editOperation_iff hrest hms hmissing hfits
    | renameOperation path method newMethod =>
        obtain rfl := Option.some.inj he
        obtain rfl := Option.some.inj hnamed
        exact (idle_withinPath (idle_renameOperation method newMethod)).run_iff
          hmissing hfits id
    | security edit =>
        obtain rfl := Option.some.inj he
        exact run_editSecurity_iff hnamed hms hmissing hfits
    | schemas edit =>
        obtain rfl := Option.some.inj he
        exact iff_of_true (run_editSchemas hnamed hmissing hfits) id

/-- A command that names what is not there in a completed document leaves the state
exactly as it is, its document and its snapshot, if it does not disturb the document;
and only then. -/
theorem apply_missing_iff (hdocument : complete source = .ok state.document)
    (hnamed : named? command = some address)
    (hmissing : find? address state.document = none)
    (hfits : Fits address state.document) :
    state.apply command = .ok state ↔ ¬ Disturbs state.document command := by
  obtain ⟨ms, hms, hcomplete⟩ := complete_of_ok hdocument
  obtain ⟨e, he⟩ := exists_editOf_of_named hnamed
  rw [apply_eq_self_iff he hms]
  rw [hms] at hmissing hfits ⊢
  exact run_editOf_iff he hcomplete hnamed hmissing hfits

/-- In the sample a response is taken away that is not there, and nothing happens. In a
new document, which has no tags, taking away the first one is noticed. -/
theorem apply_missing_iff_of_sample :
    State.initial.apply (.operation "/pets" .get (.removeResponse "404")) =
      .ok State.initial ∧
      (State.ofDocument Template.document).apply (.tags (.remove 0)) ≠
        .ok (State.ofDocument Template.document) := by
  constructor
  · have hsample : complete sample = .ok State.initial.document := canonical_sample
    refine (apply_missing_iff hsample rfl rfl ?_).mpr ?_
    · refine ⟨trivial, fun paths hpaths => ?_⟩
      obtain rfl := Option.some.inj hpaths
      refine ⟨isMap_object _, fun item hitem => ?_⟩
      obtain rfl := Option.some.inj hitem
      refine ⟨trivial, fun op hop => ?_⟩
      obtain rfl := Option.some.inj hop
      refine ⟨trivial, fun responses hresponses => ?_⟩
      obtain rfl := Option.some.inj hresponses
      exact ⟨isMap_object _, fun response hresponse => nomatch hresponse⟩
    · rintro ⟨op, hop, hblank⟩
      obtain rfl := (Tree.marked.inj (Option.some.inj hop)).2
      exact absurd hblank (by decide)
  · have htemplate : complete Template.document =
        .ok (State.ofDocument Template.document).document :=
      canonical_template
    have hfits : Fits [.part "tags", .item 0] Template.document :=
      ⟨trivial, fun tags htags => nomatch htags⟩
    rw [Ne, apply_missing_iff htemplate rfl rfl hfits, not_not]
    rintro ⟨tags, htags⟩
    exact nomatch htags

/-- A document with an operation that has no responses, with a requirement of a scheme
that is not there, and with a server that has no variables in its map of them. -/
def sparse : Value :=
  .record [
    ("openapi", "3.0.3"),
    ("info", .record [("title", "New API"), ("version", "1.0.0"),
      ("contact", .emptyObject), ("license", .emptyObject)]),
    ("paths", .record [
      ("/a", .record [
        ("get", .record [("tags", .list []), ("parameters", .list []),
          ("externalDocs", .emptyObject)])])]),
    ("externalDocs", .emptyObject),
    ("security", .list [.record [("missing", .list [])]]),
    ("servers", .list [.record [("url", "/"), ("variables", .emptyObject)]]),
    ("components", .record [
      ("links", .emptyObject),
      ("callbacks", .emptyObject),
      ("schemas", .emptyObject),
      ("securitySchemes", .emptyObject)])]

/-- Commands that name what is not there change a canonical document: its tags, its
servers, the responses of an operation and the requirements. -/
theorem missing_disturbed :
    Canonical sparse ∧ ∀ command ∈ ([.tags (.remove 0),
      .servers (.removeVariable 0 "a"), .operation "/a" .get (.removeResponse "200"),
      .security (.remove "missing")] : List (Command Unit)), ∃ address next,
      named? command = some address ∧ find? address sparse = none ∧
        (State.ofDocument sparse).apply command = .ok next ∧
          next.document ≠ sparse := by
  have hdiffers (address : Address) {document : Value}
      (h : (find? address document).isSome ≠ (find? address sparse).isSome) :
          document ≠ sparse := by
    rintro rfl
    exact h rfl
  refine ⟨rfl, ?_⟩
  simp only [List.forall_mem_cons]
  refine ⟨?_, ?_, ?_, ?_, by simp⟩
  · exact ⟨_, _, rfl, rfl, rfl, hdiffers [.part "tags"] (by decide)⟩
  · exact ⟨_, _, rfl, rfl, rfl,
      hdiffers [.part "servers", .item 0, .part "variables"] (by decide)⟩
  · exact ⟨_, _, rfl, rfl, rfl,
      hdiffers (operationAddress "/a" .get ++ [.part "responses"]) (by decide)⟩
  · exact ⟨_, _, rfl, rfl, rfl, hdiffers [.part "security", .item 0] (by decide)⟩

end ApiWorkbench.Editor
