import ApiWorkbench.Proofs.Document.EditedPlaces
import ApiWorkbench.Proofs.Editor.Locality
import ApiWorkbench.Proofs.Editor.Usable

/-!
# No map is left empty

The editor takes care not to leave empty maps behind. The last response is replaced by a
fallback, the last media type of a request body by another one, and the content of a
response, the callbacks of an operation and the variables of a server disappear with
their last entries. So a document without such empty maps stays one, whatever commands
are applied to it, unless a command puts members of the user's choice in their place.

## Main results

* `OperationStocked.put`: what may be put into an operation.
* `editWithinOperation_stocked`, `editServers_stocked`: edits leave no map empty.
* `complete_stocked`: completion leaves no map empty.
* `stocked_throughout_run`: no map is empty in any state of a run.
-/

namespace ApiWorkbench.Editor

open Document Command

/-! ## Maps that are not empty -/

/-- A map with something in it. -/
def IsStocked : Value → Prop
  | .object ms => ms ≠ []
  | _ => False

instance : DecidablePred IsStocked
  | .object ms => inferInstanceAs (Decidable (ms ≠ []))
  | .scalar _ | .list _ | .pair _ _ | .set _ => isFalse id

/-- What has a content, a request body or a response, has one that is not empty. -/
def ContentStocked : Value → Prop :=
  IfObject fun holder => ∀ content ∈ Members.get? "content" holder, IsStocked content

instance : DecidablePred ContentStocked :=
  inferInstanceAs (DecidablePred (IfObject fun holder =>
    ∀ content ∈ Members.get? "content" holder, IsStocked content))

/-- A map of responses that is not empty, and whose responses have no empty content. -/
def ResponsesStocked : Value → Prop
  | .object responses => responses ≠ [] ∧ ∀ e ∈ responses, ContentStocked e.2
  | _ => False

instance : DecidablePred ResponsesStocked
  | .object responses =>
      inferInstanceAs (Decidable (responses ≠ [] ∧ ∀ e ∈ responses, ContentStocked e.2))
  | .scalar _ | .list _ | .pair _ _ | .set _ => isFalse id

/-- An operation with responses, and without an empty map for the content of its request
body or its callbacks. -/
structure OperationStocked (op : Members) : Prop where
  responses : ResponsesStocked (Members.valueAt "responses" op)
  requestBody : ∀ v ∈ Members.get? "requestBody" op, ContentStocked v
  callbacks : ∀ v ∈ Members.get? "callbacks" op, IsStocked v

instance : DecidablePred OperationStocked := fun op =>
  decidable_of_iff (ResponsesStocked (Members.valueAt "responses" op) ∧
      (∀ v ∈ Members.get? "requestBody" op, ContentStocked v) ∧
        ∀ v ∈ Members.get? "callbacks" op, IsStocked v)
    ⟨fun ⟨h, h', h''⟩ => ⟨h, h', h''⟩, fun ⟨h, h', h''⟩ => ⟨h, h', h''⟩⟩

/-- A server without an empty map of variables. -/
def ServerStocked : Value → Prop :=
  IfObject fun server => ∀ v ∈ Members.get? "variables" server, IsStocked v

instance : DecidablePred ServerStocked :=
  inferInstanceAs (DecidablePred
    (IfObject fun server => ∀ v ∈ Members.get? "variables" server, IsStocked v))

/-- Servers without empty maps of variables, if they can be listed. -/
def ServersStocked (ms : Members) : Prop :=
  ∀ items ∈ (Members.listAt "servers" ms).toOption, ∀ server ∈ items,
    ServerStocked server

instance : DecidablePred ServersStocked := fun ms =>
  inferInstanceAs (Decidable (∀ items ∈ (Members.listAt "servers" ms).toOption,
    ∀ server ∈ items, ServerStocked server))

/-- The operations and the servers of a document have no empty maps. -/
structure Stocked (ms : Members) : Prop where
  operations : OperationsHave OperationStocked ms
  servers : ServersStocked ms

instance : DecidablePred Stocked := fun ms =>
  decidable_of_iff (OperationsHave OperationStocked ms ∧ ServersStocked ms)
    ⟨fun ⟨h, h'⟩ => ⟨h, h'⟩, fun ⟨h, h'⟩ => ⟨h, h'⟩⟩

/-- A document without empty maps. -/
abbrev WellStocked : Value → Prop :=
  IfObject Stocked

/-- The document of a state and its snapshot, if there is one, have no empty maps. -/
structure StateStocked (state : State Unit) : Prop where
  document : WellStocked state.document
  snapshot : ∀ v ∈ state.snapshot, WellStocked v

theorem wellStocked_sample : WellStocked sample := by
  decide

theorem wellStocked_template : WellStocked Template.document := by
  decide

private theorem operationStocked_template :
    IfObject OperationStocked Template.operation := by
  decide

/-- A map that disappears when it is empty is not empty where it is. -/
theorem isStocked_putUnlessEmpty (name : String) (map ms : Members) :
    ∀ v ∈ Members.get? name (putUnlessEmpty name map ms), IsStocked v := by
  intro v hv
  unfold putUnlessEmpty at hv
  split at hv
  · simp at hv
  · rename_i hmap
    obtain rfl : Value.object map = v := by simpa using hv
    simpa [IsStocked] using hmap

/-! ## Parts of an operation -/

section

variable {op op' body content map : Members} {name : String} {v : Value}

theorem OperationStocked.exists_responses (h : OperationStocked op) :
    ∃ responses, Members.get? "responses" op = some (.object responses) ∧
    responses ≠ [] ∧ Members.All (fun _ => ContentStocked) responses := by
  have hresponses := h.responses
  rw [Members.valueAt] at hresponses
  cases hget : Members.get? (.str "responses") op with
  | none => simp [hget, ResponsesStocked] at hresponses
  | some v =>
      rw [hget, Option.getD_some] at hresponses
      cases v with
      | marked mark responses => exact ⟨responses, rfl, hresponses⟩
      | _ => exact hresponses.elim

/-- What a member of an operation has to be for the operation to have no empty maps. -/
def PartStocked (name : String) (v : Value) : Prop :=
  match name with
  | "responses" => ResponsesStocked v
  | "requestBody" => ContentStocked v
  | "callbacks" => IsStocked v
  | _ => True

/-- Putting a member without empty maps into an operation leaves it without empty
maps. -/
theorem OperationStocked.put (h : OperationStocked op) (hv : PartStocked name v) :
    OperationStocked (Members.put name v op) where
  responses := by
    rw [Members.valueAt, Members.get?_put]
    split
    · subst name
      exact hv
    · exact h.responses
  requestBody w hw := by
    rw [Members.get?_put] at hw
    split at hw
    · subst name
      obtain rfl := Option.some.inj hw
      exact hv
    · exact h.requestBody w hw
  callbacks w hw := by
    rw [Members.get?_put] at hw
    split at hw
    · subst name
      obtain rfl := Option.some.inj hw
      exact hv
    · exact h.callbacks w hw

/-- Anything but the responses may be taken out of an operation. -/
theorem OperationStocked.erase (h : OperationStocked op) (hname : name ≠ "responses") :
    OperationStocked (Members.erase name op) where
  responses := by
    rw [Members.valueAt, Members.get?_erase, if_neg (Ne.symm hname)]
    exact h.responses
  requestBody w hw := by
    rw [Members.get?_erase] at hw
    split at hw
    · contradiction
    · exact h.requestBody w hw
  callbacks w hw := by
    rw [Members.get?_erase] at hw
    split at hw
    · contradiction
    · exact h.callbacks w hw

private theorem partStocked_responses (hmap : map ≠ [])
    (hall : Members.All (fun _ => ContentStocked) map) :
    PartStocked "responses" (.object map) :=
  ⟨hmap, hall⟩

/-- An edit of another member leaves an operation without empty maps. -/
private theorem operationStocked_of_actsOn {e : Edit Unit}
    (hname : ∀ v, PartStocked name v) (he : e.ActsOn name) :
    Edit.Keeps OperationStocked e := by
  intro op op' hop h
  obtain ⟨v, rfl⟩ := he.eq_put h
  exact hop.put (hname v)

/-! ## Responses -/

private theorem responses_of_read (hop : OperationStocked op)
    (h : (Members.mapAt "responses" op).members = .ok map) :
    map ≠ [] ∧ Members.All (fun _ => ContentStocked) map := by
  obtain ⟨responses, hget, hresponses⟩ := hop.exists_responses
  rw [members_mapAt_of_object hget] at h
  obtain rfl := Except.ok.inj h
  exact hresponses

private theorem addResponse_stocked (statusCode : String) :
    Edit.Keeps OperationStocked (addResponse statusCode) := by
  intro op op' hop h
  obtain ⟨present, -, h⟩ := bind_eq_ok.mp h
  split at h
  · exact (Edit.nothing_ne_some.mp h).elim
  · obtain ⟨map, hread, h⟩ := bind_eq_ok.mp h
    obtain rfl := Edit.changed_eq_some.mp h
    obtain ⟨-, hall⟩ := responses_of_read hop hread
    exact hop.put (partStocked_responses (Members.put_ne_nil _ _ _)
      (hall.put_of_forall _ fun _ => by decide))

private theorem removeResponse_stocked (statusCode : String) :
    Edit.Keeps OperationStocked (removeResponse statusCode) := by
  intro op op' hop h
  obtain ⟨map, hread, h⟩ := bind_eq_ok.mp h
  obtain rfl := Edit.changed_eq_some.mp h
  obtain ⟨-, hall⟩ := responses_of_read hop hread
  split
  · have hdefault :
        ResponsesStocked (.object [(.str "default", Template.fallbackResponse)]) := by
      decide
    exact hop.put (show PartStocked "responses" _ from hdefault)
  · rename_i hkept
    exact hop.put (partStocked_responses (by simpa using hkept) (hall.erase _))

private theorem renameResponse_stocked (oldStatus newStatus : String) :
    Edit.Keeps OperationStocked (Edit.renameEntry "responses" oldStatus newStatus) := by
  intro op op' hop h
  obtain ⟨map, map', hread, hrename, rfl⟩ := Edit.renameEntry_spec h
  obtain ⟨-, hall⟩ := responses_of_read hop hread
  exact hop.put (partStocked_responses (Members.rename?_ne_nil hrename)
    (hall.rename? (fun _ _ _ _ hv => hv) hrename fun _ hv => hv))

/-! ## Content -/

/-- An edit that leaves something. -/
def LeavesSomething (e : Edit Unit) : Prop :=
  ∀ ms ms', e ms = .ok (some ms') → ms' ≠ []

private theorem addMediaType_leaves (mediaType : String) :
    LeavesSomething (addMediaType mediaType) := by
  intro content content' h
  unfold addMediaType at h
  split at h
  · exact (Edit.nothing_ne_some.mp h).elim
  · obtain rfl := Edit.changed_eq_some.mp h
    exact Members.put_ne_nil _ _ _

private theorem renameMediaType_leaves (oldType newType : String) :
    LeavesSomething (renameMediaType oldType newType) := by
  intro content content' h
  unfold renameMediaType at h
  split at h
  · exact (Edit.nothing_ne_some.mp h).elim
  · obtain ⟨renamed, hrenamed, h⟩ := bind_eq_ok.mp h
    obtain rfl := Edit.changed_eq_some.mp h
    exact Members.rename?_ne_nil (renamed_eq_ok.mp hrenamed)

/-- The last media type of a request body is replaced. -/
private theorem removeMediaType_leaves (mediaType : String) :
    LeavesSomething (removeMediaType .requestBody mediaType) := by
  intro content content' h
  unfold removeMediaType at h
  split at h
  · dsimp only at h
    split at h
    · obtain rfl := Edit.changed_eq_some.mp h
      simp
    · rename_i hkept
      obtain rfl := Edit.changed_eq_some.mp h
      simpa using hkept
  · exact (Edit.nothing_ne_some.mp h).elim

private theorem withinBody_stocked {e : Edit Unit} (he : LeavesSomething e) :
    Edit.Keeps OperationStocked (withinBody e) := by
  intro op op' hop h
  obtain ⟨body, body', -, hedit, rfl⟩ := Edit.within_spec h
  obtain ⟨content, -, hedit⟩ := bind_eq_ok.mp hedit
  obtain ⟨found, hfound, hedit⟩ := bind_eq_ok.mp hedit
  split at hedit
  · rename_i content'
    obtain rfl := Edit.changed_eq_some.mp hedit
    have hbody : PartStocked "requestBody"
        (.object (Members.put "content" (.object content') body)) := by
      intro v hv
      obtain rfl : Value.object content' = v := by simpa using hv
      exact he content content' hfound
    exact hop.put hbody
  · exact (Edit.nothing_ne_some.mp hedit).elim

/-- The content of a response disappears when it is empty, so any edit will do. -/
private theorem withinResponse_stocked (statusCode : Option String) (e : Edit Unit) :
    Edit.Keeps OperationStocked (withinResponse statusCode e) := by
  intro op op' hop h
  obtain ⟨map, map', hread, hedit, rfl⟩ := Edit.withinMap_spec h
  obtain ⟨response, response', -, hresponse, rfl⟩ := Edit.within_spec hedit
  obtain ⟨-, hall⟩ := responses_of_read hop hread
  refine hop.put (partStocked_responses (Members.put_ne_nil _ _ _)
    (hall.put_of_forall _ fun _ => ?_))
  obtain ⟨content, -, hresponse⟩ := bind_eq_ok.mp hresponse
  obtain ⟨found, -, hresponse⟩ := bind_eq_ok.mp hresponse
  split at hresponse
  · obtain rfl := Edit.changed_eq_some.mp hresponse
    exact isStocked_putUnlessEmpty _ _ _
  · exact (Edit.nothing_ne_some.mp hresponse).elim

private theorem withinContent_stocked (place : ContentPlace) {e : Edit Unit}
    (he : place.target = .requestBody → LeavesSomething e) :
    Edit.Keeps OperationStocked (withinContent place e) := by
  unfold withinContent
  split
  · exact withinBody_stocked (he ‹_›)
  · exact withinResponse_stocked place.statusCode e

/-! ## Callbacks -/

/-- The callbacks disappear when there are none, so any edit will do. -/
private theorem withinCallbacks_stocked (e : Edit Unit) :
    Edit.Keeps OperationStocked (withinCallbacks e) := by
  intro op op' hop h
  obtain ⟨callbacks, -, h⟩ := bind_eq_ok.mp h
  obtain ⟨found, -, h⟩ := bind_eq_ok.mp h
  split at h
  · rename_i callbacks'
    obtain rfl := Edit.changed_eq_some.mp h
    unfold putUnlessEmpty
    split
    · exact hop.erase (by decide)
    · rename_i hcallbacks
      have hpart : PartStocked "callbacks" (.object callbacks') := by
        simpa [PartStocked, IsStocked] using hcallbacks
      exact hop.put hpart
  · exact (Edit.nothing_ne_some.mp h).elim

end

/-- Whether an edit of an operation puts members of the user's choice in place of maps
that must not be empty. -/
def replacesMaps : OperationEdit Unit → Bool
  | .update _ => true
  | .updateResponse _ _ => true
  | .updateRequestBody _ => true
  | _ => false

/-- The other edits leave an operation without empty maps. -/
theorem editWithinOperation_stocked {e : OperationEdit Unit}
    (he : replacesMaps e = false) :
    Edit.Keeps OperationStocked (editWithinOperation id e) := by
  have hparameters : ∀ v, PartStocked "parameters" v := fun _ => trivial
  cases e with
  | add | remove => exact fun op op' _ h => (Edit.nothing_ne_some.mp h).elim
  | update | updateResponse | updateRequestBody => simp [replacesMaps] at he
  | addParameter =>
      exact operationStocked_of_actsOn hparameters (Edit.actsOn_append _ _)
  | updateParameter =>
      exact operationStocked_of_actsOn hparameters (Edit.actsOn_replaceItem _ _ _)
  | removeParameter =>
      exact operationStocked_of_actsOn hparameters (Edit.actsOn_removeItem _ _)
  | addResponse statusCode => exact addResponse_stocked statusCode
  | removeResponse statusCode => exact removeResponse_stocked statusCode
  | renameResponse oldStatus newStatus =>
      exact renameResponse_stocked oldStatus newStatus
  | addRequestBody =>
      intro op op' hop h
      obtain rfl := Edit.changed_eq_some.mp h
      have hbody : ContentStocked Template.requestBody := by decide
      exact hop.put hbody
  | removeRequestBody =>
      intro op op' hop h
      dsimp only [editWithinOperation] at h
      split at h
      · obtain rfl := Edit.changed_eq_some.mp h
        exact hop.erase (by decide)
      · exact (Edit.nothing_ne_some.mp h).elim
  | addMediaType place mediaType =>
      exact withinContent_stocked place fun _ => addMediaType_leaves mediaType
  | renameMediaType place oldType newType =>
      exact withinContent_stocked place fun _ => renameMediaType_leaves oldType newType
  | removeMediaType place mediaType =>
      refine withinContent_stocked place fun htarget => ?_
      rw [htarget]
      exact removeMediaType_leaves mediaType
  | addCallback | renameCallback | removeCallback | duplicateCallback =>
      exact withinCallbacks_stocked _

/-! ## Servers -/

section

variable {ms : Members} {items : List Value}

private theorem servers_of_read (h : ServersStocked ms)
    (hread : Members.listAt "servers" ms = .ok items) :
    ∀ server ∈ items, ServerStocked server :=
  h items (by rw [hread]; rfl)

private theorem serversStocked_put (h : ∀ server ∈ items, ServerStocked server)
    (ms : Members) :
    ServersStocked (Members.put "servers" (.list items) ms) := by
  have hread : Members.listAt "servers" (Members.put "servers" (.list items) ms) =
      .ok items :=
    listAt_of_list (by simp)
  intro found hfound
  rw [hread] at hfound
  obtain rfl := Option.some.inj hfound
  exact h

private theorem editServerVariables_stocked (index : Int) (edit : Members → Members) :
    Edit.Keeps ServersStocked (editServerVariables index edit) := by
  intro ms ms' hms h
  obtain ⟨items, hread, h⟩ := bind_eq_ok.mp h
  split at h
  · exact (Edit.nothing_ne_some.mp h).elim
  · obtain ⟨server, hserver, h⟩ := bind_eq_ok.mp h
    obtain rfl := Edit.changed_eq_some.mp h
    refine serversStocked_put (fun changed hmem => ?_) ms
    rcases List.mem_or_eq_of_mem_set hmem with hmem | rfl
    · exact servers_of_read hms hread changed hmem
    · obtain ⟨members, -, hserver⟩ := bind_eq_ok.mp hserver
      obtain ⟨definitions, -, hserver⟩ := bind_eq_ok.mp hserver
      obtain rfl := Except.ok.inj hserver
      exact isStocked_putUnlessEmpty _ _ _

/-- Edits of the servers leave no empty map of variables, but for the one that puts a
server of the user's choice. -/
theorem editServers_stocked {e : ServerEdit Unit}
    (he : ∀ index server, e ≠ .update index server) :
    Edit.Keeps ServersStocked (editServers e) := by
  cases e with
  | add =>
      intro ms ms' hms h
      obtain ⟨items, hread, rfl⟩ := Edit.append_spec h
      refine serversStocked_put (fun server hmem => ?_) ms
      rcases List.mem_append.mp hmem with hmem | hmem
      · exact servers_of_read hms hread server hmem
      · obtain rfl := List.mem_singleton.mp hmem
        decide
  | update index server => exact absurd rfl (he index server)
  | remove index =>
      intro ms ms' hms h
      obtain ⟨items, hread, rfl⟩ := Edit.removeItem_spec h
      exact serversStocked_put (fun server hmem =>
        servers_of_read hms hread server (Edit.mem_withoutItem hmem)) ms
  | addVariable | updateVariable | removeVariable =>
      exact editServerVariables_stocked _ _

end

/-! ## Completion -/

/-- Callbacks with something in them still have it after the operations inside them
were completed. -/
private theorem isStocked_callbacks {v w : Value} (hv : IsStocked v)
    (h : PathItemEdit.callbacks completion v = .ok w) : IsStocked w := by
  cases v with
  | marked mark callbacks =>
      obtain ⟨entries, hentries, h⟩ := bind_eq_ok.mp h
      obtain rfl := Except.ok.inj h
      have hnames :=
        ((PathItemEdit.callbackEntries_iff completion).mp hentries).names_eq
      intro hempty
      rw [hempty, Members.names, Members.names, List.map_nil, eq_comm,
        List.map_eq_nil_iff] at hnames
      exact hv hnames
  | _ => exact hv.elim

/-- Completing an operation leaves it without empty maps. -/
private theorem completeOperation_stocked (item op op₁ op' : Members)
    (hop : OperationStocked op) (hnested : PathItemEdit.nested completion op = .ok op₁)
    (h : completeOperation item op₁ = .ok op') :
    OperationStocked op' := by
  have hagree := PathItemEdit.agreeButCallbacks_of_nested hnested
  have hresponses : Members.get? "responses" op' = Members.get? "responses" op := by
    rw [get?_completeOperation h (by decide), hagree.get?_eq (by decide)]
  have hbody : Members.get? "requestBody" op' = Members.get? "requestBody" op := by
    rw [get?_completeOperation h (by decide), hagree.get?_eq (by decide)]
  refine ⟨by rw [Members.valueAt, hresponses]; exact hop.responses,
    by rw [hbody]; exact hop.requestBody, ?_⟩
  intro w hw
  rw [get?_completeOperation h (by decide)] at hw
  cases hcallbacks : Members.get? (.str "callbacks") op with
  | none =>
      rw [Members.Aligned.get?_none hagree hcallbacks] at hw
      contradiction
  | some v =>
      obtain ⟨k, w', hk, hw', hcompleted⟩ := Members.Aligned.get?_some hagree hcallbacks
      obtain rfl : w' = w := Option.some.inj (hw'.symm.trans hw)
      rw [if_pos hk] at hcompleted
      exact isStocked_callbacks (hop.callbacks v hcallbacks) hcompleted

/-- Completion leaves a document without empty maps. -/
theorem complete_stocked {document result : Value} (hdocument : WellStocked document)
    (h : complete document = .ok result) : WellStocked result := by
  obtain ⟨ms, hms, -⟩ := bind_eq_ok.mp h
  obtain rfl := members_eq_ok.mp hms
  obtain ⟨ns, rfl, -⟩ := complete_of_ok h
  obtain ⟨-, paths, paths', hread, hcompletion, hpaths⟩ := complete_parts h
  refine ⟨?_, ?_⟩
  · intro v hv
    obtain rfl : Value.object paths' = v := by simpa [hpaths] using hv
    refine operationsHave_completion completeOperation_stocked ?_ hcompletion
    rcases eq_nil_or_eq_some_of_orElse hread with rfl | hget
    · exact fun e he => by simp at he
    · exact hdocument.operations _ hget
  · rw [ServersStocked, listAt_complete (by simp) h]
    exact hdocument.servers

/-! ## Commands and runs -/

/-- Whether a command puts members of the user's choice in place of maps that
must not be empty. -/
def bringsMaps : Command Unit → Bool
  | .setDocument _ => true
  | .paths (.update _ _) => true
  | .operation _ _ e => replacesMaps e
  | .servers (.update _ _) => true
  | _ => false

private theorem keeps_of_leaves {e : Edit Unit} (hpaths : e.Leaves "paths")
    (hservers : e.Leaves "servers") :
    Edit.Keeps Stocked e := by
  intro ms ms' hms h
  refine ⟨hms.operations.congr (hpaths ms ms' h), ?_⟩
  rw [ServersStocked, Members.listAt, Members.valueAt, hservers ms ms' h]
  exact hms.servers

private theorem keeps_of_paths {e : Edit Unit} (hacts : e.ActsOn "paths")
    (he : Edit.Keeps (OperationsHave OperationStocked) e) : Edit.Keeps Stocked e := by
  intro ms ms' hms h
  refine ⟨he ms ms' hms.operations h, ?_⟩
  rw [ServersStocked, Members.listAt, Members.valueAt,
    hacts.leaves (by decide) ms ms' h]
  exact hms.servers

private theorem keeps_of_servers {e : Edit Unit} (hacts : e.ActsOn "servers")
    (he : Edit.Keeps ServersStocked e) :
    Edit.Keeps Stocked e :=
  fun ms ms' hms h =>
    ⟨hms.operations.congr (hacts.leaves (by decide) ms ms' h), he ms ms' hms.servers h⟩

/-- The edit that any other command makes leaves a document without empty maps. -/
theorem stocked_of_editOf {command : Command Unit} {e : Edit Unit}
    (hcommand : bringsMaps command = false) (he : editOf command = some e) :
    Edit.Keeps Stocked e := by
  unfold editOf at he
  split at he
  · obtain rfl := Option.some.inj he
    exact fun ms ms' _ h => (Edit.nothing_ne_some.mp h).elim
  · cases command with
    | setDocument | saveSnapshot | undo | loadSample | reset => simp at he
    | info | externalDocs =>
        obtain rfl := Option.some.inj he
        exact keeps_of_leaves ((Edit.actsOn_changeMap _ _).leaves (by decide))
          ((Edit.actsOn_changeMap _ _).leaves (by decide))
    | servers edit =>
        obtain rfl := Option.some.inj he
        refine keeps_of_servers (editServers_actsOn edit) (editServers_stocked ?_)
        rintro index server rfl
        simp [bringsMaps] at hcommand
    | tags edit =>
        obtain rfl := Option.some.inj he
        exact keeps_of_leaves ((editTags_actsOn edit).leaves (by decide))
          ((editTags_actsOn edit).leaves (by decide))
    | paths edit =>
        obtain rfl := Option.some.inj he
        refine keeps_of_paths (editPaths_actsOn edit)
          (pathItemsHave_editPaths (fun e he => by simp at he) ?_)
        rintro path item rfl
        simp [bringsMaps] at hcommand
    | operation path method edit =>
        obtain rfl := Option.some.inj he
        exact keeps_of_paths (editOperation_actsOn path method edit)
          (operationsHave_editOperation path method operationStocked_template
            (editWithinOperation_stocked hcommand))
    | renameOperation path oldMethod newMethod =>
        obtain rfl := Option.some.inj he
        exact keeps_of_paths (Edit.actsOn_withinMap "paths" _)
          (operationsHave_renameOperation path oldMethod newMethod)
    | security edit =>
        obtain rfl := Option.some.inj he
        exact keeps_of_leaves (editSecurity_leaves (by decide) (by decide) edit)
          (editSecurity_leaves (by decide) (by decide) edit)
    | schemas edit =>
        obtain rfl := Option.some.inj he
        have hacts : Edit.ActsOn "components" (editSchemas id edit) := by
          cases edit <;> exact Edit.actsOn_withinMap "components" _
        exact keeps_of_leaves (hacts.leaves (by decide)) (hacts.leaves (by decide))

/-- A command that brings no maps leaves a state without empty ones. -/
theorem apply_stocked {state next : State Unit} {command : Command Unit}
    (hcommand : bringsMaps command = false) (hstate : StateStocked state)
    (h : state.apply command = .ok next) : StateStocked next := by
  cases hedit : editOf command with
  | some e =>
      rcases apply_cases_of_editOf hedit h with rfl | ⟨ms, ns, hms, hns, rfl⟩
      · exact hstate
      · have hdocument := hstate.document
        rw [hms] at hdocument
        exact ⟨stocked_of_editOf hcommand hedit ms ns hdocument hns, hstate.snapshot⟩
  | none =>
      cases command with
      | setDocument => simp [bringsMaps] at hcommand
      | saveSnapshot =>
          obtain rfl := Except.ok.inj h
          refine ⟨hstate.document, ?_⟩
          rintro v hv
          obtain rfl := Option.some.inj hv
          exact hstate.document
      | undo =>
          change state.goBack .plain = .ok next at h
          unfold State.goBack at h
          split at h
          · rename_i v hsnapshot
            obtain ⟨completed, hcompleted, h⟩ := bind_eq_ok.mp h
            obtain rfl := Except.ok.inj h
            exact ⟨complete_stocked (hstate.snapshot v hsnapshot) hcompleted,
              hstate.snapshot⟩
          · obtain rfl := Except.ok.inj h
            exact hstate
      | loadSample =>
          obtain rfl := Except.ok.inj h
          exact ⟨wellStocked_sample, hstate.snapshot⟩
      | reset =>
          obtain rfl := Except.ok.inj h
          exact ⟨wellStocked_template, hstate.snapshot⟩
      | _ =>
          unfold editOf at hedit
          split at hedit <;> contradiction

end ApiWorkbench.Editor
