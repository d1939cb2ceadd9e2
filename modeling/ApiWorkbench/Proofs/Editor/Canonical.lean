import ApiWorkbench.Editor.State
import ApiWorkbench.Proofs.Document.CompleteParts
import ApiWorkbench.Proofs.Editor.EntryEdits
import ApiWorkbench.Proofs.Editor.PathItems

/-!
# Editing keeps documents canonical

The commands of the editor keep documents canonical, except for the few that put members
of the user's choice in a place that completion looks at: what is said about a document,
a tag, a path item, an operation or a parameter.

The edits are taken by the level on which they work. Edits of servers, tags and
components put one complete member of the document; edits of paths keep paths complete;
edits of operations touch a member that completion does not look at, or put parameters
that are identified, or keep callbacks complete. Whole documents come in completed, or
are complete as they stand.

## Main results

* `editServers_keeps`, `editTags_keeps`, `editPaths_keeps`, `editOperation_keeps`,
  `editSecurity_keeps`, `editSchemas_keeps`: the edits keep documents complete.
* `apply_canonical`: a command that brings in no such members keeps a
  document canonical.
* `canonical_of_run`: so does every run of such commands, at every step.
-/

namespace ApiWorkbench.Editor

open Document Command

/-! ## Servers and tags -/

/-- The result of editing servers is a list of servers. -/
private theorem editServerVariables_spec {index : Int} {edit : Members → Members}
    {ms ms' : Members} (h : editServerVariables index edit ms = .ok (some ms')) :
    ∃ items, ms' = Members.put "servers" (.list items) ms := by
  obtain ⟨servers, -, h⟩ := bind_eq_ok.mp h
  split at h
  · exact (Edit.nothing_ne_some.mp h).elim
  · obtain ⟨server, -, h⟩ := bind_eq_ok.mp h
    exact ⟨_, (Edit.changed_eq_some.mp h).symm⟩

private theorem editServers_spec {e : ServerEdit Unit} {ms ms' : Members}
    (h : editServers e ms = .ok (some ms')) :
    ∃ items, ms' = Members.put "servers" (.list items) ms := by
  cases e with
  | add =>
      obtain ⟨_, _, rfl⟩ := Edit.append_spec h
      exact ⟨_, rfl⟩
  | update index server =>
      obtain ⟨_, _, _, rfl⟩ := Edit.replaceItem_spec h
      exact ⟨_, rfl⟩
  | remove index =>
      obtain ⟨_, _, rfl⟩ := Edit.removeItem_spec h
      exact ⟨_, rfl⟩
  | addVariable index name => exact editServerVariables_spec h
  | updateVariable index oldName newName definition => exact editServerVariables_spec h
  | removeVariable index name => exact editServerVariables_spec h

/-- Whatever is done to the servers, a list of servers is all that completion asks
for. -/
theorem editServers_keeps (e : ServerEdit Unit) :
    Edit.Keeps Complete (editServers e) := by
  intro ms ms' hms h
  obtain ⟨items, rfl⟩ := editServers_spec h
  exact hms.put "servers" list_of_isBlank

/-- The objects among the tags of a complete document have external documents. -/
private theorem tags_filled {ms : Members} (hms : Complete ms) {items : List Value}
    (hitems : Members.listAt "tags" ms = .ok items) :
    ∀ tag, Value.object tag ∈ items → Filled "externalDocs" .emptyObject tag := by
  rw [Members.listAt, Members.valueAt] at hitems
  cases hget : Members.get? "tags" ms with
  | none =>
      rw [hget] at hitems
      obtain rfl := Except.ok.inj hitems
      simp
  | some v =>
      rw [hget, Option.getD_some, Tree.itemsOrNone] at hitems
      split at hitems
      · obtain rfl := Except.ok.inj hitems
        simp
      · rcases hms.tags v hget with hblank | ⟨tags, htags, hall⟩
        · contradiction
        · rw [htags] at hitems
          obtain rfl := Except.ok.inj hitems
          exact hall

/-- Adding the template of a tag, and taking tags away, keeps a document complete. -/
theorem editTags_keeps {e : TagEdit Unit} (he : ∀ index tag, e ≠ .update index tag) :
    Edit.Keeps Complete (editTags e) := by
  intro ms ms' hms h
  cases e with
  | add =>
      obtain ⟨items, hitems, rfl⟩ := Edit.append_spec h
      refine hms.put "tags" (.inr ⟨_, rfl, ?_⟩)
      intro tag htag
      rcases List.mem_append.mp htag with htag | htag
      · exact tags_filled hms hitems tag htag
      · obtain rfl := (Tree.marked.inj (List.mem_singleton.mp htag)).2
        exact ⟨.emptyObject, rfl, fun _ => rfl⟩
  | update index tag => exact absurd rfl (he index tag)
  | remove index =>
      obtain ⟨items, hitems, rfl⟩ := Edit.removeItem_spec h
      refine hms.put "tags" (.inr ⟨_, rfl, ?_⟩)
      intro tag htag
      exact tags_filled hms hitems tag (Edit.mem_withoutItem htag)

/-! ## Components -/

/-- An edit that keeps all component maps keeps a document complete. -/
private theorem withinComponents_keeps {e : Edit Unit}
    (he : Edit.Keeps CompleteComponents e) :
    Edit.Keeps Complete (withinComponents e) := by
  refine Edit.Keeps.withinMap ?_ ?_ he
  · intro ms inner hms hinner
    obtain ⟨components, hget, hcomponents⟩ := hms.components
    rw [members_mapAt_of_object hget] at hinner
    obtain rfl := Except.ok.inj hinner
    exact hcomponents
  · intro ms inner hms hinner
    exact hms.put "components" ⟨inner, rfl, hinner⟩

/-- An edit that puts an object among the components keeps all component maps. -/
private theorem components_keeps_of_putsObject {name : String} {e : Edit Unit}
    (he : Edit.PutsObject name e) :
    Edit.Keeps CompleteComponents e := by
  intro ms ms' hms h
  obtain ⟨inner, rfl⟩ := he ms ms' h
  exact hms.putObject name inner

theorem editSchemas_keeps (copy : Value → Value) (e : SchemaEdit Unit) :
    Edit.Keeps Complete (editSchemas copy e) := by
  cases e with
  | add =>
      exact withinComponents_keeps
        (components_keeps_of_putsObject (Edit.putsObject_addEntry _ _ _))
  | update name schema =>
      exact withinComponents_keeps
        (components_keeps_of_putsObject (Edit.putsObject_putEntry _ _ _))
  | remove name =>
      exact withinComponents_keeps
        (components_keeps_of_putsObject (Edit.putsObject_removeEntry _ _))
  | rename oldName newName =>
      exact withinComponents_keeps
        (components_keeps_of_putsObject (Edit.putsObject_renameEntry _ _ _))
  | duplicate name =>
      exact withinComponents_keeps
        (components_keeps_of_putsObject (Edit.putsObject_duplicateEntry _ _ _ _))

/-- Putting the list of what is required keeps a document complete. -/
private theorem putSecurity_complete {ms : Members} (hms : Complete ms)
    (items : List Value) :
    Complete (putList "security" items ms) :=
  hms.put "security" list_of_isBlank

/-- Putting other security schemes keeps a document complete. -/
private theorem putSchemes_complete {schemes ms ms' : Members} (hms : Complete ms)
    (h : putSchemes schemes ms = .ok ms') : Complete ms' := by
  obtain ⟨components, hget, hcomponents⟩ := hms.components
  rw [putSchemes, members_mapAt_of_object hget] at h
  obtain rfl := Except.ok.inj h
  exact hms.put "components" ⟨_, rfl, hcomponents.putObject _ _⟩

private theorem withinScheme_keeps (name : String) (e : Edit Unit) :
    Edit.Keeps Complete (withinScheme name e) :=
  withinComponents_keeps
    (components_keeps_of_putsObject (Edit.putsObject_withinMap _ _))

theorem removeScheme_keeps (name : String) :
    Edit.Keeps Complete (removeScheme name) := by
  intro ms ms' hms h
  obtain ⟨_, _, kept, -, -, -, hput⟩ := removeScheme_spec h
  exact putSchemes_complete (putSecurity_complete hms kept) hput

theorem renameScheme_keeps (oldName newName : String) :
    Edit.Keeps Complete (renameScheme oldName newName) := by
  intro ms ms' hms h
  obtain ⟨_, _, _, items, -, -, -, -, hput⟩ := renameScheme_spec h
  exact putSchemes_complete (putSecurity_complete hms items) hput

theorem requireScheme_keeps (name : String) :
    Edit.Keeps Complete (requireScheme name) := by
  intro ms ms' hms h
  obtain ⟨_, _, -, rfl⟩ := requireScheme_spec h
  exact putSecurity_complete hms _

theorem releaseScheme_keeps (name : String) :
    Edit.Keeps Complete (releaseScheme name) := by
  intro ms ms' hms h
  obtain ⟨_, kept, -, -, rfl⟩ := releaseScheme_spec h
  exact putSecurity_complete hms kept

theorem editSecurity_keeps (e : SecurityEdit Unit) :
    Edit.Keeps Complete (editSecurity e) := by
  cases e with
  | add =>
      exact withinComponents_keeps
        (components_keeps_of_putsObject (Edit.putsObject_addEntry _ _ _))
  | update name scheme =>
      exact withinComponents_keeps
        (components_keeps_of_putsObject (Edit.putsObject_putEntry _ _ _))
  | changeType name type => exact withinScheme_keeps _ _
  | remove name => exact removeScheme_keeps name
  | rename oldName newName => exact renameScheme_keeps oldName newName
  | toggleFlow name flow enabled => exact withinScheme_keeps _ _
  | addScope name flow => exact withinScheme_keeps _ _
  | renameScope name flow oldScope newScope description => exact withinScheme_keeps _ _
  | removeScope name flow scope => exact withinScheme_keeps _ _
  | toggleGlobal name enabled =>
      cases enabled with
      | true => exact requireScheme_keeps name
      | false => exact releaseScheme_keeps name

/-! ## Operations -/

section

variable {op op' : Members}

/-- An edit of a member that completion does not look at keeps an operation complete. -/
private theorem operation_keeps_of_changesOnly {name : String}
    {e : Edit Unit} (hname : name ∉ operationParts) (he : Edit.ChangesOnly name e) :
    Edit.Keeps OperationComplete e := by
  intro op op' hop h
  rcases he op op' h with ⟨v, rfl⟩ | rfl
  · exact hop.put hname v
  · exact hop.erase hname

/-- The parameters that are read from a complete operation are identified. -/
private theorem hasKeys_of_listAt (hop : OperationComplete op) {items : List Value}
    (hitems : Members.listAt "parameters" op = .ok items) : HasKeys items := by
  obtain ⟨own, hget, hkeys⟩ := hop.parameters
  rw [listAt_of_list hget] at hitems
  obtain rfl := Except.ok.inj hitems
  exact hkeys

theorem addParameter_keeps :
    Edit.Keeps OperationComplete (Edit.append "parameters" Template.parameter) := by
  intro op op' hop h
  obtain ⟨items, hitems, rfl⟩ := Edit.append_spec h
  refine hop.putParameters (hasKeys_iff.mpr ?_)
  intro parameter hparameter
  rcases List.mem_append.mp hparameter with hparameter | hparameter
  · exact hasKeys_iff.mp (hasKeys_of_listAt hop hitems) parameter hparameter
  · obtain rfl := (Tree.marked.inj (List.mem_singleton.mp hparameter)).2
    exact ⟨(.str "newParam", .str "query"), rfl⟩

theorem removeParameter_keeps (index : Int) :
    Edit.Keeps OperationComplete (Edit.removeItem "parameters" index) := by
  intro op op' hop h
  obtain ⟨items, hitems, rfl⟩ := Edit.removeItem_spec h
  refine hop.putParameters (hasKeys_iff.mpr ?_)
  intro parameter hparameter
  exact hasKeys_iff.mp (hasKeys_of_listAt hop hitems) parameter
    (Edit.mem_withoutItem hparameter)

theorem addResponse_changesOnly (statusCode : String) :
    Edit.ChangesOnly "responses" (addResponse statusCode) := by
  intro op op' h
  obtain ⟨present, -, h⟩ := bind_eq_ok.mp h
  split at h
  · exact (Edit.nothing_ne_some.mp h).elim
  · obtain ⟨responses, -, h⟩ := bind_eq_ok.mp h
    exact .inl ⟨_, (Edit.changed_eq_some.mp h).symm⟩

theorem removeResponse_changesOnly (statusCode : String) :
    Edit.ChangesOnly "responses" (removeResponse statusCode) := by
  intro op op' h
  obtain ⟨responses, -, h⟩ := bind_eq_ok.mp h
  exact .inl ⟨_, (Edit.changed_eq_some.mp h).symm⟩

/-- An edit of media types changes the request body or the responses. -/
private theorem withinContent_keeps (place : ContentPlace) (e : Edit Unit) :
    Edit.Keeps OperationComplete (withinContent place e) := by
  unfold withinContent
  cases place.target with
  | requestBody =>
      exact operation_keeps_of_changesOnly (by decide)
        (Edit.putsObject_within "requestBody" _).changesOnly
  | response =>
      exact operation_keeps_of_changesOnly (by decide)
        (Edit.putsObject_withinMap "responses" _).changesOnly

/-- The callbacks that are read from a complete operation are complete. -/
private theorem callbackMapComplete_of_read
    (hop : OperationComplete op) {callbacks : Members}
    (h : (Members.mapAt "callbacks" op).toMembers = .ok callbacks) :
    CallbackMapComplete callbacks := by
  have hempty : CallbackMapComplete [] := fun e he => by simp at he
  rw [Members.mapAt, Members.valueAt, Tree.orElse] at h
  split at h
  · obtain rfl := Except.ok.inj h
    exact hempty
  · cases hget : Members.get? "callbacks" op with
    | none => simp_all [Tree.isBlank, Scalar.isBlank]
    | some v =>
        rw [hget, Option.getD_some] at h
        obtain ⟨husable, heach⟩ := hop.callbacks.of_get? hget rfl
        cases v with
        | marked mark entries =>
            obtain rfl := Except.ok.inj h
            exact heach entries rfl
        | _ => simp_all [Tree.isObject]

/-- An edit that keeps callbacks complete keeps the operation complete. -/
private theorem withinCallbacks_keeps {e : Edit Unit}
    (he : Edit.Keeps CallbackMapComplete e) :
    Edit.Keeps OperationComplete (withinCallbacks e) := by
  intro op op' hop h
  obtain ⟨callbacks, hcallbacks, h⟩ := bind_eq_ok.mp h
  obtain ⟨result, hresult, h⟩ := bind_eq_ok.mp h
  split at h
  · obtain rfl := Edit.changed_eq_some.mp h
    have hkept := he _ _ (callbackMapComplete_of_read hop hcallbacks) hresult
    unfold putUnlessEmpty
    split
    · exact hop.eraseCallbacks
    · exact hop.putCallbacks hkept
  · exact (Edit.nothing_ne_some.mp h).elim

/-- Adding a complete callback keeps callbacks complete. -/
private theorem addCallback_keeps {callback : Value}
    (hcallback : CallbackComplete callback) :
    Edit.Keeps CallbackMapComplete (addCallback callback) := by
  intro callbacks callbacks' h hedit
  obtain rfl := Edit.changed_eq_some.mp hedit
  exact h.put hcallback

/-- The template of a callback has one path item, and that is empty. -/
private theorem callbackComplete_template : CallbackComplete Template.callback := by
  intro inner hinner
  obtain rfl := (Tree.marked.inj hinner).2
  refine completePaths_iff.mpr ?_
  intro e he item hitem
  obtain rfl := List.mem_singleton.mp he
  obtain rfl := (Tree.marked.inj hitem).2
  exact ⟨rfl, fun e he => by simp at he⟩

private theorem renameCallback_keeps (oldName newName : String) :
    Edit.Keeps CallbackMapComplete (renameCallback oldName newName) := by
  intro callbacks callbacks' h hedit
  unfold renameCallback at hedit
  split at hedit
  · exact (Edit.nothing_ne_some.mp hedit).elim
  · obtain ⟨entries, hentries, hedit⟩ := bind_eq_ok.mp hedit
    obtain rfl := Edit.changed_eq_some.mp hedit
    exact h.rename? (fun _ _ _ _ hv => hv) (renamed_eq_ok.mp hentries) fun _ hv => hv

private theorem removeCallback_keeps (name : String) :
    Edit.Keeps CallbackMapComplete (removeCallback name) := by
  intro callbacks callbacks' h hedit
  unfold removeCallback at hedit
  split at hedit
  · obtain rfl := Edit.changed_eq_some.mp hedit
    exact h.erase name
  · exact (Edit.nothing_ne_some.mp hedit).elim

private theorem duplicateCallback_keeps (name : String) :
    Edit.Keeps CallbackMapComplete (duplicateCallback id name) := by
  intro callbacks callbacks' h hedit
  unfold duplicateCallback at hedit
  split at hedit
  · rename_i callback hget
    exact addCallback_keeps (h.of_get? hget) callbacks callbacks' h hedit
  · exact (Edit.nothing_ne_some.mp hedit).elim

/-- Every edit of an operation keeps it complete, but for those that put members of the
user's choice over it or over a parameter. -/
theorem editWithinOperation_keeps
    {e : OperationEdit Unit} (hupdate : ∀ changes, e ≠ .update changes)
    (hparameter : ∀ index parameter, e ≠ .updateParameter index parameter) :
    Edit.Keeps OperationComplete (editWithinOperation id e) := by
  cases e with
  | add => exact fun op op' hop h => (Edit.nothing_ne_some.mp h).elim
  | remove => exact fun op op' hop h => (Edit.nothing_ne_some.mp h).elim
  | update changes => exact absurd rfl (hupdate changes)
  | addParameter => exact addParameter_keeps
  | updateParameter index parameter => exact absurd rfl (hparameter index parameter)
  | removeParameter index => exact removeParameter_keeps index
  | addResponse statusCode =>
      exact operation_keeps_of_changesOnly (by decide)
        (addResponse_changesOnly statusCode)
  | updateResponse statusCode response =>
      exact operation_keeps_of_changesOnly (by decide)
        (Edit.putsObject_putEntry "responses" _ _).changesOnly
  | removeResponse statusCode =>
      exact operation_keeps_of_changesOnly (by decide)
        (removeResponse_changesOnly statusCode)
  | renameResponse oldStatus newStatus =>
      exact operation_keeps_of_changesOnly (by decide)
        (Edit.putsObject_renameEntry "responses" _ _).changesOnly
  | addRequestBody =>
      intro op op' hop h
      obtain rfl := Edit.changed_eq_some.mp h
      exact hop.put (by decide) _
  | updateRequestBody body =>
      intro op op' hop h
      obtain rfl := Edit.changed_eq_some.mp h
      exact hop.put (by decide) _
  | removeRequestBody =>
      intro op op' hop h
      dsimp only [editWithinOperation] at h
      split at h
      · obtain rfl := Edit.changed_eq_some.mp h
        exact hop.erase (by decide)
      · exact (Edit.nothing_ne_some.mp h).elim
  | addMediaType place mediaType => exact withinContent_keeps place _
  | renameMediaType place oldType newType => exact withinContent_keeps place _
  | removeMediaType place mediaType => exact withinContent_keeps place _
  | addCallback =>
      exact withinCallbacks_keeps (addCallback_keeps callbackComplete_template)
  | renameCallback oldName newName =>
      exact withinCallbacks_keeps (renameCallback_keeps oldName newName)
  | removeCallback name => exact withinCallbacks_keeps (removeCallback_keeps name)
  | duplicateCallback name => exact withinCallbacks_keeps (duplicateCallback_keeps name)

end

/-! ## Path items -/

/-- What completeness asks of a member of a path item does not tell a method from
another name for it. -/
private theorem respectsNames_itemMemberComplete :
    Members.RespectsNames ItemMemberComplete := by
  intro k k' v hsame h hmethod
  obtain ⟨method, rfl⟩ := isMethod_iff.mp hmethod
  obtain rfl := Scalar.str_same_iff.mp hsame
  exact h hmethod

/-- A method does not name the shared parameters. -/
private theorem parameters_ne_method (method : Method) :
    "parameters" ≠ method.name := by
  cases method <;> decide

/-- Putting a complete operation keeps a path item complete. -/
private theorem itemComplete_put {item : Members} (h : ItemComplete item)
    (method : Method) {v : Value} (hv : ∀ op, v = .object op → OperationComplete op) :
    ItemComplete (Members.put method.name v item) where
  shared := by
    rw [SharesNothing, Members.get?_put, if_neg (parameters_ne_method method)]
    exact h.shared
  operations := h.operations.put fun _ => hv

/-- What stands under a method in a complete path item is complete, if it is an
operation. -/
private theorem operation_of_get? {item : Members} (h : ItemComplete item)
    {method : Method} {v : Value} (hv : Members.get? method.name item = some v) :
    ∀ op, v = .object op → OperationComplete op :=
  h.operations.of_get? hv (isMethod_name method)

private theorem operationComplete_template :
    ∀ op, Template.operation = Value.object op → OperationComplete op := by
  intro op hop
  obtain rfl := (Tree.marked.inj hop).2
  refine ⟨⟨.list [], rfl, fun _ => rfl⟩, ⟨[], rfl, [], rfl⟩,
    ⟨.emptyObject, rfl, fun _ => rfl⟩, ?_⟩
  rintro ⟨_, v⟩ hmem rfl
  simp at hmem

theorem addOperation_keeps (method : Method) :
    Edit.Keeps ItemComplete (addOperation method) := by
  intro item item' hitem h
  unfold addOperation at h
  split at h
  · exact (Edit.nothing_ne_some.mp h).elim
  · obtain rfl := Edit.changed_eq_some.mp h
    exact itemComplete_put hitem method operationComplete_template

theorem removeOperation_keeps (method : Method) :
    Edit.Keeps ItemComplete (removeOperation method) := by
  intro item item' hitem h
  unfold removeOperation at h
  split at h
  · obtain rfl := Edit.changed_eq_some.mp h
    refine ⟨?_, hitem.operations.erase _⟩
    rw [SharesNothing, Members.get?_erase, if_neg (parameters_ne_method method)]
    exact hitem.shared
  · exact (Edit.nothing_ne_some.mp h).elim

/-- Renaming members to a method keeps nothing shared. -/
private theorem sharesNothing_rename
    {item item' : Members} (h : SharesNothing item) {old : Scalar}
    (new : Method) (hrename : Members.rename? old new.name item = some item') :
    SharesNothing item' := by
  refine Members.get?_eq_none_iff.mpr ?_
  intro e he
  by_contra hsame
  have hname := Scalar.same_str_iff.mp (eq_true_of_ne_false hsame)
  rcases Members.mem_rename? hrename he with ⟨o, ho, -, ho'⟩ | ⟨-, hnew⟩
  · have hold : o.1.same "parameters" = true := by
      rw [hname] at ho'
      rcases ho' with ho' | ho'
      · rw [← ho']; simp
      · rw [Scalar.str_same_iff.mp ho']; simp
    rw [Members.get?_eq_none_iff.mp h o ho] at hold
    contradiction
  · rw [hname] at hnew
    rcases hnew with hnew | hnew
    · exact parameters_ne_method new (Scalar.str.inj hnew)
    · exact parameters_ne_method new (by simpa using hnew)

theorem renameOperation_keeps (oldMethod newMethod : Method) :
    Edit.Keeps ItemComplete (renameOperation oldMethod newMethod) := by
  intro item item' hitem h
  unfold renameOperation at h
  split at h
  · exact (Edit.nothing_ne_some.mp h).elim
  · rename_i v w hv hw
    obtain rfl := Edit.changed_eq_some.mp h
    exact itemComplete_put (itemComplete_put hitem oldMethod
      (operation_of_get? hitem hw)) newMethod (operation_of_get? hitem hv)
  · obtain ⟨entries, hentries, h⟩ := bind_eq_ok.mp h
    obtain rfl := Edit.changed_eq_some.mp h
    have hrename := renamed_eq_ok.mp hentries
    exact ⟨sharesNothing_rename hitem.shared newMethod hrename,
      hitem.operations.rename? respectsNames_itemMemberComplete hrename fun v hv _ =>
        hv (isMethod_name oldMethod)⟩

/-- An edit of an operation that keeps it complete keeps its path item complete. -/
private theorem withinOperation_keeps (method : Method) {e : Edit Unit}
    (he : Edit.Keeps OperationComplete e) :
    Edit.Keeps ItemComplete (Edit.within method.name e) := by
  refine Edit.Keeps.within ?_ ?_ he
  · intro item op hitem hop
    exact operation_of_get? hitem hop op rfl
  · intro item op hitem hop
    refine itemComplete_put hitem method ?_
    intro op' heq
    obtain rfl := (Tree.marked.inj heq).2
    exact hop

/-! ## Paths -/

private theorem pathItemsHave_of_complete {ms : Members} (hms : Complete ms) :
    PathItemsHave ItemComplete ms := by
  intro v hv
  obtain ⟨paths, hget, hpaths⟩ := hms.paths
  obtain rfl : Value.object paths = v := Option.some.inj (hget.symm.trans hv)
  rintro ⟨name, v⟩ hmem
  cases v with
  | marked mark item => exact completePaths_iff.mp hpaths _ hmem item rfl
  | _ => trivial

/-- An edit that puts paths whose path items are complete keeps the document
complete. -/
private theorem complete_of_pathItems {e : Edit Unit}
    (hputs : Edit.PutsObject "paths" e)
    (he : Edit.Keeps (PathItemsHave ItemComplete) e) : Edit.Keeps Complete e := by
  intro ms ms' hms h
  have hpaths := he ms ms' (pathItemsHave_of_complete hms) h
  obtain ⟨paths, rfl⟩ := hputs ms ms' h
  refine hms.put "paths" ⟨paths, rfl, completePaths_iff.mpr ?_⟩
  rintro ⟨name, _⟩ hmem item rfl
  exact hpaths (.object paths) (by simp) _ hmem

/-- An edit of a path item that keeps it complete keeps the document complete. -/
theorem withinPath_keeps (path : String) {e : Edit Unit}
    (he : Edit.Keeps ItemComplete e) :
    Edit.Keeps Complete (withinPath path e) :=
  complete_of_pathItems (Edit.putsObject_withinMap "paths" _)
    (pathItemsHave_withinPath path he)

/-- Every edit of the paths keeps a document complete, but for the one that puts members
of the user's choice over a path item. -/
theorem editPaths_keeps {e : PathEdit Unit} (he : ∀ path item, e ≠ .update path item) :
    Edit.Keeps Complete (editPaths id e) :=
  complete_of_pathItems (putsObject_editPaths e)
    (pathItemsHave_editPaths ⟨rfl, fun e he => by simp at he⟩ he)

theorem editOperation_keeps (path : String) (method : Method) {e : OperationEdit Unit}
    (hupdate : ∀ changes, e ≠ .update changes)
    (hparameter : ∀ index parameter, e ≠ .updateParameter index parameter) :
    Edit.Keeps Complete (editOperation id path method e) := by
  unfold editOperation
  split
  · exact withinPath_keeps path (addOperation_keeps method)
  · exact withinPath_keeps path (removeOperation_keeps method)
  · exact withinPath_keeps path
      (withinOperation_keeps method (editWithinOperation_keeps hupdate hparameter))

/-! ## Commands and runs -/

/-- Whether a command puts members of the user's choice over something that
completion looks into. -/
def overwritesParts {μ : Type} : Command μ → Bool
  | .info _ => true
  | .tags (.update _ _) => true
  | .paths (.update _ _) => true
  | .operation _ _ (.update _) => true
  | .operation _ _ (.updateParameter _ _) => true
  | _ => false

/-- Members put over the external documents of a document keep it complete. -/
private theorem changeExternalDocs_keeps (changes : Members) :
    Edit.Keeps Complete (changeMap "externalDocs" changes) := by
  intro ms ms' hms h
  obtain ⟨map, -, h⟩ := bind_eq_ok.mp h
  obtain rfl := Edit.changed_eq_some.mp h
  exact hms.put "externalDocs" object_of_isBlank

/-- An edit that keeps documents complete keeps them canonical. -/
private theorem edit_canonical {state state' : State Unit}
    {e : Edit Unit} (he : Edit.Keeps Complete e) (hstate : Canonical state.document)
    (h : state.edit e = .ok state') : Canonical state'.document := by
  rcases State.edit_cases h with rfl | ⟨ms, ns, hdocument, hns, rfl⟩
  · exact hstate
  · rw [hdocument, canonical_object_iff] at hstate
    exact canonical_object_iff.mpr (he ms ns hstate hns)

/-- A document that is accepted into the editor is canonical there. -/
private theorem accept_canonical {state state' : State Unit} {document : Value}
    (h : state.accept .plain document = .ok state') : Canonical state'.document := by
  obtain ⟨completed, hcomplete, h⟩ := bind_eq_ok.mp h
  obtain rfl := Except.ok.inj h
  exact complete_idempotent hcomplete

/-- A command that puts nothing over the parts that completion looks into keeps
documents canonical. -/
theorem apply_canonical {state state' : State Unit} {command : Command Unit}
    (hcommand : overwritesParts command = false) (hstate : Canonical state.document)
    (h : state.apply command = .ok state') : Canonical state'.document := by
  unfold State.apply State.applyWith at h
  split at h
  · obtain rfl := Except.ok.inj h
    exact hstate
  · cases command with
    | setDocument document => exact accept_canonical h
    | saveSnapshot =>
        obtain rfl := Except.ok.inj h
        exact hstate
    | undo =>
        dsimp only [State.goBack] at h
        split at h
        · exact accept_canonical h
        · obtain rfl := Except.ok.inj h
          exact hstate
    | loadSample =>
        obtain rfl := Except.ok.inj h
        exact canonical_sample
    | reset =>
        obtain rfl := Except.ok.inj h
        exact canonical_template
    | info changes => simp [overwritesParts] at hcommand
    | externalDocs changes =>
        exact edit_canonical (changeExternalDocs_keeps changes) hstate h
    | servers e => exact edit_canonical (editServers_keeps e) hstate h
    | tags e =>
        refine edit_canonical (editTags_keeps ?_) hstate h
        rintro index tag rfl
        simp [overwritesParts] at hcommand
    | paths e =>
        refine edit_canonical (editPaths_keeps ?_) hstate h
        rintro path item rfl
        simp [overwritesParts] at hcommand
    | operation path method e =>
        refine edit_canonical (editOperation_keeps path method ?_ ?_) hstate h
        · rintro changes rfl
          simp [overwritesParts] at hcommand
        · rintro index parameter rfl
          simp [overwritesParts] at hcommand
    | renameOperation path oldMethod newMethod =>
        exact edit_canonical
          (withinPath_keeps path (renameOperation_keeps oldMethod newMethod)) hstate h
    | security e => exact edit_canonical (editSecurity_keeps e) hstate h
    | schemas e => exact edit_canonical (editSchemas_keeps id e) hstate h

/-- What each command of a run keeps, every state that the run passes through has. -/
theorem throughout_run {P : State Unit → Prop} {state last : State Unit}
    {commands : List (Command Unit)} (hstep : ∀ state next, ∀ command ∈ commands,
      P state → state.apply command = .ok next → P next) (hstate : P state)
    (hrun : state.applyAll commands = .ok last) :
    ∀ n, ∃ reached, state.applyAll (commands.take n) = .ok reached ∧ P reached := by
  induction commands generalizing state with
  | nil =>
      intro n
      exact ⟨state, by rw [List.take_nil]; rfl, hstate⟩
  | cons command rest ih =>
      obtain ⟨next, hnext, hrest⟩ := bind_eq_ok.mp hrun
      intro n
      cases n with
      | zero => exact ⟨state, rfl, hstate⟩
      | succ n =>
          obtain ⟨reached, hreached, hP⟩ := ih
            (fun state next command hmem => hstep state next command (by simp [hmem]))
            (hstep state next command (by simp) hstate hnext) hrest n
          exact ⟨reached, bind_eq_ok.mpr ⟨next, hnext, hreached⟩, hP⟩

/-- Every state that a run of such commands passes through has a canonical document, if
the first one has. -/
theorem canonical_of_run {state last : State Unit} {commands : List (Command Unit)}
    (hstate : Canonical state.document)
    (hcommands : ∀ command ∈ commands, overwritesParts command = false)
    (hrun : state.applyAll commands = .ok last) :
    ∀ n, ∃ reached, state.applyAll (commands.take n) = .ok reached ∧
      Canonical reached.document :=
  throughout_run (P := fun state => Canonical state.document)
    (fun _ _ command hmem hcanonical hnext =>
      apply_canonical (hcommands command hmem) hcanonical hnext) hstate hrun

end ApiWorkbench.Editor
