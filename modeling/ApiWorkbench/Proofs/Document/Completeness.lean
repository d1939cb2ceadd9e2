import ApiWorkbench.Proofs.Document.Filling
import ApiWorkbench.Proofs.Document.OperationPlaces

/-!
# What complete documents are

`Complete` says of the members of a document, without running the completion, what it
takes to be complete: which members are there, that a blank one among them has its empty
form, that no path item shares parameters any more, and that every operation at any
callback depth has its tags, its own parameters and its external documents.

Completion brings this about, and leaves alone what has it. So a document is complete
exactly when completing it changes nothing, and completing a document twice is
completing it once.

## Main results

* `complete_of_ok`: the result of completion is complete.
* `complete_fixed`: completion leaves a complete document alone.
* `complete_eq_self_iff`: a document is left alone exactly when it is complete.
* `complete_idempotent`: a second completion changes nothing.
-/

namespace ApiWorkbench.Document

/-! ## Parameters -/

/-- Every object in a list is identified as a parameter. -/
def HasKeys (parameters : List Value) : Prop :=
  ∃ keys, parameterKeys parameters = .ok keys

theorem hasKeys_cons_object {ms : Members} {rest : List Value} :
    HasKeys (.object ms :: rest) ↔ (∃ key, parameterKey ms = .ok key) ∧
      HasKeys rest := by
  constructor
  · rintro ⟨keys, h⟩
    obtain ⟨key, hkey, hrest⟩ := bind_eq_ok.mp h
    obtain ⟨others, hothers, -⟩ := bind_eq_ok.mp hrest
    exact ⟨⟨key, hkey⟩, others, hothers⟩
  · rintro ⟨⟨key, hkey⟩, others, hothers⟩
    exact ⟨key :: others, by simp [parameterKeys, hkey, hothers]⟩

/-- The parameters of a list are identified one by one. -/
theorem hasKeys_iff {parameters : List Value} :
    HasKeys parameters ↔ ∀ ms, Value.object ms ∈ parameters →
      ∃ key, parameterKey ms = .ok key := by
  induction parameters with
  | nil => simp [HasKeys, parameterKeys]
  | cons v rest ih =>
      cases v with
      | marked mark ms =>
          rw [hasKeys_cons_object, ih]
          simp
      | _ =>
          rw [HasKeys] at ih ⊢
          simpa [parameterKeys] using ih

/-- What is taken over from shared parameters is some of them, each identified. -/
theorem newParameters_spec {shared added : List Value} {seen : List ParameterKey}
    (h : newParameters seen shared = .ok added) :
    HasKeys added ∧ (∀ p ∈ added, p ∈ shared) := by
  induction shared generalizing seen added with
  | nil =>
      obtain rfl := Except.ok.inj h
      exact ⟨⟨[], rfl⟩, by simp⟩
  | cons v rest ih =>
      cases v with
      | marked mark ms =>
          obtain ⟨key, hkey, hrest⟩ := bind_eq_ok.mp h
          split at hrest
          · obtain ⟨hkeys, hsub⟩ := ih hrest
            exact ⟨hkeys, fun p hp => by simp [hsub p hp]⟩
          · obtain ⟨others, hothers, heq⟩ := bind_eq_ok.mp hrest
            obtain rfl := Except.ok.inj heq
            obtain ⟨hkeys, hsub⟩ := ih hothers
            refine ⟨hasKeys_cons_object.mpr ⟨⟨key, hkey⟩, hkeys⟩, fun p hp => ?_⟩
            rcases List.mem_cons.mp hp with rfl | hp
            · simp
            · simp [hsub p hp]
      | _ =>
          obtain ⟨hkeys, hsub⟩ := ih h
          exact ⟨hkeys, fun p hp => by simp [hsub p hp]⟩

/-- Merged parameters are the own ones followed by some of the shared ones, all of
them identified. -/
theorem mergeParameters_spec {shared own merged : List Value}
    (h : mergeParameters shared own = .ok merged) :
    HasKeys merged ∧ ∃ added, merged = own ++ added ∧ ∀ p ∈ added, p ∈ shared := by
  obtain ⟨seen, hseen, hrest⟩ := bind_eq_ok.mp h
  obtain ⟨added, hadded, heq⟩ := bind_eq_ok.mp hrest
  obtain rfl := Except.ok.inj heq
  obtain ⟨hkeys, hsub⟩ := newParameters_spec hadded
  refine ⟨hasKeys_iff.mpr fun ms hms => ?_, added, rfl, hsub⟩
  rcases List.mem_append.mp hms with hms | hms
  · exact hasKeys_iff.mp ⟨seen, hseen⟩ ms hms
  · exact hasKeys_iff.mp hkeys ms hms

/-- Where nothing is shared an operation keeps its parameters. -/
theorem mergeParameters_nil {own : List Value} (h : HasKeys own) :
    mergeParameters [] own = .ok own := by
  obtain ⟨keys, hkeys⟩ := h
  simp [mergeParameters, hkeys, newParameters]

/-! ## Operations and path items -/

/-- An operation with tags, parameters of its own and external documents. -/
structure CompleteOperation (op : Members) : Prop where
  tags : Filled "tags" (.list []) op
  parameters : ∃ own, Members.get? "parameters" op = some (.list own) ∧ HasKeys own
  externalDocs : Filled "externalDocs" .emptyObject op
  callbacks : PathItemEdit.UsableCallbacks op

/-- A path item without parameters shared by its operations. -/
def SharesNothing (item : Members) : Prop :=
  Members.get? "parameters" item = none

/-- The members of an operation with everything filled in but the shared parameters. -/
def filledOperation (op : Members) : Members :=
  fill "externalDocs" .emptyObject
    (fill "parameters" (.list []) (fill "tags" (.list []) op))

/-- Completing an operation is filling in its members and merging the parameters. -/
theorem completeOperation_eq_ok {item op op' : Members} :
    completeOperation item op = .ok op' ↔
      ∃ own shared merged,
        Members.get? "parameters" (filledOperation op) = some own ∧
        (((Members.get? "parameters" item).getD .null).orElse (.list [])).items =
          .ok shared ∧
        (∃ items, own.items = .ok items ∧ mergeParameters shared items = .ok merged) ∧
        op' = Members.put "parameters" (.list merged) (filledOperation op) := by
  obtain ⟨own, hown, -⟩ : Filled "parameters" (.list []) (filledOperation op) :=
    (filled_congr (get?_fill_of_ne (by decide) _ _)).mpr (filled_fill _ _ _)
  rw [filledOperation] at hown ⊢
  rw [completeOperation, Members.modifyM_eq, hown]
  simp only [map_eq_ok, bind_eq_ok, Option.some.injEq, pure_eq_ok, Except.ok.injEq]
  constructor
  · rintro ⟨w, ⟨shared, hshared, items, hitems, merged, hmerged, rfl⟩, rfl⟩
    exact ⟨own, shared, merged, rfl, hshared, ⟨items, hitems, hmerged⟩, rfl⟩
  · rintro ⟨own', shared, merged, rfl, hshared, ⟨items, hitems, hmerged⟩, rfl⟩
    exact ⟨_, ⟨shared, hshared, items, hitems, merged, hmerged, rfl⟩, rfl⟩

theorem membersOrNone_object (ms : Members) :
    (Value.object ms).membersOrNone = .ok ms := by
  cases ms <;> rfl

theorem itemsOrNone_list (xs : List Value) :
    (Tree.list xs : Value).itemsOrNone = .ok xs := by
  cases xs <;> rfl

theorem membersOrNone_eq (v : Value) :
    v.membersOrNone = (v.orElse .emptyObject).members := by
  rw [Tree.membersOrNone, Tree.orElse]
  split <;> rfl

theorem itemsOrNone_eq (v : Value) : v.itemsOrNone = (v.orElse (.list [])).items := by
  rw [Tree.itemsOrNone, Tree.orElse]
  split <;> rfl

/-- A completed operation has its own parameters, joined by those that the
path item shares. -/
theorem completeOperation_parameters {item op op' : Members}
    (h : completeOperation item op = .ok op') :
    ∃ own shared merged, Members.listAt "parameters" op = .ok own ∧
      Members.listAt "parameters" item = .ok shared ∧
      mergeParameters shared own = .ok merged ∧
      Members.get? "parameters" op' = some (.list merged) := by
  obtain ⟨v, shared, merged, hv, hshared, ⟨own, hown, hmerged⟩, rfl⟩ :=
    completeOperation_eq_ok.mp h
  rw [filledOperation, get?_fill_of_ne (by decide), get?_fill_self,
    get?_fill_of_ne (by decide)] at hv
  obtain rfl := Option.some.inj hv
  refine ⟨own, shared, merged, ?_, ?_, hmerged, by simp⟩
  · rwa [Members.listAt, itemsOrNone_eq]
  · rwa [Members.listAt, itemsOrNone_eq]

/-- Completing an operation leaves what is under any other name. -/
theorem get?_completeOperation
    {item op op' : Members} (h : completeOperation item op = .ok op') {name : String}
    (hname : name ∉ ["tags", "parameters", "externalDocs"]) :
    Members.get? (.str name) op' = Members.get? (.str name) op := by
  simp only [List.mem_cons, List.not_mem_nil, or_false, not_or] at hname
  obtain ⟨htags, hparameters, hexternalDocs⟩ := hname
  obtain ⟨_, _, _, _, _, _, rfl⟩ := completeOperation_eq_ok.mp h
  rw [Members.get?_put, if_neg hparameters, filledOperation,
    get?_fill_of_ne hexternalDocs, get?_fill_of_ne hparameters, get?_fill_of_ne htags]

/-- Completion leaves the callbacks of an operation to those who visit it. -/
theorem mem_callbacks_of_completeOperation {item op op' : Members} {v : Value}
    (h : completeOperation item op = .ok op') (hv : (Scalar.str "callbacks", v) ∈ op') :
    (Scalar.str "callbacks", v) ∈ op := by
  obtain ⟨own, shared, merged, -, -, -, rfl⟩ := completeOperation_eq_ok.mp h
  rcases Members.mem_put_str hv with hv | hv
  · rcases mem_fill hv with hv | hv
    · rcases mem_fill hv with hv | hv
      · rcases mem_fill hv with hv | hv
        · exact hv
        · simp at hv
      · simp at hv
    · simp at hv
  · simp at hv

/-- The result of completing an operation is complete. -/
theorem completeOperation_complete
    {item op op' : Members} (husable : PathItemEdit.UsableCallbacks op)
    (h : completeOperation item op = .ok op') : CompleteOperation op' := by
  have hcallbacks := fun v hv => husable v (mem_callbacks_of_completeOperation h hv)
  obtain ⟨own, shared, merged, -, -, ⟨items, -, hmerged⟩, rfl⟩ :=
    completeOperation_eq_ok.mp h
  refine ⟨?_, ⟨merged, by simp, (mergeParameters_spec hmerged).1⟩, ?_, hcallbacks⟩
  · exact (filled_congr (by simp [filledOperation])).mpr
      (filled_fill "tags" (.list []) op)
  · exact (filled_fill "externalDocs" .emptyObject _).put_of_ne (by decide) _

/-- A complete operation has nothing to be filled in. -/
theorem filledOperation_of_complete {op : Members} (h : CompleteOperation op) :
    filledOperation op = op := by
  obtain ⟨own, hown, -⟩ := h.parameters
  have hfilled : Filled "parameters" (.list []) op := ⟨.list own, hown, list_of_isBlank⟩
  rw [filledOperation, fill_of_filled h.tags, fill_of_filled hfilled,
    fill_of_filled h.externalDocs]

/-- A complete operation is left alone where nothing is shared. -/
theorem completeOperation_fixed {item op : Members} (hitem : SharesNothing item)
    (h : CompleteOperation op) :
    completeOperation item op = .ok op := by
  obtain ⟨own, hown, hkeys⟩ := h.parameters
  have hfilled := filledOperation_of_complete h
  refine completeOperation_eq_ok.mpr
    ⟨.list own, [], own, by rw [hfilled, hown], ?_, ?_, ?_⟩
  · rw [show Members.get? "parameters" item = none from hitem]
    rfl
  · exact ⟨own, rfl, mergeParameters_nil hkeys⟩
  · rw [hfilled, Members.put_of_get? hown]

/-- Completion visits operations as an edit does. -/
theorem completion_regular : completion.Regular where
  item _ _ := Members.mem_erase
  callbacks _ _ _ _ := mem_callbacks_of_completeOperation

/-- A map of paths without shared parameters whose operations are complete, at any
callback depth. -/
def CompletePaths (paths : Members) : Prop :=
  Throughout SharesNothing CompleteOperation paths

/-- The paths that completion gives are complete. -/
theorem pathItems_completion_complete {paths paths' : Members}
    (h : completion.pathItems paths = .ok paths') : CompletePaths paths' :=
  PathItemEdit.pathItems_throughout completion_regular
    (fun _ _ _ _ => by simp [SharesNothing, completion])
    (fun _ _ _ _ _ _ husable hop => completeOperation_complete husable hop)
    (throughout_of_forall (fun _ => trivial) (fun _ => trivial) paths) h

/-- Complete paths are left alone. -/
theorem pathItems_completion_fixed {paths : Members} (h : CompletePaths paths) :
    completion.pathItems paths = .ok paths :=
  PathItemEdit.pathItems_fixed (fun _ => Members.erase_of_absent)
    (fun _ _ hitem hop => completeOperation_fixed hitem hop)
      (fun _ hop => hop.callbacks) h

/-! ## Tags -/

/-- Tags whose objects all have external documents; or nothing to speak of in their
place. -/
def CompleteTags (v : Value) : Prop :=
  v.isBlank = true ∨ ∃ tags, v.items = .ok tags ∧
    ∀ ms, Value.object ms ∈ tags → Filled "externalDocs" .emptyObject ms

private theorem completeAnyTag_complete {tag : Value} {ms : Members}
    (h : completeAnyTag tag = .object ms) :
    Filled "externalDocs" .emptyObject ms := by
  cases tag with
  | marked mark tag =>
      obtain rfl := (Tree.marked.inj h).2
      exact filled_fill _ _ _
  | _ => simp [completeAnyTag] at h

private theorem completeAnyTag_fixed {tag : Value}
    (h : ∀ ms, tag = .object ms → Filled "externalDocs" .emptyObject ms) :
    completeAnyTag tag = tag := by
  cases tag with
  | marked mark ms => rw [completeAnyTag, completeTag, fill_of_filled (h ms rfl)]
  | _ => rfl

/-- What is no list and no pair has no objects among its items. -/
theorem object_notMem_items {v : Value} {xs : List Value} (h : v.items = .ok xs)
    (hlist : ∀ ys, v ≠ .list ys) (hpair : ∀ a b, v ≠ .pair a b) (ms : Members) :
    Value.object ms ∉ xs := by
  intro hmem
  obtain ⟨s, hs⟩ := Tree.scalar_of_mem_items h hlist hpair hmem
  contradiction

theorem completeTags_complete {v w : Value} (h : completeTags v = .ok w) :
    CompleteTags w := by
  unfold completeTags at h
  split at h
  · obtain rfl := Except.ok.inj h
    refine .inr ⟨_, rfl, fun ms hms => ?_⟩
    obtain ⟨tag, -, htag⟩ := List.mem_map.mp hms
    exact completeAnyTag_complete htag
  · obtain rfl := Except.ok.inj h
    refine .inr ⟨_, rfl, fun ms hms => ?_⟩
    simp only [List.mem_cons, List.not_mem_nil, or_false] at hms
    rcases hms with hms | hms
    · exact completeAnyTag_complete hms.symm
    · exact completeAnyTag_complete hms.symm
  · split at h
    · obtain rfl := Except.ok.inj h
      exact .inl ‹_›
    · obtain ⟨xs, hxs, heq⟩ := bind_eq_ok.mp h
      obtain rfl := Except.ok.inj heq
      exact .inr ⟨xs, hxs, fun ms hms =>
        absurd hms (object_notMem_items hxs ‹_› ‹_› ms)⟩

theorem completeTags_fixed {v : Value} (h : CompleteTags v) :
    completeTags v = .ok v := by
  unfold completeTags
  split
  · rename_i tags
    have htags : ∀ tag ∈ tags, completeAnyTag tag = tag := by
      intro tag htag
      refine completeAnyTag_fixed fun ms hms => ?_
      rcases h with hblank | ⟨xs, hxs, hall⟩
      · simp_all [Tree.isBlank]
      · obtain rfl := Except.ok.inj hxs
        exact hall ms (hms ▸ htag)
    rw [List.map_congr_left htags, List.map_id', pure_eq_ok]
  · rename_i a b
    rcases h with hblank | ⟨xs, hxs, hall⟩
    · simp [Tree.isBlank] at hblank
    · obtain rfl := Except.ok.inj hxs
      rw [completeAnyTag_fixed fun ms hms => hall ms (by simp [hms]),
        completeAnyTag_fixed fun ms hms => hall ms (by simp [hms])]
      rfl
  · split
    · rfl
    · rcases h with hblank | ⟨xs, hxs, -⟩
      · contradiction
      · simp [hxs]

/-! ## Documents -/

/-- The information about a document with contact and licence. -/
structure CompleteInfo (info : Members) : Prop where
  contact : Filled "contact" .emptyObject info
  license : Filled "license" .emptyObject info

/-- Components with all component maps. -/
def CompleteComponents (components : Members) : Prop :=
  ∀ name ∈ componentMaps, Filled name .emptyObject components

/-- The members of a document that is complete. -/
structure Complete (ms : Members) : Prop where
  tags : ∀ v, Members.get? "tags" ms = some v → CompleteTags v
  info : ∃ info, Members.get? "info" ms = some (.object info) ∧ CompleteInfo info
  externalDocs : Filled "externalDocs" .emptyObject ms
  security : Filled "security" (.list []) ms
  servers : Filled "servers" (.list []) ms
  paths : ∃ paths, Members.get? "paths" ms = some (.object paths) ∧ CompletePaths paths
  components : ∃ components, Members.get? "components" ms = some (.object components) ∧
    CompleteComponents components
  openapi : Filled "openapi" (.str defaultVersion) ms

theorem completeInfo_complete (info : Members) : CompleteInfo (completeInfo info) where
  contact := (filled_congr (get?_fill_of_ne (by decide) _ _)).mpr (filled_fill _ _ _)
  license := filled_fill _ _ _

theorem completeInfo_fixed {info : Members} (h : CompleteInfo info) :
    completeInfo info = info := by
  rw [completeInfo, fill_of_filled h.contact, fill_of_filled h.license]

/-- The component maps filled in one after the other. -/
theorem completeComponents_eq (components : Members) :
    completeComponents components =
      fill "securitySchemes" .emptyObject (fill "schemas" .emptyObject
      (fill "callbacks" .emptyObject (fill "links" .emptyObject components))) := rfl

theorem completeComponents_complete (components : Members) :
    CompleteComponents (completeComponents components) := by
  rw [completeComponents_eq]
  simp only [CompleteComponents, componentMaps, List.forall_mem_cons, List.not_mem_nil,
    false_imp_iff, implies_true, and_true]
  refine ⟨?_, ?_, ?_, filled_fill _ _ _⟩
  · exact (filled_congr (by simp)).mpr (filled_fill "links" .emptyObject components)
  · exact (filled_congr (by simp)).mpr
      (filled_fill "callbacks" .emptyObject (fill "links" .emptyObject components))
  · exact (filled_congr (get?_fill_of_ne (by decide) _ _)).mpr (filled_fill _ _ _)

theorem completeComponents_fixed {components : Members}
    (h : CompleteComponents components) :
    completeComponents components = components := by
  simp only [CompleteComponents, componentMaps, List.forall_mem_cons, List.not_mem_nil,
    false_imp_iff, implies_true, and_true] at h
  obtain ⟨hlinks, hcallbacks, hschemas, hschemes⟩ := h
  rw [completeComponents_eq, fill_of_filled hlinks, fill_of_filled hcallbacks,
    fill_of_filled hschemas, fill_of_filled hschemes]

/-- The members of a complete object that stands under a name are not none, so nothing
is filled in there. -/
theorem filled_of_object {name : String} {v : Value} {ms inner : Members}
    (hinner : Members.get? (.str name) ms = some (.object inner)) (hne : inner ≠ []) :
    Filled name v ms :=
  ⟨.object inner, hinner, fun hblank => by simp_all [Tree.isBlank]⟩

theorem Filled.ne_nil {name : String} {v : Value} {ms : Members}
    (h : Filled name v ms) : ms ≠ [] := by
  rintro rfl
  obtain ⟨w, hw, -⟩ := h
  simp [Members.get?] at hw

/-- The result of completion is a complete document. -/
theorem complete_of_ok {document result : Value} (h : complete document = .ok result) :
    ∃ ms, result = .object ms ∧ Complete ms := by
  obtain ⟨ms, ns, -, rfl, hns⟩ := completesTo_of_complete h
  have hfilled : ∀ {name : String} {empty : Value}, (name, empty) ∈
      [("externalDocs", .emptyObject), ("security", .list []), ("servers", .list []),
      ("openapi", .str defaultVersion)] → Filled name empty ns :=
    fun hform => filled_of_get?_orElse (hns.filled _ hform)
  obtain ⟨info, -, hinfo⟩ := hns.info
  obtain ⟨components, -, hcomponents⟩ := hns.components
  obtain ⟨paths, paths', -, hedit, hpaths⟩ := hns.paths
  refine ⟨ns, rfl, ?_⟩
  exact
    { tags := fun v hv => by
        obtain ⟨u, -, hu⟩ := Members.exists_of_rel_right (hv ▸ hns.tags)
        exact completeTags_complete hu
      info := ⟨completeInfo info, hinfo, completeInfo_complete info⟩
      externalDocs := hfilled (by simp)
      security := hfilled (by simp)
      servers := hfilled (by simp)
      paths := ⟨paths', hpaths, pathItems_completion_complete hedit⟩
      components := ⟨completeComponents components, hcomponents,
        completeComponents_complete components⟩
      openapi := hfilled (by simp) }

/-- Completion leaves a complete document alone. -/
theorem complete_fixed {ms : Members} (h : Complete ms) :
    complete (.object ms) = .ok (.object ms) := by
  obtain ⟨info, hinfo, hcompleteInfo⟩ := h.info
  obtain ⟨components, hcomponents, hcompleteComponents⟩ := h.components
  obtain ⟨paths, hpaths, hcompletePaths⟩ := h.paths
  have htags : Members.modifyM "tags" completeTags ms = .ok ms :=
    Members.modifyM_fixed fun v hv => completeTags_fixed (h.tags v hv)
  have hfillInfo : fill "info" untitledInfo ms = ms :=
    fill_of_filled (filled_of_object hinfo hcompleteInfo.contact.ne_nil)
  have hmodifyInfo : Members.modifyM "info" (withinObject completeInfo) ms = .ok ms :=
    Members.modifyM_fixed fun v hv => by
      obtain rfl := Option.some.inj (hinfo.symm.trans hv)
      exact withinObject_eq_ok.mpr ⟨info, rfl, by rw [completeInfo_fixed hcompleteInfo]⟩
  have hfillPaths : fill "paths" .emptyObject ms = ms :=
    fill_of_filled ⟨.object paths, hpaths, object_of_isBlank⟩
  have hfillComponents : fill "components" .emptyObject ms = ms :=
    fill_of_filled ⟨.object components, hcomponents, object_of_isBlank⟩
  have hmodifyComponents : Members.modifyM "components"
      (withinObject completeComponents) ms = .ok ms :=
    Members.modifyM_fixed fun v hv => by
      obtain rfl := Option.some.inj (hcomponents.symm.trans hv)
      exact withinObject_eq_ok.mpr
        ⟨components, rfl, by rw [completeComponents_fixed hcompleteComponents]⟩
  have hmodifyPaths : Members.modifyM "paths" completion.apply ms = .ok ms :=
    Members.modifyM_fixed fun v hv => by
      obtain rfl := Option.some.inj (hpaths.symm.trans hv)
      simp [PathItemEdit.apply, Tree.members, pathItems_completion_fixed hcompletePaths]
  simp [complete, Tree.members, htags, hfillInfo, hmodifyInfo, fill_of_filled
    h.externalDocs, fill_of_filled h.security, fill_of_filled h.servers, hfillPaths,
    hfillComponents, hmodifyComponents, hmodifyPaths, fill_of_filled h.openapi]

/-- A document is left alone by completion exactly when it is complete. -/
theorem complete_eq_self_iff {document : Value} :
    complete document = .ok document ↔ ∃ ms, document = .object ms ∧ Complete ms := by
  constructor
  · exact complete_of_ok
  · rintro ⟨ms, rfl, h⟩
    exact complete_fixed h

/-- A second completion changes nothing. -/
theorem complete_idempotent {document result : Value}
    (h : complete document = .ok result) :
    complete result = .ok result :=
  complete_eq_self_iff.mpr (complete_of_ok h)

end ApiWorkbench.Document
