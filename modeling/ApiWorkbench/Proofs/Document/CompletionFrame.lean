import ApiWorkbench.Proofs.Document.Completeness
import ApiWorkbench.Proofs.Document.EveryDepth
import ApiWorkbench.Proofs.Names

/-!
# What completion leaves alone

Completing a document fills in certain members and moves the parameters that a path
shares into its operations. That is said here member by member and at every callback
depth, together with what it does not touch: every other member of the document, of
its tags, its information, its components, its path items and its operations keeps
its value, and all keep their places. Members that were missing stand at the end in
a fixed order.

## Main results

* `mergeParameters_inherits`: no parameter that an operation inherits is lost or
  altered.
* `completion_pathsCompleted`: what becomes of the operations at every depth.
* `pathsCompleted_iff`: what that is, one level at a time.
* `documentCompleted_of_complete`: what becomes of a document.
-/

namespace ApiWorkbench.Document

open Members

/-! ## Inherited parameters -/

/-- An object in a list has a key. -/
def Declares (parameters : List Value) (key : ParameterKey) : Prop :=
  ∃ p key', Value.object p ∈ parameters ∧ parameterKey p = .ok key' ∧
    ParameterKey.same key key' = true

/-- What an operation has, with what it inherits: its own parameters come first, the
others are some of those that are shared, and each object that is shared is there or
another one with its key. -/
structure Inherits (shared own merged : List Value) : Prop where
  begins : own <+: merged
  unaltered : ∀ p ∈ merged, p ∈ own ∨ p ∈ shared
  declares : ∀ p key, Value.object p ∈ shared → parameterKey p = .ok key →
    Declares merged key

private theorem mem_parameterKeys {parameters : List Value} {keys : List ParameterKey}
    (h : parameterKeys parameters = .ok keys) {key : ParameterKey} (hkey : key ∈ keys) :
    ∃ p, Value.object p ∈ parameters ∧ parameterKey p = .ok key := by
  induction parameters generalizing keys with
  | nil =>
      obtain rfl := Except.ok.inj h
      simp at hkey
  | cons v rest ih =>
      cases v with
      | marked mark p =>
          obtain ⟨first, hfirst, h⟩ := bind_eq_ok.mp h
          obtain ⟨others, hothers, heq⟩ := bind_eq_ok.mp h
          obtain rfl := Except.ok.inj heq
          rcases List.mem_cons.mp hkey with rfl | hkey
          · exact ⟨p, List.mem_cons_self, hfirst⟩
          · obtain ⟨q, hq, hqkey⟩ := ih hothers hkey
            exact ⟨q, List.mem_cons_of_mem _ hq, hqkey⟩
      | _ =>
          obtain ⟨q, hq, hqkey⟩ := ih h hkey
          exact ⟨q, List.mem_cons_of_mem _ hq, hqkey⟩

theorem ParameterKey.same_refl (key : ParameterKey) :
    ParameterKey.same key key = true := by
  simp [ParameterKey.same]

/-- Every key among the shared parameters was seen before, or is one of those
that are added. -/
private theorem seen_or_declares {seen : List ParameterKey} {shared added : List Value}
    (h : newParameters seen shared = .ok added) {p : Members} {key : ParameterKey}
    (hp : Value.object p ∈ shared)
    (hkey : parameterKey p = .ok key) : seen.any (ParameterKey.same key) = true ∨
      Declares added key := by
  induction shared generalizing seen added with
  | nil => simp at hp
  | cons v rest ih =>
      cases v with
      | marked mark q =>
          obtain ⟨first, hfirst, h⟩ := bind_eq_ok.mp h
          rcases List.mem_cons.mp hp with heq | hp
          · obtain rfl := (Tree.marked.inj heq).2
            obtain rfl := Except.ok.inj (hkey.symm.trans hfirst)
            split at h
            · exact .inl ‹_›
            · obtain ⟨others, -, heq⟩ := bind_eq_ok.mp h
              obtain rfl := Except.ok.inj heq
              exact .inr ⟨p, key, List.mem_cons_self, hkey, ParameterKey.same_refl key⟩
          · split at h
            · exact ih h hp
            · obtain ⟨others, hothers, heq⟩ := bind_eq_ok.mp h
              obtain rfl := Except.ok.inj heq
              rcases ih hothers hp with hseen | ⟨r, key', hr, hkey', hsame⟩
              · rw [List.any_cons, Bool.or_eq_true] at hseen
                rcases hseen with hsame | hseen
                · exact .inr ⟨q, first, List.mem_cons_self, hfirst, hsame⟩
                · exact .inl hseen
              · exact .inr ⟨r, key', List.mem_cons_of_mem _ hr, hkey', hsame⟩
      | _ =>
          rcases List.mem_cons.mp hp with heq | hp
          · contradiction
          · exact ih h hp

/-- No parameter that an operation inherits is lost or altered. -/
theorem mergeParameters_inherits {shared own merged : List Value}
    (h : mergeParameters shared own = .ok merged) :
    Inherits shared own merged := by
  obtain ⟨seen, hseen, h⟩ := bind_eq_ok.mp h
  obtain ⟨added, hadded, heq⟩ := bind_eq_ok.mp h
  obtain rfl := Except.ok.inj heq
  refine ⟨List.prefix_append own added, fun p hp => ?_, fun p key hp hkey => ?_⟩
  · rcases List.mem_append.mp hp with hp | hp
    · exact .inl hp
    · exact .inr ((newParameters_spec hadded).2 p hp)
  · rcases seen_or_declares hadded hp hkey with hany | ⟨q, key', hq, hkey', hsame⟩
    · obtain ⟨key', hkey', hsame⟩ := List.any_eq_true.mp hany
      obtain ⟨q, hq, hqkey⟩ := mem_parameterKeys hseen hkey'
      exact ⟨q, key', List.mem_append_left _ hq, hqkey, hsame⟩
    · exact ⟨q, key', List.mem_append_right _ hq, hkey', hsame⟩

/-! ## Operations -/

/-- What becomes of an operation of a path item, given what becomes of the maps of paths
in its callbacks. -/
structure OperationCompleted (inside : Members → Members → Prop)
    (item op op' : Members) : Prop where
  others : SameBut ["tags", "parameters", "externalDocs", "callbacks"]
    (withNames ["tags", "parameters", "externalDocs"] op) op'
  tags : get? "tags" op' = some ((valueAt "tags" op).orElse (.list []))
  externalDocs : get? "externalDocs" op' =
    some ((valueAt "externalDocs" op).orElse .emptyObject)
  parameters : ∃ shared own merged, listAt "parameters" item = .ok shared ∧
    listAt "parameters" op = .ok own ∧
    mergeParameters shared own = .ok merged ∧ Inherits shared own merged ∧
      get? "parameters" op' = some (.list merged)
  callbacks : ∀ v, get? "callbacks" op = some v →
    ∃ w, get? "callbacks" op' = some w ∧ CallbacksBecome inside v w

/-- An operation of a path item that shares nothing keeps its own parameters. -/
theorem OperationCompleted.parameters_of_own
    {inside : Members → Members → Prop} {item op op' : Members}
    (h : OperationCompleted inside item op op') (hnone : get? "parameters" item = none)
    {own : List Value} (hown : listAt "parameters" op = .ok own) :
    get? "parameters" op' = some (.list own) := by
  obtain ⟨shared, own', merged, hshared, hown', hmerged, -, hget⟩ := h.parameters
  obtain rfl := Except.ok.inj (hown.symm.trans hown')
  have hnothing : shared = [] := by
    rw [listAt, valueAt, hnone] at hshared
    exact (Except.ok.inj hshared).symm
  obtain ⟨-, added, rfl, hadded⟩ := mergeParameters_spec hmerged
  obtain rfl : added = [] := List.eq_nil_iff_forall_not_mem.mpr fun p hp => by
    simpa [hnothing] using hadded p hp
  rwa [List.append_nil] at hget

/-- Members that completion does not look at stay as they are. -/
theorem OperationCompleted.get?_eq {inside : Members → Members → Prop}
    {item op op' : Members} (h : OperationCompleted inside item op op') {name : String}
    (hname : name ∉ ["tags", "parameters", "externalDocs", "callbacks"]) :
    get? (.str name) op' = get? name op := by
  rw [h.others.get?_eq hname]
  exact get?_withNames fun hmem => hname (List.mem_append_left ["callbacks"] hmem)

/-- What becomes of a map of paths: path items lose the parameters that they share, and
operations are completed. -/
def PathsCompleted : Members → Members → Prop :=
  AtEveryDepth (PathLevel (erase "parameters") OperationCompleted)

/-- Completing an operation leaves everything but its tags, parameters and
external documents. -/
private theorem sameBut_completeOperation {item op op' : Members}
    (h : completeOperation item op = .ok op') :
    SameBut ["tags", "parameters", "externalDocs"]
      (withNames ["tags", "parameters", "externalDocs"] op) op' := by
  obtain ⟨own, shared, merged, hown, -, -, rfl⟩ := completeOperation_eq_ok.mp h
  have hfilled := sameBut_fillAll [("tags", .list []), ("parameters", .list []),
    ("externalDocs", .emptyObject)] op
  exact hfilled.trans ((sameBut_put hown _).mono (by simp))

theorem completion_operationCompleted
    {inside : Members → Members → Prop} {item op op₁ op' : Members}
    (hagree : PathItemEdit.AgreeButCallbacks (CallbacksBecome inside) op op₁)
    (h : completeOperation item op₁ = .ok op') :
    OperationCompleted inside item op op' := by
  have hread : ∀ {name : String}, name ≠ "callbacks" →
      valueAt name op₁ = valueAt name op := fun hname => by
    rw [valueAt, valueAt, hagree.get?_eq hname]
  have hfilled : FilledIn [("tags", .list []), ("parameters", .list []),
      ("externalDocs", .emptyObject)] op₁ (filledOperation op₁) :=
    filledIn_fillAll (by simp) op₁
  refine
    { others := ?_
      tags := ?_
      externalDocs := ?_
      parameters := ?_
      callbacks := fun v hv => ?_ }
  · exact ((hagree.sameBut.withNames _).mono (by simp)).trans
      ((sameBut_completeOperation h).mono (by simp))
  · obtain ⟨_, _, _, -, -, -, rfl⟩ := completeOperation_eq_ok.mp h
    rw [get?_put, if_neg (by decide), hfilled.filled ("tags", .list []) (by simp),
      hread (by decide)]
  · obtain ⟨_, _, _, -, -, -, rfl⟩ := completeOperation_eq_ok.mp h
    rw [get?_put, if_neg (by decide),
      hfilled.filled ("externalDocs", .emptyObject) (by simp), hread (by decide)]
  · obtain ⟨own, shared, merged, hown, hshared, hmerged, hget⟩ :=
      completeOperation_parameters h
    refine ⟨shared, own, merged, hshared, ?_, hmerged,
      mergeParameters_inherits hmerged, hget⟩
    rwa [listAt, hread (by decide)] at hown
  · obtain ⟨w, hw, hvw⟩ := hagree.get?_callbacks hv
    exact ⟨w, by rw [get?_completeOperation h (by decide), hw], hvw⟩

/-- Operations are completed at every callback depth, and path items keep everything but
the parameters they share. -/
theorem completion_pathsCompleted {paths paths' : Members}
    (h : completion.pathItems paths = .ok paths') :
    PathsCompleted paths paths' :=
  PathItemEdit.atEveryDepth_of_pathItems
    (fun hchanged => Aligned.filter hchanged fun name => !name.same "parameters")
      completion_operationCompleted h

theorem OperationCompleted.imp {inside inside' : Members → Members → Prop}
    {item op op' : Members} (h : OperationCompleted inside item op op')
    (hinside : ∀ inner inner', inside inner inner' → inside' inner inner') :
    OperationCompleted inside' item op op' where
  others := h.others
  tags := h.tags
  externalDocs := h.externalDocs
  parameters := h.parameters
  callbacks v hv :=
    let ⟨w, hw, hvw⟩ := h.callbacks v hv
    ⟨w, hw, hvw.imp hinside⟩

/-- What becomes of a map of paths, one level at a time: in the callbacks of its
operations the same has become of the maps of paths there. -/
theorem pathsCompleted_iff {paths paths' : Members} :
    PathsCompleted paths paths' ↔
      PathLevel (erase "parameters") OperationCompleted PathsCompleted paths paths' :=
  atEveryDepth_iff fun hinside _ _ _ h => h.imp hinside

/-! ## Tags, information and components -/

/-- What becomes of a tag. -/
def TagCompleted : Members → Members → Prop :=
  FilledIn [("externalDocs", .emptyObject)]

/-- What becomes of the information about a document. -/
def InfoCompleted : Members → Members → Prop :=
  FilledIn [("contact", .emptyObject), ("license", .emptyObject)]

/-- What becomes of the components of a document. -/
def ComponentsCompleted : Members → Members → Prop :=
  FilledIn (componentMaps.map fun name => (name, .emptyObject))

theorem infoCompleted (info : Members) : InfoCompleted info (completeInfo info) :=
  filledIn_fillAll (by simp) info

theorem componentsCompleted (components : Members) :
    ComponentsCompleted components (completeComponents components) := by
  have hmaps : completeComponents components =
      fillAll (componentMaps.map fun name => (name, .emptyObject)) components := rfl
  rw [hmaps]
  exact filledIn_fillAll (by decide) components

private theorem onObject_completeAnyTag (v : Value) :
    OnObject TagCompleted v (completeAnyTag v) := by
  cases v with
  | marked mark tag => exact ⟨_, rfl, filledIn_fillAll (by simp) tag⟩
  | _ => rfl

theorem completeTags_tagsBecome {v w : Value} (h : completeTags v = .ok w) :
    TagsBecome TagCompleted v w := by
  unfold completeTags at h
  split at h
  · obtain rfl := Except.ok.inj h
    refine ⟨_, rfl,
      List.forall₂_map_right_iff.mpr (List.forall₂_same.mpr fun tag _ => ?_)⟩
    exact onObject_completeAnyTag tag
  · obtain rfl := Except.ok.inj h
    exact ⟨_, _, rfl, onObject_completeAnyTag _, onObject_completeAnyTag _⟩
  · obtain rfl : w = v := by
      split at h
      · exact (Except.ok.inj h).symm
      · obtain ⟨_, -, heq⟩ := bind_eq_ok.mp h
        exact (Except.ok.inj heq).symm
    exact tagsBecome_self ‹_› ‹_›

/-! ## Documents -/

/-- What becomes of the members of a document. -/
structure DocumentCompleted (ms ns : Members) : Prop where
  others : SameBut ("tags" :: addedNames) (withNames addedNames ms) ns
  tags : ∀ v, get? "tags" ms = some v → ∃ w, get? "tags" ns = some w ∧
    TagsBecome TagCompleted v w
  info : ∃ info info', (valueAt "info" ms).orElse untitledInfo = .object info ∧
    get? "info" ns = some (.object info') ∧ InfoCompleted info info'
  externalDocs : get? "externalDocs" ns =
    some ((valueAt "externalDocs" ms).orElse .emptyObject)
  security : get? "security" ns = some ((valueAt "security" ms).orElse (.list []))
  servers : get? "servers" ns = some ((valueAt "servers" ms).orElse (.list []))
  paths : ∃ paths paths', (valueAt "paths" ms).orElse .emptyObject = .object paths ∧
    get? "paths" ns = some (.object paths') ∧ PathsCompleted paths paths'
  components : ∃ components components',
    (valueAt "components" ms).orElse .emptyObject = .object components ∧
    get? "components" ns = some (.object components') ∧
      ComponentsCompleted components components'
  openapi : get? "openapi" ns =
    some ((valueAt "openapi" ms).orElse (.str defaultVersion))

/-- Completion of a document leaves everything but what it fills in and the parameters
that it moves: what it leaves has the same values in the same order, at every depth. -/
theorem documentCompleted_of_complete {document result : Value}
    (h : complete document = .ok result) :
    ∃ ms ns, document = .object ms ∧ result = .object ns ∧ DocumentCompleted ms ns := by
  obtain ⟨ms, ns, rfl, rfl, hns⟩ := completesTo_of_complete h
  obtain ⟨info, hreadInfo, hinfo⟩ := hns.info
  obtain ⟨paths, paths', hreadPaths, hedit, hpaths⟩ := hns.paths
  obtain ⟨components, hreadComponents, hcomponents⟩ := hns.components
  refine ⟨ms, ns, rfl, rfl, ?_⟩
  exact
    { others := hns.others
      tags := fun v hv => by
        obtain ⟨w, hw, hmade⟩ := exists_of_rel_left (hv ▸ hns.tags)
        exact ⟨w, hw, completeTags_tagsBecome hmade⟩
      info := ⟨info, completeInfo info, hreadInfo, hinfo, infoCompleted info⟩
      externalDocs := hns.filled ("externalDocs", .emptyObject) (by simp)
      security := hns.filled ("security", .list []) (by simp)
      servers := hns.filled ("servers", .list []) (by simp)
      paths := ⟨paths, paths', hreadPaths, hpaths, completion_pathsCompleted hedit⟩
      components := ⟨components, completeComponents components, hreadComponents,
        hcomponents, componentsCompleted components⟩
      openapi := hns.filled ("openapi", .str defaultVersion) (by simp) }

end ApiWorkbench.Document
