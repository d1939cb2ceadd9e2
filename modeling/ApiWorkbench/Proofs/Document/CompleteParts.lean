import ApiWorkbench.Document.Sample
import ApiWorkbench.Document.Template
import ApiWorkbench.Proofs.Document.Completeness

/-!
# Completeness, level by level

A document is canonical if completing it changes nothing, that is if its members are
complete. Completeness of paths is a property at every callback depth. Here it is taken
apart into what it asks on each level, a map of paths, a path item, an operation, its
callbacks, so that a change of one part keeps the whole complete if the new part is
complete on its own level.

## Main results

* `canonical_object_iff`: canonical documents are those with complete members.
* `completePaths_iff`, `itemComplete_iff`, `operationComplete_iff`: completeness of
  paths by one level.
* `Complete.put`: putting a complete member keeps a document complete.
* `OperationComplete.put`, `OperationComplete.putParameters`,
  `OperationComplete.putCallbacks`: the same for operations.
-/

namespace ApiWorkbench.Document

/-- A document that completion leaves as it is. -/
def Canonical (document : Value) : Prop :=
  complete document = .ok document

/-- The members of a canonical document are complete. -/
theorem canonical_iff {document : Value} :
    Canonical document ↔ ∃ ms, document = .object ms ∧ Complete ms :=
  complete_eq_self_iff

theorem canonical_object_iff {ms : Members} : Canonical (.object ms) ↔ Complete ms := by
  rw [canonical_iff]
  constructor
  · rintro ⟨ns, heq, h⟩
    rwa [(Tree.marked.inj heq).2]
  · intro h
    exact ⟨ms, rfl, h⟩

theorem canonical_sample : Canonical sample := rfl

theorem canonical_template : Canonical Template.document := rfl

/-! ## Completeness, level by level -/

/-- A callback whose path items are complete. -/
def CallbackComplete (v : Value) : Prop :=
  ∀ inner, v = .object inner → CompletePaths inner

/-- A map of complete callbacks. -/
def CallbackMapComplete (callbacks : Members) : Prop :=
  Members.All (fun _ v => CallbackComplete v) callbacks

/-- What may stand under the callbacks of a complete operation. -/
structure CallbacksComplete (v : Value) : Prop where
  usable : v.isObject = true ∨ v.isBlank = true
  each : ∀ callbacks, v = .object callbacks → CallbackMapComplete callbacks

/-- An operation that is complete together with its callbacks. -/
structure OperationComplete (op : Members) : Prop where
  tags : Filled "tags" (.list []) op
  parameters : ∃ own, Members.get? "parameters" op = some (.list own) ∧ HasKeys own
  externalDocs : Filled "externalDocs" .emptyObject op
  callbacks : Members.All (fun name v => name = .str "callbacks" →
    CallbacksComplete v) op

/-- A member of a path item is complete if it is an operation; others need
not be anything. -/
def ItemMemberComplete (name : Scalar) (v : Value) : Prop :=
  isMethod name = true → ∀ op, v = .object op → OperationComplete op

/-- A path item without shared parameters whose operations are complete. -/
structure ItemComplete (item : Members) : Prop where
  shared : SharesNothing item
  operations : Members.All ItemMemberComplete item

/-- A path item among paths, if it is one at all, is complete. -/
def PathComplete (v : Value) : Prop :=
  ∀ item, v = .object item → ItemComplete item

theorem operationComplete_iff {op : Members} :
    OperationComplete op ↔ CompleteOperation op ∧ ∀ inner, HoldsCallback op inner →
      CompletePaths inner := by
  constructor
  · intro h
    have husable : PathItemEdit.UsableCallbacks op := fun v hv =>
      (h.callbacks _ hv rfl).usable
    refine ⟨⟨h.tags, h.parameters, h.externalDocs, husable⟩, ?_⟩
    rintro inner ⟨callbacks, name, hcallbacks, hinner⟩
    exact (h.callbacks _ hcallbacks rfl).each callbacks rfl _ hinner inner rfl
  · rintro ⟨hown, hinner⟩
    refine ⟨hown.tags, hown.parameters, hown.externalDocs, ?_⟩
    rintro ⟨_, v⟩ hmem rfl
    refine ⟨hown.callbacks v hmem, ?_⟩
    rintro callbacks rfl ⟨name, _⟩ hentry inner rfl
    exact hinner inner ⟨callbacks, name, hmem, hentry⟩

theorem itemComplete_iff {item : Members} :
    ItemComplete item ↔ SharesNothing item ∧ ∀ op, HoldsOperation item op →
      CompleteOperation op ∧
      ∀ inner, HoldsCallback op inner → CompletePaths inner := by
  constructor
  · intro h
    refine ⟨h.shared, ?_⟩
    rintro op ⟨name, hmethod, hmem⟩
    exact operationComplete_iff.mp (h.operations _ hmem hmethod op rfl)
  · rintro ⟨hshared, hops⟩
    refine ⟨hshared, ?_⟩
    rintro ⟨name, _⟩ hmem hmethod op rfl
    exact operationComplete_iff.mpr (hops op ⟨name, hmethod, hmem⟩)

/-- Paths are complete when each of them is. -/
theorem completePaths_iff {paths : Members} :
    CompletePaths paths ↔ Members.All (fun _ v => PathComplete v) paths := by
  rw [CompletePaths, throughout_iff]
  constructor
  · rintro h ⟨name, _⟩ hmem item rfl
    exact itemComplete_iff.mpr (h item ⟨name, hmem⟩)
  · rintro h item ⟨name, hmem⟩
    exact itemComplete_iff.mp (h _ hmem item rfl)

/-! ## Putting complete parts -/

/-- What a member of a document has to be for the document to be complete. -/
def MemberComplete (name : String) (v : Value) : Prop :=
  match name with
  | "tags" => CompleteTags v
  | "info" => ∃ info, v = .object info ∧ CompleteInfo info
  | "externalDocs" => v.isBlank = true → v = .emptyObject
  | "security" => v.isBlank = true → v = .list []
  | "servers" => v.isBlank = true → v = .list []
  | "paths" => ∃ paths, v = .object paths ∧ CompletePaths paths
  | "components" => ∃ components, v = .object components ∧ CompleteComponents components
  | "openapi" => v.isBlank = true → v = .str defaultVersion
  | _ => True

section

variable {ms : Members} {name : String} {v : Value}

/-- Filling of one name after another name was put, or the same with a value
that fills it. -/
private theorem filled_put_of {a : String} {empty : Value} (h : Filled a empty ms)
    (hv : name = a → v.isBlank = true → v = empty) :
    Filled a empty (Members.put (.str name) v ms) := by
  by_cases hname : name = a
  · subst hname
    exact filled_put (hv rfl) ms
  · exact h.put_of_ne (Ne.symm hname) v

private theorem exists_object_put_of {a : String} {P : Members → Prop}
    (h : ∃ inner, Members.get? (.str a) ms = some (.object inner) ∧ P inner)
    (hv : name = a → ∃ inner, v = .object inner ∧ P inner) :
    ∃ inner, Members.get? (.str a) (Members.put (.str name) v ms) =
      some (.object inner) ∧ P inner := by
  by_cases hname : name = a
  · subst hname
    obtain ⟨inner, rfl, hP⟩ := hv rfl
    exact ⟨inner, by simp, hP⟩
  · obtain ⟨inner, hget, hP⟩ := h
    exact ⟨inner, by rw [Members.get?_put, if_neg (Ne.symm hname), hget], hP⟩

/-- Putting a complete member keeps a document complete. -/
theorem Complete.put (h : Complete ms) (name : String) (hv : MemberComplete name v) :
    Complete (Members.put (.str name) v ms) where
  tags w hw := by
    rw [Members.get?_put] at hw
    split at hw
    · subst name
      obtain rfl := Option.some.inj hw
      exact hv
    · exact h.tags w hw
  info := exists_object_put_of h.info fun hname => by subst hname; exact hv
  externalDocs := filled_put_of h.externalDocs fun hname => by subst hname; exact hv
  security := filled_put_of h.security fun hname => by subst hname; exact hv
  servers := filled_put_of h.servers fun hname => by subst hname; exact hv
  paths := exists_object_put_of h.paths fun hname => by subst hname; exact hv
  components := exists_object_put_of h.components fun hname => by subst hname; exact hv
  openapi := filled_put_of h.openapi fun hname => by subst hname; exact hv

/-- Putting an object keeps the component maps filled. -/
theorem CompleteComponents.putObject (h : CompleteComponents ms) (entry : String)
    (inner : Members) :
    CompleteComponents (Members.put (.str entry) (.object inner) ms) := by
  intro a ha
  exact filled_put_of (h a ha) fun _ hblank => object_of_isBlank hblank

/-- The members of an operation that completion looks at. -/
def operationParts : List String :=
  ["tags", "parameters", "externalDocs", "callbacks"]

/-- Putting any other member keeps an operation complete. -/
theorem OperationComplete.put (h : OperationComplete ms) (hname : name ∉ operationParts)
    (v : Value) :
    OperationComplete (Members.put (.str name) v ms) := by
  simp only [operationParts, List.mem_cons, List.not_mem_nil, or_false, not_or] at hname
  obtain ⟨htags, hparameters, hexternalDocs, hcallbacks⟩ := hname
  obtain ⟨own, hown, hkeys⟩ := h.parameters
  exact
    { tags := h.tags.put_of_ne (Ne.symm htags) v
      parameters :=
        ⟨own, by rw [Members.get?_put, if_neg (Ne.symm hparameters), hown], hkeys⟩
      externalDocs := h.externalDocs.put_of_ne (Ne.symm hexternalDocs) v
      callbacks := h.callbacks.put fun heq => absurd (Scalar.str.inj heq) hcallbacks }

/-- Taking away any other member keeps an operation complete. -/
theorem OperationComplete.erase (h : OperationComplete ms)
    (hname : name ∉ operationParts) :
    OperationComplete (Members.erase (.str name) ms) := by
  simp only [operationParts, List.mem_cons, List.not_mem_nil, or_false, not_or] at hname
  obtain ⟨htags, hparameters, hexternalDocs, hcallbacks⟩ := hname
  obtain ⟨own, hown, hkeys⟩ := h.parameters
  exact
    { tags := (filled_congr (by simp [Ne.symm htags])).mpr h.tags
      parameters :=
        ⟨own, by rw [Members.get?_erase, if_neg (Ne.symm hparameters), hown], hkeys⟩
      externalDocs := (filled_congr (by simp [Ne.symm hexternalDocs])).mpr
        h.externalDocs
      callbacks := h.callbacks.erase _ }

/-- Putting parameters that are identified keeps an operation complete. -/
theorem OperationComplete.putParameters (h : OperationComplete ms) {own : List Value}
    (hown : HasKeys own) :
    OperationComplete (Members.put "parameters" (.list own) ms) where
  tags := h.tags.put_of_ne (by decide) _
  parameters := ⟨own, by simp, hown⟩
  externalDocs := h.externalDocs.put_of_ne (by decide) _
  callbacks := h.callbacks.put fun heq => by simp at heq

/-- Putting complete callbacks keeps an operation complete. -/
theorem OperationComplete.putCallbacks (h : OperationComplete ms) {callbacks : Members}
    (hcallbacks : CallbackMapComplete callbacks) :
    OperationComplete (Members.put "callbacks" (.object callbacks) ms) := by
  obtain ⟨own, hown, hkeys⟩ := h.parameters
  refine
    { tags := h.tags.put_of_ne (by decide) _
      parameters := ⟨own, by simpa using hown, hkeys⟩
      externalDocs := h.externalDocs.put_of_ne (by decide) _
      callbacks := h.callbacks.put fun _ => ⟨.inl rfl, ?_⟩ }
  rintro ms heq
  obtain rfl := (Tree.marked.inj heq).2
  exact hcallbacks

/-- Taking the callbacks away keeps an operation complete. -/
theorem OperationComplete.eraseCallbacks (h : OperationComplete ms) :
    OperationComplete (Members.erase "callbacks" ms) := by
  obtain ⟨own, hown, hkeys⟩ := h.parameters
  exact
    { tags := (filled_congr (by simp)).mpr h.tags
      parameters := ⟨own, by simpa using hown, hkeys⟩
      externalDocs := (filled_congr (by simp)).mpr h.externalDocs
      callbacks := h.callbacks.erase _ }

end

end ApiWorkbench.Document
