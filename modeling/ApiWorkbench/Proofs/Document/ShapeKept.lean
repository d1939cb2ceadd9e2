import ApiWorkbench.Proofs.Document.Pruned
import ApiWorkbench.Proofs.Shape.Acceptance
import ApiWorkbench.Shape.Document

/-!
# Completing and pruning keep the shape of documents

A document that has the shape of one still has it when it has been completed, and when
it has been pruned. Both change only a few members of objects of plain kinds: empty
forms are put where they are accepted, what is taken away is never required, parameters
that move into an operation were accepted beside it, and the tags of an operation are
some of those that it had.

Paths are changed at every callback depth, so for them the argument is made for any
`PathItemEdit` that keeps the shape of one path item and one operation.

## Main results

* `PathItemEdit.pathItems_accepted`: an edit that keeps the shape of path items and
  operations keeps that of paths.
* `complete_accepted`, `prune_accepted`: completed and pruned documents are in shape.
-/

namespace ApiWorkbench.Document

open Shape

/-- A value is accepted in a document where a shape is asked for. -/
abbrev Fits (shape : Shape DocumentKind) (v : Value) : Prop :=
  Accepts documentKinds shape v

/-- Members make an object of a kind. -/
abbrev InShape (k : DocumentKind) (ms : Members) : Prop :=
  HasShape documentKinds k ms

/-- All but four kinds have one name for each field and no further rules. -/
theorem isPlain {k : DocumentKind} (hreference : k ≠ .reference)
    (hmediaType : k ≠ .mediaType) (hparameter : k ≠ .parameter)
    (hscheme : k ≠ .securityScheme) : documentKinds.IsPlain k := by
  constructor
  · cases k with
    | reference => contradiction
    | mediaType => contradiction
    | parameter => contradiction
    | securityScheme => contradiction
    | _ => decide
  · intro ms
    cases k with
    | parameter => contradiction
    | _ => rfl

/-- Objects of the kinds that are completed and pruned are accepted when they are in
shape. -/
theorem fits_kind {k : DocumentKind} {ms : Members}
    (hk : k ∈ [.info, .tag, .operation, .pathItem, .components, .document]) :
    Fits (.kind k) (.object ms) ↔ InShape k ms := by
  refine accepts_kind (isPlain ?_ ?_ ?_ ?_)
  all_goals
    rintro rfl
    simp at hk

/-- The items of what is accepted as a list, or as nothing, are accepted. -/
theorem fits_items {shape : Shape DocumentKind} {v : Value} {xs : List Value}
    (h : Fits (.nullable (.list shape)) v) (hxs : v.items = .ok xs) :
    ∀ x ∈ xs, Fits shape x := by
  rcases accepts_nullable.mp h with hnull | h
  · unfold Tree.isNull at hnull
    split at hnull
    · simp [Tree.items] at hxs
    · contradiction
  · exact accepts_items h hxs

theorem fits_nullable_list {shape : Shape DocumentKind} {xs : List Value}
    (h : ∀ x ∈ xs, Fits shape x) :
    Fits (.nullable (.list shape)) (.list xs) :=
  accepts_nullable.mpr (.inr (accepts_list.mpr h))

/-! ## Changes of members -/

section

variable {k : DocumentKind} {ms ms' : Members} {name : String}

/-- Filling in what the fields of that name accept keeps an object in shape. -/
theorem inShape_fill (h : InShape k ms) (name : String) (v : Value)
    (hv : ∀ f ∈ k.fields, f.name = name → Fits f.shape v) :
    InShape k (fill name v ms) := by
  rcases fill_eq_put_or_self name v ms with heq | heq
  · rw [heq]
    exact h.put hv
  · rw [heq]
    exact h

/-- Changing what is under a name keeps an object in shape, if the fields of that name
accept the result. -/
theorem inShape_modifyM (h : InShape k ms) {change : Value → Except Fault Value}
    (hms : Members.modifyM (.str name) change ms = .ok ms')
    (hchange : ∀ f ∈ k.fields, f.name = name → ∀ v w, Fits f.shape v →
      change v = .ok w → Fits f.shape w) :
    InShape k ms' := by
  rw [Members.modifyM_eq] at hms
  split at hms
  · rename_i v hv
    obtain ⟨w, hw, rfl⟩ := map_eq_ok.mp hms
    refine h.put fun f hf hname => ?_
    subst hname
    exact hchange f hf rfl v w ((h.fields f hf).value v hv) hw
  · obtain rfl := Except.ok.inj hms
    exact h

/-- Dropping what is not required keeps an object in shape. -/
theorem inShape_dropBlank (h : InShape k ms)
    (hname : ∀ f ∈ k.fields, f.name = name → f.required = false) :
    InShape k (dropBlank name ms) := by
  unfold dropBlank
  split
  · exact h
  · split
    · exact h.erase hname
    · exact h

theorem inShape_dropUnless (h : InShape k ms)
    {needed : List String} (hms : dropUnless name needed ms = .ok ms')
    (hname : ∀ f ∈ k.fields, f.name = name → f.required = false) : InShape k ms' := by
  rcases dropUnless_eq_ok hms with rfl | rfl
  · exact h
  · exact h.erase hname

end

/-! ## Paths -/

namespace PathItemEdit

variable {edit : PathItemEdit}

/-- An edit that keeps the shape of a path item, and of each operation in one. -/
structure KeepsShape (edit : PathItemEdit) : Prop where
  item : ∀ ms, InShape .pathItem ms → InShape .pathItem (edit.item ms)
  operation : ∀ item op op', InShape .pathItem item → InShape .operation op →
    edit.operation item op = .ok op' → InShape .operation op'

/-- A method of a path item is a field for an operation. -/
private theorem shape_of_method {f : Shape.Field DocumentKind}
    (hf : f ∈ DocumentKind.pathItem.fields) (hmethod : isMethod (.str f.name) = true) :
    f.shape = .nullable (.kind .operation) := by
  obtain ⟨method, hname⟩ := isMethod_iff.mp hmethod
  have hname := Scalar.str.inj hname
  revert f
  cases method with
  | _ =>
      simp [DocumentKind.fields, DocumentKind.optionalText, DocumentKind.optionalField,
        Method.all, Method.name, DocumentKind.parametersField]

/-- The callbacks of an operation are maps of maps of path items. -/
private theorem shape_of_callbacks {f : Shape.Field DocumentKind}
    (hf : f ∈ DocumentKind.operation.fields) (hname : f.name = "callbacks") :
    f.shape = .nullable (.map (.map (.kind .pathItem))) := by
  revert f
  simp [DocumentKind.fields, DocumentKind.optionalText, DocumentKind.optionalField,
    DocumentKind.parametersField, DocumentKind.securityField]

/-- Operations stay in shape if the paths in their callbacks do. -/
private theorem nested_inShape {op op₁ : Members} (h : nested edit op = .ok op₁)
    (hop : InShape .operation op) (hinner : ∀ inner inner', HoldsCallback op inner →
      Fits (.map (.kind .pathItem)) (.object inner) →
      pathItems edit inner = .ok inner' →
        Fits (.map (.kind .pathItem)) (.object inner')) :
    InShape .operation op₁ := by
  refine hop.of_aligned ((nested_iff edit).mp h) ?_
  intro f hf v w hv hpart
  have hfits := (hop.fields f hf).value v hv
  unfold editPart at hpart
  split at hpart
  · have hname : f.name = "callbacks" := by
      simpa using ‹(Scalar.str f.name).same "callbacks" = true›
    rw [shape_of_callbacks hf hname] at hfits ⊢
    cases v with
    | marked mark map =>
        obtain ⟨map', hmap', heq⟩ := bind_eq_ok.mp hpart
        obtain rfl := Except.ok.inj heq
        have hentries : Fits (.map (.map (.kind .pathItem))) (.object map) := by
          rcases accepts_nullable.mp hfits with hnull | hfits
          · simp [Tree.isNull] at hnull
          · exact hfits
        refine accepts_nullable.mpr (.inr (accepts_map.mpr ?_))
        intro e he
        obtain ⟨x, hx, hcallback⟩ := ((callbackEntries_iff edit).mp hmap').mem_right he
        obtain ⟨hentryName, hentry⟩ := accepts_map.mp hentries _ hx
        refine ⟨hentryName, ?_⟩
        obtain ⟨inner, rfl⟩ := object_of_accepts_map hentry
        obtain ⟨inner', hinner', heq⟩ := bind_eq_ok.mp hcallback
        rw [← Except.ok.inj heq]
        have hmem : (Scalar.str "callbacks", Value.object map) ∈ op := by
          rw [← hname]
          exact Members.mem_of_get?_str hv
        exact hinner inner inner' ⟨map, e.1, hmem, hx⟩ hentry hinner'
    | _ =>
        simp only [callbacks] at hpart
        split at hpart
        · obtain rfl := Except.ok.inj hpart
          exact hfits
        · simp at hpart
  · obtain rfl := Except.ok.inj hpart
    exact hfits

/-- Path items stay in shape while their operations are edited. -/
private theorem operations_inShape (hkeeps : KeepsShape edit) {item changed : Members}
    (h : operations edit item item = .ok changed) (hitem : InShape .pathItem item)
    (hinner : ∀ op inner inner', HoldsOperation item op → HoldsCallback op inner →
      Fits (.map (.kind .pathItem)) (.object inner) →
        pathItems edit inner = .ok inner' →
      Fits (.map (.kind .pathItem)) (.object inner')) :
    InShape .pathItem changed := by
  refine hitem.of_aligned ((operations_iff edit).mp h) ?_
  intro f hf v w hv hmember
  have hfits := (hitem.fields f hf).value v hv
  cases v with
  | marked mark op =>
      by_cases hmethod : isMethod (.str f.name) = true
      · rw [editMember, if_pos hmethod] at hmember
        obtain ⟨op₁, hnested, hrest⟩ := bind_eq_ok.mp hmember
        obtain ⟨op₂, hop₂, heq⟩ := bind_eq_ok.mp hrest
        obtain rfl := Except.ok.inj heq
        rw [shape_of_method hf hmethod] at hfits ⊢
        have hop : InShape .operation op := by
          rcases accepts_nullable.mp hfits with hnull | hfits
          · simp [Tree.isNull] at hnull
          · exact (fits_kind (by simp)).mp hfits
        have hholds : HoldsOperation item op :=
          ⟨.str f.name, hmethod, Members.mem_of_get?_str hv⟩
        have hop₁ := nested_inShape hnested hop fun inner inner' =>
          hinner op inner inner' hholds
        exact accepts_nullable.mpr (.inr
          ((fits_kind (by simp)).mpr (hkeeps.operation item op₁ op₂ hitem hop₁ hop₂)))
      · rw [editMember, if_neg hmethod] at hmember
        obtain rfl := Except.ok.inj hmember
        exact hfits
  | _ =>
      obtain rfl := Except.ok.inj hmember
      exact hfits

/-- An edit that keeps the shape of path items and operations keeps that of paths, at
every callback depth. -/
theorem pathItems_accepted (hkeeps : KeepsShape edit) {paths paths' : Members}
    (h : pathItems edit paths = .ok paths')
    (hpaths : Fits (.map (.kind .pathItem)) (.object paths)) :
    Fits (.map (.kind .pathItem)) (.object paths') := by
  induction paths using callback_induction generalizing paths' with
  | step paths ih =>
      refine accepts_map.mpr ?_
      intro e he
      obtain ⟨v, hv, hedit⟩ := ((pathItems_iff edit).mp h).mem_right he
      obtain ⟨hname, hfits⟩ := accepts_map.mp hpaths _ hv
      refine ⟨hname, ?_⟩
      obtain ⟨item, rfl⟩ := object_of_accepts_kind hfits
      obtain ⟨changed, hchanged, heq⟩ := bind_eq_ok.mp hedit
      rw [← Except.ok.inj heq]
      have hitem : InShape .pathItem item := (fits_kind (by simp)).mp hfits
      have hholds : HoldsItem paths item := ⟨e.1, hv⟩
      refine (fits_kind (by simp)).mpr
        (hkeeps.item changed (operations_inShape hkeeps hchanged hitem ?_))
      intro op inner inner' hop hcallback hinner hinner'
      exact ih item op inner hholds hop hcallback hinner' hinner

/-- The same for a value in the place of paths. -/
theorem apply_accepted (hkeeps : KeepsShape edit)
    {v w : Value} (h : edit.apply v = .ok w) (hv : Fits (.map (.kind .pathItem)) v) :
    Fits (.map (.kind .pathItem)) w := by
  obtain ⟨paths, rfl⟩ := object_of_accepts_map hv
  obtain ⟨ms, hms, h⟩ := bind_eq_ok.mp h
  obtain rfl := Except.ok.inj hms
  obtain ⟨paths', hpaths', h⟩ := bind_eq_ok.mp h
  obtain rfl := Except.ok.inj h
  exact pathItems_accepted hkeeps hpaths' hv

end PathItemEdit

/-! ## Completion -/

/-- What a shape asks of each parameter of a list. -/
abbrev parameterShape : Shape DocumentKind :=
  DocumentKind.orReference DocumentKind.parameterLabel (.kind .parameter)

private theorem shape_of_parameters {k : DocumentKind}
    (hk : k = .operation ∨ k = .pathItem) {f : Shape.Field DocumentKind}
    (hf : f ∈ k.fields) (hname : f.name = "parameters") :
    f.shape = .nullable (.list parameterShape) := by
  revert f
  rcases hk with rfl | rfl
  · simp [DocumentKind.fields, DocumentKind.optionalText, DocumentKind.optionalField,
      DocumentKind.parametersField, DocumentKind.securityField]
  · simp [DocumentKind.fields, DocumentKind.optionalText, DocumentKind.optionalField,
      DocumentKind.parametersField, Method.all, Method.name]

private theorem exists_parameters_field {k : DocumentKind}
    (hk : k = .operation ∨ k = .pathItem) :
    ∃ f ∈ k.fields, f.name = "parameters" := by
  rcases hk with rfl | rfl
  · exact ⟨DocumentKind.parametersField, by simp [DocumentKind.fields], rfl⟩
  · exact ⟨DocumentKind.parametersField, by simp [DocumentKind.fields], rfl⟩

/-- The parameters of an operation or a path item are accepted one by one. -/
private theorem parameters_accepted {k : DocumentKind}
    (hk : k = .operation ∨ k = .pathItem) {ms : Members} (h : InShape k ms) {v : Value}
    (hv : Members.get? "parameters" ms = some v) :
    Fits (.nullable (.list parameterShape)) v := by
  obtain ⟨f, hf, hname⟩ := exists_parameters_field hk
  rw [← shape_of_parameters hk hf hname]
  exact (h.fields f hf).value v (hname ▸ hv)

private theorem filledOperation_inShape {op : Members} (h : InShape .operation op) :
    InShape .operation (filledOperation op) := by
  have htags := inShape_fill h "tags" (.list []) (by decide)
  have hparameters := inShape_fill htags "parameters" (.list []) (by decide)
  exact inShape_fill hparameters "externalDocs" .emptyObject (by decide)

/-- The parameters that an operation ends up with were accepted before, in the
operation or beside it. -/
private theorem completeOperation_inShape {item op op' : Members}
    (hitem : InShape .pathItem item) (hop : InShape .operation op)
    (h : completeOperation item op = .ok op') : InShape .operation op' := by
  obtain ⟨own, shared, merged, hown, hshared, ⟨items, hitems, hmerged⟩, rfl⟩ :=
    completeOperation_eq_ok.mp h
  have hfilled := filledOperation_inShape hop
  have hownFits := fits_items (parameters_accepted (.inl rfl) hfilled hown) hitems
  have hsharedFits : ∀ x ∈ shared, Fits parameterShape x := by
    unfold Tree.orElse at hshared
    split at hshared
    · obtain rfl := Except.ok.inj hshared
      simp
    · cases hget : Members.get? "parameters" item with
      | none => simp [hget, Tree.items] at hshared
      | some v =>
          rw [hget, Option.getD_some] at hshared
          exact fits_items (parameters_accepted (.inr rfl) hitem hget) hshared
  obtain ⟨-, added, rfl, hadded⟩ := mergeParameters_spec hmerged
  refine hfilled.put fun f hf hname => ?_
  rw [shape_of_parameters (.inl rfl) hf hname]
  refine fits_nullable_list fun x hx => ?_
  rcases List.mem_append.mp hx with hx | hx
  · exact hownFits x hx
  · exact hsharedFits x (hadded x hx)

theorem completion_keepsShape : PathItemEdit.KeepsShape completion where
  item _ h := h.erase (by decide)
  operation _ _ _ := completeOperation_inShape

private theorem completeTag_inShape {ms : Members} (h : InShape .tag ms) :
    InShape .tag (completeTag ms) :=
  inShape_fill h "externalDocs" .emptyObject (by decide)

private theorem completeAnyTag_accepted {v : Value} (hv : Fits (.kind .tag) v) :
    Fits (.kind .tag) (completeAnyTag v) := by
  obtain ⟨ms, rfl⟩ := object_of_accepts_kind hv
  exact (fits_kind (by simp)).mpr (completeTag_inShape ((fits_kind (by simp)).mp hv))

/-- A pair is accepted like the list of its parts. -/
private theorem fits_nullable_pair {shape : Shape DocumentKind} {a b : Value}
    (ha : Fits shape a) (hb : Fits shape b) :
    Fits (.nullable (.list shape)) (.pair a b) :=
  accepts_nullable.mpr (.inr (accepts_pair.mpr ⟨ha, hb⟩))

private theorem completeTags_accepted {v w : Value}
    (hv : Fits (.nullable (.list (.kind .tag))) v) (h : completeTags v = .ok w) :
    Fits (.nullable (.list (.kind .tag))) w := by
  unfold completeTags at h
  split at h
  · obtain rfl := Except.ok.inj h
    refine fits_nullable_list fun x hx => ?_
    obtain ⟨tag, htag, rfl⟩ := List.mem_map.mp hx
    exact completeAnyTag_accepted (fits_items hv rfl tag htag)
  · obtain rfl := Except.ok.inj h
    have hparts := fits_items hv rfl
    exact fits_nullable_pair (completeAnyTag_accepted (hparts _ (by simp)))
      (completeAnyTag_accepted (hparts _ (by simp)))
  · split at h
    · obtain rfl := Except.ok.inj h
      exact hv
    · obtain ⟨xs, -, heq⟩ := bind_eq_ok.mp h
      obtain rfl := Except.ok.inj heq
      exact hv

private theorem completeInfo_inShape {ms : Members} (h : InShape .info ms) :
    InShape .info (completeInfo ms) := by
  have hcontact := inShape_fill h "contact" .emptyObject (by decide)
  exact inShape_fill hcontact "license" .emptyObject (by decide)

private theorem completeComponents_inShape {ms : Members} (h : InShape .components ms) :
    InShape .components (completeComponents ms) := by
  have hlinks := inShape_fill h "links" .emptyObject (by decide)
  have hcallbacks := inShape_fill hlinks "callbacks" .emptyObject (by decide)
  have hschemas := inShape_fill hcallbacks "schemas" .emptyObject (by decide)
  exact inShape_fill hschemas "securitySchemes" .emptyObject (by decide)

/-- What is accepted as an object of a kind, or as nothing, still is when its members
have been changed. -/
private theorem withinObject_accepted {k : DocumentKind}
    (hk : k ∈ [.info, .tag, .operation, .pathItem, .components, .document])
    {change : Members → Members}
    (hchange : ∀ ms, InShape k ms → InShape k (change ms)) {v w : Value}
    (hv : Fits (.nullable (.kind k)) v)
    (h : withinObject change v = .ok w) : Fits (.nullable (.kind k)) w := by
  obtain ⟨ms, rfl, rfl⟩ := withinObject_eq_ok.mp h
  rcases accepts_nullable.mp hv with hnull | hv
  · simp [Tree.isNull] at hnull
  · exact accepts_nullable.mpr
      (.inr ((fits_kind hk).mpr (hchange ms ((fits_kind hk).mp hv))))

/-- What a document is asked to have under a name. -/
def documentShape (name : String) : Shape DocumentKind :=
  ((DocumentKind.document.fields.find? fun f => f.name == name).map (·.shape)).getD .any

private theorem shape_of_document {f : Shape.Field DocumentKind}
    (hf : f ∈ DocumentKind.document.fields) {name : String} (hname : f.name = name) :
    f.shape = documentShape name := by
  subst hname
  revert f
  simp [documentShape, DocumentKind.fields, DocumentKind.requiredText,
    DocumentKind.optionalField, DocumentKind.securityField]

/-- Completing a document keeps it in shape. -/
theorem complete_accepted {document result : Value}
    (hdocument : Fits (.kind .document) document) (h : complete document = .ok result) :
    Fits (.kind .document) result := by
  obtain ⟨ms₀, rfl⟩ := object_of_accepts_kind hdocument
  have h₀ : InShape .document ms₀ := (fits_kind (by simp)).mp hdocument
  rw [complete, Tree.members, pure_eq_ok, ok_bind] at h
  obtain ⟨ms₁, htags, h⟩ := bind_eq_ok.mp h
  obtain ⟨ms₂, hinfo, h⟩ := bind_eq_ok.mp h
  obtain ⟨ms₃, hcomponents, h⟩ := bind_eq_ok.mp h
  obtain ⟨ms₄, hpaths, h⟩ := bind_eq_ok.mp h
  obtain rfl := Except.ok.inj h
  have h₁ : InShape .document ms₁ :=
    inShape_modifyM h₀ htags fun f hf hname v w hv hw => by
    rw [shape_of_document hf hname] at hv ⊢
    exact completeTags_accepted hv hw
  have h₂ : InShape .document ms₂ := by
    have hfilled := inShape_fill h₁ "info" untitledInfo (by decide)
    refine inShape_modifyM hfilled hinfo fun f hf hname v w hv hw => ?_
    rw [shape_of_document hf hname] at hv ⊢
    exact withinObject_accepted (by simp) (fun _ => completeInfo_inShape) hv hw
  have h₃ : InShape .document ms₃ := by
    have hexternalDocs := inShape_fill h₂ "externalDocs" .emptyObject (by decide)
    have hsecurity := inShape_fill hexternalDocs "security" (.list []) (by decide)
    have hservers := inShape_fill hsecurity "servers" (.list []) (by decide)
    have hfilled := inShape_fill hservers "paths" .emptyObject (by decide)
    have hfilled := inShape_fill hfilled "components" .emptyObject (by decide)
    refine inShape_modifyM hfilled hcomponents fun f hf hname v w hv hw => ?_
    rw [shape_of_document hf hname] at hv ⊢
    exact withinObject_accepted (by simp) (fun _ => completeComponents_inShape) hv hw
  have h₄ : InShape .document ms₄ :=
    inShape_modifyM h₃ hpaths fun f hf hname v w hv hw => by
    rw [shape_of_document hf hname] at hv ⊢
    exact PathItemEdit.apply_accepted completion_keepsShape hw hv
  exact (fits_kind (by simp)).mpr
    (inShape_fill h₄ "openapi" (.str defaultVersion) (by decide))

/-! ## Pruning -/

/-- Each of the distinct values is one of the values. -/
theorem mem_of_mem_distinct {seen xs : List Value} {v : Value}
    (h : v ∈ distinct seen xs) : v ∈ xs := by
  induction xs generalizing seen with
  | nil => simp [distinct] at h
  | cons x xs ih =>
      unfold distinct at h
      split at h
      · exact List.mem_cons_of_mem x (ih h)
      · rcases List.mem_cons.mp h with rfl | h
        · simp
        · exact List.mem_cons_of_mem x (ih h)

private theorem shape_of_operationTags {f : Shape.Field DocumentKind}
    (hf : f ∈ DocumentKind.operation.fields) (hname : f.name = "tags") :
    f.shape = .nullable (.list .text) := by
  revert f
  simp [DocumentKind.fields, DocumentKind.optionalText, DocumentKind.optionalField,
    DocumentKind.parametersField, DocumentKind.securityField]

private theorem pruneOperation_inShape {op op' : Members} (h : InShape .operation op)
    (hop : pruneOperation op = .ok op') : InShape .operation op' := by
  obtain ⟨op₁, hop₁, hop⟩ := bind_eq_ok.mp hop
  have h₁ := inShape_dropUnless h hop₁ (by decide)
  have h₂ : InShape .operation (dropBlank "tags" op₁) :=
    inShape_dropBlank h₁ (by decide)
  refine inShape_modifyM h₂ hop fun f hf hname v w hv hw => ?_
  rw [shape_of_operationTags hf hname] at hv ⊢
  obtain ⟨names, hnames, hw⟩ := bind_eq_ok.mp hw
  split at hw
  · obtain rfl := Except.ok.inj hw
    exact fits_nullable_list fun x hx => fits_items hv hnames x (mem_of_mem_distinct hx)
  · simp at hw

theorem pruning_keepsShape : PathItemEdit.KeepsShape pruning where
  item _ h := h
  operation _ _ _ _ := pruneOperation_inShape

/-- What is accepted as an object of a kind still is when its members have been
changed. -/
private theorem withinAny_accepted {k : DocumentKind}
    (hk : k ∈ [.info, .tag, .operation, .pathItem, .components, .document])
    {change : Members → Except Fault Members}
    (hchange : ∀ ms ms', InShape k ms → change ms = .ok ms' → InShape k ms')
    {v w : Value} (hv : Fits (.kind k) v)
    (h : withinAny change v = .ok w) : Fits (.kind k) w := by
  obtain ⟨ms, rfl⟩ := object_of_accepts_kind hv
  obtain ⟨ms', hms', h⟩ := bind_eq_ok.mp h
  obtain rfl := Except.ok.inj h
  exact (fits_kind hk).mpr (hchange ms ms' ((fits_kind hk).mp hv) hms')

private theorem pruneTag_accepted {v w : Value} (hv : Fits (.kind .tag) v)
    (h : withinAny pruneTag v = .ok w) :
    Fits (.kind .tag) w :=
  withinAny_accepted (by simp)
    (fun _ _ htag hms => inShape_dropUnless htag hms (by decide)) hv h

private theorem pruneTags_accepted {v w : Value}
    (hv : Fits (.nullable (.list (.kind .tag))) v) (h : pruneTags v = .ok w) :
    Fits (.nullable (.list (.kind .tag))) w := by
  unfold pruneTags at h
  split at h
  · obtain ⟨tags, htags, h⟩ := bind_eq_ok.mp h
    obtain rfl := Except.ok.inj h
    refine fits_nullable_list fun x hx => ?_
    obtain ⟨tag, htag, hx⟩ := exists_of_mem_mapM htags hx
    exact pruneTag_accepted (fits_items hv rfl tag htag) hx
  · obtain ⟨first, hfirst, h⟩ := bind_eq_ok.mp h
    obtain ⟨second, hsecond, h⟩ := bind_eq_ok.mp h
    obtain rfl := Except.ok.inj h
    have hparts := fits_items hv rfl
    exact fits_nullable_pair (pruneTag_accepted (hparts _ (by simp)) hfirst)
      (pruneTag_accepted (hparts _ (by simp)) hsecond)
  · split at h
    · obtain rfl := Except.ok.inj h
      exact hv
    · obtain ⟨xs, -, heq⟩ := bind_eq_ok.mp h
      obtain rfl := Except.ok.inj heq
      exact hv

private theorem pruneInfo_inShape {ms ms' : Members} (h : InShape .info ms)
    (hms : pruneInfo ms = .ok ms') :
    InShape .info ms' := by
  obtain ⟨ms₁, hlicense, hcontact⟩ := bind_eq_ok.mp hms
  exact inShape_dropUnless (inShape_dropUnless h hlicense (by decide))
    hcontact (by decide)

private theorem pruneComponents_inShape {ms : Members} (h : InShape .components ms) :
    InShape .components (pruneComponents ms) := by
  have hlinks : InShape .components (dropBlank "links" ms) :=
    inShape_dropBlank h (by decide)
  have hcallbacks : InShape .components (dropBlank "callbacks" _) :=
    inShape_dropBlank hlinks (by decide)
  have hschemas : InShape .components (dropBlank "schemas" _) :=
    inShape_dropBlank hcallbacks (by decide)
  exact inShape_dropBlank hschemas (by decide)

/-- What is accepted as information about a document, or as nothing, still is when it
has been pruned. -/
private theorem pruneInfo_accepted {v w : Value} (hv : Fits (.nullable (.kind .info)) v)
    (h : withinAny pruneInfo v = .ok w) : Fits (.nullable (.kind .info)) w := by
  rcases accepts_nullable.mp hv with hnull | hv
  · unfold Tree.isNull at hnull
    split at hnull
    · obtain rfl := Except.ok.inj h
      exact accepts_nullable.mpr (.inl rfl)
    · contradiction
  · exact accepts_nullable.mpr
      (.inr (withinAny_accepted (by simp) (fun _ _ => pruneInfo_inShape) hv h))

/-- Pruning a document keeps it in shape. -/
theorem prune_accepted {document result : Value}
    (hdocument : Fits (.kind .document) document) (h : prune document = .ok result) :
    Fits (.kind .document) result := by
  obtain ⟨ms₀, rfl⟩ := object_of_accepts_kind hdocument
  have h₀ : InShape .document ms₀ := (fits_kind (by simp)).mp hdocument
  rw [prune, Tree.members, pure_eq_ok, ok_bind] at h
  obtain ⟨ms₁, hpaths, h⟩ := bind_eq_ok.mp h
  obtain ⟨ms₂, htags, h⟩ := bind_eq_ok.mp h
  obtain ⟨ms₃, hexternalDocs, h⟩ := bind_eq_ok.mp h
  obtain ⟨ms₄, hinfo, h⟩ := bind_eq_ok.mp h
  have h₁ : InShape .document ms₁ :=
    inShape_modifyM h₀ hpaths fun f hf hname v w hv hw => by
    rw [shape_of_document hf hname] at hv ⊢
    split at hw
    · obtain rfl := Except.ok.inj hw
      exact hv
    · exact PathItemEdit.apply_accepted pruning_keepsShape hw hv
  have h₂ : InShape .document ms₂ :=
    inShape_modifyM h₁ htags fun f hf hname v w hv hw => by
    rw [shape_of_document hf hname] at hv ⊢
    exact pruneTags_accepted hv hw
  have h₃ : InShape .document ms₃ := inShape_dropUnless h₂ hexternalDocs (by decide)
  have h₄ : InShape .document ms₄ :=
    inShape_modifyM h₃ hinfo fun f hf hname v w hv hw => by
    rw [shape_of_document hf hname] at hv ⊢
    exact pruneInfo_accepted hv hw
  have h₅ : InShape .document
      (dropBlank "tags" (dropBlank "servers" (dropBlank "security" ms₄))) :=
    inShape_dropBlank (inShape_dropBlank (inShape_dropBlank h₄ (by decide)) (by decide))
      (by decide)
  dsimp only at h
  split at h
  · rename_i mark components hcomponents
    obtain rfl := Except.ok.inj h
    refine (fits_kind (by simp)).mpr
      (inShape_dropBlank (h₅.put fun f hf hname => ?_) (by decide))
    have hfits := (h₅.fields f hf).value _ (hname ▸ hcomponents)
    rw [shape_of_document hf hname] at hfits ⊢
    rcases accepts_nullable.mp hfits with hnull | hfits
    · simp [Tree.isNull] at hnull
    · exact accepts_nullable.mpr (.inr ((fits_kind (by simp)).mpr
        (pruneComponents_inShape ((fits_kind (by simp)).mp hfits))))
  · obtain rfl := Except.ok.inj h
    exact (fits_kind (by simp)).mpr h₅

end ApiWorkbench.Document
