import ApiWorkbench.Proofs.Document.Completable
import ApiWorkbench.Proofs.Editor.Usable

/-!
# Documents that are open to edits

The shape of a document leaves three things unsaid that some edit relies on. A request
body or a response that passes for a reference may have anything for its content; a
security scheme that passes for a reference may have anything for its flows and their
scopes; and besides the flows of a scheme for OAuth there may be members that are no
flows, which are looked into for scopes all the same. A document is open to edits if
none of this is in the way where a command can look, which can be computed
(`isEditable`). With the shape that is all it takes to be usable.

## Main results

* `usable_of_editable`: a document in shape that is open to edits is usable.
-/

namespace ApiWorkbench.Editor

open Document Command Shape

/-! ## What is looked into -/

/-- The members of an object; of anything else none. -/
def partsOf : Value → Members
  | .object ms => ms
  | _ => []

/-- The members of an object that commands can name: no command has a torn text. -/
def addressed (v : Value) : Members :=
  (partsOf v).filter fun e => !e.1.isTorn

theorem mem_addressed {ms : Members} {e : Scalar × Value} (he : e ∈ ms)
    (hwhole : e.1.isTorn = false) :
    e ∈ addressed (.object ms) :=
  List.mem_filter.mpr ⟨he, by rw [hwhole]; rfl⟩

/-- What has a content has one that can be taken for members. -/
def hasContent (holder : Value) : Bool :=
  (Members.mapAt "content" (partsOf holder)).toMembers.isOk

/-- The request body and the responses of an operation have contents that can be
edited. -/
def operationEditable (op : Members) : Bool :=
  hasContent (Members.valueAt "requestBody" op) &&
    (addressed (Members.mapAt "responses" op)).all fun e => hasContent e.2

/-- The operations of a path item can be edited. -/
def itemEditable (item : Members) : Bool :=
  item.all fun e => !isMethod e.1 || operationEditable (partsOf e.2)

/-- The scopes of a flow can be listed. -/
def listsScopes (flow : Value) : Bool :=
  (flow.membersOrNone >>= fun ms => (Members.mapAt "scopes" ms).items).isOk

/-- The flows of a security scheme are a map, those that commands name have maps of
scopes, and if the scheme is one for OAuth the scopes of all of them can be listed. -/
def schemeEditable (scheme : Members) : Bool :=
  let flows := Members.mapAt "flows" scheme
  flows.isObject &&
    Flow.all.all (fun flow =>
      (Members.mapAt "scopes"
        (partsOf (Members.valueAt flow.name (partsOf flows)))).isObject) &&
    (!(Members.valueAt "type" scheme).isText "oauth2" || (partsOf flows).all fun e =>
      listsScopes e.2)

/-- The paths of a document. -/
def pathsOf (ms : Members) : Members :=
  addressed (Members.mapAt "paths" ms)

/-- The security schemes of a document. -/
def securitySchemesOf (ms : Members) : Members :=
  addressed (Members.mapAt "securitySchemes" (partsOf (Members.mapAt "components" ms)))

/-- The operations and the security schemes of a document can be edited. -/
def isEditable (ms : Members) : Bool :=
  ((pathsOf ms).all fun e => itemEditable (partsOf e.2)) &&
    (securitySchemesOf ms).all fun e => schemeEditable (partsOf e.2)

theorem hasContent_iff {holder : Value} :
    hasContent holder = true ↔ ContentUsable holder := by
  rw [hasContent, isOk_iff]
  constructor
  · rintro h ms rfl
    exact h
  · intro h
    cases holder with
    | marked mark ms => exact h ms rfl
    | _ => exact succeeds_ok []

theorem listsScopes_iff {flow : Value} :
    listsScopes flow = true ↔ ListsScopes flow := by
  rw [listsScopes, isOk_iff, succeeds_bind]
  rfl

/-- What is filled in where nothing is, is an object exactly if it is a map. -/
theorem isMap_iff {v : Value} : IsMap v ↔ (v.orElse .emptyObject).isObject = true := by
  rw [IsMap]
  cases v.orElse .emptyObject with
  | marked mark ms => exact iff_of_true ⟨ms, rfl⟩ rfl
  | _ => simp [Tree.isObject]

theorem schemeEditable_iff {scheme : Members} :
    schemeEditable scheme = true ↔ SchemeUsable scheme := by
  rw [schemeEditable, SchemeUsable]
  cases hflows : Members.mapAt "flows" scheme with
  | marked mark flows =>
      simp only [Tree.isObject, Bool.true_and, partsOf, Bool.and_eq_true,
        Bool.or_eq_true, Bool.not_eq_true']
      constructor
      · rintro ⟨hscopes, hlisted⟩
        refine ⟨flows, rfl, fun flow ms hget => ?_, fun htype e he => ?_⟩
        · have hflow :=
            List.all_eq_true.mp hscopes flow (by cases flow <;> simp [Flow.all])
          rw [Members.valueAt, hget] at hflow
          exact isMap_iff.mpr hflow
        · rcases hlisted with hother | hall
          · simp [htype] at hother
          · exact listsScopes_iff.mp (List.all_eq_true.mp hall e he)
      · rintro ⟨flows', heq, husable⟩
        obtain rfl := (Tree.marked.inj heq).2
        refine ⟨List.all_eq_true.mpr fun flow _ => ?_, ?_⟩
        · cases hget : Members.get? (.str flow.name) flows with
          | none =>
              simp [Members.valueAt, hget, Members.mapAt, Tree.orElse, Tree.isBlank,
                Scalar.isBlank]
          | some v =>
              cases v with
              | marked mark ms =>
                  rw [Members.valueAt, hget]
                  exact isMap_iff.mp (husable.scopes flow ms hget)
              | _ =>
                  simp [Members.valueAt, hget, Members.mapAt, Tree.orElse, Tree.isBlank,
                    Scalar.isBlank]
        · by_cases htype : (Members.valueAt "type" scheme).isText "oauth2" = true
          · exact .inr (List.all_eq_true.mpr fun e he =>
              listsScopes_iff.mpr (husable.listed htype e he))
          · exact .inl (by simpa using htype)
  | _ => simp [Tree.isObject]

/-! ## What the shape of a document says -/

section

variable {shape : Shape DocumentKind} {v : Value}

private theorem isMap_of_fits (h : Fits (.map shape) v) : IsMap v := by
  obtain ⟨ms, rfl⟩ := object_of_accepts_map h
  exact isMap_object ms

private theorem isMap_of_fits_nullable (h : Fits (.nullable (.map shape)) v) :
    IsMap v := by
  rcases accepts_nullable.mp h with hnull | h
  · unfold Tree.isNull at hnull
    split at hnull
    · exact isMapOf_null.isMap (P := fun _ => True)
    · contradiction
  · exact isMap_of_fits h

private theorem isList_of_fits (h : Fits (.nullable (.list shape)) v) :
    ∃ xs, v.itemsOrNone = .ok xs ∧ ∀ x ∈ xs, Fits shape x := by
  unfold Tree.itemsOrNone
  split
  · exact ⟨[], rfl, by simp⟩
  · obtain ⟨xs, hxs⟩ := items_of_fits h (isNull_eq_false_of_not_isBlank ‹_›)
    exact ⟨xs, hxs, fits_items h hxs⟩

/-- Only an object is accepted as one of two kinds of objects. -/
private theorem object_of_fits_orReference {label : String} {k : DocumentKind}
    (h : Fits (DocumentKind.orReference label (.kind k)) v) : ∃ ms, v = .object ms := by
  cases v with
  | marked mark ms => exact ⟨ms, rfl⟩
  | _ =>
      simp [Accepts, check, problemsOf, choiceProblems, kindProblems,
        DocumentKind.orReference] at h

end

/-- A server in shape is one whose variables can be edited. -/
private theorem serverUsable_of_fits {v : Value} (h : Fits (.kind .server) v) :
    ServerUsable v := by
  obtain ⟨server, rfl⟩ := object_of_accepts_kind h
  have hserver : InShape .server server :=
    (accepts_kind (isPlain (by decide) (by decide) (by decide) (by decide))).mp h
  have hvariables : Fits (.nullable (.map (.kind .serverVariable)))
      (Members.valueAt "variables" server) :=
    fits_getD hserver _ _ (by simp [DocumentKind.fields])
  exact ⟨server, rfl, (isMap_of_fits_nullable hvariables).makesMembers⟩

/-- An operation in shape is usable if its contents can be edited. -/
private theorem operationUsable_of_editable {op : Members} (hop : InShape .operation op)
    (heditable : operationEditable op = true) : OperationUsable op := by
  obtain ⟨hbody, hresponses⟩ := Bool.and_eq_true_iff.mp heditable
  intro name
  unfold OperationMemberUsable
  split
  · obtain ⟨xs, hxs, -⟩ := isList_of_fits (fits_getD hop "parameters" _
      (show DocumentKind.parametersField ∈
        DocumentKind.operation.fields by simp [DocumentKind.fields]))
    exact ⟨xs, hxs⟩
  · cases hget : Members.get? "responses" op with
    | none =>
        rw [Members.valueAt, hget]
        exact isMapOf_null
    | some v =>
        have hfield : ({
            name := "responses",
            shape := .map (DocumentKind.orReference "Response" (.kind .response)) } :
            Shape.Field DocumentKind) ∈ DocumentKind.operation.fields := by
          simp [DocumentKind.fields]
        obtain ⟨responses, rfl⟩ :=
          object_of_accepts_map ((hop.fields _ hfield).value v hget)
        rw [Members.mapAt, Members.valueAt, hget, Option.getD_some, orElse_object]
          at hresponses
        rw [Members.valueAt, hget, Option.getD_some]
        exact isMapOf_object fun e he hwhole =>
          hasContent_iff.mp (List.all_eq_true.mp hresponses e (mem_addressed he hwhole))
  · exact hasContent_iff.mp hbody
  · exact (isMap_of_fits_nullable (fits_getD hop "callbacks"
      (.map (.map (.kind .pathItem))) (by simp [DocumentKind.fields]))).makesMembers
  · trivial

/-- A path item in shape with different names is usable if its operations can be
edited. -/
private theorem itemUsable_of_editable {item : Members} (hitem : InShape .pathItem item)
    (hnames : (Members.names item).Nodup) (heditable : itemEditable item = true) :
    ItemUsable item := by
  rintro ⟨name, _⟩ he hmethod op rfl
  obtain ⟨method, rfl⟩ := isMethod_iff.mp hmethod
  have hfield : DocumentKind.optionalField method.name (.kind .operation) ∈
      DocumentKind.pathItem.fields := by
    cases method with
    | _ => simp [DocumentKind.fields, Method.all]
  have hop : InShape .operation op := by
    rcases accepts_nullable.mp ((hitem.fields _ hfield).value
      _ (Members.get?_of_mem hnames he)) with hnull | hfits
    · simp [Tree.isNull] at hnull
    · exact (fits_kind (by simp)).mp hfits
  refine operationUsable_of_editable hop ?_
  simpa [hmethod, partsOf] using List.all_eq_true.mp heditable _ he

/-- Components in shape are usable if the security schemes can be edited. -/
private theorem componentsUsable_of_editable
    {components : Members} (h : InShape .components components)
    (heditable : (addressed (Members.mapAt "securitySchemes" components)).all
      (fun e => schemeEditable (partsOf e.2)) = true) :
    Each ComponentUsable components := by
  intro name
  unfold ComponentUsable
  split
  · exact isMap_of_fits_nullable (fits_getD h "schemas"
      (.map DocumentKind.schemaOrReference) (by simp [DocumentKind.fields]))
  · have hfits := fits_getD h "securitySchemes"
      (.map (DocumentKind.orReference "SecurityScheme" (.kind .securityScheme)))
      (by simp [DocumentKind.fields])
    obtain ⟨schemes, hschemes⟩ := isMap_of_fits_nullable hfits
    rw [Members.mapAt, Members.valueAt, hschemes] at heditable
    refine ⟨schemes, hschemes, fun e he hwhole => ?_⟩
    have hobject : ∃ scheme, e.2 = .object scheme := by
      rcases accepts_nullable.mp hfits with hnull | hmap
      · unfold Tree.isNull at hnull
        split at hnull
        · rename_i heq
          rw [heq] at hschemes
          obtain rfl := (Tree.marked.inj hschemes).2
          simp at he
        · contradiction
      · obtain ⟨schemes', heq⟩ := object_of_accepts_map hmap
        rw [heq, orElse_object] at hschemes
        obtain rfl := (Tree.marked.inj hschemes).2
        rw [heq] at hmap
        exact object_of_fits_orReference (accepts_map.mp hmap e he).2
    obtain ⟨scheme, hscheme⟩ := hobject
    have heach := List.all_eq_true.mp heditable e (mem_addressed he hwhole)
    rw [hscheme] at heach
    exact ⟨scheme, hscheme, schemeEditable_iff.mp heach⟩
  · trivial

/-- The paths of a document in shape are usable if their operations can be edited. -/
private theorem pathsUsable_of_editable {ms : Members} (hms : InShape .document ms)
    (hnames : ∀ e ∈ pathsOf ms, (Members.names (partsOf e.2)).Nodup)
    (heditable : (pathsOf ms).all (fun e => itemEditable (partsOf e.2)) = true) :
    IsMapOf PathUsable (Members.valueAt "paths" ms) := by
  cases hget : Members.get? "paths" ms with
  | none =>
      rw [Members.valueAt, hget]
      exact isMapOf_null
  | some v =>
      have hfield : ({ name := "paths", shape := .map (.kind .pathItem) } :
          Shape.Field DocumentKind) ∈ DocumentKind.document.fields := by
        simp [DocumentKind.fields]
      have hfits := (hms.fields _ hfield).value v hget
      obtain ⟨paths, rfl⟩ := object_of_accepts_map hfits
      have hpathsOf : pathsOf ms = addressed (.object paths) := by
        rw [pathsOf, Members.mapAt, Members.valueAt, hget, Option.getD_some,
          orElse_object]
      rw [hpathsOf] at hnames heditable
      rw [Members.valueAt, hget, Option.getD_some]
      refine isMapOf_object ?_
      rintro ⟨path, _⟩ he hwhole item rfl
      have haddressed := mem_addressed he hwhole
      exact itemUsable_of_editable
        ((fits_kind (by simp)).mp (accepts_map.mp hfits _ he).2) (hnames _ haddressed)
        (List.all_eq_true.mp heditable _ haddressed)

/-- What a document in shape has for its components is usable if the security schemes
can be edited. -/
private theorem componentsPartUsable_of_editable
    {ms : Members} (hms : InShape .document ms) (heditable :
      (securitySchemesOf ms).all (fun e => schemeEditable (partsOf e.2)) = true) :
    ∃ components, Members.mapAt "components" ms = .object components ∧
      Each ComponentUsable components := by
  have hfits : Fits (.nullable (.kind .components)) (Members.valueAt "components" ms) :=
    fits_getD hms _ _ (by simp [DocumentKind.fields])
  rw [securitySchemesOf] at heditable
  rcases accepts_nullable.mp hfits with hnull | hkind
  · unfold Tree.isNull at hnull
    split at hnull
    · rename_i heq
      refine ⟨[], by rw [Members.mapAt, heq]; rfl, fun name => ?_⟩
      unfold ComponentUsable
      split
      · exact isMapOf_null.isMap (P := fun _ => True)
      · exact isMapOf_null
      · trivial
    · contradiction
  · obtain ⟨components, hcomponents⟩ := object_of_accepts_kind hkind
    rw [hcomponents] at hkind
    have hpart : Members.mapAt "components" ms = .object components := by
      rw [Members.mapAt, hcomponents, orElse_object]
    rw [hpart] at heditable
    exact ⟨components, hpart,
      componentsUsable_of_editable ((fits_kind (by simp)).mp hkind) heditable⟩

/-- A document in shape that is open to edits is usable, if no path item has
a method twice. -/
theorem usable_of_editable {ms : Members} (hfits : Fits (.kind .document) (.object ms))
    (hnames : ∀ e ∈ pathsOf ms, (Members.names (partsOf e.2)).Nodup)
    (heditable : isEditable ms = true) :
    Usable ms := by
  have hms : InShape .document ms := (fits_kind (by simp)).mp hfits
  obtain ⟨hpaths, hschemes⟩ := Bool.and_eq_true_iff.mp heditable
  intro name
  unfold PartUsable
  split
  · obtain ⟨xs, hxs, hall⟩ := isList_of_fits
      (fits_getD hms "servers" (.list (.kind .server)) (by simp [DocumentKind.fields]))
    exact ⟨xs, hxs, fun x hx => serverUsable_of_fits (hall x hx)⟩
  · obtain ⟨xs, hxs, -⟩ := isList_of_fits (fits_getD hms "tags" (.list (.kind .tag))
      (by simp [DocumentKind.fields]))
    exact ⟨xs, hxs⟩
  · obtain ⟨xs, hxs, hall⟩ := isList_of_fits (fits_getD hms "security" _
      (show DocumentKind.securityField ∈
        DocumentKind.document.fields by simp [DocumentKind.fields]))
    refine ⟨xs, hxs, fun x hx => ?_⟩
    obtain ⟨requirement, rfl⟩ := object_of_accepts_map (hall x hx)
    rfl
  · exact pathsUsable_of_editable hms hnames hpaths
  · exact componentsPartUsable_of_editable hms hschemes
  · trivial

end ApiWorkbench.Editor
