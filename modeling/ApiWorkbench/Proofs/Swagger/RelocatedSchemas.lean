import ApiWorkbench.Proofs.Reference.Spelling
import ApiWorkbench.Proofs.Swagger.Conversion
import ApiWorkbench.Proofs.Swagger.SchemaPositions

/-!
# Definitions as component schemas

The definitions of a legacy document become component schemas, and what pointed to a
definition points to the component schema of the same name, however the name is spelled
in the pointer. Everything that was converted on the way is a schema again at the same
positions, and no schema anywhere in the document points into the definitions any more.

## Main results

* `resolve_relocated`: a pointer to a definition, converted, leads to the
  converted definition.
* `convertDocument_relocated`: no schema of a converted document points into
  the definitions.
* `convertDocument_schemas`: what conversion makes of definitions, schemas
  and references.
-/

namespace ApiWorkbench.Swagger

open Document

/-! ## Pointers to definitions -/

/-- A reference to a definition becomes one to a component schema. -/
private theorem convertSchema_definition {name text : String}
    (htext : Reference.Spells name.toList text.toList) :
    convertSchema (.record [("$ref", .str (definitionsPrefix ++ text))]) =
      .ok (.record [("$ref", .str (schemasPrefix ++ text))]) := by
  have hreplaced : Text.replaceAll definitionsPrefix schemasPrefix
      (definitionsPrefix ++ text) = schemasPrefix ++ text :=
    Text.replaceAll_append (c := '/') (by decide) htext.no_slash
  rw [← hreplaced]
  rfl

/-- A pointer to a definition, converted, leads to the converted definition. -/
theorem resolve_relocated {ms definitions : Members} {converted definition : Value}
    {name text : String} (h : convertDocument (.object ms) = .ok converted)
    (hdefinitions : Members.get? "definitions" ms = some (.object definitions))
    (hdefinition : Members.get? (.str name) definitions = some definition)
    (hname : name ≠ "") (htext : Reference.Spells name.toList text.toList) :
    ∃ w, Reference.resolve (.str (schemasPrefix ++ text)) converted = .ok w ∧
      convertSchema definition = .ok w := by
  obtain ⟨ns, rfl, -⟩ := complete_of_ok (convertDocument_spec h).1
  obtain ⟨-, found, schemas, _, _, components, hfound, hschemas, -, -,
      hcomponents, hplace, -⟩ :=
    convertDocument_parts h
  rw [fieldOf, hdefinitions, Option.getD_some, membersOrNone_object] at hfound
  obtain rfl := Except.ok.inj hfound
  obtain ⟨-, w, -, hw, hconvert⟩ :=
    (convertMembers_iff.mp hschemas).get?_some hdefinition
  exact ⟨w, resolve_component "schemas" (by simp) hcomponents hplace hw hname htext,
    hconvert⟩

/-! ## Places of schemas -/

/-- A schema stands under a media type of a payload or of a response. -/
def HasContent (holder : Members) (schema : Value) : Prop :=
  ∃ content mediaType media, Members.get? "content" holder = some (.object content) ∧
    (mediaType, Value.object media) ∈ content ∧
      Members.get? "schema" media = some schema

/-- Where schemas stand in a document: among the components, in parameters, and in the
content of payloads and of responses, in path items at any callback depth. -/
inductive SchemaPlace (document : Members) : Value → Prop where
  | component {components schemas : Members} {name : Scalar} {schema : Value} :
      Members.get? "components" document = some (.object components) →
      Members.get? "schemas" components = some (.object schemas) →
        (name, schema) ∈ schemas →
      SchemaPlace document schema
  | sharedParameter {components parameters parameter : Members} {name : Scalar}
      {schema : Value} :
      Members.get? "components" document = some (.object components) →
      Members.get? "parameters" components = some (.object parameters) →
      (name, Value.object parameter) ∈ parameters →
        Members.get? "schema" parameter = some schema →
      SchemaPlace document schema
  | parameter {paths item op parameter : Members} {parameters : List Value}
      {schema : Value} :
      Members.get? "paths" document = some (.object paths) → ItemWithin paths item →
        HoldsOperation item op →
      Members.get? "parameters" op = some (.list parameters) →
        Value.object parameter ∈ parameters →
      Members.get? "schema" parameter = some schema → SchemaPlace document schema
  | payload {paths item op body : Members} {schema : Value} :
      Members.get? "paths" document = some (.object paths) → ItemWithin paths item →
        HoldsOperation item op →
      Members.get? "requestBody" op = some (.object body) → HasContent body schema →
        SchemaPlace document schema
  | response {paths item op responses response : Members} {code : Scalar}
      {schema : Value} :
      Members.get? "paths" document = some (.object paths) → ItemWithin paths item →
        HoldsOperation item op →
      Members.get? "responses" op = some (.object responses) →
        (code, Value.object response) ∈ responses →
      HasContent response schema → SchemaPlace document schema

/-- A record is relocated if the fields that hold schemas are, and none of them
is a reference. -/
private theorem relocated_recordOf {fields : List (String × Value)} {ms : Members}
    (hms : Tree.recordOf fields = .object ms)
    (href : ∀ field ∈ fields, field.1 ≠ "$ref")
    (hfield : ∀ (step : SchemaStep) v w, (step.keyword, v) ∈ fields → v ≠ .null →
      step.within v = some w →
      Relocated w) : Relocated (.object ms) := by
  refine relocated_object (fun step w hchild => ?_) fun pointer hpointer => ?_
  · obtain ⟨v, hv, hwithin⟩ := Option.bind_eq_some_iff.mp hchild
    exact hfield step v w (mem_of_get?_recordOf hms hv)
      (notNull_of_get?_recordOf hms hv) hwithin
  · exact absurd rfl (href _ (mem_of_get?_recordOf hms hpointer))

/-- The content of what conversion makes has one media type, and under it one schema. -/
private theorem HasContent.schema_eq (mediaType : Scalar) {holder : Members}
    {schema schema' : Value} (hcontent : Members.get? "content" holder =
      some (.object [(mediaType, .record [("schema", schema')])]))
    (h : HasContent holder schema) : schema = schema' := by
  obtain ⟨content, name, media, hget, hmem, hschema⟩ := h
  rw [hcontent] at hget
  obtain rfl := (Tree.marked.inj (Option.some.inj hget)).2
  obtain ⟨-, hmedia⟩ := Prod.mk.inj (List.mem_singleton.mp hmem)
  obtain rfl := (Tree.marked.inj hmedia).2
  exact (Option.some.inj hschema).symm

/-- The schema of a value has a type and items, which were converted. -/
private theorem valueSchema_relocated {parameter : Members} {schema : Value}
    (h : valueSchema parameter = .ok schema) :
    Relocated schema := by
  unfold valueSchema at h
  dsimp only at h
  have hitems : ∃ items, (items = .null ∨ ∃ source, convertSchema source = .ok items) ∧
      schema = .recordOf [("type", fieldOf parameter "type"),
        ("format", fieldOf parameter "format"), ("enum", fieldOf parameter "enum"),
        ("items", items)] := by
    split at h
    · exact ⟨.null, .inl rfl, (Except.ok.inj h).symm⟩
    · obtain ⟨items, hconvert, h⟩ := bind_eq_ok.mp h
      exact ⟨items, .inr ⟨_, hconvert⟩, (Except.ok.inj h).symm⟩
  obtain ⟨items, hconverted, rfl⟩ := hitems
  refine relocated_recordOf rfl (by simp) fun step v w hmem hnull hwithin => ?_
  cases step with
  | items =>
      obtain rfl : v = items := by simpa [SchemaStep.keyword] using hmem
      obtain rfl := Option.some.inj hwithin
      obtain ⟨source, hsource⟩ := hconverted.resolve_left hnull
      exact convertSchema_relocated hsource
  | _ => simp [SchemaStep.keyword] at hmem

/-- The schema of a converted parameter is relocated. -/
private theorem convertParameter_relocated {source parameter : Members} {schema : Value}
    (h : convertParameter source = .ok (.object parameter))
    (hschema : Members.get? "schema" parameter = some schema) :
    Relocated schema := by
  unfold convertParameter at h
  dsimp only at h
  split at h
  · obtain rfl := (Tree.marked.inj (Except.ok.inj h)).2
    simp [Members.get?_cons] at hschema
  · simp at h
  · split at h
    · have hmem := mem_of_get?_recordOf (Except.ok.inj h) hschema
      have hnull : schema = .null := by simpa using hmem
      exact relocated_of_not_object (hnull ▸ rfl)
    · obtain ⟨converted, hconverted, h⟩ := bind_eq_ok.mp h
      obtain rfl : schema = converted := by
        simpa using mem_of_get?_recordOf (Except.ok.inj h) hschema
      exact valueSchema_relocated hconverted

/-- The schema of the payload that a body parameter describes is relocated. -/
private theorem bodyRequest_relocated {parameter body : Members} {schema : Value}
    (h : bodyRequest parameter = .ok (.object body))
    (hschema : HasContent body schema) : Relocated schema := by
  obtain ⟨converted, hconverted, h⟩ := bind_eq_ok.mp h
  obtain rfl := hschema.schema_eq "application/json"
    (get?_recordOf _ (by simp) (Except.ok.inj h) (by simp; rfl) rfl)
  exact convertSchema_relocated hconverted

/-- The schema that form data make holds no references at all. -/
private theorem formRequest_relocated {forms : List Members}
    {consumes : Value} {body : Members}
    {schema : Value} (h : formRequest forms consumes = .ok (.object body))
    (hschema : HasContent body schema) : Relocated schema := by
  obtain ⟨multipart, -, h⟩ := bind_eq_ok.mp h
  obtain ⟨properties, hproperties, h⟩ := bind_eq_ok.mp h
  obtain rfl := (Tree.marked.inj (Except.ok.inj h)).2
  obtain rfl := hschema.schema_eq _ rfl
  refine relocated_recordOf rfl (by simp) fun step v w hmem hnull hwithin => ?_
  cases step with
  | property name =>
      obtain rfl : v = .object (Members.ofEntries properties) := by
        simpa [SchemaStep.keyword] using hmem
      obtain ⟨k, -, hentry⟩ := Members.mem_of_get? hwithin
      obtain ⟨o, ho, rfl, -⟩ := Members.mem_ofEntries hentry
      obtain ⟨parameter, -, hparameter⟩ := exists_of_mem_mapM hproperties ho
      obtain ⟨fieldName, -, hparameter⟩ := bind_eq_ok.mp hparameter
      obtain rfl := Except.ok.inj hparameter
      refine relocated_recordOf rfl (by simp) fun step v w hmem _ _ => ?_
      cases step <;> simp [SchemaStep.keyword] at hmem
  | _ => simp [SchemaStep.keyword] at hmem

/-- The schema of a converted response is relocated. -/
private theorem convertResponse_relocated
    {produces : Value} {source : Members} {response : Members}
    {schema : Value} (h : convertResponse produces source = .ok (.object response))
    (hschema : HasContent response schema) :
    Relocated schema := by
  unfold convertResponse at h
  dsimp only at h
  split at h
  · obtain rfl := (Tree.marked.inj (Except.ok.inj h)).2
    obtain ⟨content, -, -, hget, -⟩ := hschema
    simp [Members.get?_cons] at hget
  · obtain ⟨first, -, h⟩ := bind_eq_ok.mp h
    obtain ⟨mediaType, -, h⟩ := bind_eq_ok.mp h
    obtain ⟨converted, hconverted, h⟩ := bind_eq_ok.mp h
    obtain rfl := (Tree.marked.inj (Except.ok.inj h)).2
    obtain rfl := hschema.schema_eq _ rfl
    exact convertSchema_relocated hconverted

/-- Every converted response was made of one. -/
private theorem exists_of_mem_convertResponses {produces : Value}
    {given responses : Members} (h : convertResponses produces given = .ok responses) :
    ∀ e ∈ responses, ∃ source, convertResponse produces source = .ok e.2 := by
  induction given generalizing responses with
  | nil =>
      obtain rfl := Except.ok.inj h
      simp
  | cons e rest ih =>
      obtain ⟨code, v⟩ := e
      cases v with
      | marked mark source =>
          obtain ⟨converted, hconverted, h⟩ := bind_eq_ok.mp h
          obtain ⟨name, -, h⟩ := bind_eq_ok.mp h
          obtain ⟨others, hothers, h⟩ := bind_eq_ok.mp h
          obtain rfl := Except.ok.inj h
          rw [List.forall_mem_cons]
          exact ⟨⟨source, hconverted⟩, ih hothers⟩
      | _ => exact ih h

/-- An operation of a converted document was converted, and is complete since. -/
private theorem converted_of_holdsOperation {ms ns paths item op : Members}
    (h : convertDocument (.object ms) = .ok (.object ns))
    (hpaths : Members.get? "paths" ns = some (.object paths))
    (hitem : ItemWithin paths item) (hop : HoldsOperation item op) :
    ∃ source given converted,
      convertOperation (.object ms) source given = .ok (.object converted) ∧
      (∀ name ∉ operationParts,
        Members.get? (.str name) op = Members.get? name converted) ∧
      ∀ own, Members.get? "parameters" op = some (.list own) →
        Members.listAt "parameters" converted = .ok own := by
  have hnoCallbacks := convertDocument_hasNoCallbacks h hpaths
  have htop : HoldsItem paths item := by
    rcases itemWithin_iff.mp hitem with htop
      | ⟨item', op', inner, hitem', hop', ⟨callbacks, name, hmem, -⟩, -⟩
    · exact htop
    · exact absurd hmem (hnoCallbacks.operation item' op' (.top hitem') hop' _)
  obtain ⟨⟨items, before, after, -, hconverted, hcompletion, hafter⟩, -⟩ :=
    convertDocument_parts h
  obtain rfl : after = paths := by simpa [hafter] using hpaths
  obtain ⟨item₀, op₀, ⟨name, hitem₀⟩, ⟨method, -, hop₀⟩, hsame, hparameters⟩ :=
    holdsOperation_of_completion hcompletion htop hop
  obtain ⟨source, hsource⟩ := (convertObjects_spec hconverted).2 _ hitem₀
  obtain ⟨operations, heq, hnone, -, hmade⟩ := get?_convertPathItem hsource
  obtain rfl := (Tree.marked.inj heq).2
  obtain ⟨given, hgiven⟩ := hmade _ hop₀
  exact ⟨source, given, op₀, hgiven, hsame, hparameters hnone⟩

/-- No schema of a converted document points into the definitions. -/
theorem convertDocument_relocated {ms ns : Members} {schema : Value}
    (h : convertDocument (.object ms) = .ok (.object ns))
    (hplace : SchemaPlace ns schema) : Relocated schema := by
  obtain ⟨-, definitions, schemas, _, shared, components, -, hschemas, -, hshared,
      hcomponents, hplaceSchemas, hplaceShared⟩ := convertDocument_parts h
  cases hplace with
  | component hfound hget hmem =>
      obtain rfl :=
        (Tree.marked.inj (Option.some.inj (hcomponents.symm.trans hfound))).2
      obtain rfl :=
        (Tree.marked.inj (Option.some.inj (hplaceSchemas.symm.trans hget))).2
      obtain ⟨source, -, hsource⟩ := (convertMembers_iff.mp hschemas).mem_right hmem
      exact convertSchema_relocated hsource
  | sharedParameter hfound hget hmem hschema =>
      obtain rfl :=
        (Tree.marked.inj (Option.some.inj (hcomponents.symm.trans hfound))).2
      rw [fieldOf, hget, Option.getD_some, objectOrNull] at hplaceShared
      split at hplaceShared
      · contradiction
      obtain rfl := (Tree.marked.inj hplaceShared).2
      obtain ⟨source, hsource⟩ := (convertObjects_spec hshared).2 _ hmem
      exact convertParameter_relocated hsource hschema
  | parameter hpaths hitem hop hget hmem hschema =>
      obtain ⟨source, given, converted, hconvert, -, hparameters⟩ :=
        converted_of_holdsOperation h hpaths hitem hop
      obtain ⟨source, hsource⟩ :=
        (convertOperation_parts hconvert).1 _ (hparameters _ hget) _ hmem
      exact convertParameter_relocated hsource hschema
  | payload hpaths hitem hop hget hcontent =>
      obtain ⟨source, given, converted, hconvert, hsame, -⟩ :=
        converted_of_holdsOperation h hpaths hitem hop
      rw [hsame "requestBody" (by decide)] at hget
      rcases (convertOperation_parts hconvert).2.1 _ hget with ⟨parameter, hbody⟩
        | ⟨forms, consumes, hbody⟩
      · exact bodyRequest_relocated hbody hcontent
      · exact formRequest_relocated hbody hcontent
  | response hpaths hitem hop hget hmem hcontent =>
      obtain ⟨source, given, converted, hconvert, hsame, -⟩ :=
        converted_of_holdsOperation h hpaths hitem hop
      obtain ⟨-, -, given, made, -, hmade, hresponses⟩ :=
        convertOperation_parts hconvert
      rw [hsame "responses" (by decide), hresponses] at hget
      obtain rfl := (Tree.marked.inj (Option.some.inj hget)).2
      obtain ⟨o, ho, hvalue, -⟩ := Members.mem_ofEntries hmem
      obtain ⟨source, hsource⟩ := exists_of_mem_convertResponses hmade o ho
      exact convertResponse_relocated (hvalue ▸ hsource) hcontent

/-! ## What conversion makes of schemas -/

/-- In a converted document every definition stands among the component schemas,
converted, and the pointer that is made of one to the definition leads there, however
the name is spelled in it. A converted schema has at each position below items,
properties, additional properties and parts what conversion makes of the object there,
unless a schema above is a reference. And no schema, wherever it stands in the document,
points into the definitions. -/
theorem convertDocument_schemas {ms : Members} {converted : Value}
    (h : convertDocument (.object ms) = .ok converted) :
    (∀ definitions name definition text,
      Members.get? "definitions" ms = some (.object definitions) →
      Members.get? (.str name) definitions = some definition → name ≠ "" →
      Reference.Spells name.toList text.toList →
      ∃ pointer w,
        convertSchema (.record [("$ref", .str (definitionsPrefix ++ text))]) =
          .ok (.record [("$ref", .str pointer)]) ∧
        Reference.resolve (.str pointer) converted = .ok w ∧
          convertSchema definition = .ok w) ∧
    (∀ position schema result node, convertSchema schema = .ok result →
      (∀ step ∈ position, step.keyword ∈ nestedMembers) →
        schemaAt position schema = some (.object node) → node ≠ [] →
      NoReferenceAbove position schema →
      ∃ w, schemaAt position result = some w ∧ convertSchema (.object node) = .ok w) ∧
    ∃ ns, converted = .object ns ∧ ∀ schema, SchemaPlace ns schema →
      Relocated schema := by
  refine ⟨fun definitions name definition text hdefinitions hdefinition hname htext =>
    ?_, fun position schema result node hresult hsteps hnode hne habove =>
      schemaAt_convertSchema hresult hsteps hnode hne habove, ?_⟩
  · obtain ⟨w, hw, hconvert⟩ := resolve_relocated h hdefinitions hdefinition hname htext
    exact ⟨_, w, convertSchema_definition htext, hw, hconvert⟩
  · obtain ⟨ns, rfl, -⟩ := complete_of_ok (convertDocument_spec h).1
    exact ⟨ns, rfl, fun schema hplace => convertDocument_relocated h hplace⟩

/-- A schema with a reference two steps down. -/
def legacyPet : Value :=
  .record [("type", "object"),
    ("properties", .record [("owners", .record [("type", "array"),
      ("items", .record [("$ref", "#/definitions/owner")])])])]

/-- A legacy document with a definition whose name has a slash in it. -/
def legacyPets : Members :=
  [("swagger", "2.0"),
    ("definitions",
      .record [("pet/dog", legacyPet), ("owner", .record [("type", "string")])]),
    ("paths", .record [("/pets",
      .record [("get", .record [("responses", .record [("200", .record [ ("description",
      "pets"), ("schema", .record [("$ref", "#/definitions/pet~1dog")])])])])])])]

/-- A definition, its items and a reference to it in a document with a name that has
to be escaped. -/
theorem convertDocument_schemas_of_pets :
    ∃ ns pointer w u, convertDocument (.object legacyPets) = .ok (.object ns) ∧
      convertSchema
        (.record [("$ref", .str (definitionsPrefix ++ Reference.spell "pet/dog"))]) =
        .ok (.record [("$ref", .str pointer)]) ∧
      Reference.resolve (.str pointer) (.object ns) = .ok w ∧
        convertSchema legacyPet = .ok w ∧
      schemaAt [.property "owners", .items] w = some u ∧
      convertSchema (.record [("$ref", "#/definitions/owner")]) = .ok u ∧
      ∀ schema, SchemaPlace ns schema → Relocated schema := by
  have hruns : ∃ converted, convertDocument (.object legacyPets) = .ok converted :=
    ⟨_, rfl⟩
  obtain ⟨converted, hconverted⟩ := hruns
  obtain ⟨hdefinitions, hpositions, ns, rfl, hplaces⟩ :=
    convertDocument_schemas hconverted
  obtain ⟨pointer, w, hpointer, hw, hconvert⟩ :=
    hdefinitions _ "pet/dog" legacyPet (Reference.spell "pet/dog") rfl rfl (by decide)
      (Reference.spells_spell _)
  have habove : NoReferenceAbove [.property "owners", .items] legacyPet :=
    .cons (fun pointer h => by simp [Members.get?_cons] at h) fun owners howners => by
      obtain rfl := Option.some.inj howners
      exact .cons (fun pointer h => by simp [Members.get?_cons] at h) fun items _ =>
        noReferenceAbove_nil items
  obtain ⟨u, hu, hnode⟩ := hpositions [.property "owners", .items] legacyPet w
    _ hconvert (by simp [SchemaStep.keyword, nestedMembers]) rfl (by simp) habove
  exact ⟨ns, pointer, w, u, hconverted, hpointer, hw, hconvert, hu, hnode, hplaces⟩

end ApiWorkbench.Swagger
