import ApiWorkbench.Proofs.Reference.Lookups
import ApiWorkbench.Proofs.Swagger.Parameters
import ApiWorkbench.Proofs.Swagger.SchemaPositions

/-!
# Documents that can be converted

A document of the legacy format is converted before its shape is checked, so anything
may stand anywhere in it. Here is what each part has to be for the conversion to come
to an end, from schemas up to whole documents. Nothing is asked of what the conversion
does not look at.

A schema is only looked into where no reference stands above it. Of an operation only
the parameters that it has in effect count, so those have to be found first: the lists
have to be lists, their objects have to be told apart, and pointers to shared parameters
have to be looked up.

## Main results

* `convertSchema_succeeds_iff`, `convertOperation_succeeds_iff`: for schemas and
  for operations.
* `convertDocument_succeeds_iff`: for documents.
-/

namespace ApiWorkbench.Swagger

open Document Members

/-! ## Schemas -/

/-- A schema, or a parameter, says nothing but where it points. -/
def IsReference (ms : Members) : Prop :=
  ∃ pointer, get? "$ref" ms = some (.str pointer)

/-- What a schema holds that is itself converted as a schema. -/
inductive HoldsSchema (ms : Members) : Value → Prop where
  | items {v : Value} : (Scalar.str "items", v) ∈ ms → HoldsSchema ms v
  | additional {v : Value} : (Scalar.str "additionalProperties", v) ∈ ms →
      HoldsSchema ms v
  | property {properties : Members} {e : Scalar × Value} :
      (Scalar.str "properties", Value.object properties) ∈ ms → e ∈ properties →
        HoldsSchema ms e.2
  | part {parts v : Value} {xs : List Value} : (Scalar.str "allOf", parts) ∈ ms →
      parts.items = .ok xs → v ∈ xs → HoldsSchema ms v

/-- The objects that the conversion of a schema comes to. -/
inductive Reaches : Value → Members → Prop where
  | here (ms : Members) : Reaches (.object ms) ms
  | within {ms ns : Members} {v : Value} : ¬ IsReference ms → HoldsSchema ms v →
      Reaches v ns →
      Reaches (.object ms) ns

/-- The properties of a schema are an object and its parts can be listed, unless
they are blank. -/
structure UsableSchema (ms : Members) : Prop where
  properties : ∀ v, (Scalar.str "properties", v) ∈ ms → v.isBlank = true ∨
    v.isObject = true
  parts : ∀ v, (Scalar.str "allOf", v) ∈ ms → v.isBlank = true ∨ Succeeds v.items

/-- Every object that the conversion of a schema comes to is a reference or can be
used. -/
def ConvertibleSchema (v : Value) : Prop :=
  ∀ ms, Reaches v ms → IsReference ms ∨ UsableSchema ms

section

variable {k : Scalar} {v : Value} {ms : Members}

theorem convertibleSchema_of_not_object (h : v.isObject = false) :
    ConvertibleSchema v := by
  intro ms hreaches
  cases hreaches with
  | _ => simp [Tree.isObject] at h

theorem convertibleSchema_nil : ConvertibleSchema (.object []) := by
  intro ms hreaches
  cases hreaches with
  | here => exact .inr ⟨by simp, by simp⟩
  | within _ hholds _ => cases hholds <;> contradiction

theorem convertibleSchema_of_isBlank (h : v.isBlank = true) : ConvertibleSchema v := by
  cases v with
  | marked mark ms =>
      obtain rfl : ms = [] := List.isEmpty_iff.mp h
      exact convertibleSchema_nil
  | _ => exact convertibleSchema_of_not_object rfl

/-- An object that is no reference is converted part by part. -/
theorem convertibleSchema_object (href : ¬ IsReference ms) :
    ConvertibleSchema (.object ms) ↔
    UsableSchema ms ∧ ∀ v, HoldsSchema ms v → ConvertibleSchema v := by
  constructor
  · intro h
    exact ⟨(h ms (.here ms)).resolve_left href, fun v hv ns hns =>
      h ns (.within href hv hns)⟩
  · rintro ⟨husable, hparts⟩ ns hreaches
    cases hreaches with
    | here => exact .inr husable
    | within _ hholds hns => exact hparts _ hholds ns hns

/-- What a member of a schema has to be for the schema to be converted. -/
def ConvertibleMember (k : Scalar) (v : Value) : Prop :=
  (k = .str "items" → ConvertibleSchema v) ∧
  (k = .str "properties" → v.isBlank = true ∨ ∃ properties, v = .object properties ∧
    ∀ e ∈ properties, ConvertibleSchema e.2) ∧
  (k = .str "allOf" → v.isBlank = true ∨ ∃ xs, v.items = .ok xs ∧ ∀ x ∈ xs,
    ConvertibleSchema x) ∧
  (k = .str "additionalProperties" → ConvertibleSchema v)

/-- Items of something blank hold nothing that could stop the conversion. -/
private theorem convertibleSchema_of_mem_items {xs : List Value}
    (hblank : v.isBlank = true) (hxs : v.items = .ok xs) {x : Value} (hx : x ∈ xs) :
    ConvertibleSchema x := by
  obtain ⟨s, rfl⟩ : ∃ s, x = .scalar s := by
    refine Tree.scalar_of_mem_items hxs ?_ ?_ hx
    · rintro ys rfl
      obtain rfl : ys = [] := List.isEmpty_iff.mp hblank
      obtain rfl := Except.ok.inj hxs
      simp at hx
    · rintro a b rfl
      contradiction
  exact convertibleSchema_of_not_object rfl

theorem convertibleMembers_iff : (∀ e ∈ ms, ConvertibleMember e.1 e.2) ↔
    UsableSchema ms ∧ ∀ v, HoldsSchema ms v → ConvertibleSchema v := by
  constructor
  · intro h
    refine ⟨⟨fun v hv => ?_, fun v hv => ?_⟩, fun v hv => ?_⟩
    · rcases (h _ hv).2.1 rfl with hblank | ⟨properties, rfl, -⟩
      · exact .inl hblank
      · exact .inr rfl
    · rcases (h _ hv).2.2.1 rfl with hblank | ⟨xs, hxs, -⟩
      · exact .inl hblank
      · exact .inr ⟨xs, hxs⟩
    · cases hv with
      | items hmem => exact (h _ hmem).1 rfl
      | additional hmem => exact (h _ hmem).2.2.2 rfl
      | property hmem he =>
          rcases (h _ hmem).2.1 rfl with hblank | ⟨properties, heq, hproperties⟩
          · simp [List.isEmpty_iff.mp hblank] at he
          · obtain rfl := (Tree.marked.inj heq).2
            exact hproperties _ he
      | part hmem hxs hx =>
          rcases (h _ hmem).2.2.1 rfl with hblank | ⟨xs, hxs', hparts⟩
          · exact convertibleSchema_of_mem_items hblank hxs hx
          · obtain rfl := Except.ok.inj (hxs.symm.trans hxs')
            exact hparts _ hx
  · rintro ⟨husable, hparts⟩ ⟨k, v⟩ he
    refine ⟨?_, ?_, ?_, ?_⟩
    · rintro rfl
      exact hparts _ (.items he)
    · rintro rfl
      refine (husable.properties v he).imp_right fun hobject => ?_
      cases v with
      | marked mark properties =>
          exact ⟨properties, rfl, fun e hmem => hparts _ (.property he hmem)⟩
      | _ => contradiction
    · rintro rfl
      refine (husable.parts v he).imp_right ?_
      rintro ⟨xs, hxs⟩
      exact ⟨xs, hxs, fun x hx => hparts _ (.part he hxs hx)⟩
    · rintro rfl
      exact hparts _ (.additional he)

private theorem unlessBlank_succeeds_iff {convert : Except Fault Value} :
    Succeeds (unlessBlank v convert) ↔ v.isBlank = true ∨ Succeeds convert := by
  unfold unlessBlank
  split
  · simp [succeeds_ok, *]
  · rw [succeeds_bind_pure]
    simp [*]

/-- The conversion of what is blank comes to an end anyway. -/
private theorem or_convertibleSchema :
    v.isBlank = true ∨ ConvertibleSchema v ↔ ConvertibleSchema v :=
  or_iff_right_of_imp convertibleSchema_of_isBlank

private theorem convertMembers_succeeds_iff :
    Succeeds (convertMembers ms) ↔ ∀ e ∈ ms, Succeeds (convertSchema e.2) := by
  induction ms with
  | nil => simp [convertMembers, succeeds_ok]
  | cons e rest ih =>
      rw [convertMembers, succeeds_bind_iff fun _ => succeeds_bind_pure, ih,
        List.forall_mem_cons]

private theorem convertParts_succeeds_iff : Succeeds (convertParts v) ↔
    ∃ xs, v.items = .ok xs ∧ ∀ x ∈ xs, Succeeds (convertSchema x) := by
  have hscalars : ∀ {xs : List Value}, (∀ ys, v ≠ .list ys) → (∀ a b, v ≠ .pair a b) →
      v.items = .ok xs → ∀ x ∈ xs, Succeeds (convertSchema x) := by
    intro xs hlist hpair hxs x hx
    obtain ⟨s, rfl⟩ := Tree.scalar_of_mem_items hxs hlist hpair hx
    exact succeeds_ok _
  rw [convertParts.eq_def]
  split
  · rw [succeeds_bind_pure, convertItems_eq, mapM_succeeds_iff]
    simp [Tree.items]
  · rw [succeeds_bind_iff fun _ => succeeds_bind_pure]
    simp [Tree.items]
  · rename_i hlist hpair
    rw [succeeds_bind_pure]
    exact exists_congr fun xs => (and_iff_left_of_imp (hscalars hlist hpair)).symm

private theorem convertProperties_succeeds_iff : Succeeds (convertProperties v) ↔
    ∃ properties, v = .object properties ∧ ∀ e ∈ properties,
      Succeeds (convertSchema e.2) := by
  rw [convertProperties.eq_def]
  split
  · rename_i properties
    rw [succeeds_bind_pure, convertMembers_succeeds_iff]
    simp
  · rename_i hobject
    simp only [Succeeds, throw_eq_error, reduceCtorEq, exists_false, false_iff]
    rintro ⟨properties, rfl, -⟩
    exact hobject properties rfl

private theorem convertNested_succeeds_iff :
    Succeeds (convertNested ms) ↔ ∀ e ∈ ms, Succeeds (nestedMember e.1 e.2) := by
  induction ms with
  | nil => simp [convertNested, succeeds_ok]
  | cons e rest ih =>
      obtain ⟨k, v⟩ := e
      rw [convertNested_eq, succeeds_bind_iff fun _ => succeeds_bind_pure, ih,
        List.forall_mem_cons]

/-- A member of a schema is converted if what is looked into as a schema is. -/
private theorem nestedMember_succeeds_iff
    (hv : Succeeds (convertSchema v) ↔ ConvertibleSchema v)
    (hproperties : ∀ properties, v = .object properties →
      ∀ e ∈ properties, (Succeeds (convertSchema e.2) ↔ ConvertibleSchema e.2))
    (hparts : ∀ xs, v.items = .ok xs →
      ∀ x ∈ xs, (Succeeds (convertSchema x) ↔ ConvertibleSchema x)) :
    Succeeds (nestedMember k v) ↔ ConvertibleMember k v := by
  unfold nestedMember
  simp only [Scalar.same_str_iff]
  split
  · obtain rfl := ‹k = _›
    have hmember : ConvertibleMember (.str "items") v ↔ ConvertibleSchema v := by
      simp [ConvertibleMember]
    rw [hmember, unlessBlank_succeeds_iff, hv, or_convertibleSchema]
  · split
    · obtain rfl := ‹k = _›
      have hmember : ConvertibleMember (.str "properties") v ↔ v.isBlank = true ∨
          ∃ properties, v = .object properties ∧ ∀ e ∈ properties,
            ConvertibleSchema e.2 := by
        simp [ConvertibleMember]
      rw [hmember, unlessBlank_succeeds_iff, convertProperties_succeeds_iff]
      exact or_congr_right <| exists_congr fun properties => and_congr_right fun heq =>
        forall₂_congr (hproperties properties heq)
    · split
      · obtain rfl := ‹k = _›
        have hmember : ConvertibleMember (.str "allOf") v ↔ v.isBlank = true ∨
            ∃ xs, v.items = .ok xs ∧ ∀ x ∈ xs, ConvertibleSchema x := by
          simp [ConvertibleMember]
        rw [hmember, unlessBlank_succeeds_iff, convertParts_succeeds_iff]
        exact or_congr_right <| exists_congr fun xs => and_congr_right fun hxs =>
          forall₂_congr (hparts xs hxs)
      · split
        · obtain rfl := ‹k = _›
          have hmember :
              ConvertibleMember (.str "additionalProperties") v ↔
                ConvertibleSchema v := by
            simp [ConvertibleMember]
          rw [hmember]
          split
          · exact iff_of_true (succeeds_ok _) (convertibleSchema_of_not_object rfl)
          · rw [unlessBlank_succeeds_iff, hv, or_convertibleSchema]
        · simp [ConvertibleMember, succeeds_ok, *]

private theorem convertSchema_object_succeeds_iff :
    Succeeds (convertSchema (.object ms)) ↔ IsReference ms ∨
      Succeeds (convertNested ms) := by
  cases ms with
  | nil => exact iff_of_true (succeeds_ok _) (.inr (succeeds_ok _))
  | cons e rest =>
      rw [convertSchema.eq_def]
      dsimp only
      split
      · exact iff_of_true (succeeds_ok _) (.inl ⟨_, ‹_›⟩)
      · rename_i hnone
        rw [succeeds_bind_pure, or_iff_right]
        exact fun ⟨pointer, hpointer⟩ => hnone pointer hpointer

/-- A schema is converted exactly if every object that this comes to is a reference
or can be used. -/
theorem convertSchema_succeeds_iff (v : Value) :
    Succeeds (convertSchema v) ↔ ConvertibleSchema v := by
  -- properties and parts are two levels down, so the claim is made for the parts of
  -- a value as well
  suffices h : (Succeeds (convertSchema v) ↔ ConvertibleSchema v) ∧
      (∀ properties, v = .object properties →
        ∀ e ∈ properties, (Succeeds (convertSchema e.2) ↔ ConvertibleSchema e.2)) ∧
      ∀ xs, v.items = .ok xs →
        ∀ x ∈ xs, (Succeeds (convertSchema x) ↔ ConvertibleSchema x) from h.1
  have hscalar : ∀ s : Scalar,
      Succeeds (convertSchema (.scalar s)) ↔ ConvertibleSchema (.scalar s) := fun s =>
    iff_of_true (succeeds_ok _) (convertibleSchema_of_not_object rfl)
  have hscalars : ∀ {w : Value} {xs : List Value}, (∀ ys, w ≠ .list ys) →
      (∀ a b, w ≠ .pair a b) →
      w.items = .ok xs → ∀ x ∈ xs,
        (Succeeds (convertSchema x) ↔ ConvertibleSchema x) := by
    intro w xs hlist hpair hxs x hx
    obtain ⟨s, rfl⟩ := Tree.scalar_of_mem_items hxs hlist hpair hx
    exact hscalar s
  induction v using Tree.parts_induction with
  | scalar s => exact ⟨hscalar s, by simp, fun xs => hscalars (by simp) (by simp)⟩
  | set names =>
      exact ⟨iff_of_true (succeeds_ok _) (convertibleSchema_of_not_object rfl), by simp,
        fun xs => hscalars (by simp) (by simp)⟩
  | list ys ih =>
      refine
        ⟨iff_of_true (succeeds_ok _) (convertibleSchema_of_not_object rfl), by simp, ?_⟩
      intro xs hxs x hx
      obtain rfl := Except.ok.inj hxs
      exact (ih x hx).1
  | pair a b ha hb =>
      refine
        ⟨iff_of_true (succeeds_ok _) (convertibleSchema_of_not_object rfl), by simp, ?_⟩
      intro xs hxs x hx
      obtain rfl := Except.ok.inj hxs
      obtain rfl | rfl : x = a ∨ x = b := by simpa using hx
      · exact ha.1
      · exact hb.1
  | marked mark ms ih =>
      refine ⟨?_, ?_, fun xs => hscalars (by simp) (by simp)⟩
      · by_cases href : IsReference ms
        · refine iff_of_true (convertSchema_object_succeeds_iff.mpr (.inl href))
            fun ns hreaches => ?_
          cases hreaches with
          | here => exact .inl href
          | within hnone _ _ => exact absurd href hnone
        · rw [convertSchema_object_succeeds_iff, or_iff_right href,
            convertNested_succeeds_iff,
            convertibleSchema_object href, ← convertibleMembers_iff]
          exact forall₂_congr fun e he =>
            nestedMember_succeeds_iff (ih e he).1 (ih e he).2.1 (ih e he).2.2
      · intro properties heq e he
        obtain rfl := (Tree.marked.inj heq).2
        exact (ih e he).1

end

/-! ## Parameters -/

/-- A parameter that stays one is a reference, or has a schema for its items if
it has a type. -/
def ConvertibleParameter (parameter : Members) : Prop :=
  IsReference parameter ∨ get? "$ref" parameter = none ∧
    ((fieldOf parameter "type").isBlank = true ∨
      ConvertibleSchema (fieldOf parameter "items"))

/-- Parameters that describe the payload have a schema that is converted, or names for
form data; where form data may be sent can be asked for a media type then. -/
structure ConvertiblePayload (op : Members) (parameters : List Members) : Prop where
  body : ∀ body rest, parameters.filter (isLocatedIn "body") = body :: rest →
    ConvertibleSchema (fieldOf body "schema")
  consumes : parameters.filter (isLocatedIn "body") = [] →
    parameters.filter (isLocatedIn "formData") ≠ [] →
      Succeeds (((fieldOf op "consumes").orElse (.list [])).holds "multipart/form-data")
  names : parameters.filter (isLocatedIn "body") = [] →
    ∀ form ∈ parameters.filter (isLocatedIn "formData"),
      Succeeds (fieldOf form "name").name

section

variable {document : Value} {item op parameter : Members} {parameters : List Members}
  {v w : Value}

theorem convertibleSchema_orElse (hw : ConvertibleSchema w) :
    ConvertibleSchema (v.orElse w) ↔ ConvertibleSchema v := by
  unfold Tree.orElse
  split
  · exact iff_of_true hw (convertibleSchema_of_isBlank ‹_›)
  · rfl

private theorem valueSchema_succeeds_iff :
    Succeeds (valueSchema parameter) ↔
      ConvertibleSchema (fieldOf parameter "items") := by
  unfold valueSchema
  dsimp only
  split
  · exact iff_of_true (succeeds_ok _) (convertibleSchema_of_isBlank ‹_›)
  · rw [succeeds_bind_pure, convertSchema_succeeds_iff]

theorem convertParameter_succeeds_iff :
    Succeeds (convertParameter parameter) ↔ ConvertibleParameter parameter := by
  unfold convertParameter ConvertibleParameter IsReference
  dsimp only
  split
  · exact iff_of_true (succeeds_ok _) (.inl ⟨_, ‹_›⟩)
  · rename_i v hnone hget
    simp_all [Succeeds]
  · rename_i hget
    split
    · exact iff_of_true (succeeds_ok _) (.inr ⟨hget, .inl ‹_›⟩)
    · rw [succeeds_bind_pure, valueSchema_succeeds_iff]
      simp [*]

/-- A parameter is looked up unless its pointer into the shared parameters stumbles. -/
private theorem inlinePayload_succeeds_iff :
    Succeeds (inlinePayload document parameter) ↔
    ∀ pointer, fieldOf parameter "$ref" = .str pointer →
      pointer.startsWith sharedParameters = true →
      ¬ Reference.Stumbles document pointer := by
  unfold inlinePayload
  split
  · rename_i pointer hpointer
    have hresolve : ¬ Reference.Stumbles document pointer ↔
        Succeeds (Reference.resolve (.str pointer) document) := by
      rw [← Reference.resolve_error_iff, ← not_succeeds_iff, not_not]
    split
    · rw [succeeds_bind_iff (Q := True)
        fun target => by cases target <;> simp [succeeds_ok]]
      simp_all
    · simp_all [succeeds_ok]
  · rename_i hpointer
    exact iff_of_true (succeeds_ok _) fun pointer h => absurd h (hpointer pointer)

private theorem formRequest_succeeds_iff {forms : List Members} {consumes : Value} :
    Succeeds (formRequest forms consumes) ↔
      Succeeds (consumes.holds "multipart/form-data") ∧ ∀ form ∈ forms,
        Succeeds (fieldOf form "name").name := by
  rw [formRequest, succeeds_bind_iff fun _ => succeeds_bind_pure, mapM_succeeds_iff]
  exact and_congr_right fun _ => forall₂_congr fun _ _ => succeeds_bind_pure

private theorem requestBody_succeeds_iff :
    Succeeds (requestBody op parameters) ↔ ConvertiblePayload op parameters := by
  unfold requestBody
  split
  · rename_i body rest hbody
    rw [bodyRequest, succeeds_bind_pure, convertSchema_succeeds_iff,
      convertibleSchema_orElse convertibleSchema_nil]
    constructor
    · intro h
      refine ⟨fun body' rest' heq => ?_, fun heq => ?_, fun heq => ?_⟩
      · obtain ⟨rfl, rfl⟩ := List.cons.inj (hbody.symm.trans heq)
        exact h
      · simp [hbody] at heq
      · simp [hbody] at heq
    · exact fun h => h.body body rest hbody
  · rename_i hbody hforms
    exact iff_of_true (succeeds_ok _)
      ⟨by simp [hbody], by simp [hforms], by simp [hforms]⟩
  · rename_i hbody hforms
    rw [formRequest_succeeds_iff]
    constructor
    · rintro ⟨hconsumes, hnames⟩
      exact ⟨by simp [hbody], fun _ _ => hconsumes, fun _ => hnames⟩
    · exact fun h => ⟨h.consumes hbody hforms, h.names hbody⟩

/-! ## Operations -/

/-- A response without a schema is converted anyway; for a schema there is a first media
type, which is a name. -/
def ConvertibleResponse (produces : Value) (response : Members) : Prop :=
  (fieldOf response "schema").isBlank = true ∨
    (∃ mediaType, produces.first = .ok mediaType ∧ Succeeds mediaType.name) ∧
      ConvertibleSchema (fieldOf response "schema")

/-- The media types of the responses of an operation. -/
def produced (op : Members) : Value :=
  (fieldOf op "produces").orElse (.list ["application/json"])

/-- What an operation and its path item have to be for the operation to be converted. -/
structure ConvertibleOperation (document : Value) (item op : Members) : Prop where
  shared : ParametersIdentified item
  own : ParametersIdentified op
  pointers : ∀ shared own merged, listAt "parameters" item = .ok shared →
    listAt "parameters" op = .ok own → mergeParameters shared own = .ok merged →
      ∀ parameter ∈ objectsIn merged, ∀ pointer,
        fieldOf parameter "$ref" = .str pointer →
        pointer.startsWith sharedParameters = true →
          ¬ Reference.Stumbles document pointer
  kept : ∀ parameters, InEffect document item op parameters →
    ∀ parameter ∈ parameters, isPayload parameter = false →
      ConvertibleParameter parameter
  payload : ∀ parameters, InEffect document item op parameters →
    ConvertiblePayload op parameters
  responses : ∃ responses, (fieldOf op "responses").membersOrNone = .ok responses ∧
    ∀ e ∈ responses, ∀ response, e.2 = .object response →
      ConvertibleResponse (produced op) response ∧ Succeeds e.1.textName

private theorem convertResponse_succeeds_iff {produces : Value} {response : Members} :
    Succeeds (convertResponse produces response) ↔
      ConvertibleResponse produces response := by
  unfold convertResponse ConvertibleResponse
  dsimp only
  split
  · exact iff_of_true (succeeds_ok _) (.inl ‹_›)
  · rename_i hblank
    rw [or_iff_right hblank, succeeds_bind, ← convertSchema_succeeds_iff,
      exists_and_right.symm]
    refine exists_congr fun first => ?_
    rw [succeeds_bind_iff fun _ => succeeds_bind_pure, and_assoc]

private theorem convertResponses_succeeds_iff {produces : Value} {responses : Members} :
    Succeeds (convertResponses produces responses) ↔
      ∀ e ∈ responses, ∀ response, e.2 = .object response →
        ConvertibleResponse produces response ∧ Succeeds e.1.textName := by
  induction responses with
  | nil => simp [convertResponses, succeeds_ok]
  | cons e rest ih =>
      obtain ⟨code, v⟩ := e
      rw [List.forall_mem_cons, ← ih]
      cases v with
      | marked mark response =>
          rw [convertResponses,
            succeeds_bind_iff fun _ => succeeds_bind_iff fun _ => succeeds_bind_pure,
            convertResponse_succeeds_iff]
          simp [and_assoc]
      | _ => simp [convertResponses]

private theorem listAt_parameters (ms : Members) :
    listAt "parameters" ms = listedParameters ms :=
  itemsOrNone_eq _

private theorem mem_objectsIn {q : Members} {xs : List Value} :
    q ∈ objectsIn xs ↔ Value.object q ∈ xs := by
  induction xs with
  | nil => simp [objectsIn]
  | cons x rest ih => cases x <;> simp [objectsIn, ih]

/-- The parameters of an operation are found if their lists are lists, the objects in
these are told apart, and each of them is looked up. -/
private theorem effectiveParameters_succeeds_iff :
    Succeeds (effectiveParameters document item op) ↔
      ParametersIdentified item ∧ ParametersIdentified op ∧
        ∀ shared own merged, listAt "parameters" item = .ok shared →
          listAt "parameters" op = .ok own → mergeParameters shared own = .ok merged →
            ∀ parameter ∈ objectsIn merged,
              Succeeds (inlinePayload document parameter) := by
  constructor
  · intro h
    obtain ⟨shared, hshared, h⟩ := succeeds_bind.mp h
    obtain ⟨own, hown, h⟩ := succeeds_bind.mp h
    obtain ⟨merged, hmerged, h⟩ := succeeds_bind.mp h
    obtain ⟨hownKeys, hsharedKeys⟩ := mergeParameters_succeeds_iff.mp ⟨merged, hmerged⟩
    refine ⟨⟨shared, listAt_parameters item ▸ hshared, hsharedKeys⟩,
      ⟨own, listAt_parameters op ▸ hown, hownKeys⟩, ?_⟩
    intro shared' own' merged' hshared' hown' hmerged'
    obtain rfl := Except.ok.inj (hshared.symm.trans hshared')
    obtain rfl := Except.ok.inj (hown.symm.trans hown')
    obtain rfl := Except.ok.inj (hmerged.symm.trans hmerged')
    exact mapM_succeeds_iff.mp h
  · rintro ⟨⟨shared, hshared, hsharedKeys⟩, ⟨own, hown, hownKeys⟩, hlookups⟩
    obtain ⟨merged, hmerged⟩ := mergeParameters_succeeds_iff.mpr ⟨hownKeys, hsharedKeys⟩
    rw [← listAt_parameters] at hshared hown
    exact succeeds_bind.mpr ⟨shared,
      hshared, succeeds_bind.mpr ⟨own, hown, succeeds_bind.mpr ⟨merged, hmerged,
      mapM_succeeds_iff.mpr (hlookups shared own merged hshared hown hmerged)⟩⟩⟩

/-- An operation is converted exactly if its parameters are found and can be converted,
or described as a payload, and its responses can be converted. -/
theorem convertOperation_succeeds_iff :
    Succeeds (convertOperation document item op) ↔
      ConvertibleOperation document item op := by
  constructor
  · intro h
    obtain ⟨parameters, hparameters, h⟩ := succeeds_bind.mp h
    obtain ⟨kept, hkept, h⟩ := succeeds_bind.mp h
    obtain ⟨body, hbody, h⟩ := succeeds_bind.mp h
    obtain ⟨given, hgiven, h⟩ := succeeds_bind.mp h
    obtain ⟨responses, hresponses, -⟩ := succeeds_bind.mp h
    obtain ⟨hshared, hown, hlookups⟩ :=
      effectiveParameters_succeeds_iff.mp ⟨parameters, hparameters⟩
    have hunique : ∀ others, InEffect document item op others → others = parameters :=
      fun others hothers => hothers.unique (inEffect_of_effectiveParameters hparameters)
    refine ⟨hshared, hown, fun shared own merged hs ho hm parameter hp =>
      inlinePayload_succeeds_iff.mp (hlookups shared own merged hs ho hm parameter hp),
        ?_, ?_,
      given, hgiven, convertResponses_succeeds_iff.mp ⟨responses, hresponses⟩⟩
    · intro others hothers parameter hp hpayload
      obtain rfl := hunique others hothers
      exact convertParameter_succeeds_iff.mp
        (mapM_succeeds_iff.mp ⟨kept, hkept⟩ parameter
          (List.mem_filter.mpr ⟨hp, by simp [hpayload]⟩))
    · intro others hothers
      obtain rfl := hunique others hothers
      exact requestBody_succeeds_iff.mp ⟨body, hbody⟩
  · intro h
    obtain ⟨parameters, hparameters⟩ := effectiveParameters_succeeds_iff.mpr
        ⟨h.shared, h.own, fun shared own merged hs ho hm parameter hp =>
        inlinePayload_succeeds_iff.mpr
          (h.pointers shared own merged hs ho hm parameter hp)⟩
    have heffect := inEffect_of_effectiveParameters hparameters
    obtain ⟨kept, hkept⟩ :
        Succeeds ((parameters.filter fun p => !isPayload p).mapM convertParameter) := by
      refine mapM_succeeds_iff.mpr fun parameter hp =>
        convertParameter_succeeds_iff.mpr ?_
      obtain ⟨hmem, hpayload⟩ := List.mem_filter.mp hp
      exact h.kept parameters heffect parameter hmem (by simpa using hpayload)
    obtain ⟨body, hbody⟩ := requestBody_succeeds_iff.mpr (h.payload parameters heffect)
    obtain ⟨given, hgiven, hresponses⟩ := h.responses
    obtain ⟨responses, hresponses⟩ := convertResponses_succeeds_iff.mpr hresponses
    exact succeeds_bind.mpr ⟨parameters, hparameters, succeeds_bind.mpr ⟨kept, hkept,
      succeeds_bind.mpr ⟨body, hbody, succeeds_bind.mpr ⟨given, hgiven,
        succeeds_bind.mpr ⟨responses, hresponses, succeeds_ok _⟩⟩⟩⟩⟩

/-- A path item is converted if each of its operations is. -/
private theorem convertPathItem_succeeds_iff :
    Succeeds (convertPathItem document item) ↔
    ∀ (method : Method) op, get? method.name item = some (.object op) →
      ConvertibleOperation document item op := by
  have hwalk : ∀ methods : List Method,
      Succeeds (methods.filterMapM (convertedMember document item)) ↔
      ∀ method ∈ methods, Succeeds (convertedMember document item method) := by
    intro methods
    induction methods with
    | nil => simp [succeeds_ok]
    | cons method rest ih =>
        rw [List.filterMapM_cons, List.forall_mem_cons, ← ih]
        refine succeeds_bind_iff fun made => ?_
        cases made with
        | none => rfl
        | some e => exact succeeds_bind_pure
  have hitem : Succeeds (convertPathItem document item) ↔
      ∀ method ∈ Method.all, Succeeds (convertedMember document item method) := by
    rw [← hwalk]
    exact succeeds_bind_pure
  rw [hitem]
  constructor
  · intro h method op hop
    have hmember := h method (by cases method <;> simp [Method.all])
    rw [convertedMember, hop] at hmember
    exact convertOperation_succeeds_iff.mp (succeeds_bind_pure.mp hmember)
  · intro h method _
    unfold convertedMember
    split
    · exact succeeds_bind_pure.mpr (convertOperation_succeeds_iff.mpr (h method _ ‹_›))
    · exact succeeds_ok _

end

/-! ## Documents -/

/-- A security definition is an object; for the flow of an OAuth definition
there is a name. -/
def ConvertibleScheme (v : Value) : Prop :=
  ∃ scheme, v = .object scheme ∧
    ((fieldOf scheme "type").isText "oauth2" = true →
      Succeeds (fieldOf scheme "flow").name)

/-- What the members of a document of the legacy format have to be for it to be
converted. -/
structure Convertible (ms : Members) : Prop where
  info : ∃ info, (fieldOf ms "info").membersOrNone = .ok info ∧
    ((fieldOf info "version").orElse "1.0.0").isWritable = true
  servers : (fieldOf ms "host").isBlank = true ∨
    (∃ scheme, ((fieldOf ms "schemes").orElse (.list ["https"])).first = .ok scheme ∧
      scheme.isWritable = true) ∧
    (fieldOf ms "host").isWritable = true ∧
      ((fieldOf ms "basePath").orElse "").isWritable = true
  paths : ∃ paths, (fieldOf ms "paths").membersOrNone = .ok paths ∧
    ∀ e ∈ paths, ∀ item, e.2 = .object item → ∀ (method : Method) op,
      get? method.name item = some (.object op) →
        ConvertibleOperation (.object ms) item op
  definitions : ∃ definitions,
    (fieldOf ms "definitions").membersOrNone = .ok definitions ∧
    ∀ e ∈ definitions, ConvertibleSchema e.2
  parameters : ∃ parameters, (fieldOf ms "parameters").membersOrNone = .ok parameters ∧
    ∀ e ∈ parameters, ∀ parameter, e.2 = .object parameter →
      isPayload parameter = false →
      ConvertibleParameter parameter
  schemes : ∃ schemes, (fieldOf ms "securityDefinitions").membersOrNone = .ok schemes ∧
    ∀ e ∈ schemes, ConvertibleScheme e.2
  tags : (fieldOf ms "tags").isBlank = true ∨ Succeeds (fieldOf ms "tags").items

section

variable {ms : Members} {v : Value}

private theorem convertObjects_succeeds_iff {convert : Members → Except Fault Value} :
    Succeeds (convertObjects convert ms) ↔
      ∀ e ∈ ms, ∀ inner, e.2 = .object inner → Succeeds (convert inner) := by
  induction ms with
  | nil => simp [convertObjects, succeeds_ok]
  | cons e rest ih =>
      obtain ⟨name, v⟩ := e
      rw [List.forall_mem_cons, ← ih]
      cases v with
      | marked mark inner =>
          rw [convertObjects, succeeds_bind_iff fun _ => succeeds_bind_pure]
          simp
      | _ => simp [convertObjects]

private theorem convertScheme_succeeds_iff :
    Succeeds (convertScheme v) ↔ ConvertibleScheme v := by
  unfold ConvertibleScheme
  cases v with
  | marked mark scheme =>
      have hobject : (∃ ms, Tree.marked mark scheme = .object ms ∧
          ((fieldOf ms "type").isText "oauth2" = true →
            Succeeds (fieldOf ms "flow").name)) ↔
          ((fieldOf scheme "type").isText "oauth2" = true →
            Succeeds (fieldOf scheme "flow").name) := by
        simp
      rw [hobject, convertScheme, Tree.members, pure_eq_ok, ok_bind]
      dsimp only
      split
      · exact iff_of_true (succeeds_ok _) fun h => by simp_all [Tree.isText_iff]
      · split
        · exact iff_of_true (succeeds_ok _) fun h => by simp_all [Tree.isText_iff]
        · split
          · rw [succeeds_bind_pure]
            simp [*]
          · simp [succeeds_ok, *]
  | _ => simp [convertScheme, Tree.members, Succeeds]

private theorem convertSchemes_succeeds_iff :
    Succeeds (convertSchemes ms) ↔ ∀ e ∈ ms, ConvertibleScheme e.2 := by
  induction ms with
  | nil => simp [convertSchemes, succeeds_ok]
  | cons e rest ih =>
      rw [convertSchemes, succeeds_bind_iff fun _ => succeeds_bind_pure,
        convertScheme_succeeds_iff, ih, List.forall_mem_cons]

private theorem text_succeeds_iff : Succeeds v.text ↔ v.isWritable = true := by
  unfold Tree.text
  split
  · exact iff_of_true (succeeds_ok _) ‹_›
  · simp_all [Succeeds]

private theorem convertInfo_succeeds_iff : Succeeds (convertInfo ms) ↔
    ((fieldOf ms "version").orElse "1.0.0").isWritable = true := by
  rw [convertInfo, succeeds_bind_pure, text_succeeds_iff]

private theorem convertServers_succeeds_iff : Succeeds (convertServers ms) ↔
    (fieldOf ms "host").isBlank = true ∨
      (∃ scheme, ((fieldOf ms "schemes").orElse (.list ["https"])).first = .ok scheme ∧
        scheme.isWritable = true) ∧
      (fieldOf ms "host").isWritable = true ∧
        ((fieldOf ms "basePath").orElse "").isWritable = true := by
  unfold convertServers
  dsimp only
  split
  · exact iff_of_true (succeeds_ok _) (.inl ‹_›)
  · rw [or_iff_right ‹_›, succeeds_bind, exists_and_right.symm]
    refine exists_congr fun scheme => ?_
    rw [succeeds_bind_iff fun _ => succeeds_bind_iff fun _ => succeeds_bind_pure]
    simp only [text_succeeds_iff, and_assoc]

/-- A parameter that is converted keeps what tells it apart. -/
private theorem parameterKey_convertParameter
    {p : Members} (h : convertParameter p = .ok v) (hkey : Succeeds (parameterKey p)) :
    ∃ p', v = .object p' ∧ Succeeds (parameterKey p') := by
  unfold convertParameter at h
  dsimp only at h
  split at h
  · obtain rfl := Except.ok.inj h
    exact ⟨_, rfl, succeeds_ok _⟩
  · contradiction
  · rename_i hnone
    have hrecord : ∃ schema, v = .recordOf [("name", fieldOf p "name"),
        ("in", fieldOf p "in"), ("description", fieldOf p "description"),
        ("required", fieldOf p "required"), ("schema", schema)] := by
      split at h
      · exact ⟨_, (Except.ok.inj h).symm⟩
      · obtain ⟨schema, -, h⟩ := bind_eq_ok.mp h
        exact ⟨schema, (Except.ok.inj h).symm⟩
    obtain ⟨schema, rfl⟩ := hrecord
    obtain ⟨p', hp'⟩ : ∃ p', Tree.recordOf [("name", fieldOf p "name"),
        ("in", fieldOf p "in"), ("description", fieldOf p "description"),
        ("required", fieldOf p "required"), ("schema", schema)] = Value.object p' :=
      ⟨_, rfl⟩
    have href : get? "$ref" p' = none := by
      cases hget : get? (.str "$ref") p' with
      | none => rfl
      | some w => simpa using mem_of_get?_recordOf hp' hget
    have hname : fieldOf p' "name" = fieldOf p "name" :=
      fieldOf_recordOf _ (by simp) hp' (by simp)
    have hin : fieldOf p' "in" = fieldOf p "in" :=
      fieldOf_recordOf _ (by simp) hp' (by simp)
    refine ⟨p', hp', ?_⟩
    have hparts : ∀ {q : Members}, get? "$ref" q = none → (Succeeds (parameterKey q) ↔
        Succeeds (fieldOf q "name").name ∧ Succeeds (fieldOf q "in").name) := by
      intro q hq
      rw [parameterKey, hq]
      exact succeeds_bind_iff fun _ => succeeds_bind_pure
    rw [hparts href, hname, hin]
    exact (hparts hnone).mp hkey

/-- The parameters of a converted operation are told apart. -/
private theorem parametersIdentified_of_converted
    {document : Value} {item op op' : Members} {parameters : List Members}
    (h : ConvertedFrom document item op parameters op') :
    ParametersIdentified op' := by
  obtain ⟨kept, hkept, hlist⟩ := h.kept
  refine ⟨kept, listAt_parameters op' ▸ hlist, hasKeys_iff.mpr fun p' hp' => ?_⟩
  obtain ⟨p, hp, hconverted⟩ := exists_of_mem_mapM hkept hp'
  obtain ⟨hmem, hpayload⟩ := List.mem_filter.mp hp
  obtain ⟨shared, own, merged, -, -, hmerged, hstand⟩ :=
    inEffect_of_effectiveParameters h.effective
  obtain ⟨q, hq, hstands⟩ : ∃ q ∈ objectsIn merged, StandsFor document q p := by
    obtain ⟨i, hi, rfl⟩ := List.mem_iff_getElem.mp hmem
    have hlength := hstand.length_eq
    exact ⟨_, List.getElem_mem (by omega), hstand.get (by omega) hi⟩
  rcases hstands with ⟨pointer, -, -, -, htarget⟩ | ⟨rfl, -⟩
  · simp [htarget] at hpayload
  · have hkey := hasKeys_iff.mp (mergeParameters_spec hmerged).1 p (mem_objectsIn.mp hq)
    obtain ⟨other, heq, hother⟩ := parameterKey_convertParameter hconverted hkey
    obtain rfl := (Tree.marked.inj heq).2
    exact hother

/-- Paths that were converted are completed. -/
private theorem pathItems_completion_succeeds {document : Value} {items paths : Members}
    (h : convertObjects (convertPathItem document) items = .ok paths) :
    Succeeds (completion.pathItems paths) := by
  have hnoCallbacks := convertObjects_hasNoCallbacks h
  refine completion_succeeds_iff.mpr fun item' op' hwithin hop => ?_
  have hnone := hnoCallbacks.operation item' op' hwithin hop
  have htop : HoldsItem paths item' := by
    rcases itemWithin_iff.mp hwithin with htop
      | ⟨item, op, inner, hitem, hop, ⟨map, name, hmem, -⟩, -⟩
    · exact htop
    · exact absurd hmem (hnoCallbacks.operation item op (.top hitem) hop _)
  obtain ⟨name, hmem⟩ := htop
  obtain ⟨item, hitem⟩ := (convertObjects_spec h).2 _ hmem
  obtain ⟨operations, heq, hparameters, -, hmade⟩ := get?_convertPathItem hitem
  obtain rfl := (Tree.marked.inj heq).2
  obtain ⟨method, -, hop⟩ := hop
  obtain ⟨op, hop⟩ := hmade _ hop
  obtain ⟨parameters, converted, heq, hconverted⟩ := convertOperation_spec hop
  obtain rfl := (Tree.marked.inj heq).2
  refine ⟨fun v hv => absurd hv (hnone v), ⟨[], ?_, [], rfl⟩,
    parametersIdentified_of_converted hconverted⟩
  rw [listedParameters, hparameters]
  rfl

private theorem isObject_convertInfo {info : Value} (h : convertInfo ms = .ok info) :
    info.isObject = true := by
  obtain ⟨version, -, h⟩ := bind_eq_ok.mp h
  obtain rfl := Except.ok.inj h
  rfl

private theorem isObject_orElse {w : Value} (hv : v.isObject = true)
    (hw : w.isObject = true) :
    Succeeds (v.orElse w).members := by
  have hobject : ∀ {u : Value}, u.isObject = true → Succeeds u.members := by
    intro u hu
    cases u with
    | marked mark inner => exact succeeds_ok inner
    | _ => contradiction
  unfold Tree.orElse
  split
  · exact hobject hw
  · exact hobject hv

/-- The last step is to complete what was converted. Only of the tags too little
may be left then. -/
private theorem complete_converted_succeeds_iff
    {fields : List (String × Value)} {document : Value}
    {info servers components tags docs security : Value} {items paths : Members}
    (hfields : fields = [("openapi", Tree.str Document.defaultVersion), ("info", info),
      ("servers", servers), ("paths", .object paths), ("components", components),
      ("tags", tags), ("externalDocs", docs), ("security", security)])
    (hinfo : info.isObject = true) (hcomponents : components.isObject = true)
    (hpaths : convertObjects (convertPathItem document) items = .ok paths) :
    Succeeds (complete (.recordOf fields)) ↔ tags.isBlank = true ∨
      Succeeds tags.items := by
  obtain ⟨ns, hns⟩ : ∃ ns, Tree.recordOf fields = Value.object ns := ⟨_, rfl⟩
  have hfield : ∀ name v, (name, v) ∈ fields → (get? name ns).getD .null = v :=
    fun name v hv => fieldOf_recordOf name (by simp [hfields]) hns hv
  have happly :
      Succeeds (completion.apply ((Value.object paths).orElse .emptyObject)) := by
    have horElse : (Value.object paths).orElse .emptyObject = .object paths := by
      unfold Tree.orElse
      split
      · exact (object_of_isBlank ‹_›).symm
      · rfl
    rw [horElse, PathItemEdit.apply, Tree.members, pure_eq_ok, ok_bind]
    exact succeeds_bind_pure.mpr (pathItems_completion_succeeds hpaths)
  rw [hns, complete_succeeds_iff_parts, hfield "info" info (by simp [hfields]),
    hfield "components" components (by simp [hfields]),
    hfield "paths" (.object paths) (by simp [hfields]), and_iff_left]
  · rw [← completeTags_succeeds_iff, ← hfield "tags" tags (by simp [hfields])]
    cases hget : get? (.str "tags") ns with
    | none => exact iff_of_true (by simp) (succeeds_ok _)
    | some v => simp
  · exact ⟨isObject_orElse hinfo rfl, isObject_orElse hcomponents rfl, happly⟩

/-- The parameters that stay shared are those that are converted. -/
private theorem convertParameters_succeeds_iff :
    Succeeds (convertObjects convertParameter (lastingParameters ms)) ↔
      ∀ e ∈ ms, ∀ parameter, e.2 = .object parameter → isPayload parameter = false →
        ConvertibleParameter parameter := by
  simp only [convertObjects_succeeds_iff, lastingParameters, List.mem_filter, and_imp,
    convertParameter_succeeds_iff]
  constructor
  · intro h e he parameter heq hpayload
    exact h e he (by simp [heq, hpayload]) parameter heq
  · intro h e he hkept parameter heq
    exact h e he parameter heq (by simpa [heq] using hkept)

/-- A document of the legacy format is converted exactly if its members are what the
conversion takes them for. -/
theorem convertDocument_succeeds_iff : Succeeds (convertDocument (.object ms)) ↔
    Convertible ms := by
  rw [convertDocument, Tree.members, pure_eq_ok, ok_bind]
  constructor
  · intro h
    obtain ⟨infoMembers, hinfoMembers, h⟩ := succeeds_bind.mp h
    obtain ⟨info, hinfo, h⟩ := succeeds_bind.mp h
    obtain ⟨servers, hservers, h⟩ := succeeds_bind.mp h
    obtain ⟨items, hitems, h⟩ := succeeds_bind.mp h
    obtain ⟨paths, hpaths, h⟩ := succeeds_bind.mp h
    obtain ⟨definitions, hdefinitions, h⟩ := succeeds_bind.mp h
    obtain ⟨schemas, hschemas, h⟩ := succeeds_bind.mp h
    obtain ⟨shared, hshared, h⟩ := succeeds_bind.mp h
    obtain ⟨parameters, hparameters, h⟩ := succeeds_bind.mp h
    obtain ⟨security, hsecurity, h⟩ := succeeds_bind.mp h
    obtain ⟨schemes, hschemes, h⟩ := succeeds_bind.mp h
    refine ⟨⟨infoMembers, hinfoMembers, convertInfo_succeeds_iff.mp ⟨info, hinfo⟩⟩,
      convertServers_succeeds_iff.mp ⟨servers, hservers⟩, ⟨items, hitems, ?_⟩,
      ⟨definitions, hdefinitions, ?_⟩,
      ⟨shared, hshared, convertParameters_succeeds_iff.mp ⟨parameters, hparameters⟩⟩,
      ⟨security, hsecurity, convertSchemes_succeeds_iff.mp ⟨schemes, hschemes⟩⟩,
      (complete_converted_succeeds_iff rfl (isObject_convertInfo hinfo) rfl hpaths).mp
        h⟩
    · intro e he item heq
      exact convertPathItem_succeeds_iff.mp
        (convertObjects_succeeds_iff.mp ⟨paths, hpaths⟩ e he item heq)
    · intro e he
      exact (convertSchema_succeeds_iff _).mp
        (convertMembers_succeeds_iff.mp ⟨schemas, hschemas⟩ e he)
  · rintro ⟨⟨infoMembers, hinfoMembers, hinfo⟩, hservers, ⟨items, hitems, hpaths⟩,
      ⟨definitions, hdefinitions, hschemas⟩, ⟨shared, hshared, hparameters⟩,
      ⟨security, hsecurity, hschemes⟩, htags⟩
    obtain ⟨info, hinfo⟩ := convertInfo_succeeds_iff.mpr hinfo
    obtain ⟨servers, hservers⟩ := convertServers_succeeds_iff.mpr hservers
    obtain ⟨paths, hpaths⟩ := convertObjects_succeeds_iff.mpr fun e he item heq =>
      convertPathItem_succeeds_iff.mpr (hpaths e he item heq)
    obtain ⟨schemas, hschemas⟩ := convertMembers_succeeds_iff.mpr fun e he =>
      (convertSchema_succeeds_iff _).mpr (hschemas e he)
    obtain ⟨parameters, hparameters⟩ := convertParameters_succeeds_iff.mpr hparameters
    obtain ⟨schemes, hschemes⟩ := convertSchemes_succeeds_iff.mpr hschemes
    refine succeeds_bind.mpr ⟨infoMembers, hinfoMembers, succeeds_bind.mpr ⟨info, hinfo,
      succeeds_bind.mpr ⟨servers, hservers, succeeds_bind.mpr ⟨items, hitems,
        succeeds_bind.mpr ⟨paths, hpaths, succeeds_bind.mpr ⟨definitions, hdefinitions,
          succeeds_bind.mpr ⟨schemas, hschemas, succeeds_bind.mpr ⟨shared, hshared,
            succeeds_bind.mpr ⟨parameters, hparameters, succeeds_bind.mpr
              ⟨security, hsecurity, succeeds_bind.mpr ⟨schemes, hschemes, ?_⟩⟩⟩⟩⟩⟩⟩⟩⟩⟩⟩
    exact (complete_converted_succeeds_iff rfl (isObject_convertInfo hinfo)
      rfl hpaths).mpr htags

end

end ApiWorkbench.Swagger
