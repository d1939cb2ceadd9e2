import ApiWorkbench.Proofs.Names
import ApiWorkbench.Proofs.Swagger.Conversion

/-!
# Parameters and payloads after conversion

An operation has its own parameters in effect, and those of its path that it does not
declare anew. A reference to a shared parameter that describes the payload stands for
that parameter, since there is no place for it among the components. From then on each
parameter goes one of three ways: the first one in the body, or all form data if there
is none, make the payload, and the others stay parameters.

References that stay point to where the shared parameters have gone. They lead there,
however the name is spelled in them. Only the empty name has no spelling: pointers pass
over empty segments, and so a reference to a parameter under the empty name leads to the
map of all parameters.

## Main results

* `StandsFor.unique`, `InEffect.unique`: one list of parameters is in effect.
* `parametersConverted`: what conversion makes of the parameters in effect.
* `resolve_sharedParameter`: where references to shared parameters lead afterwards.
* `convertDocument_parameters`: both, for every operation of a document.
* `emptyName_dangles`: a reference to a parameter under the empty name.
-/

namespace ApiWorkbench.Swagger

open Document Members

/-- Where references to shared parameters point after conversion. -/
def componentParameters : String := "#/components/parameters/"

/-! ## Parameters in effect -/

/-- A parameter is a reference to a shared one that describes the payload. -/
def RefersToPayload (document : Value) (parameter target : Members) : Prop :=
  ∃ pointer, fieldOf parameter "$ref" = .str pointer ∧
    pointer.startsWith sharedParameters = true ∧
    Reference.resolve (.str pointer) document = .ok (.object target) ∧
      isPayload target = true

/-- A reference to a shared parameter that describes the payload is given up for this
parameter; nothing else is. -/
def StandsFor (document : Value) (parameter other : Members) : Prop :=
  RefersToPayload document parameter other ∨
    (other = parameter ∧ ∀ target, ¬ RefersToPayload document parameter target)

/-- The parameters that an operation of a path item has in effect. -/
def InEffect (document : Value) (item op : Members)
    (parameters : List Members) : Prop :=
  ∃ shared own merged, listAt "parameters" item = .ok shared ∧
    listAt "parameters" op = .ok own ∧
    mergeParameters shared own = .ok merged ∧
      List.Forall₂ (StandsFor document) (objectsIn merged) parameters

section

variable {document : Value} {item op parameter other other' : Members}
  {parameters parameters' : List Members}

theorem RefersToPayload.unique (h : RefersToPayload document parameter other)
    (h' : RefersToPayload document parameter other') : other = other' := by
  obtain ⟨pointer, hpointer, -, hother, -⟩ := h
  obtain ⟨pointer', hpointer', -, hother', -⟩ := h'
  obtain rfl := Scalar.str.inj (Tree.scalar.inj (hpointer.symm.trans hpointer'))
  exact (Tree.marked.inj (Except.ok.inj (hother.symm.trans hother'))).2

theorem StandsFor.unique (h : StandsFor document parameter other)
    (h' : StandsFor document parameter other') :
    other = other' := by
  rcases h with h | ⟨rfl, hnone⟩
  · rcases h' with h' | ⟨-, hnone'⟩
    · exact h.unique h'
    · exact absurd h (hnone' _)
  · rcases h' with h' | ⟨rfl, -⟩
    · exact absurd h' (hnone _)
    · rfl

/-- An operation has one list of parameters in effect. -/
theorem InEffect.unique (h : InEffect document item op parameters)
    (h' : InEffect document item op parameters') :
    parameters = parameters' := by
  obtain ⟨shared, own, merged, hshared, hown, hmerged, hparameters⟩ := h
  obtain ⟨shared', own', merged', hshared', hown', hmerged', hparameters'⟩ := h'
  obtain rfl := Except.ok.inj (hshared.symm.trans hshared')
  obtain rfl := Except.ok.inj (hown.symm.trans hown')
  obtain rfl := Except.ok.inj (hmerged.symm.trans hmerged')
  have hunique : Relator.RightUnique (StandsFor document) := fun _ _ _ hfirst hother =>
    hfirst.unique hother
  exact List.right_unique_forall₂' hunique hparameters hparameters'

private theorem inlinePayload_of_refersToPayload
    (h : RefersToPayload document parameter other) :
    inlinePayload document parameter = .ok other := by
  obtain ⟨pointer, hpointer, hprefix, hfound, hpayload⟩ := h
  rw [inlinePayload, hpointer]
  dsimp only
  rw [if_pos hprefix, hfound, ok_bind]
  dsimp only
  rw [if_pos hpayload, pure_eq_ok]

private theorem eq_or_refersToPayload
    (h : inlinePayload document parameter = .ok other) :
    other = parameter ∨ RefersToPayload document parameter other := by
  unfold inlinePayload at h
  split at h
  · rename_i pointer hpointer
    split at h
    · rename_i hprefix
      obtain ⟨found, hfound, h⟩ := bind_eq_ok.mp h
      split at h
      · obtain rfl := Except.ok.inj h
        split
        · exact .inr ⟨pointer, hpointer, hprefix, hfound, ‹_›⟩
        · exact .inl rfl
      · exact .inl (Except.ok.inj h).symm
    · exact .inl (Except.ok.inj h).symm
  · exact .inl (Except.ok.inj h).symm

/-- What conversion puts in the place of a parameter stands for it. -/
private theorem standsFor_of_inlinePayload
    (h : inlinePayload document parameter = .ok other) :
    StandsFor document parameter other := by
  by_cases hrefers : ∃ target, RefersToPayload document parameter target
  · obtain ⟨target, htarget⟩ := hrefers
    obtain rfl :=
      Except.ok.inj (h.symm.trans (inlinePayload_of_refersToPayload htarget))
    exact .inl htarget
  · rcases eq_or_refersToPayload h with rfl | hother
    · exact .inr ⟨rfl, fun target htarget => hrefers ⟨target, htarget⟩⟩
    · exact absurd ⟨_, hother⟩ hrefers

theorem inEffect_of_effectiveParameters
    (h : effectiveParameters document item op = .ok parameters) :
    InEffect document item op parameters := by
  obtain ⟨shared, hshared, h⟩ := bind_eq_ok.mp h
  obtain ⟨own, hown, h⟩ := bind_eq_ok.mp h
  obtain ⟨merged, hmerged, h⟩ := bind_eq_ok.mp h
  exact ⟨shared, own, merged, hshared, hown, hmerged,
    (mapM_eq_ok_iff.mp h).imp fun _ _ => standsFor_of_inlinePayload⟩

end

/-! ## Payloads -/

/-- The payload of an operation has a schema under a media type, and nothing else
as its content. -/
def PayloadSchema (op : Members) (mediaType : String) (schema : Value) : Prop :=
  ∃ request, get? "requestBody" op = some (.object request) ∧
    get? "content" request = some (.record [(mediaType, .record [("schema", schema)])])

/-- A schema for form data has a property for each of them, and requires those that
are marked so. -/
structure FormSchema (forms : List Members) (schema : Members) : Prop where
  properties : ∃ properties, get? "properties" schema = some (.object properties) ∧
    ∀ name, contains name properties = true ↔ ∃ form ∈ forms, ∃ key,
    (fieldOf form "name").name = .ok key ∧ key.same name = true
  required : listAt "required" schema =
    .ok ((forms.filter fun form => !(fieldOf form "required").isBlank).map fun form =>
      fieldOf form "name")

/-- What becomes of the parameters that an operation has in effect. Those that do not
describe the payload are converted one by one. There is a payload if one of the others
is there: its schema is that of the first parameter in the body, or has the form data
for properties if none is in the body. -/
structure ParametersConverted (parameters : List Members) (op' : Members) : Prop where
  kept : ∃ kept, get? "parameters" op' = some (.list kept) ∧
    List.Forall₂ (fun p v => convertParameter p = .ok v)
      (parameters.filter fun p => !isPayload p) kept
  payload : contains "requestBody" op' = true ↔ ∃ p ∈ parameters, isPayload p = true
  body : ∀ body rest, parameters.filter (isLocatedIn "body") = body :: rest →
    ∃ schema, convertSchema ((fieldOf body "schema").orElse .emptyObject) = .ok schema ∧
      PayloadSchema op' "application/json" schema
  forms : parameters.filter (isLocatedIn "body") = [] →
    parameters.filter (isLocatedIn "formData") ≠ [] →
    ∃ mediaType schema, PayloadSchema op' mediaType (.object schema) ∧
      FormSchema (parameters.filter (isLocatedIn "formData")) schema

/-- A parameter in the body has a schema, which is converted. -/
private theorem bodyRequest_spec {parameter : Members} {w : Value}
    (h : bodyRequest parameter = .ok w) :
    ∃ request schema, w = .object request ∧
      convertSchema ((fieldOf parameter "schema").orElse .emptyObject) = .ok schema ∧
      get? "content" request =
        some (.record [("application/json", .record [("schema", schema)])]) := by
  obtain ⟨schema, hschema, h⟩ := bind_eq_ok.mp h
  obtain ⟨request, rfl⟩ : ∃ request, w = .object request := ⟨_, (Except.ok.inj h).symm⟩
  exact ⟨request, schema, rfl, hschema,
    get?_recordOf _ (by simp) (Except.ok.inj h) (by simp) rfl⟩

/-- Form data make a schema with a property for each of them. -/
private theorem formRequest_spec {forms : List Members} {consumes w : Value}
    (h : formRequest forms consumes = .ok w) :
    ∃ request mediaType schema, w = .object request ∧
      get? "content" request =
        some (.record [(mediaType, .record [("schema", .object schema)])]) ∧
      FormSchema forms schema := by
  obtain ⟨multipart, -, h⟩ := bind_eq_ok.mp h
  obtain ⟨properties, hproperties, h⟩ := bind_eq_ok.mp h
  dsimp only at h
  generalize hschema : (Tree.recordOf _ : Value) = v at h
  obtain ⟨schema, rfl⟩ : ∃ schema, v = .object schema := ⟨_, hschema.symm⟩
  refine ⟨_, _, schema, (Except.ok.inj h).symm, rfl,
    ⟨_, get?_recordOf "properties" (by simp) hschema
      (v := .object (ofEntries properties)) (by simp) rfl, fun name => ?_⟩, ?_⟩
  · rw [contains_ofEntries]
    constructor
    · rintro ⟨e, he, hname⟩
      obtain ⟨form, hform, hmade⟩ := exists_of_mem_mapM hproperties he
      obtain ⟨key, hkey, hmade⟩ := bind_eq_ok.mp hmade
      obtain rfl := Except.ok.inj hmade
      exact ⟨form, hform, key, hkey, hname⟩
    · rintro ⟨form, hform, key, hkey, hname⟩
      obtain ⟨e, he, hmade⟩ := exists_of_mem_of_mapM hproperties hform
      obtain ⟨key', hkey', hmade⟩ := bind_eq_ok.mp hmade
      obtain rfl := Except.ok.inj hmade
      obtain rfl := Except.ok.inj (hkey.symm.trans hkey')
      exact ⟨_, he, hname⟩
  · generalize (forms.filter fun form => !(fieldOf form "required").isBlank).map
      (fun form => fieldOf form "name") = required at hschema ⊢
    show (fieldOf schema "required").itemsOrNone = _
    rw [fieldOf_recordOf "required" (by simp) hschema
      (v := if required.isEmpty then .null else .list required) (by simp)]
    cases required <;> rfl

/-! ## Operations -/

section

variable {document : Value} {inside : Members → Members → Prop}
  {item op converted operations op' : Members} {parameters : List Members}

/-- The payload that the parameters in effect make: that of the first one in the body,
or that of all form data, or none. -/
private theorem requestBody_cases
    (hmade : ConvertedFrom document item op parameters converted)
    (hsame : get? "requestBody" op' = get? "requestBody" converted) :
    (∀ body rest, parameters.filter (isLocatedIn "body") = body :: rest →
      ∃ schema, convertSchema ((fieldOf body "schema").orElse .emptyObject) =
        .ok schema ∧
        PayloadSchema op' "application/json" schema) ∧
    (parameters.filter (isLocatedIn "body") = [] →
      parameters.filter (isLocatedIn "formData") ≠ [] →
      ∃ mediaType schema, PayloadSchema op' mediaType (.object schema) ∧
        FormSchema (parameters.filter (isLocatedIn "formData")) schema) ∧
    (parameters.filter (isLocatedIn "body") = [] →
      parameters.filter (isLocatedIn "formData") = [] →
      get? "requestBody" op' = none) := by
  have hbody := hmade.body
  unfold requestBody at hbody
  split at hbody
  · rename_i first others hfirst
    rw [hfirst]
    refine ⟨fun body rest heq => ?_, nofun, nofun⟩
    obtain ⟨rfl, rfl⟩ := List.cons.inj heq
    obtain ⟨request, schema, hrequest, hschema, hcontent⟩ := bodyRequest_spec hbody
    exact ⟨schema, hschema, request, hsame.trans (get?_of_fieldOf_object hrequest),
      hcontent⟩
  · rename_i hnoBody hnoForms
    rw [hnoBody, hnoForms, hsame]
    refine ⟨nofun, fun _ hforms => absurd rfl hforms, fun _ _ => ?_⟩
    cases hget : get? (.str "requestBody") converted with
    | none => rfl
    | some v =>
        rw [fieldOf, hget, Option.getD_some] at hbody
        exact absurd (Except.ok.inj hbody).symm (hmade.notNull _ _ hget)
  · rename_i hnoBody hforms
    rw [hnoBody]
    refine ⟨nofun, fun _ _ => ?_, fun _ hnoForms => absurd hnoForms hforms⟩
    obtain ⟨request, mediaType, schema, hrequest, hcontent, hschema⟩ :=
      formRequest_spec hbody
    exact ⟨mediaType, schema,
      ⟨request, hsame.trans (get?_of_fieldOf_object hrequest), hcontent⟩, hschema⟩

private theorem no_payload_iff : (¬ ∃ p ∈ parameters, isPayload p = true) ↔
    parameters.filter (isLocatedIn "body") = [] ∧
      parameters.filter (isLocatedIn "formData") = [] := by
  simp only [List.filter_eq_nil_iff, isPayload, Bool.or_eq_true, not_exists, not_and,
    not_or, ← forall₂_and]

/-- What conversion and completion make of the parameters that an operation
has in effect. -/
theorem parametersConverted
    (hmade : ConvertedFrom document item op parameters converted)
    (hcompleted : OperationCompleted inside operations converted op')
    (hnone : get? "parameters" operations = none) :
    ParametersConverted parameters op' := by
  obtain ⟨hbody, hforms, hnothing⟩ :=
    requestBody_cases hmade (hcompleted.get?_eq (by decide))
  obtain ⟨kept, hkept, hlist⟩ := hmade.kept
  have hthere : ∀ {mediaType schema}, PayloadSchema op' mediaType schema →
      contains "requestBody" op' = true := by
    rintro mediaType schema ⟨request, hrequest, -⟩
    rw [contains, hrequest]
    rfl
  refine ⟨⟨kept, hcompleted.parameters_of_own hnone hlist, mapM_eq_ok_iff.mp hkept⟩, ?_,
    hbody, hforms⟩
  rw [← not_iff_not, no_payload_iff]
  constructor
  · intro hgone
    by_contra hsome
    cases hbodies : parameters.filter (isLocatedIn "body") with
    | cons first rest =>
        obtain ⟨_, -, hpayload⟩ := hbody first rest hbodies
        exact hgone (hthere hpayload)
    | nil =>
        obtain ⟨_, _, hpayload, -⟩ := hforms hbodies fun hnoForms =>
          hsome ⟨hbodies, hnoForms⟩
        exact hgone (hthere hpayload)
  · rintro ⟨hnoBody, hnoForms⟩
    simp [contains, hnothing hnoBody hnoForms]

end

/-! ## Shared parameters -/

section

variable {ms ns shared target : Members} {name text : String}

/-- A reference to a shared parameter becomes one to a parameter among the
components. -/
theorem convertParameter_reference {parameter : Members}
    (href : get? "$ref" parameter = some (.str (sharedParameters ++ text)))
    (htext : Reference.Spells name.toList text.toList) :
    convertParameter parameter =
      .ok (.record [("$ref", .str (componentParameters ++ text))]) := by
  have hreplaced : Text.replaceAll sharedParameters componentParameters
      (sharedParameters ++ text) = componentParameters ++ text :=
    Text.replaceAll_append (c := '/') (by decide) htext.no_slash
  rw [convertParameter, href, ← hreplaced]
  rfl

/-- A pointer to a shared parameter that stays one leads to what conversion makes of
it. -/
theorem resolve_sharedParameter (h : convertDocument (.object ms) = .ok (.object ns))
    (hshared : get? "parameters" ms = some (.object shared))
    (htarget : get? (.str name) shared = some (.object target))
    (hpayload : isPayload target = false) (hname : name ≠ "")
    (htext : Reference.Spells name.toList text.toList) :
    ∃ w, convertParameter target = .ok w ∧
      Reference.resolve (.str (componentParameters ++ text)) (.object ns) = .ok w := by
  obtain ⟨-, _, _, found, parameters, components, -, -, hfound, hparameters,
      hcomponents, -, hplace⟩ :=
    convertDocument_parts h
  rw [fieldOf, hshared, Option.getD_some, membersOrNone_object] at hfound
  obtain rfl := Except.ok.inj hfound
  have hlasting : get? (.str name) (lastingParameters shared) = some (.object target) :=
    get?_filter_of_get? htarget fun _ => by simp [hpayload]
  obtain ⟨w, hw, hget⟩ := get?_convertObjects hparameters hlasting
  have hobject : objectOrNull parameters = .object parameters := by
    cases parameters with
    | nil => simp at hget
    | cons e rest => rfl
  have hmap : get? "parameters" components = some (.object parameters) :=
    get?_of_fieldOf_object (hplace.trans hobject)
  exact ⟨w, hw, resolve_component "parameters" (by simp) hcomponents hmap
    hget hname htext⟩

end

/-- Every operation of a legacy document is there after conversion, and its
parameters in effect have become what they should: parameters in the same order, and
a payload with the schema that the others describe. A reference to a shared parameter
that stays one, with a name that is not empty, becomes a reference that leads to this
parameter, converted. -/
theorem convertDocument_parameters {ms ns item op : Members} {path : Scalar}
    {method : Method} (h : convertDocument (.object ms) = .ok (.object ns))
    (hop : OperationAt ms path method item op) :
    (∃ item' op' parameters, OperationAt ns path method item' op' ∧
      InEffect (.object ms) item op parameters ∧
      ParametersConverted parameters op') ∧
    ∀ shared name target text, get? "parameters" ms = some (.object shared) →
      get? (.str name) shared = some (.object target) →
      isPayload target = false → name ≠ "" →
      Reference.Spells name.toList text.toList →
      (∀ p, get? "$ref" p = some (.str (sharedParameters ++ text)) →
        convertParameter p =
          .ok (.record [("$ref", .str (componentParameters ++ text))])) ∧
      ∃ w, convertParameter target = .ok w ∧
        Reference.resolve (.str (componentParameters ++ text)) (.object ns) =
          .ok w := by
  constructor
  · obtain ⟨parameters, operations, converted, item', op', hmade, hcompleted,
        hnone, hop'⟩ :=
      operationAt_convertDocument h hop
    exact ⟨item', op', parameters, hop', inEffect_of_effectiveParameters
      hmade.effective, parametersConverted hmade hcompleted hnone⟩
  · intro shared name target text hshared htarget hpayload hname htext
    exact ⟨fun p hp => convertParameter_reference hp htext,
      resolve_sharedParameter h hshared htarget hpayload hname htext⟩

/-- A shared parameter that describes the payload. -/
private def petParameter : Members :=
  [("name", "pet"), ("in", "body"), ("schema", .record [("type", "object")])]

/-- A shared parameter that does not. -/
private def limitParameter : Members :=
  [("name", "limit"), ("in", "query"), ("type", "integer")]

private def traceParameter : Members :=
  [("name", "trace"), ("in", "header"), ("type", "string")]

private def limitReference : Members :=
  [("$ref", "#/parameters/limit~1max")]

private def petPost : Members :=
  [("parameters",
    .list [.record [("$ref", "#/parameters/Pet")], .object traceParameter])]

/-- A path with a reference to a parameter and an operation with one to a payload. -/
private def petItem : Members :=
  [("parameters", .list [.object limitReference]), ("post", .object petPost)]

private def petParameters : Members :=
  [("swagger", "2.0"), ("parameters",
    .record [("Pet", .object petParameter), ("limit/max", .object limitParameter)]),
    ("paths", .record [("/pets", .object petItem)])]

private theorem object_of_isOk (ms : Members)
    (h : (convertDocument (.object ms)).isOk = true) :
    ∃ ns, convertDocument (.object ms) = .ok (.object ns) := by
  obtain ⟨converted, hconverted⟩ := isOk_iff.mp h
  obtain ⟨ns, rfl, -⟩ := complete_of_ok (convertDocument_spec hconverted).1
  exact ⟨ns, hconverted⟩

private theorem petPost_inEffect :
    InEffect (.object petParameters) petItem petPost
      [petParameter, traceParameter, limitReference] := by
  have hpet : StandsFor (.object petParameters) [("$ref", "#/parameters/Pet")]
      petParameter :=
    .inl ⟨_, rfl, by decide +kernel, rfl, rfl⟩
  have htrace : StandsFor (.object petParameters) traceParameter traceParameter := by
    refine .inr ⟨rfl, fun target htarget => ?_⟩
    obtain ⟨pointer, hpointer, -⟩ := htarget
    cases hpointer
  have hlimit : StandsFor (.object petParameters) limitReference limitReference := by
    refine .inr ⟨rfl, fun target htarget => ?_⟩
    obtain ⟨pointer, hpointer, -, hfound, hpayload⟩ := htarget
    obtain rfl := Scalar.str.inj (Tree.scalar.inj hpointer)
    obtain rfl := (Tree.marked.inj (Except.ok.inj hfound)).2
    cases hpayload
  exact ⟨_, _, _, rfl, rfl, rfl, .cons hpet (.cons htrace (.cons hlimit .nil))⟩

/-- The payload takes the place of the reference to it, and the reference of the path is
kept and leads to the limit. -/
theorem convertDocument_parameters_of_pets :
    ∃ ns item' op', convertDocument (.object petParameters) = .ok (.object ns) ∧
      OperationAt ns "/pets" .post item' op' ∧
      InEffect (.object petParameters) petItem petPost
        [petParameter, traceParameter, limitReference] ∧
      ParametersConverted [petParameter, traceParameter, limitReference] op' ∧
      convertParameter limitReference =
        .ok (.record [("$ref", "#/components/parameters/limit~1max")]) ∧
      Reference.resolve "#/components/parameters/limit~1max" (.object ns) =
        .ok (.record [("name", "limit"), ("in", "query"),
          ("schema", .record [("type", "integer")])]) := by
  obtain ⟨ns, hconverted⟩ := object_of_isOk petParameters (by decide +kernel)
  have hop : OperationAt petParameters "/pets" .post petItem petPost :=
    ⟨_, rfl, rfl, rfl⟩
  obtain ⟨⟨item', op', parameters, hop', heffect, hmade⟩, hshared⟩ :=
    convertDocument_parameters hconverted hop
  obtain rfl := heffect.unique petPost_inEffect
  obtain ⟨hreference, w, hw, hresolve⟩ :=
    hshared _ "limit/max" limitParameter (Reference.spell "limit/max")
      rfl rfl rfl (by decide) (Reference.spells_spell _)
  obtain rfl := Except.ok.inj hw
  exact ⟨ns, item', op', hconverted, hop', petPost_inEffect, hmade,
    hreference limitReference rfl, hresolve⟩

private def emptyReference : Members :=
  [("$ref", "#/parameters/")]

private def emptyGet : Members :=
  [("parameters", .list [.object emptyReference])]

/-- A document with a shared parameter under the empty name, and a reference to it. -/
private def emptyNamed : Members :=
  [("swagger", "2.0"), ("parameters", .record [("", .object limitParameter)]),
    ("paths", .record [("/pets", .record [("get", .object emptyGet)])])]

private theorem emptyGet_inEffect :
    InEffect (.object emptyNamed) [("get", .object emptyGet)] emptyGet
      [emptyReference] := by
  have hempty : StandsFor (.object emptyNamed) emptyReference emptyReference := by
    refine .inr ⟨rfl, fun target htarget => ?_⟩
    obtain ⟨pointer, hpointer, -, hfound, hpayload⟩ := htarget
    obtain rfl := Scalar.str.inj (Tree.scalar.inj hpointer)
    obtain rfl := (Tree.marked.inj (Except.ok.inj hfound)).2
    cases hpayload
  exact ⟨_, _, _, rfl, rfl, rfl, .cons hempty .nil⟩

/-- A reference to a parameter under the empty name, which is kept, does not lead to
this parameter after conversion. -/
theorem emptyName_dangles :
    ∃ ns item' op' w found, convertDocument (.object emptyNamed) = .ok (.object ns) ∧
      OperationAt emptyNamed "/pets" .get [("get", .object emptyGet)] emptyGet ∧
        OperationAt ns "/pets" .get item' op' ∧
      get? "parameters" op' = some
        (.list [.record [("$ref", .str (componentParameters ++ Reference.spell ""))]]) ∧
      get? "parameters" emptyNamed = some (.record [("", .object limitParameter)]) ∧
      isPayload limitParameter = false ∧ convertParameter limitParameter = .ok w ∧
      Reference.resolve (.str (componentParameters ++ Reference.spell ""))
        (.object ns) = .ok found ∧ found ≠ w := by
  obtain ⟨ns, hconverted⟩ := object_of_isOk emptyNamed (by decide +kernel)
  have hop : OperationAt emptyNamed "/pets" .get [("get", .object emptyGet)] emptyGet :=
    ⟨_, rfl, rfl, rfl⟩
  obtain ⟨parameters, operations, converted, item', op', hmade, hcompleted,
      hnone, hop'⟩ :=
    operationAt_convertDocument hconverted hop
  obtain rfl := (inEffect_of_effectiveParameters hmade.effective).unique
    emptyGet_inEffect
  obtain ⟨kept, hget, hkept⟩ := (parametersConverted hmade hcompleted hnone).kept
  have hreference : ([emptyReference].filter fun p => !isPayload p).mapM
      convertParameter = .ok [.record [("$ref", "#/components/parameters/")]] := rfl
  obtain rfl := Except.ok.inj (hreference.symm.trans (mapM_eq_ok_iff.mpr hkept))
  obtain ⟨-, _, _, shared, made, components, -, -, hshared, hparameters,
      hcomponents, -, hplace⟩ :=
    convertDocument_parts hconverted
  obtain rfl := Except.ok.inj hshared
  obtain rfl := Except.ok.inj hparameters
  have hresolve : ∀ found, get? "parameters" components = some found →
      Reference.resolve (.str (componentParameters ++ Reference.spell ""))
        (.object ns) = .ok found := by
    intro found hfound
    show Reference.walk (.object ns) ["components", "parameters"] = _
    simp [Reference.walk, Reference.step, hcomponents, hfound]
  refine ⟨ns, item', op', _, _, hconverted, hop, hop', hget, rfl, rfl, rfl,
    hresolve _ (get?_of_fieldOf_object hplace), fun heq => ?_⟩
  have hname : "" = "name" :=
    Scalar.str.inj (Prod.mk.inj (List.cons.inj (Tree.marked.inj heq).2).1).1
  exact absurd hname (by decide)

end ApiWorkbench.Swagger
