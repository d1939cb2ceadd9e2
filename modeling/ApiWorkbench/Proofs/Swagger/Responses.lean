import ApiWorkbench.Proofs.Reference.Spelling
import ApiWorkbench.Proofs.Swagger.Conversion

/-!
# Responses after conversion

A response of an operation is converted by itself: its description stays, and its schema
goes under the first media type that the operation produces. A response may also refer
to one that the document shares. The reference is not followed, unlike one to a shared
parameter that describes the payload, so what the shared response says is lost unless
the response that refers to it says the same.

## Main results

* `get?_convertResponses`: the last response of a status is found under its text.
* `keeps_convertResponse_iff`: what a converted response keeps of another one.
* `convertDocument_responses`: what a converted document keeps of a response.
* `sharedResponse_lost`: a shared response that is lost.
-/

namespace ApiWorkbench.Swagger

open Document

/-- Where references to shared responses point. -/
def sharedResponses : String := "#/responses/"

/-- A response refers to an object among the shared responses of a document. -/
def RefersTo (document response target : Members) : Prop :=
  ∃ responses name text, Members.get? "$ref" response =
    some (.str (sharedResponses ++ text)) ∧
    Reference.Spells name.toList text.toList ∧
    Members.get? "responses" document = some (.object responses) ∧
    Members.get? (.str name) responses = some (.object target)

/-- A document has an object for a response under a path, a method and a status. -/
def ResponseAt (document : Members) (path : Scalar) (method : Method) (status : Scalar)
    (response : Members) : Prop :=
  ∃ paths item op responses, Members.get? "paths" document = some (.object paths) ∧
    Members.get? path paths = some (.object item) ∧
    Members.get? method.name item = some (.object op) ∧
    Members.get? "responses" op = some (.object responses) ∧
      Members.get? status responses = some (.object response)

/-- A converted response says what a response says: it has the description, and the
converted schema under the first media type. -/
structure Keeps (produces : Value) (response converted : Members) : Prop where
  description : (fieldOf response "description").isBlank = false →
    Members.get? "description" converted = some (fieldOf response "description")
  schema : (fieldOf response "schema").isBlank = false →
    ∃ first mediaType schema, produces.first = .ok first ∧ first.name = .ok mediaType ∧
      convertSchema (fieldOf response "schema") = .ok schema ∧
      Members.get? "content" converted =
        some (.object [(mediaType, .record [("schema", schema)])])

/-- A response says what another one says: it has the same description, where `Response`
stands for none, and its schema is converted to the same. -/
structure SaysAllOf (other response : Members) : Prop where
  description : (fieldOf other "description").isBlank = false →
    (fieldOf response "description").orElse "Response" = fieldOf other "description"
  schema : (fieldOf other "schema").isBlank = false →
    (fieldOf response "schema").isBlank = false ∧
      convertSchema (fieldOf other "schema") = convertSchema (fieldOf response "schema")

theorem SaysAllOf.refl (response : Members) : SaysAllOf response response where
  description h := by rw [Tree.orElse, h]; rfl
  schema h := ⟨h, rfl⟩

/-! ## Responses by themselves -/

/-- What a converted response is made of. -/
private theorem convertResponse_spec {produces : Value} {response : Members} {w : Value}
    (h : convertResponse produces response = .ok w) :
    ∃ converted, w = .object converted ∧
      Members.get? "description" converted =
        some ((fieldOf response "description").orElse "Response") ∧
      ((fieldOf response "schema").isBlank = true →
        Members.get? "content" converted = none) ∧
      ((fieldOf response "schema").isBlank = false →
        ∃ first mediaType schema, produces.first = .ok first ∧
          first.name = .ok mediaType ∧
          convertSchema (fieldOf response "schema") = .ok schema ∧
          Members.get? "content" converted =
            some (.object [(mediaType, .record [("schema", schema)])])) := by
  unfold convertResponse at h
  dsimp only at h
  split at h
  · rename_i hblank
    obtain rfl := Except.ok.inj h
    exact ⟨_, rfl, rfl, fun _ => rfl, fun hschema => by simp [hschema] at hblank⟩
  · rename_i hblank
    obtain ⟨first, hfirst, h⟩ := bind_eq_ok.mp h
    obtain ⟨mediaType, hmediaType, h⟩ := bind_eq_ok.mp h
    obtain ⟨schema, hschema, h⟩ := bind_eq_ok.mp h
    obtain rfl := Except.ok.inj h
    exact ⟨_, rfl, rfl, fun hnone => absurd hnone hblank,
      fun _ => ⟨first, mediaType, schema, hfirst, hmediaType, hschema, rfl⟩⟩

/-- What is made of a response keeps another one exactly if the response says all that
the other one says. -/
theorem keeps_convertResponse_iff
    {produces : Value} {response other converted : Members}
    (h : convertResponse produces response = .ok (.object converted)) :
    Keeps produces other converted ↔ SaysAllOf other response := by
  obtain ⟨converted', heq, hdescription, hnone, hsome⟩ := convertResponse_spec h
  obtain rfl := (Tree.marked.inj heq).2
  constructor
  · intro hkeeps
    refine ⟨fun hother => ?_, fun hother => ?_⟩
    · exact Option.some.inj (hdescription.symm.trans (hkeeps.description hother))
    · obtain ⟨first, mediaType, schema, -, -, hschema, hcontent⟩ := hkeeps.schema hother
      cases hblank : (fieldOf response "schema").isBlank with
      | true => simp [hnone hblank] at hcontent
      | false =>
          obtain ⟨_, _, schema', -, -, hschema', hcontent'⟩ := hsome hblank
          rw [hcontent'] at hcontent
          have hentry := (Tree.marked.inj (Option.some.inj hcontent)).2
          simp only [List.cons.injEq, and_true, Prod.mk.injEq, Tree.record,
            List.map_cons, List.map_nil, Tree.marked.injEq, true_and] at hentry
          exact ⟨rfl, by rw [hschema, hschema', hentry.2]⟩
  · intro hsays
    refine ⟨fun hother => ?_, fun hother => ?_⟩
    · rw [hdescription, hsays.description hother]
    · obtain ⟨hresponse, hsame⟩ := hsays.schema hother
      rw [hsame]
      exact hsome hresponse

/-! ## Responses of an operation -/

/-- The codes of what follows a response are those of the objects that follow it. -/
private theorem codes_convertResponses {produces : Value} {ms ns : Members}
    (h : convertResponses produces ms = .ok ns) :
    ∀ e ∈ ns, ∃ o ∈ ms, o.2.isObject = true ∧ o.1.textName = .ok e.1 := by
  induction ms generalizing ns with
  | nil =>
      obtain rfl := Except.ok.inj h
      simp
  | cons entry rest ih =>
      obtain ⟨code, v⟩ := entry
      have hlift : ∀ {others : Members}, convertResponses produces rest = .ok others →
          ∀ e ∈ others, ∃ o ∈ (code, v) :: rest, o.2.isObject = true ∧
          o.1.textName = .ok e.1 := by
        intro others hothers e he
        obtain ⟨o, ho, hobject⟩ := ih hothers e he
        exact ⟨o, List.mem_cons_of_mem _ ho, hobject⟩
      cases v with
      | marked mark response =>
          obtain ⟨w, -, h⟩ := bind_eq_ok.mp h
          obtain ⟨name, hname, h⟩ := bind_eq_ok.mp h
          obtain ⟨others, hothers, h⟩ := bind_eq_ok.mp h
          obtain rfl := Except.ok.inj h
          rw [List.forall_mem_cons]
          exact ⟨⟨_, List.mem_cons_self, rfl, hname⟩, hlift hothers⟩
      | _ => exact hlift h

/-- The last response of a status is converted, and found under the text of its
status. -/
theorem get?_convertResponses {produces : Value}
    {before after ns response : Members} {code : Scalar} (h :
      convertResponses produces (before ++ (code, .object response) :: after) = .ok ns)
    (hlast : ∀ e ∈ after, e.2.isObject = true → e.1.textName ≠ code.textName) :
    ∃ w status, convertResponse produces response = .ok w ∧ code.textName = .ok status ∧
      Members.get? status (Members.ofEntries ns) = some w := by
  have hsplit : ∃ before' w status after', convertResponse produces response = .ok w ∧
      code.textName = .ok status ∧ convertResponses produces after = .ok after' ∧
      ns = before' ++ (status, w) :: after' := by
    clear hlast
    induction before generalizing ns with
    | nil =>
        obtain ⟨w, hw, h⟩ := bind_eq_ok.mp h
        obtain ⟨status, hstatus, h⟩ := bind_eq_ok.mp h
        obtain ⟨others, hothers, h⟩ := bind_eq_ok.mp h
        exact ⟨[], w, status, others, hw, hstatus, hothers, (Except.ok.inj h).symm⟩
    | cons e rest ih =>
        obtain ⟨first, v⟩ := e
        cases v with
        | marked mark inner =>
            obtain ⟨u, -, h⟩ := bind_eq_ok.mp h
            obtain ⟨name, -, h⟩ := bind_eq_ok.mp h
            obtain ⟨others, hothers, h⟩ := bind_eq_ok.mp h
            obtain rfl := Except.ok.inj h
            obtain ⟨before', w, status, after', hw, hstatus, hafter, rfl⟩ := ih hothers
            exact ⟨(name, u) :: before', w, status, after', hw, hstatus, hafter, rfl⟩
        | _ => exact ih h
  obtain ⟨before', w, status, after', hw, hstatus, hafter, rfl⟩ := hsplit
  have htext := isText_of_textName hstatus
  refine ⟨w, status, hw, hstatus, ?_⟩
  have habsent : Members.get? status after' = none := by
    refine Members.get?_eq_none_iff.mpr fun e he => ?_
    obtain ⟨o, ho, hobject, hname⟩ := codes_convertResponses hafter e he
    rw [Bool.eq_false_iff, Ne, htext.same_iff]
    rintro rfl
    exact hlast o ho hobject (hname.trans hstatus.symm)
  rw [Members.ofEntries, Members.putAll, List.foldl_append, List.foldl_cons]
  exact (Members.get?_putAll_of_absent htext habsent).trans
    (Members.get?_put_same htext w _)

/-! ## Responses of a document -/

theorem ResponseAt.unique {document : Members} {path status : Scalar} {method : Method}
    {response other : Members} (h : ResponseAt document path method status response)
    (h' : ResponseAt document path method status other) :
    response = other := by
  obtain ⟨paths, item, op, responses, hpaths, hitem, hop, hresponses, hresponse⟩ := h
  obtain ⟨paths', item', op', responses', hpaths', hitem', hop', hresponses',
      hresponse'⟩ := h'
  obtain rfl := (Tree.marked.inj (Option.some.inj (hpaths.symm.trans hpaths'))).2
  obtain rfl := (Tree.marked.inj (Option.some.inj (hitem.symm.trans hitem'))).2
  obtain rfl := (Tree.marked.inj (Option.some.inj (hop.symm.trans hop'))).2
  obtain rfl :=
    (Tree.marked.inj (Option.some.inj (hresponses.symm.trans hresponses'))).2
  exact (Tree.marked.inj (Option.some.inj (hresponse.symm.trans hresponse'))).2

/-- The last response of a status is converted by itself and stands in its place in the
converted document. -/
theorem responseAt_convertDocument
    {ms ns paths item op before after response : Members} {path code : Scalar}
    {method : Method} (h : convertDocument (.object ms) = .ok (.object ns))
    (hpaths : Members.get? "paths" ms = some (.object paths))
    (hitem : Members.get? path paths = some (.object item))
    (hop : Members.get? method.name item = some (.object op)) (hresponses : Members.get?
      "responses" op = some (.object (before ++ (code, .object response) :: after)))
    (hlast : ∀ e ∈ after, e.2.isObject = true → e.1.textName ≠ code.textName) :
    ∃ converted status, code.textName = .ok status ∧
      ResponseAt ns path method status converted ∧
      convertResponse ((fieldOf op "produces").orElse (.list ["application/json"]))
        response = .ok (.object converted) := by
  obtain ⟨_, _, _, _, op', hmade, hcompleted, -, paths', hpaths', hitem', hop'⟩ :=
    operationAt_convertDocument h ⟨paths, hpaths, hitem, hop⟩
  obtain ⟨given, made, hgiven, hmades, hplace⟩ := hmade.responses
  rw [fieldOf, hresponses, Option.getD_some, membersOrNone_object] at hgiven
  obtain rfl := Except.ok.inj hgiven
  obtain ⟨w, status, hconvert, hstatus, hfound⟩ := get?_convertResponses hmades hlast
  obtain ⟨converted, rfl, -⟩ := convertResponse_spec hconvert
  refine ⟨converted, status, hstatus,
    ⟨paths', _, op', _, hpaths', hitem', hop', ?_, hfound⟩, hconvert⟩
  rw [hcompleted.get?_eq (by decide), hplace]

/-- For every response object of a legacy document, the last of its status, the
converted document has under the same path, method and status one that keeps all that
the response says itself. What the response refers to among the shared responses is kept
exactly if the response says it, too. -/
theorem convertDocument_responses
    {ms ns paths item op before after response : Members} {path code : Scalar}
    {method : Method} (h : convertDocument (.object ms) = .ok (.object ns))
    (hpaths : Members.get? "paths" ms = some (.object paths))
    (hitem : Members.get? path paths = some (.object item))
    (hop : Members.get? method.name item = some (.object op)) (hresponses : Members.get?
      "responses" op = some (.object (before ++ (code, .object response) :: after)))
    (hlast : ∀ e ∈ after, e.2.isObject = true → e.1.textName ≠ code.textName) :
    ∃ converted status, code.textName = .ok status ∧
      ResponseAt ns path method status converted ∧
      Keeps ((fieldOf op "produces").orElse (.list ["application/json"]))
        response converted ∧
      ∀ target, RefersTo ms response target →
        (Keeps ((fieldOf op "produces").orElse (.list ["application/json"]))
          target converted ↔
          SaysAllOf target response) := by
  obtain ⟨converted, status, hstatus, hat, hconvert⟩ :=
    responseAt_convertDocument h hpaths hitem hop hresponses hlast
  exact ⟨converted, status, hstatus, hat, (keeps_convertResponse_iff hconvert).mpr
    (.refl response), fun target _ => keeps_convertResponse_iff hconvert⟩

/-- A response that is written in place. -/
def petsResponse : Members :=
  [("description", "pets"), ("schema", .record [("type", "array")])]

/-- A response that is shared, and a reference to it. -/
def notFound : Members :=
  [("description", "No such pet"), ("schema", .record [("type", "object")])]

def notFoundReference : Members :=
  [("$ref", "#/responses/NotFound")]

/-- An operation with both. -/
def sharingGet : Members :=
  [("responses", Value.object [(.str "200", .object petsResponse),
    (.str "404", .object notFoundReference)])]

/-- A legacy document with that operation. -/
def sharingResponses : Members :=
  [("swagger", "2.0"), ("responses", .record [("NotFound", .object notFound)]),
    ("paths", .record [("/pets", .record [("get", .object sharingGet)])])]

private theorem sharingResponses_converted :
    ∃ ns, convertDocument (.object sharingResponses) = .ok (.object ns) :=
  ⟨_, rfl⟩

private theorem sharingResponses_get :
    ∃ paths item, Members.get? "paths" sharingResponses = some (.object paths) ∧
    Members.get? (.str "/pets") paths = some (.object item) ∧
    Members.get? (.str Method.get.name) item = some (.object sharingGet) :=
  ⟨_, _, rfl, rfl, rfl⟩

private theorem sharingGet_first : Members.get? "responses" sharingGet =
    some (.object ([] ++ (.str "200", .object petsResponse) ::
      [(.str "404", .object notFoundReference)])) :=
  rfl

private theorem sharingGet_last : Members.get? "responses" sharingGet =
    some (.object ([(.str "200", .object petsResponse)] ++
      (.str "404", .object notFoundReference) :: [])) :=
  rfl

private theorem sharingResponses_refersTo :
    RefersTo sharingResponses notFoundReference notFound :=
  ⟨_, "NotFound", Reference.spell "NotFound", rfl, Reference.spells_spell _, rfl, rfl⟩

/-- A reference alone says neither a description nor a schema. -/
private theorem not_saysAllOf_notFound : ¬ SaysAllOf notFound notFoundReference := by
  intro hsays
  have hdescription := hsays.description rfl
  simp [notFound, notFoundReference, fieldOf, Members.get?_cons, Tree.orElse,
    Tree.isBlank, Scalar.isBlank] at hdescription

/-- The response in place is kept; of the shared one the converted document keeps
neither description nor schema. -/
theorem convertDocument_responses_of_sharing :
    ∃ ns inPlace shared, convertDocument (.object sharingResponses) = .ok (.object ns) ∧
      ResponseAt ns "/pets" .get "200" inPlace ∧
        Keeps (.list ["application/json"]) petsResponse inPlace ∧
      ResponseAt ns "/pets" .get "404" shared ∧
        ¬ Keeps (.list ["application/json"]) notFound shared := by
  obtain ⟨ns, hconverted⟩ := sharingResponses_converted
  obtain ⟨paths, item, hpaths, hitem, hop⟩ := sharingResponses_get
  obtain ⟨inPlace, status, hstatus, hplace, hkeeps, -⟩ :=
    convertDocument_responses hconverted hpaths hitem hop sharingGet_first (by simp)
  obtain rfl := Except.ok.inj hstatus
  obtain ⟨shared, status, hstatus, hshared, -, hiff⟩ :=
    convertDocument_responses hconverted hpaths hitem hop sharingGet_last (by simp)
  obtain rfl := Except.ok.inj hstatus
  refine ⟨ns, inPlace, shared, hconverted, hplace, hkeeps, hshared, fun hlost => ?_⟩
  exact not_saysAllOf_notFound ((hiff _ sharingResponses_refersTo).mp hlost)

/-- A shared response is lost: no response that the converted document has in its place
keeps what it says. -/
theorem sharedResponse_lost :
    ∃ ns target, convertDocument (.object sharingResponses) = .ok (.object ns) ∧
      RefersTo sharingResponses notFoundReference target ∧
      ∀ converted, ResponseAt ns "/pets" .get "404" converted →
        ¬ Keeps (.list ["application/json"]) target converted := by
  obtain ⟨ns, hconverted⟩ := sharingResponses_converted
  obtain ⟨paths, item, hpaths, hitem, hop⟩ := sharingResponses_get
  obtain ⟨shared, status, hstatus, hshared, hconvert⟩ :=
    responseAt_convertDocument hconverted hpaths hitem hop sharingGet_last (by simp)
  obtain rfl := Except.ok.inj hstatus
  refine ⟨ns, _, hconverted, sharingResponses_refersTo, fun converted hat hkeeps => ?_⟩
  obtain rfl := hat.unique hshared
  exact not_saysAllOf_notFound ((keeps_convertResponse_iff hconvert).mp hkeeps)

end ApiWorkbench.Swagger
