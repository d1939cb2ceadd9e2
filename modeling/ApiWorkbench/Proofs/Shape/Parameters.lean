import ApiWorkbench.Proofs.Document.ShapeKept

/-!
# Parameters of accepted documents

The paths of a document lead to path items, and the callbacks of an operation lead to
further ones, to any depth. Path items and their operations have parameters, each of
which may be a reference instead. A document that is accepted has only path items that
are accepted, wherever they are, so the same is true of the parameters.

What is accepted as a parameter and has neither of the names of a reference cannot be
one, so it was accepted as a parameter. That it is required if it is in the path is a
rule of its own, which is looked at when nothing is wrong with the fields. As the name
and the place are fine then, nothing else can make the rule fall silent.

## Main results

* `IsPathItem.fits`: every path item of an accepted document is accepted.
* `parameter_of_fits`: what it takes to be accepted as a parameter.
* `parameters_of_accepted`: the parameters of an accepted document, at any depth.
-/

namespace ApiWorkbench.Shape

open Document Members

/-! ## Where parameters are -/

/-- The path items of a document: those under its paths, and those in the callbacks of
an operation of one. -/
inductive IsPathItem (document : Value) : Value → Prop
  | path {root paths : Members} {name : Scalar} {item : Value} : document =
      .object root →
    get? "paths" root = some (.object paths) → (name, item) ∈ paths →
      IsPathItem document item
  | callback {outer op callbacks callback : Members} {method : Method}
      {name url : Scalar} {item : Value} :
    IsPathItem document (.object outer) → get? method.name outer = some (.object op) →
    get? "callbacks" op = some (.object callbacks) →
    (name, .object callback) ∈ callbacks → (url, item) ∈ callback →
    IsPathItem document item

/-- The entries of the parameters of path items and of operations. -/
inductive IsParameterEntry (document : Value) : Value → Prop
  | item {item : Members} {v : Value} {xs : List Value} {x : Value} :
      IsPathItem document (.object item) →
    get? "parameters" item = some v → v.items = .ok xs → x ∈ xs →
      IsParameterEntry document x
  | operation {item op : Members} {method : Method} {v : Value}
      {xs : List Value} {x : Value} :
    IsPathItem document (.object item) → get? method.name item = some (.object op) →
    get? "parameters" op = some v → v.items = .ok xs → x ∈ xs →
      IsParameterEntry document x

/-! ## What they are accepted as -/

variable {document v x : Value} {ms item op : Members} {method : Method} {name : String}
  {shape : Shape DocumentKind}

/-- What is accepted as something or as null, and is an object, is accepted
as the former. -/
theorem fits_of_nullable (h : Fits (.nullable shape) (.object ms)) :
    Fits shape (.object ms) :=
  (accepts_nullable.mp h).resolve_left (by simp [Tree.isNull])

/-- The values of what is accepted as a map are accepted. -/
theorem fits_of_mem {k : Scalar} (h : Fits (.map shape) (.object ms))
    (hmem : (k, v) ∈ ms) : Fits shape v :=
  (accepts_map.mp h (k, v) hmem).2

/-- The operation of a path item is accepted as one. -/
theorem operation_fits (hitem : Fits (.kind .pathItem) (.object item))
    (hop : get? method.name item = some (.object op)) :
    Fits (.kind .operation) (.object op) := by
  have hfield : DocumentKind.optionalField method.name (.kind .operation) ∈
      documentKinds.fields .pathItem := by
    refine List.mem_append_left
      _ (List.mem_append_right _ (List.mem_map.mpr ⟨method, ?_, rfl⟩))
    cases method <;> decide
  exact fits_of_nullable (accepted_member hitem hfield hop)

/-- Every path item of an accepted document is accepted. -/
theorem IsPathItem.fits (hdocument : Fits (.kind .document) document)
    (h : IsPathItem document v) :
    Fits (.kind .pathItem) v := by
  induction h with
  | path hroot hpaths hmem =>
      subst hroot
      have hfield : { name := "paths", shape := .map (.kind .pathItem) } ∈
          documentKinds.fields .document := by
        simp [documentKinds, DocumentKind.fields]
      exact fits_of_mem (accepted_member hdocument hfield hpaths) hmem
  | callback _ hop hcallbacks hcallback hmem ih =>
      have hfield : DocumentKind.optionalField "callbacks"
          (.map (.map (.kind .pathItem))) ∈ documentKinds.fields .operation := by
        simp [documentKinds, DocumentKind.fields]
      have hall :=
        fits_of_nullable (accepted_member (operation_fits ih hop) hfield hcallbacks)
      exact fits_of_mem (fits_of_mem hall hcallback) hmem

/-- Every entry of the parameters of an accepted document is accepted as a reference or
as a parameter. -/
theorem IsParameterEntry.fits (hdocument : Fits (.kind .document) document)
    (h : IsParameterEntry document x) :
    Fits (.kind .reference) x ∨ Fits (.kind .parameter) x := by
  have hentry : Fits
      (DocumentKind.orReference DocumentKind.parameterLabel (.kind .parameter)) x := by
    cases h with
    | item hitem hv hxs hx =>
        have hfield : DocumentKind.parametersField ∈
            documentKinds.fields .pathItem := by
          simp [documentKinds, DocumentKind.fields]
        exact fits_items (accepted_member (hitem.fits hdocument) hfield hv) hxs x hx
    | operation hitem hop hv hxs hx =>
        have hfield : DocumentKind.parametersField ∈
            documentKinds.fields .operation := by
          simp [documentKinds, DocumentKind.fields]
        have hop := operation_fits (hitem.fits hdocument) hop
        exact fits_items (accepted_member hop hfield hv) hxs x hx
  obtain ⟨choice, hchoice, hfits⟩ := exists_of_accepts_either (by simp) hentry
  simp only [List.mem_cons, List.not_mem_nil, or_false] at hchoice
  rcases hchoice with rfl | rfl
  · exact .inl hfits
  · exact .inr hfits

/-! ## What a parameter has -/

/-- A parameter has a name and a place, and is required in the path. -/
structure IsParameter (ms : Members) : Prop where
  name : ∃ v text, get? "name" ms = some v ∧ toTextOrNumber v = .valid text
  location : ∃ location ∈ ["query", "header", "path", "cookie"],
    DocumentKind.parameterMember ms "in" "location" = .str location
  required : DocumentKind.parameterMember ms "in" "location" = .str "path" →
    ∃ v, get? "required" ms = some v ∧ toFlag v = .valid true

/-- A reference has one of the names of one. -/
theorem reference_of_fits (h : Fits (.kind .reference) (.object ms)) :
    get? "$ref" ms ≠ none ∨ get? "ref" ms ≠ none := by
  obtain ⟨v, hv, -⟩ := exists_of_required h (List.mem_singleton_self _) rfl
  by_contra hnone
  push Not at hnone
  obtain ⟨hname, halternative⟩ := hnone
  rw [Field.member?] at hv
  dsimp only at hv
  rw [hname, Option.bind_some, halternative] at hv
  contradiction

theorem isRequired_eq_true : DocumentKind.isRequired ms = true ↔
    ∃ v, get? "required" ms = some v ∧ toFlag v = .valid true := by
  unfold DocumentKind.isRequired
  cases get? (.str "required") ms with
  | none => simp
  | some v =>
      dsimp only
      cases hflag : toFlag v with
      | valid b => simp [hflag]
      | invalid problems => simp [hflag]

/-- A parameter is read under the same names by the check of its fields and by the
rule of its own. -/
theorem parameterMember_eq {f : Field DocumentKind} {alternative : String}
    (halternative : f.alternative = some alternative) (h : f.member? ms = some v) :
    DocumentKind.parameterMember ms f.name alternative = v := by
  rw [Field.member?, halternative] at h
  rw [DocumentKind.parameterMember]
  cases hname : get? (.str f.name) ms with
  | some w =>
      rw [hname] at h
      exact Option.some.inj h
  | none =>
      rw [hname] at h
      dsimp only at h ⊢
      rw [Option.bind_some] at h
      rw [h]
      rfl

/-- What is accepted as a parameter is one. -/
theorem parameter_of_fits (h : Fits (.kind .parameter) (.object ms)) :
    IsParameter ms := by
  obtain ⟨name, hname, haccepted⟩ := exists_of_required h List.mem_cons_self rfl
  obtain ⟨text, htext⟩ := exists_of_accepts_text haccepted
  rw [Field.member?_of_name rfl] at hname
  obtain ⟨v, hv, haccepted⟩ :=
    exists_of_required h (List.mem_cons_of_mem _ List.mem_cons_self) rfl
  obtain ⟨location, hlocation, rfl⟩ := exists_of_accepts_word haccepted
  refine ⟨⟨name, text, hname, htext⟩, ⟨location, hlocation, parameterMember_eq rfl hv⟩,
    fun hpath => ?_⟩
  -- The name is fine and the place is the path, so the rule is silent only about a
  -- required parameter.
  have hfurther : DocumentKind.further .parameter ms = [] := (accepts_object.mp h).2.2
  rw [DocumentKind.further, hpath, show get? "name" ms = some name from hname]
    at hfurther
  dsimp only at hfurther
  rw [htext] at hfurther
  by_contra hrequired
  rw [← isRequired_eq_true, Bool.not_eq_true] at hrequired
  simp [hrequired, Tree.isText] at hfurther

/-- Wherever the path items and operations of an accepted document have an entry among
their parameters, it is an object; and if it is not called a reference, it has a name
and a place, and is required if the place is the path. -/
theorem parameters_of_accepted {document x : Value}
    (hdocument : documentProblems document = []) (hx : IsParameterEntry document x) :
    ∃ ms, x = .object ms ∧
      (get? "$ref" ms = none → get? "ref" ms = none → IsParameter ms) := by
  rcases hx.fits hdocument with hreference | hparameter
  · obtain ⟨ms, rfl⟩ := object_of_accepts_kind hreference
    refine ⟨ms, rfl, fun hname halternative => ?_⟩
    rcases reference_of_fits hreference with h | h
    · contradiction
    · contradiction
  · obtain ⟨ms, rfl⟩ := object_of_accepts_kind hparameter
    exact ⟨ms, rfl, fun _ _ => parameter_of_fits hparameter⟩

/-- A parameter in the path, with a word for a truth value and its place under the
second name for it. -/
def petId : Members :=
  [("name", .str "petId"), ("location", .str "path"), ("required", .str "yes")]

/-- A document with a callback whose path item has a parameter and a reference to
one. -/
def calledBack : Value :=
  .object [("openapi", .str "3.0.3"),
    ("paths", .object [("/pets", .object [("post", .object [("callbacks",
    .object [("sold", .object [("/sold", .object [("parameters", .list [.object petId,
    .object [("ref", .str "#/components/parameters/petId")]])])])])])])])]

theorem isParameterEntry_petId : IsParameterEntry calledBack (.object petId) := by
  have hpath : IsPathItem calledBack _ := .path rfl rfl (List.mem_singleton_self _)
  have hpost := IsPathItem.callback hpath (show get? Method.post.name _ =
    some _ from rfl) rfl (List.mem_singleton_self _) (List.mem_singleton_self _)
  exact .item hpost rfl rfl List.mem_cons_self

/-- The parameter in the callback of that document is one. -/
theorem parameters_of_calledBack :
    documentProblems calledBack = [] ∧ IsParameterEntry calledBack (.object petId) ∧
    IsParameter petId := by
  have hdocument : documentProblems calledBack = [] := by decide
  obtain ⟨ms, hms, hparameter⟩ :=
    parameters_of_accepted hdocument isParameterEntry_petId
  obtain rfl := (Tree.marked.inj hms).2
  exact ⟨hdocument, isParameterEntry_petId, hparameter rfl rfl⟩

end ApiWorkbench.Shape
