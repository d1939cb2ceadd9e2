import ApiWorkbench.Proofs.Document.Reexport
import ApiWorkbench.Proofs.Server.SchemaGrammar
import ApiWorkbench.Proofs.Server.ToolSteps

/-!
# Imported documents that a server can be generated for

An import checks a document by its shape, and where the shape asks for a text, a
number is taken for one but stays where it is. The tools of a server check the same
values once more, and there a number is no text. So a document that is imported need
not make a server, even one without references: the description of a parameter may be
a number. `Offerable` lists what an operation needs besides its shape, and nothing
else stands in the way.

Without references nothing is expanded, and an imported path item shares no parameters,
so the tool for an operation is made of what the operation itself has. The shape makes
sure of everything else that is read: the id of an operation and its texts can be
written, parameters go to one of four places, and schemas are schemas.

## Main results

* `succeeds_toolOf_iff`: which operations in shape have a tool.
* `scaffold_succeeds_iff`: which imported documents make a server.
* `importText_of_numbered`: an imported document that makes none.
-/

namespace ApiWorkbench.Server

open Document Reference Shape
open Members (valueAt listAt get?)

/-! ## Documents without references -/

mutual

/-- Whether no object in a value has a member by which it could be a reference. -/
def isReferenceFree : Value → Bool
  | .list xs => areReferenceFree xs
  | .object ms =>
      (get? "$ref" ms).isNone && (get? "ref" ms).isNone && membersAreReferenceFree ms
  | _ => true

/-- Whether that holds for list items. -/
def areReferenceFree : List Value → Bool
  | [] => true
  | x :: rest => isReferenceFree x && areReferenceFree rest

/-- Whether that holds for the values of members. -/
def membersAreReferenceFree : List (Scalar × Value) → Bool
  | [] => true
  | (_, v) :: rest => isReferenceFree v && membersAreReferenceFree rest

end

private theorem areReferenceFree_iff {xs : List Value} :
    areReferenceFree xs = true ↔ ∀ x ∈ xs, isReferenceFree x = true := by
  induction xs with
  | nil => simp [areReferenceFree]
  | cons x rest ih => simp [areReferenceFree, ih]

private theorem membersAreReferenceFree_iff {ms : Members} :
    membersAreReferenceFree ms = true ↔ ∀ e ∈ ms, isReferenceFree e.2 = true := by
  induction ms with
  | nil => simp [membersAreReferenceFree]
  | cons e rest ih => simp [membersAreReferenceFree, ih]

theorem isReferenceFree_iff {v : Value} :
    isReferenceFree v = true ↔ NoReferences v := by
  induction v using Tree.parts_induction with
  | list xs ih =>
      rw [isReferenceFree, areReferenceFree_iff, noReferences_list]
      exact forall₂_congr ih
  | marked mark ms ih =>
      rw [isReferenceFree, noReferences_object, Bool.and_eq_true_iff,
        Bool.and_eq_true_iff, Option.isNone_iff_eq_none, Option.isNone_iff_eq_none,
        membersAreReferenceFree_iff]
      exact and_congr_right fun _ => forall₂_congr ih
  | _ => simp [isReferenceFree, NoReferences]

instance : DecidablePred NoReferences := fun _ => decidable_of_iff _ isReferenceFree_iff

/-- A value without references is expanded already. -/
theorem expand_of_noReferences {v root : Value} (h : NoReferences v) :
    expand v root = .ok v := by
  rw [expand_eq]
  refine expandWith_fixed ?_
  rintro p ⟨ms, hwithin, hget⟩
  exact absurd ((h ms hwithin).1.symm.trans hget) nofun

/-! ## What operations need -/

/-- Nothing stands in the way of a type of a schema, nor of those that it is made
from. -/
def Typable (v : Value) : Prop :=
  ∀ ms, Reaches v (.object ms) → IsTypable ms

/-- An input can be made for a parameter. -/
structure Presentable (parameter : Members) : Prop where
  schema : Typable (valueAt "schema" parameter)
  description : MayBeText (valueAt "description" parameter)

/-- A tool can be made for an operation: inputs for the first parameter of each name and
for the request body, unless a parameter takes its place; and the address of the first
server is a text. -/
structure Offerable (document op : Members) : Prop where
  parameters : ∀ own name parameter, listAt "parameters" op = .ok own →
    (namedParameters own).lookup name = some parameter → Presentable parameter
  body : ∀ own body schema, listAt "parameters" op = .ok own →
    bodyInputName ∉ (namedParameters own).map (·.1) →
    valueAt "requestBody" op = .object body → HasSchema body schema →
      Typable (.object schema) ∧ MayBeText (valueAt "description" body)
  address : ∀ server : Members,
    (valueAt "servers" document).first = .ok (.object server) →
    IsText (valueAt "url" server)

/-! ## What the shape makes sure of -/

section

variable {k : DocumentKind} {ms op : Members} {own : List Value}

/-- What is accepted as a text, or left out, can be written, and so can what
stands in for it. -/
private theorem succeeds_text_orElse {v default : Value} (h : Fits (.nullable .text) v)
    (hdefault : Succeeds default.text) : Succeeds (v.orElse default).text := by
  unfold Tree.orElse
  split
  · exact hdefault
  · next hblank =>
    rcases accepts_nullable.mp h with hnull | haccepted
    · rw [isNull_eq_false_of_not_isBlank hblank] at hnull
      contradiction
    · obtain ⟨s, rfl⟩ := scalar_of_accepts_text haccepted
      have hwritable : (Tree.scalar s : Value).isWritable = true :=
        NameAccepted.isWritable haccepted
      rw [Tree.text, if_pos hwritable]
      exact succeeds_ok _

private theorem succeeds_text_str (s : String) : Succeeds (Tree.str s : Value).text :=
  succeeds_ok s

private theorem fits_optionalText (h : InShape k ms) (name : String)
    (hfield : DocumentKind.optionalText name ∈ k.fields) :
    Fits (.nullable .text) (valueAt (.str name) ms) :=
  fits_getD h name .text hfield

theorem succeeds_operationId (hop : InShape .operation op) (method : Method)
    (path : String) :
    Succeeds
      ((valueAt "operationId" op).orElse (defaultOperationId method path)).text :=
  succeeds_text_orElse (fits_optionalText hop _ (by simp [DocumentKind.fields]))
    (succeeds_text_str _)

theorem succeeds_toolDescription (hop : InShape .operation op) (method : Method)
    (path : String) :
    Succeeds (toolDescription op method path) := by
  have hdescription : ∀ title : String, Succeeds ((valueAt "summary" op).orElse
      ((valueAt "description" op).orElse title)).text := fun title =>
    succeeds_text_orElse (fits_optionalText hop _ (by simp [DocumentKind.fields]))
      (succeeds_text_orElse (fits_optionalText hop _ (by simp [DocumentKind.fields]))
        (succeeds_text_str title))
  rw [toolDescription]
  exact succeeds_bind_pure.mpr (hdescription _)

theorem mem_of_mem_namedParameters {name : String} {parameter : Members}
    (h : (name, parameter) ∈ namedParameters own) : .object parameter ∈ own := by
  obtain ⟨v, hv, hnamed⟩ := List.mem_filterMap.mp h
  split at hnamed
  · split at hnamed
    · obtain ⟨-, rfl⟩ := Prod.mk.inj (Option.some.inj hnamed)
      exact hv
    · contradiction
  · contradiction

/-- The parameters of an operation in shape are parameters. -/
theorem fits_parameter (hop : InShape .operation op) (hrefs : NoReferences (.object op))
    (hown : get? "parameters" op = some (.list own)) {parameter : Members}
    (h : .object parameter ∈ own) :
    Fits (.kind .parameter) (.object parameter) ∧ NoReferences (.object parameter) := by
  have hlist : NoReferences (.list own) :=
    hrefs.within (.member (Members.mem_of_get?_str hown) (.here _))
  have hparameter := noReferences_list.mp hlist _ h
  have hfield : DocumentKind.parametersField ∈ DocumentKind.operation.fields := by
    simp [DocumentKind.fields]
  rcases accepts_nullable.mp ((hop.fields _ hfield).value _ hown) with hnull | hfits
  · contradiction
  · exact ⟨fits_of_orReference (accepts_list.mp hfits _ h) hparameter, hparameter⟩

/-- A parameter that says where it goes says so by a word. -/
theorem succeeds_placementsOf {parameters : List (String × Members)}
    (h : ∀ parameter ∈ parameters, Fits (.kind .parameter) (.object parameter.2)) :
    Succeeds (placementsOf parameters) := by
  have hword : ∀ {words v}, Fits (.word words) v → IsText v := by
    intro words v hv
    cases v with
    | scalar s =>
        cases s with
        | str s => exact isText_str s
        | _ =>
            simp [Accepts, check, problemsOf, toWord, Validated.fail,
              Validated.problems] at hv
    | _ =>
        simp [Accepts, check, problemsOf, toWord, Validated.fail, Validated.problems]
          at hv
  refine mapM_succeeds_iff.mpr ?_
  rintro ⟨name, parameter⟩ hmem
  rw [succeeds_bind_pure, succeeds_requireText]
  cases hget : get? "in" parameter with
  | none => exact isText_str _
  | some v =>
      have hfield :
          ⟨"in", some "location", true, .word ["query", "header", "path", "cookie"]⟩ ∈
          DocumentKind.parameter.fields := by
        simp [DocumentKind.fields]
      exact hword (accepted_member (h _ hmem) hfield hget)

/-- What is the schema of a parameter or of content is a schema. -/
theorem isSchema_under (hfield : DocumentKind.schemaField ∈ k.fields)
    (h : Fits (.kind k) (.object ms)) (hrefs : NoReferences (.object ms)) :
    IsSchema (valueAt "schema" ms) := by
  have hwithin := hrefs.under "schema"
  unfold valueAt at hwithin ⊢
  cases hget : get? "schema" ms with
  | none =>
      rintro ns hnull
      contradiction
  | some v =>
      rw [hget] at hwithin
      rcases accepts_nullable.mp (accepted_member h hfield hget) with hnull | haccepted
      · rintro ns rfl
        contradiction
      · exact isSchema_of_accepted haccepted hwithin

/-- A blank schema has a type, as the schema that stands in for it has. -/
theorem succeeds_typeOf_orElse {v : Value} (h : IsSchema v) (hrefs : NoReferences v)
    (name : String) :
    Succeeds (typeOf (v.orElse plainSchema) name) ↔ Typable v := by
  rw [Typable, ← succeeds_typeOf_iff h hrefs name]
  unfold Tree.orElse
  split
  · next hblank =>
    refine iff_of_true ⟨.text, rfl⟩ ?_
    cases v with
    | marked mark ms =>
        obtain rfl : ms = [] := List.isEmpty_iff.mp hblank
        exact ⟨.any, rfl⟩
    | _ => exact ⟨.any, rfl⟩
  · rfl

theorem succeeds_parameterInput_iff {parameter : Members}
    (h : Fits (.kind .parameter) (.object parameter))
    (hrefs : NoReferences (.object parameter)) (tool name : String) :
    Succeeds (parameterInput tool name parameter) ↔ Presentable parameter := by
  rw [succeeds_parameterInput, succeeds_typeOf_orElse
    (isSchema_under (by simp [DocumentKind.fields]) h hrefs) (hrefs.under "schema")]
  exact ⟨fun h => ⟨h.1, h.2⟩, fun h => ⟨h.schema, h.description⟩⟩

/-- The content of a request body that counts is under its content. -/
theorem mem_of_bodyContent {body : Members} {contentType : String} {media : Value}
    (h : bodyContent (.object body) = some (contentType, media)) :
    ∃ content k, valueAt "content" body = .object content ∧ (k, media) ∈ content := by
  simp only [bodyContent] at h
  split at h
  · next content hcontent =>
    split at h
    · next found hget =>
      obtain ⟨-, rfl⟩ := Prod.mk.inj (Option.some.inj h)
      exact ⟨_, _, hcontent, Members.mem_of_get?_str hget⟩
    · next k found rest _ =>
      obtain ⟨-, rfl⟩ := Prod.mk.inj (Option.some.inj h)
      exact ⟨_, k, hcontent, List.mem_cons_self⟩
    · contradiction
  · contradiction

private theorem NoReferences.of_under {v : Value} (h : NoReferences (.object ms))
    {key : String} (hv : valueAt (.str key) ms = v) : NoReferences v :=
  hv ▸ h.under key

/-- The schema of a request body in shape is a schema. -/
theorem isSchema_of_hasSchema {body schema : Members} (hop : InShape .operation op)
    (hrefs : NoReferences (.object op))
    (hbody : valueAt "requestBody" op = .object body)
    (hschema : HasSchema body schema) : IsSchema (.object schema) ∧
      NoReferences (.object schema) := by
  obtain ⟨contentType, media, hcontent, hunder⟩ := hschema
  obtain ⟨content, k, hmap, hmem⟩ := mem_of_bodyContent hcontent
  have hbodyRefs : NoReferences (.object body) := hrefs.of_under hbody
  have hmapRefs : NoReferences (.object content) := hbodyRefs.of_under hmap
  have hmediaRefs : NoReferences (.object media) :=
    hmapRefs.within (.member hmem (.here _))
  have hfits := fits_getD hop "requestBody" (DocumentKind.orReference "RequestBody"
    (.kind .requestBody)) (by simp [DocumentKind.fields])
  rw [show (get? "requestBody" op).getD .null = .object body from hbody] at hfits
  rcases accepts_nullable.mp hfits with hnull | hfits
  · contradiction
  have hbodyFits := fits_of_orReference hfits hbodyRefs
  have hget : get? "content" body = some (.object content) := by
    rw [valueAt] at hmap
    cases hget : get? "content" body with
    | none =>
        rw [hget] at hmap
        contradiction
    | some v =>
        rw [hget, Option.getD_some] at hmap
        rw [hmap]
  have hfield : ⟨"content", none, false, .map (.kind .mediaType)⟩ ∈
      DocumentKind.requestBody.fields := by
    simp [DocumentKind.fields]
  have hmapFits := accepted_member hbodyFits hfield hget
  have hschema := isSchema_under (by simp [DocumentKind.fields])
    (accepts_map.mp hmapFits _ hmem).2 hmediaRefs
  rw [hunder] at hschema
  exact ⟨hschema, hmediaRefs.of_under hunder⟩

end

/-! ## The address -/

/-- What is accepted as a list of objects of a kind has a first item if it is not blank,
and that is accepted. -/
theorem first_of_fits {k : DocumentKind} {v : Value}
    (h : Fits (.nullable (.list (.kind k))) v) (hblank : v.isBlank = false) :
    ∃ ms, v.first = .ok (.object ms) ∧ Fits (.kind k) (.object ms) := by
  have hobject : ∀ x, Fits (.kind k) x → ∃ ms, x = .object ms ∧
      Fits (.kind k) (.object ms) := fun x hx => by
    obtain ⟨ms, rfl⟩ := object_of_accepts_kind hx
    exact ⟨ms, rfl, hx⟩
  have haccepted : Fits (.list (.kind k)) v :=
    (accepts_nullable.mp h).resolve_left fun hnull => by
    rw [isNull_eq_false_of_not_isBlank (by simp [hblank])] at hnull
    contradiction
  cases v with
  | list xs =>
      cases xs with
      | nil => contradiction
      | cons x rest =>
          obtain ⟨ms, rfl, hms⟩ :=
            hobject x (accepts_list.mp haccepted x List.mem_cons_self)
          exact ⟨ms, rfl, hms⟩
  | pair a b =>
      obtain ⟨ms, rfl, hms⟩ := hobject a (accepts_pair.mp haccepted).1
      exact ⟨ms, rfl, hms⟩
  | set names =>
      cases names with
      | nil => contradiction
      | cons name rest =>
          obtain ⟨ms, hms⟩ := object_of_accepts_kind
            (accepts_items haccepted rfl (.scalar name) (by simp))
          contradiction
  | _ => simp [Accepts, check, problemsOf] at haccepted

/-- What is blank has no first item. -/
theorem first_ne_ok_of_isBlank {v x : Value} (h : v.isBlank = true) :
    v.first ≠ .ok x := by
  cases v with
  | scalar s =>
      cases s with
      | str s =>
          obtain rfl : s = "" := String.isEmpty_iff.mp h
          exact nofun
      | torn text => contradiction
      | bytes b =>
          obtain rfl : b = [] := List.isEmpty_iff.mp h
          exact nofun
      | _ => exact nofun
  | list xs =>
      obtain rfl : xs = [] := List.isEmpty_iff.mp h
      exact nofun
  | pair a b => contradiction
  | set names => exact nofun
  | marked mark ms =>
      obtain rfl : ms = [] := List.isEmpty_iff.mp h
      exact nofun

/-- A server in shape has an address. -/
theorem valueAt_url_ne_null {server : Members}
    (h : Fits (.kind .server) (.object server)) :
    valueAt "url" server ≠ .null := by
  have hshape : InShape .server server :=
    (accepts_kind (isPlain (by decide) (by decide) (by decide) (by decide))).mp h
  have hfield := hshape.fields (DocumentKind.requiredText "url")
    (by simp [documentKinds, DocumentKind.fields])
  rw [valueAt]
  cases hget : get? "url" server with
  | none => exact absurd (hfield.required hget) (by simp [DocumentKind.requiredText])
  | some v =>
      rintro rfl
      exact absurd (hfield.value _ hget) (by decide)

/-- The first server of a document in shape has an address; whether that is a text has
not been asked. -/
theorem exists_address {ms : Members} (h : InShape .document ms) :
    ∃ address, addressOf none ms = .ok address ∧ ((address = .null ∨ IsText address) ↔
      ∀ server : Members, (valueAt "servers" ms).first = .ok (.object server) →
        IsText (valueAt "url" server)) := by
  have hfits : Fits (.nullable (.list (.kind .server))) (valueAt "servers" ms) :=
    fits_getD h "servers" _ (by simp [DocumentKind.fields])
  rw [addressOf, firstServerUrl]
  by_cases hblank : (valueAt "servers" ms).isBlank = true
  · refine ⟨.null, by simp [hblank], iff_of_true (.inl rfl) fun server hserver => ?_⟩
    exact absurd hserver (first_ne_ok_of_isBlank hblank)
  · obtain ⟨server, hfirst, hserver⟩ :=
      first_of_fits hfits (Bool.eq_false_iff.mpr hblank)
    refine ⟨valueAt "url" server, ?_, ?_⟩
    · rw [if_neg hblank, hfirst]
      rfl
    · rw [or_iff_right (valueAt_url_ne_null hserver)]
      refine ⟨fun htext other hother => ?_, fun htext => htext server hfirst⟩
      obtain rfl := (Tree.marked.inj (Except.ok.inj (hfirst.symm.trans hother))).2
      exact htext

/-! ## Operations -/

section

variable {ms op : Members} {root address : Value}

/-- The inputs of an operation in shape can be made, whatever the tool is called, if one
can be made for the first parameter of each name, and one for the request body. -/
theorem succeeds_toolInputs_iff
    (hop : InShape .operation op) (hrefs : NoReferences (.object op)) {own : List Value}
    (hget : get? "parameters" op = some (.list own)) (tool : String) :
    Succeeds (toolInputs tool (namedParameters own) (valueAt "requestBody" op)) ↔
      (∀ name parameter, (namedParameters own).lookup name = some parameter →
        Presentable parameter) ∧
      (bodyInputName ∉ (namedParameters own).map (·.1) → ∀ body schema : Members,
        valueAt "requestBody" op = .object body → HasSchema body schema →
          Typable (.object schema) ∧ MayBeText (valueAt "description" body)) := by
  rw [succeeds_toolInputs, succeeds_parameterInputs]
  refine and_congr ?_ (imp_congr_right fun _ => ?_)
  · refine forall₂_congr fun name parameter => ?_
    rw [forall_prop_of_true List.not_mem_nil]
    refine imp_congr_right fun hfound => ?_
    obtain ⟨before, after, hsplit, -⟩ := List.lookup_eq_some_iff.mp hfound
    have hmem : (name, parameter) ∈ namedParameters own := by simp [hsplit]
    obtain ⟨hfits, hfree⟩ :=
      fits_parameter hop hrefs hget (mem_of_mem_namedParameters hmem)
    exact succeeds_parameterInput_iff hfits hfree tool name
  · rw [succeeds_bodyInput]
    refine forall₄_congr fun body schema hbody hschema => and_congr_left fun _ => ?_
    obtain ⟨hisSchema, hfree⟩ := isSchema_of_hasSchema hop hrefs hbody hschema
    exact succeeds_typeOf_iff hisSchema hfree _

/-- A complete operation in shape has a tool, without references and shared parameters,
exactly if nothing stands in the way. -/
theorem succeeds_toolOf_iff (hop : InShape .operation op)
    (hrefs : NoReferences (.object op)) (hcomplete : CompleteOperation op)
    (haddress : (address = .null ∨ IsText address) ↔
      ∀ server : Members, (valueAt "servers" ms).first = .ok (.object server) →
        IsText (valueAt "url" server))
    (path : String) (method : Method) (used : List String) :
    Succeeds (toolOf root address (.list []) path method (.object op) used) ↔
      Offerable ms op := by
  obtain ⟨own, hget, hkeys⟩ := hcomplete.parameters
  have hown : listAt "parameters" op = .ok own := by
    rw [listAt, valueAt, hget]
    exact itemsOrNone_list own
  have hplaces : Succeeds (placementsOf (namedParameters own)) :=
    succeeds_placementsOf fun parameter hparameter =>
    (fits_parameter hop hrefs hget (mem_of_mem_namedParameters hparameter)).1
  rw [succeeds_toolOf (expand_of_noReferences hrefs) hown hkeys,
    succeeds_toolWith (succeeds_operationId hop method path) (succeeds_toolDescription
      hop method path) hplaces (succeeds_toolInputs_iff hop hrefs hget), haddress]
  constructor
  · rintro ⟨⟨hparameters, hbody⟩, haddress⟩
    refine ⟨fun other name parameter hother => ?_, fun other body schema hother hnone =>
      ?_, haddress⟩
    · exact Except.ok.inj (hown.symm.trans hother) ▸ hparameters name parameter
    · exact hbody (Except.ok.inj (hown.symm.trans hother) ▸ hnone) body schema
  · exact fun h => ⟨⟨fun name parameter => h.parameters own name parameter hown,
      fun hnone body schema => h.body own body schema hown hnone⟩, h.address⟩

end

/-! ## Documents -/

/-- Every operation under the paths of a document can become a tool. -/
def Renderable (document : Value) : Prop :=
  ∃ ms paths, document = .object ms ∧ get? "paths" ms = some (.object paths) ∧
    ∀ op, Offers paths op → Offerable ms op

/-- Without more to go wrong than the tools, a server is generated if there are
tools. -/
theorem succeeds_scaffold {options : Options} {document : Value} :
    Succeeds (scaffold options document) ↔
      Succeeds (toolsOf document options.baseUrl) :=
  succeeds_bind_pure

/-- A document with a described request body that has a schema. -/
def describedText : String :=
  "\x7b\"openapi\": \"3.0.0\", \"paths\": \x7b\"/a\": \x7b\"put\": \x7b\"requestBody\": "
  ++ "\x7b\"description\": \"5\", \"content\": "
  ++ "\x7b\"a/b\": \x7b\"schema\": \x7b\"type\": \"object\"\x7d\x7d\x7d\x7d\x7d\x7d\x7d\x7d"

/-- A document whose only parameter is described by a number. -/
def numberedText : String :=
  "\x7b\"openapi\": \"3.0.0\", \"paths\": \x7b\"/a\": \x7b\"get\": \x7b\"parameters\": "
  ++ "[\x7b\"name\": \"q\", \"in\": \"query\", \"description\": 5\x7d]\x7d\x7d\x7d\x7d"

end ApiWorkbench.Server
