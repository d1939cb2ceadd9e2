import ApiWorkbench.Proofs.Document.CompleteParts
import ApiWorkbench.Proofs.Document.CompletionFrame
import ApiWorkbench.Proofs.Document.EditedPlaces
import ApiWorkbench.Proofs.Reference.Spelling

/-!
# Where the parts of a converted document stand

A path item of the legacy format gives one with the same operations under the same
path, and completion, which comes last, leaves in an operation all but its tags, its
parameters and its external documents. Definitions become component schemas under
the same names.

## Main results

* `get?_convertObjects`, `get?_convertPathItem`: path items and operations stay
  under their names.
* `convertOperation_spec`: what a converted operation is made of.
* `get?_completion`: completion leaves operations in their places.
* `convertDocument_parts`: what the paths and the components of a converted
  document are made of.
* `resolve_component`: where a pointer to a component leads.
* `operationAt_convertDocument`: from an operation of the legacy document to that of the
  converted one.
-/

namespace ApiWorkbench.Swagger

open Document

/-- An object that is found under a name is converted and found there afterwards. -/
theorem get?_convertObjects {convert : Members → Except Fault Value} {ms ns : Members}
    (h : convertObjects convert ms = .ok ns) {name : Scalar} {inner : Members}
    (hinner : Members.get? name ms = some (.object inner)) :
    ∃ w, convert inner = .ok w ∧ Members.get? name ns = some w := by
  induction ms generalizing ns with
  | nil => simp at hinner
  | cons e rest ih =>
      obtain ⟨k, v⟩ := e
      rw [Members.get?_cons] at hinner
      cases v with
      | marked mark first =>
          obtain ⟨w, hw, h⟩ := bind_eq_ok.mp h
          obtain ⟨others, hothers, h⟩ := bind_eq_ok.mp h
          obtain rfl := Except.ok.inj h
          split at hinner
          · obtain rfl := (Tree.marked.inj (Option.some.inj hinner)).2
            exact ⟨w, hw, by simp [Members.get?_cons, ‹k.same name = true›]⟩
          · obtain ⟨u, hu, hget⟩ := ih hothers hinner
            exact ⟨u, hu, by simp [Members.get?_cons, ‹¬ k.same name = true›, hget]⟩
      | _ =>
          split at hinner
          · simp at hinner
          · exact ih h hinner

/-- The operation under a method is converted and found there afterwards. -/
private theorem mem_convertedMembers
    {document : Value} {item : Members} {methods : List Method} {ms : Members}
    (h : methods.filterMapM (convertedMember document item) = .ok ms)
    {method : Method} (hmethod : method ∈ methods) {op : Members}
    (hop : Members.get? method.name item = some (.object op)) :
    ∃ w, convertOperation document item op = .ok w ∧
      (Scalar.str method.name, w) ∈ ms := by
  induction methods generalizing ms with
  | nil => simp at hmethod
  | cons first rest ih =>
      rw [List.filterMapM_cons, bind_eq_ok] at h
      obtain ⟨made, hmade, h⟩ := h
      rcases List.mem_cons.mp hmethod with rfl | hmethod
      · rw [convertedMember, hop] at hmade
        obtain ⟨w, hw, hmade⟩ := bind_eq_ok.mp hmade
        obtain rfl := Except.ok.inj hmade
        obtain ⟨others, -, h⟩ := bind_eq_ok.mp h
        obtain rfl := Except.ok.inj h
        exact ⟨w, hw, List.mem_cons_self⟩
      · cases made with
        | none => exact ih h hmethod
        | some e =>
            obtain ⟨others, hothers, h⟩ := bind_eq_ok.mp h
            obtain rfl := Except.ok.inj h
            obtain ⟨w, hw, hmem⟩ := ih hothers hmethod
            exact ⟨w, hw, List.mem_cons_of_mem _ hmem⟩

/-- A converted path item has the converted operations under their methods,
and nothing else. -/
theorem get?_convertPathItem {document : Value} {item : Members} {converted : Value}
    (h : convertPathItem document item = .ok converted) :
    ∃ operations, converted = .object operations ∧
      Members.get? "parameters" operations = none ∧
      (∀ (method : Method) op, Members.get? method.name item = some (.object op) →
        ∃ w, convertOperation document item op = .ok w ∧
          Members.get? method.name operations = some w) ∧
      ∀ e ∈ operations, ∃ op, convertOperation document item op = .ok e.2 := by
  obtain ⟨operations, hoperations, h⟩ := bind_eq_ok.mp h
  obtain rfl := Except.ok.inj h
  obtain ⟨hnames, hmade⟩ := convertedMembers_spec hoperations
  have hnodup : (Members.names operations).Nodup :=
    (show (Method.all.map fun method => Scalar.str method.name).Nodup by decide).sublist
      hnames
  refine ⟨operations, rfl, Members.get?_eq_none_iff.mpr fun e he =>
    ?_, fun method op hop => ?_, hmade⟩
  · obtain ⟨method, -, hname⟩ :=
      List.mem_map.mp (hnames.subset (List.mem_map_of_mem he))
    rw [← hname]
    cases method <;> rfl
  · obtain ⟨w, hw, hmem⟩ :=
      mem_convertedMembers hoperations (by cases method <;> simp [Method.all]) hop
    exact ⟨w, hw, Members.get?_of_mem hnodup hmem⟩

/-! ## Operations -/

/-- The members of an operation that are taken over as they are. -/
def carriedMembers : List String :=
  ["summary", "description", "operationId", "tags", "deprecated", "security"]

/-- What a converted operation is made of, given the parameters that the operation
has in effect. -/
structure ConvertedFrom (document : Value) (item op : Members)
    (parameters : List Members) (op' : Members) : Prop where
  effective : effectiveParameters document item op = .ok parameters
  kept : ∃ kept, (parameters.filter fun p => !isPayload p).mapM convertParameter =
    .ok kept ∧
    Members.listAt "parameters" op' = .ok kept
  body : requestBody op parameters = .ok (fieldOf op' "requestBody")
  responses : ∃ given responses, (fieldOf op "responses").membersOrNone = .ok given ∧
    convertResponses ((fieldOf op "produces").orElse (.list ["application/json"]))
      given = .ok responses ∧
    Members.get? "responses" op' = some (.object (Members.ofEntries responses))
  carried : ∀ name ∈ carriedMembers, fieldOf op' name = fieldOf op name
  noExternalDocs : Members.get? "externalDocs" op' = none
  notNull : ∀ (name : String) v, Members.get? name op' = some v → v ≠ .null

/-- What is under a name in a record of what is not null. -/
theorem fieldOf_recordOf {fields : List (String × Value)}
    (name : String) (hnames : (fields.map (·.1)).Nodup) {ms : Members}
    (hms : Tree.recordOf fields = .object ms) {v : Value} (hv : (name, v) ∈ fields) :
    fieldOf ms name = v := by
  cases hget : Members.get? (.str name) ms with
  | some w =>
      obtain rfl := congrArg Prod.snd
        (List.inj_on_of_nodup_map hnames (mem_of_get?_recordOf hms hget) hv rfl)
      rw [fieldOf, hget, Option.getD_some]
  | none =>
      rw [fieldOf, hget, Option.getD_none]
      by_contra hnull
      have hfound : v.isNull = false := by
        unfold Tree.isNull
        split <;> simp_all
      simp [get?_recordOf name hnames hms hv hfound] at hget

/-- A member that is not null is found. -/
theorem get?_of_fieldOf {ms : Members} {name : String} {v : Value}
    (h : fieldOf ms name = v) (hv : v ≠ .null) :
    Members.get? name ms = some v := by
  rw [fieldOf] at h
  cases hget : Members.get? (.str name) ms with
  | none => exact absurd (by simpa [hget] using h.symm) hv
  | some w => rw [← h, hget, Option.getD_some]

theorem get?_of_fieldOf_object {ms inner : Members} {name : String}
    (h : fieldOf ms name = .object inner) :
    Members.get? name ms = some (.object inner) :=
  get?_of_fieldOf h nofun

/-- An operation is converted to an object, and this is what it is made of. -/
theorem convertOperation_spec {document w : Value} {item op : Members}
    (h : convertOperation document item op = .ok w) :
    ∃ parameters op', w = .object op' ∧
      ConvertedFrom document item op parameters op' := by
  obtain ⟨parameters, hparameters, h⟩ := bind_eq_ok.mp h
  obtain ⟨kept, hkept, h⟩ := bind_eq_ok.mp h
  obtain ⟨body, hbody, h⟩ := bind_eq_ok.mp h
  obtain ⟨given, hgiven, h⟩ := bind_eq_ok.mp h
  obtain ⟨responses, hresponses, h⟩ := bind_eq_ok.mp h
  obtain ⟨op', hop'⟩ : ∃ op', w = .object op' := ⟨_, (Except.ok.inj h).symm⟩
  have hrecord := (Except.ok.inj h).trans hop'
  refine ⟨parameters, op', hop', hparameters, ⟨kept, hkept, ?_⟩, ?_,
    ⟨given, responses, hgiven, hresponses,
      get?_recordOf _ (by simp) hrecord (by simp) rfl⟩, fun name hname => ?_, ?_,
    fun name v => notNull_of_get?_recordOf hrecord⟩
  · have hlist : fieldOf op' "parameters" =
        if kept.isEmpty then .null else .list kept :=
      fieldOf_recordOf _ (by simp) hrecord (by simp)
    show (fieldOf op' "parameters").itemsOrNone = _
    rw [hlist]
    cases kept <;> rfl
  · rw [fieldOf_recordOf "requestBody" (by simp) hrecord (v := body) (by simp)]
    exact hbody
  · refine fieldOf_recordOf name (by simp) hrecord ?_
    simp only [carriedMembers, List.mem_cons, List.not_mem_nil, or_false] at hname
    rcases hname with rfl | rfl | rfl | rfl | rfl | rfl <;> simp
  · cases hget : Members.get? (.str "externalDocs") op' with
    | none => rfl
    | some v => exact absurd (mem_of_get?_recordOf hrecord hget) (by simp)

/-- What the parameters, the payload and the responses of a converted
operation are made of. -/
theorem convertOperation_parts {document : Value} {item op op' : Members}
    (h : convertOperation document item op = .ok (.object op')) :
    (∀ own, Members.listAt "parameters" op' = .ok own → ∀ p ∈ own, ∃ source,
      convertParameter source = .ok p) ∧
    (∀ body, Members.get? "requestBody" op' = some body →
      (∃ parameter, bodyRequest parameter = .ok body) ∨ ∃ forms consumes,
        formRequest forms consumes = .ok body) ∧
    ∃ given responses, (fieldOf op "responses").membersOrNone = .ok given ∧
      convertResponses ((fieldOf op "produces").orElse (.list ["application/json"]))
        given = .ok responses ∧
      Members.get? "responses" op' = some (.object (Members.ofEntries responses)) := by
  obtain ⟨parameters, op₁, heq, hmade⟩ := convertOperation_spec h
  obtain rfl := (Tree.marked.inj heq).2
  refine ⟨fun own hown p hp => ?_, fun found hfound => ?_, hmade.responses⟩
  · obtain ⟨kept, hkept, hlist⟩ := hmade.kept
    obtain rfl := Except.ok.inj (hlist.symm.trans hown)
    obtain ⟨source, -, hsource⟩ := exists_of_mem_mapM hkept hp
    exact ⟨source, hsource⟩
  · have hbody := hmade.body
    rw [fieldOf, hfound, Option.getD_some] at hbody
    unfold requestBody at hbody
    split at hbody
    · exact .inl ⟨_, hbody⟩
    · exact absurd (Except.ok.inj hbody).symm (hmade.notNull _ _ hfound)
    · exact .inr ⟨_, _, hbody⟩

/-! ## Completion -/

/-- Where an operation stands before completion there is one afterwards, completed. -/
theorem get?_completion {paths paths' : Members}
    (h : completion.pathItems paths = .ok paths') {path : Scalar} {item op : Members}
    (hitem : Members.get? path paths = some (.object item)) {method : Method}
    (hop : Members.get? method.name item = some (.object op)) :
    ∃ item' op', Members.get? path paths' = some (.object item') ∧
      Members.get? method.name item' = some (.object op') ∧
        OperationCompleted PathsCompleted item op op' := by
  obtain ⟨-, w, -, hw, item', rfl, hmembers⟩ :=
    Members.Aligned.get?_some (pathsCompleted_iff.mp (completion_pathsCompleted h))
      hitem
  have hne : method.name ≠ "parameters" := by cases method <;> decide
  have hkept : Members.get? method.name (Members.erase "parameters" item) =
      some (.object op) := by
    rw [Members.get?_erase, if_neg hne, hop]
  obtain ⟨k, u, hk, hu, hmember⟩ := Members.Aligned.get?_some hmembers hkept
  obtain rfl := Scalar.same_str_iff.mp hk
  rw [if_pos (isMethod_name method)] at hmember
  obtain ⟨op', rfl, hcompleted⟩ := hmember
  exact ⟨item', op', hw, hu, hcompleted⟩

/-- An operation after completion was one before, with the same in all members that
completion does not look at, and with the same parameters where nothing was shared. -/
theorem holdsOperation_of_completion {paths paths' : Members}
    (h : completion.pathItems paths = .ok paths') {item' op' : Members}
    (hitem' : HoldsItem paths' item') (hop' : HoldsOperation item' op') :
    ∃ item op, HoldsItem paths item ∧ HoldsOperation item op ∧
      (∀ name ∉ operationParts, Members.get? (.str name) op' = Members.get? name op) ∧
      (Members.get? "parameters" item = none →
        ∀ own, Members.get? "parameters" op' = some (.list own) →
        Members.listAt "parameters" op = .ok own) := by
  obtain ⟨item, changed, hitem, hchanged, rfl⟩ :=
    PathItemEdit.holdsItem_pathItems h hitem'
  obtain ⟨method, hmethod, hmem⟩ := hop'
  obtain ⟨op, op₁, hop, hnested, hcomplete⟩ :=
    PathItemEdit.holdsOperation_operations hchanged
      ⟨method, hmethod, Members.mem_erase hmem⟩
  have hsame : ∀ name : String, name ≠ "callbacks" →
      Members.get? (.str name) op₁ = Members.get? (.str name) op :=
    fun name hname => (PathItemEdit.agreeButCallbacks_of_nested hnested).get?_eq hname
  refine ⟨item, op, hitem, hop, fun name hname => ?_, fun hnone own hown => ?_⟩
  · have hsplit : name ∉ ["tags", "parameters", "externalDocs"] ∧
        name ≠ "callbacks" := by
      simpa [operationParts, and_assoc] using hname
    rw [get?_completeOperation hcomplete hsplit.1, hsame name hsplit.2]
  · obtain ⟨own', shared, merged, hown', hshared, hmerged, hget⟩ :=
      completeOperation_parameters hcomplete
    obtain rfl : merged = own := by simpa [hget] using hown
    have hnothing : shared = [] := by
      rw [Members.listAt, Members.valueAt, hnone] at hshared
      exact (Except.ok.inj hshared).symm
    obtain ⟨-, added, rfl, hadded⟩ := mergeParameters_spec hmerged
    obtain rfl : added = [] := List.eq_nil_iff_forall_not_mem.mpr fun p hp => by
      simpa [hnothing] using hadded p hp
    rw [List.append_nil, Members.listAt,
      Members.valueAt, ← hsame "parameters" (by decide)]
    exact hown'

/-! ## Documents -/

/-- What the paths and the components of a converted document are made of. -/
theorem convertDocument_parts {ms ns : Members}
    (h : convertDocument (.object ms) = .ok (.object ns)) :
    (∃ items paths paths', (fieldOf ms "paths").membersOrNone = .ok items ∧
      convertObjects (convertPathItem (.object ms)) items = .ok paths ∧
        completion.pathItems paths = .ok paths' ∧
      Members.get? "paths" ns = some (.object paths')) ∧
    ∃ definitions schemas shared parameters components,
      (fieldOf ms "definitions").membersOrNone = .ok definitions ∧
      convertMembers definitions = .ok schemas ∧
        (fieldOf ms "parameters").membersOrNone = .ok shared ∧
      convertObjects convertParameter (lastingParameters shared) = .ok parameters ∧
      Members.get? "components" ns = some (.object components) ∧
      Members.get? "schemas" components = some (.object schemas) ∧
      fieldOf components "parameters" = objectOrNull parameters := by
  rw [convertDocument, Tree.members, pure_eq_ok, ok_bind] at h
  obtain ⟨infoMembers, -, h⟩ := bind_eq_ok.mp h
  obtain ⟨info, -, h⟩ := bind_eq_ok.mp h
  obtain ⟨servers, -, h⟩ := bind_eq_ok.mp h
  obtain ⟨items, hitems, h⟩ := bind_eq_ok.mp h
  obtain ⟨paths, hpaths, h⟩ := bind_eq_ok.mp h
  obtain ⟨definitions, hdefinitions, h⟩ := bind_eq_ok.mp h
  obtain ⟨schemas, hschemas, h⟩ := bind_eq_ok.mp h
  obtain ⟨shared, hshared, h⟩ := bind_eq_ok.mp h
  obtain ⟨parameters, hparameters, h⟩ := bind_eq_ok.mp h
  obtain ⟨definitions', -, h⟩ := bind_eq_ok.mp h
  obtain ⟨schemes, -, h⟩ := bind_eq_ok.mp h
  obtain ⟨⟨components, hread, hcomponents⟩, paths₁, paths', hreadPaths, hcompletion,
      hpaths'⟩ := complete_parts h
  have hself : ∀ inner : Members,
      (Value.object inner).orElse .emptyObject = .object inner := fun inner => by
    cases inner <;> rfl
  rw [get?_recordOf "paths" (by simp) rfl (v := .object paths) (by simp) rfl,
    Option.getD_some, hself] at hreadPaths
  obtain rfl := (Tree.marked.inj hreadPaths).2
  rw [get?_recordOf "components" (by simp) rfl (v := .recordOf
    [("schemas", objectOrNull schemas), ("parameters", objectOrNull parameters),
    ("securitySchemes", objectOrNull schemes)]) (by simp) rfl, Option.getD_some]
    at hread
  have hrecord : Tree.recordOf [("schemas", objectOrNull schemas), ("parameters",
      objectOrNull parameters), ("securitySchemes", objectOrNull schemes)] =
      .object components := (hself _).symm.trans hread
  refine ⟨⟨items, paths, paths', hitems, hpaths, hcompletion, hpaths'⟩, definitions,
    schemas, shared, parameters, _, hdefinitions, hschemas, hshared, hparameters,
    hcomponents, ?_, ?_⟩
  · rw [completeComponents_eq, get?_fill_of_ne (by decide), get?_fill_self,
      get?_fill_of_ne (by decide), get?_fill_of_ne (by decide)]
    cases hschemasNil : schemas with
    | nil =>
        cases hget : Members.get? (.str "schemas") components with
        | none => rfl
        | some v =>
            have hmem := mem_of_get?_recordOf hrecord hget
            have hnull : v = .null := by simpa [hschemasNil, objectOrNull] using hmem
            exact absurd hnull (notNull_of_get?_recordOf hrecord hget)
    | cons e rest =>
        rw [get?_recordOf "schemas" (by simp) hrecord (v := .object (e :: rest))
          (by simp [hschemasNil, objectOrNull]) rfl]
        rfl
  · rw [fieldOf, completeComponents_eq, get?_fill_of_ne (by decide), get?_fill_of_ne
      (by decide), get?_fill_of_ne (by decide), get?_fill_of_ne (by decide)]
    exact fieldOf_recordOf _ (by simp) hrecord (by simp)

/-- A pointer to a component leads to what is under its name among the
components of its kind. -/
theorem resolve_component {ns components map : Members}
    (kind : String) {name text : String}
    {v : Value} (hkind : kind ≠ "" ∧ ∀ c ∈ kind.toList, c ≠ '~' ∧ c ≠ '/' ∧ c ≠ '%')
    (hcomponents : Members.get? "components" ns = some (.object components))
    (hmap : Members.get? (.str kind) components = some (.object map))
    (hv : Members.get? (.str name) map = some v) (hname : name ≠ "")
    (htext : Reference.Spells name.toList text.toList) :
    Reference.resolve (.str ("#/components/" ++ kind ++ "/" ++ text)) (.object ns) =
      .ok v := by
  have hpointer : "#/components/" ++ kind ++ "/" ++ text =
      Reference.pointerTo ["components".toList, kind.toList, text.toList] := by
    rw [← String.toList_inj, Reference.pointerTo, String.toList_ofList]
    simp
  have hspelled : List.Forall₂ Reference.Spells ["components".toList, kind.toList,
      name.toList] ["components".toList, kind.toList, text.toList] :=
    .cons (Reference.spells_self (by simp))
      (.cons (Reference.spells_self hkind.2) (.cons htext .nil))
  have hsegments : Reference.segments ("#/components/" ++ kind ++ "/" ++ text) =
      ["components", kind, name] := by
    rw [hpointer, Reference.segments_spelled hspelled (by simpa using ⟨hkind.1, hname⟩)]
    simp
  rw [Reference.resolve, hsegments]
  simp [Reference.walk, Reference.step, hcomponents, hmap, hv]

/-- A document has an operation under a path and a method of one of its path items. -/
def OperationAt (document : Members) (path : Scalar) (method : Method)
    (item op : Members) : Prop :=
  ∃ paths, Members.get? "paths" document = some (.object paths) ∧
    Members.get? path paths = some (.object item) ∧
    Members.get? method.name item = some (.object op)

/-- An operation is converted, completed in a path item that shares no parameters, and
stands in its place in the converted document. -/
theorem operationAt_convertDocument {ms ns item op : Members} {path : Scalar}
    {method : Method} (h : convertDocument (.object ms) = .ok (.object ns))
    (hop : OperationAt ms path method item op) :
    ∃ parameters operations converted item' op',
      ConvertedFrom (.object ms) item op parameters converted ∧
      OperationCompleted PathsCompleted operations converted op' ∧
        Members.get? "parameters" operations = none ∧
      OperationAt ns path method item' op' := by
  obtain ⟨given, hgiven, hitem, hop⟩ := hop
  obtain ⟨⟨items, paths, paths', hitems, hconverted, hcompletion, hpaths'⟩, -⟩ :=
    convertDocument_parts h
  rw [fieldOf, hgiven, Option.getD_some, membersOrNone_object] at hitems
  obtain rfl := Except.ok.inj hitems
  obtain ⟨w, hw, hget⟩ := get?_convertObjects hconverted hitem
  obtain ⟨operations, rfl, hnone, hoperations, -⟩ := get?_convertPathItem hw
  obtain ⟨w, hw, hgetOp⟩ := hoperations method op hop
  obtain ⟨parameters, converted, rfl, hmade⟩ := convertOperation_spec hw
  obtain ⟨item', op', hitem', hop', hcompleted⟩ :=
    get?_completion hcompletion hget hgetOp
  exact ⟨parameters, operations, converted, item', op', hmade, hcompleted, hnone,
    paths', hpaths', hitem', hop'⟩

end ApiWorkbench.Swagger
