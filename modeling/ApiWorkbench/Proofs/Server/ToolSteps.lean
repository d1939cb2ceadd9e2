import ApiWorkbench.Proofs.Server.Completed
import ApiWorkbench.Proofs.Server.Inputs

/-!
# Which tools can be made

A tool is made in steps, and each of them may come upon something that it cannot use.
What a step asks of the values that it reads is said here without the errors that it
ends with. It never matters how a tool is called: a name is found for every tool, and a
schema has a type under any name or under none.

A tool has texts, and where it asks for one, numbers are none; the shape of a document
asks for texts, too, and takes a number for one.

## Main results

* `succeeds_parameterInputs`, `succeeds_bodyInput`, `succeeds_toolInputs`: what the
  inputs of a tool ask for.
* `succeeds_toolWith`, `succeeds_toolOf`: what the tool for an operation asks for.
* `succeeds_toolsOf`: a document has tools if each of its operations has one.
-/

namespace ApiWorkbench.Server

open Document Reference
open Members (valueAt listAt get?)

/-! ## Texts -/

/-- A value that counts as a text where numbers do not: a text, even a torn one, or
bytes that encode one. -/
def IsText (v : Value) : Prop :=
  (∃ s, v = .str s) ∨ (∃ text, v = .scalar (.torn text)) ∨
    ∃ bytes s, v = .scalar (.bytes bytes) ∧ Text.utf8? bytes = some s

/-- What may stand where a text may be left out. -/
def MayBeText (v : Value) : Prop :=
  v.isBlank = true ∨ IsText v

theorem isText_str (s : String) : IsText (.str s) :=
  .inl ⟨s, rfl⟩

theorem succeeds_requireText {name : String} {v : Value} :
    Succeeds (requireText name v) ↔ IsText v := by
  unfold requireText IsText
  cases v with
  | scalar s =>
      cases s with
      | str s => exact iff_of_true (succeeds_ok s) (.inl ⟨s, rfl⟩)
      | torn text =>
          exact iff_of_true (succeeds_ok text.shown) (.inr (.inl ⟨text, rfl⟩))
      | bytes b =>
          cases hread : Text.utf8? b with
          | none =>
              simp [Shape.toText, hread, Shape.Validated.fail,
                Shape.Validated.under, Succeeds]
          | some s => simp [Shape.toText, hread, Shape.Validated.under, Succeeds]
      | _ => simp [Shape.toText, Shape.Validated.fail, Shape.Validated.under, Succeeds]
  | _ => simp [Shape.toText, Shape.Validated.fail, Shape.Validated.under, Succeeds]

theorem succeeds_allowText {name : String} {v : Value} :
    Succeeds (allowText name v) ↔ v = .null ∨ IsText v := by
  unfold allowText
  split
  · exact iff_of_true (succeeds_ok none) (.inl rfl)
  · next hnull => rw [succeeds_bind_pure, succeeds_requireText, or_iff_right (hnull ·)]

theorem isText_orElse {v : Value} {s : String} :
    IsText (v.orElse (.str s)) ↔ MayBeText v := by
  unfold Tree.orElse MayBeText
  split
  · next h => exact iff_of_true (isText_str s) (.inl h)
  · next h => rw [or_iff_right h]

theorem null_or_isText_orElse {v : Value} :
    v.orElse .null = .null ∨ IsText (v.orElse .null) ↔ MayBeText v := by
  unfold Tree.orElse MayBeText
  split
  · next h => exact iff_of_true (.inl rfl) (.inl h)
  · next h =>
    rw [or_iff_right h, or_iff_right]
    rintro rfl
    exact h rfl

/-! ## Inputs -/

private theorem lift_ok {α : Type} (a : α) :
    (liftM (.ok a : Except Fault α) : Except ToolError α) = .ok a := rfl

theorem succeeds_lift {α : Type} {x : Except Fault α} :
    Succeeds (liftM x : Except ToolError α) ↔ Succeeds x :=
  exists_congr fun _ => lift_eq_ok

theorem succeeds_parameterInput {tool name : String} {parameter : Members} :
    Succeeds (parameterInput tool name parameter) ↔
      Succeeds (typeOf ((valueAt "schema" parameter).orElse plainSchema)
        (typeName [inputTypeName tool, name])) ∧
        MayBeText (valueAt "description" parameter) := by
  rw [parameterInput, succeeds_bind_iff fun _ => succeeds_bind_pure, succeeds_lift,
    succeeds_allowText, null_or_isText_orElse]

/-- Inputs can be made for parameters if one can be made for the first
parameter of each name. -/
theorem succeeds_parameterInputs {tool : String} {seen : List String}
    {parameters : List (String × Members)} :
    Succeeds (parameterInputs tool seen parameters) ↔ ∀ name parameter, name ∉ seen →
      parameters.lookup name = some parameter →
        Succeeds (parameterInput tool name parameter) := by
  induction parameters generalizing seen with
  | nil => simp [parameterInputs, Succeeds]
  | cons entry rest ih =>
      obtain ⟨first, parameter⟩ := entry
      have hlookup : ∀ name, List.lookup name ((first, parameter) :: rest) =
          if name = first then some parameter else rest.lookup name := by
        intro name
        rw [List.lookup_cons]
        split <;> simp_all
      rw [parameterInputs]
      split
      · next hcontains =>
        have hseen : first ∈ seen := List.contains_iff_mem.mp hcontains
        rw [ih]
        refine forall₃_congr fun name other hname => ?_
        rw [hlookup, if_neg (by rintro rfl; exact hname hseen)]
      · next hcontains =>
        have hseen : first ∉ seen := fun hmem =>
          hcontains (List.contains_iff_mem.mpr hmem)
        rw [succeeds_bind_iff fun _ => succeeds_bind_pure, ih]
        constructor
        · rintro ⟨hfirst, hrest⟩ name other hname hother
          rw [hlookup] at hother
          split at hother
          · next heq =>
            obtain rfl := Option.some.inj hother
            exact heq ▸ hfirst
          · next hne => exact hrest name other (by simp [hne, hname]) hother
        · refine fun h => ⟨h first parameter hseen (by simp [hlookup]),
            fun name other hname hother => ?_⟩
          rw [List.mem_cons, not_or] at hname
          obtain ⟨hne, hname⟩ := hname
          exact h name other hname (by rw [hlookup, if_neg hne, hother])

/-- The content of a request body that counts has a schema. -/
def HasSchema (body schema : Members) : Prop :=
  ∃ contentType media, bodyContent (.object body) = some (contentType, .object media) ∧
    valueAt "schema" media = .object schema

theorem succeeds_bodyInput {tool : String} {body : Value} :
    Succeeds (bodyInput tool body) ↔ ∀ ms schema, body = .object ms →
      HasSchema ms schema →
      Succeeds (typeOf (.object schema) (typeName [inputTypeName tool, "Body"])) ∧
        MayBeText (valueAt "description" ms) := by
  unfold bodyInput
  split
  · next ms contentType media hcontent =>
    have hunique : ∀ schema, HasSchema ms schema ↔
        valueAt "schema" media = .object schema := by
      intro schema
      constructor
      · rintro ⟨other, members, hother, hschema⟩
        obtain rfl := (Tree.marked.inj
          (Prod.mk.inj (Option.some.inj (hcontent.symm.trans hother))).2).2
        exact hschema
      · exact fun h => ⟨_, media, hcontent, h⟩
    split
    · next schema hschema =>
      rw [succeeds_bind_iff fun _ => succeeds_bind_pure, succeeds_lift,
        succeeds_requireText, isText_orElse]
      refine ⟨fun h ns other hns hother => ?_, fun h =>
        h ms schema rfl ((hunique schema).mpr hschema)⟩
      obtain rfl := (Tree.marked.inj hns).2
      obtain rfl := (Tree.marked.inj (hschema.symm.trans ((hunique other).mp hother))).2
      exact h
    · next hnone =>
      refine iff_of_true (succeeds_ok none) fun ns schema hns hschema => ?_
      obtain rfl := (Tree.marked.inj hns).2
      exact absurd ((hunique schema).mp hschema) (hnone schema)
  · next hnone =>
    refine iff_of_true (succeeds_ok none) ?_
    rintro ms schema rfl ⟨contentType, media, hcontent, -⟩
    exact absurd hcontent (hnone ms contentType media rfl)

/-- A parameter that is called like the request body takes its place. -/
theorem succeeds_toolInputs {tool : String} {parameters : List (String × Members)}
    {body : Value} :
    Succeeds (toolInputs tool parameters body) ↔
      Succeeds (parameterInputs tool [] parameters) ∧
      (bodyInputName ∉ parameters.map (·.1) → Succeeds (bodyInput tool body)) := by
  rw [toolInputs, succeeds_bind_forall]
  refine and_congr_right ?_
  rintro ⟨own, hown⟩
  have hbody : (own.any (·.name == bodyInputName)) = true ↔
      bodyInputName ∈ parameters.map (·.1) := by
    have hnames := (parameterInputs_names hown).2 bodyInputName
    rw [and_iff_left List.not_mem_nil] at hnames
    rw [← hnames]
    simp
  simp only [hown, Except.ok.injEq, forall_eq']
  split
  · next h => exact iff_of_true (succeeds_ok own) fun hnone => absurd (hbody.mp h) hnone
  · next h =>
    rw [forall_prop_of_true fun hmem => h (hbody.mpr hmem)]
    refine (succeeds_bind_iff (Q := True) fun found => ?_).trans (and_iff_left trivial)
    cases found <;> exact iff_of_true (succeeds_ok _) trivial

/-! ## Operations -/

section

variable {document address : Value} {path : String} {method : Method}
  {used : List String}

/-- The tool for an operation can be made if its inputs can, under whatever name, and
the address is a text, as long as its other parts can be read. -/
theorem succeeds_toolWith {op : Members} {parameters : List (String × Members)}
    {Q : Prop} (hid : Succeeds
      ((valueAt "operationId" op).orElse (defaultOperationId method path)).text)
    (hdescription : Succeeds (toolDescription op method path))
    (hplaces : Succeeds (placementsOf parameters)) (hinputs : ∀ tool,
      Succeeds (toolInputs tool parameters (valueAt "requestBody" op)) ↔ Q) :
    Succeeds (toolWith address path method op parameters used) ↔
      Q ∧ (address = .null ∨ IsText address) := by
  obtain ⟨operationId, hid⟩ := hid
  obtain ⟨description, hdescription⟩ := hdescription
  obtain ⟨placements, hplaces⟩ := hplaces
  rw [toolWith, hid, hdescription, hplaces]
  simp only [lift_ok, ok_bind]
  rw [succeeds_bind_iff fun _ => succeeds_bind_pure, hinputs, succeeds_allowText]

/-- The tool for an operation that is expanded already and shares no parameters is
made of its own. -/
theorem succeeds_toolOf {op : Members} {own : List Value}
    (hexpand : expand (.object op) document = .ok (.object op))
    (hown : listAt "parameters" op = .ok own)
    (hkeys : HasKeys own) :
    Succeeds (toolOf document address (.list []) path method (.object op) used) ↔
      Succeeds (toolWith address path method op (namedParameters own) used) := by
  refine exists_congr fun tool => toolOf_eq_ok.trans ⟨?_, fun h => ?_⟩
  · rintro ⟨es, items, listed, merged, hes, hitems, hlisted, hmerged, h⟩
    obtain rfl := (Tree.marked.inj (Except.ok.inj (hexpand.symm.trans hes))).2
    obtain rfl : [] = items := Except.ok.inj hitems
    obtain rfl := Except.ok.inj (hown.symm.trans hlisted)
    obtain rfl := Except.ok.inj ((mergeParameters_nil hkeys).symm.trans hmerged)
    exact h
  · exact ⟨op, [], own, own, hexpand, rfl, hown, mergeParameters_nil hkeys, h⟩

theorem mem_operationsIn {item : Members} {entry : Method × Value} :
    entry ∈ operationsIn item ↔ ∃ op, entry.2 = .object op ∧
      get? (.str entry.1.name) item = some (.object op) := by
  have hall : ∀ method : Method, method ∈ Method.all := fun method => by
    cases method <;> decide
  obtain ⟨method, v⟩ := entry
  rw [operationsIn, List.mem_filterMap]
  constructor
  · rintro ⟨other, -, hother⟩
    split at hother
    · next op hop =>
      obtain ⟨rfl, rfl⟩ := Prod.mk.inj (Option.some.inj hother)
      exact ⟨op, rfl, hop⟩
    · contradiction
  · rintro ⟨op, rfl, hop⟩
    exact ⟨method, hall method, by rw [hop]⟩

/-- A path item has tools if each of its operations has one. -/
theorem succeeds_pathTools {path : Scalar}
    {item : Members} {w : Value} {Q : Members → Prop} (tools : List Tool)
    (hshared : expand ((valueAt "parameters" item).orElse (.list [])) document = .ok w)
    (hop : ∀ (method : Method) op used,
      get? (.str method.name) item = some (.object op) →
      (Succeeds (toolOf document address w path.display method (.object op) used) ↔
        Q op)) :
    Succeeds (pathTools document address path item tools) ↔
      ∀ (method : Method) op, get? (.str method.name) item = some (.object op) →
        Q op := by
  have hloop : Succeeds (pathTools document address path item tools) ↔
      Succeeds ((operationsIn item).foldlM (addTool document address w path.display)
        tools) := by
    refine exists_congr fun made => pathTools_eq_ok.trans ⟨?_, fun h => ⟨w, hshared, h⟩⟩
    rintro ⟨other, hother, h⟩
    exact Except.ok.inj (hshared.symm.trans hother) ▸ h
  have hstep : ∀ entry ∈ operationsIn item, ∀ made,
      Succeeds (addTool document address w path.display made entry) ↔
      ∀ op, entry.2 = .object op → Q op := by
    rintro ⟨method, _⟩ hentry made
    obtain ⟨op, rfl, hget⟩ := mem_operationsIn.mp hentry
    rw [addTool, succeeds_bind_pure, hop method op _ hget]
    exact ⟨fun h other hother => (Tree.marked.inj hother).2 ▸ h, fun h => h op rfl⟩
  rw [hloop, foldlM_succeeds_iff hstep]
  constructor
  · exact fun h method op hget =>
      h (method, .object op) (mem_operationsIn.mpr ⟨op, rfl, hget⟩) op rfl
  · intro h entry hentry op hop
    obtain ⟨other, hother, hget⟩ := mem_operationsIn.mp hentry
    obtain rfl := (Tree.marked.inj (hother.symm.trans hop)).2
    exact h entry.1 other hget

/-- An operation stands under a path and a method. -/
def Offers (paths op : Members) : Prop :=
  ∃ item, HoldsItem paths item ∧
    ∃ method : Method, get? (.str method.name) item = some (.object op)

/-- A document has tools if each of its operations has one. -/
theorem succeeds_toolsOf {ms paths : Members} {baseUrl : Option String}
    {Q : Members → Prop} (haddress : addressOf baseUrl ms = .ok address)
    (hpaths : get? "paths" ms = some (.object paths))
    (hitem : ∀ path item, (path, .object item) ∈ paths →
      ∀ tools, (Succeeds (pathTools (.object ms) address path item tools) ↔
        ∀ (method : Method) op, get? (.str method.name) item = some (.object op) →
          Q op)) :
    Succeeds (toolsOf (.object ms) baseUrl) ↔ ∀ op, Offers paths op → Q op := by
  have hread : (valueAt "paths" ms).membersOrNone = .ok paths := by
    rw [valueAt, hpaths]
    exact membersOrNone_object paths
  have hloop : Succeeds (toolsOf (.object ms) baseUrl) ↔
      Succeeds (paths.foldlM (entryTools (.object ms) address) []) := by
    rw [toolsOf_eq]
    simp only [Tree.members, pure_eq_ok, lift_ok, ok_bind, haddress, hread]
  have hstep : ∀ entry ∈ paths, ∀ tools,
      Succeeds (entryTools (.object ms) address tools entry) ↔
      ∀ item, entry.2 = .object item → ∀ (method : Method) op,
        get? (.str method.name) item = some (.object op) →
        Q op := by
    rintro ⟨path, v⟩ hentry tools
    cases v with
    | marked mark item =>
        rw [entryTools, hitem path item hentry]
        exact ⟨fun h other hother => (Tree.marked.inj hother).2 ▸ h,
          fun h => h item rfl⟩
    | _ => exact iff_of_true (succeeds_ok tools) (by simp)
  rw [hloop, foldlM_succeeds_iff hstep]
  constructor
  · rintro h op ⟨item, ⟨path, hentry⟩, method, hget⟩
    exact h _ hentry item rfl method op hget
  · rintro h ⟨path, v⟩ hentry item rfl method op hget
    exact h op ⟨item, ⟨path, hentry⟩, method, hget⟩

end

end ApiWorkbench.Server
