import Mathlib.Logic.Relation
import ApiWorkbench.Proofs.Tree
import ApiWorkbench.Server.SchemaType

/-!
# How types of schemas are made

The type of a schema is made from the types of some schemas under it, and which ones
these are depends on the basic types that the schema asks for. `Uses` says so for one
step and `Reaches` for any number of them.

## Main results

* `typeOf_object`: the type of a schema by what is under its keys.
* `uses_induction`: the induction over the schemas that types are made from.
-/

namespace ApiWorkbench.Server

open Members (valueAt)

/-! ## The parts of a schema -/

@[simp] theorem typeOf_null (name : String) : typeOf .null name = .ok .any := rfl

theorem typeUnder_eq (ms : Members) (key name : String) :
    typeUnder ms key name = typeOf (valueAt key ms) name := by
  induction ms with
  | nil => rfl
  | cons e rest ih =>
      obtain ⟨k, v⟩ := e
      rw [typeUnder, valueAt, Members.get?_cons]
      split
      · rfl
      · exact ih

theorem choicesUnder_eq (ms : Members) (key name : String) :
    choicesUnder ms key name = choicesIn (valueAt key ms) name := by
  induction ms with
  | nil => rfl
  | cons e rest ih =>
      obtain ⟨k, v⟩ := e
      rw [choicesUnder, valueAt, Members.get?_cons]
      split
      · rfl
      · exact ih

theorem propertiesUnder_eq (ms : Members) (name : String) :
    propertiesUnder ms name = propertiesIn (valueAt "properties" ms) name := by
  induction ms with
  | nil => rfl
  | cons e rest ih =>
      obtain ⟨k, v⟩ := e
      rw [propertiesUnder, valueAt, Members.get?_cons]
      split
      · rfl
      · exact ih

/-- The types of the parts of a schema. -/
def partsOf (ms : Members) : Parts where
  schema key name := typeOf (valueAt key ms) name
  choices key name := choicesIn (valueAt key ms) name
  properties name := propertiesIn (valueAt "properties" ms) name

@[simp] theorem partsOf_schema (ms : Members) (key name : String) :
    (partsOf ms).schema key name = typeOf (valueAt key ms) name := rfl

@[simp] theorem partsOf_choices (ms : Members) (key name : String) :
    (partsOf ms).choices key name = choicesIn (valueAt key ms) name := rfl

@[simp] theorem partsOf_properties (ms : Members) (name : String) :
    (partsOf ms).properties name = propertiesIn (valueAt "properties" ms) name := rfl

/-- The type of a schema by what is under its keys. -/
theorem typeOf_object (ms : Members) (name : String) :
    typeOf (.object ms) name = schemaType ms (partsOf ms) name := by
  simp only [typeOf, typeUnder_eq, choicesUnder_eq, propertiesUnder_eq, partsOf]

/-- What is no object has the type of anything. -/
theorem typeOf_of_not_object {v : Value} (h : ∀ ms, v ≠ .object ms) (name : String) :
    typeOf v name = .ok .any := by
  cases v with
  | marked mark ms => exact absurd rfl (h ms)
  | _ => rfl

/-- The types of schemas, each under its own name. -/
theorem choiceTypes_eq (xs : List Value) (name : String) (number : Nat) :
    choiceTypes xs name number =
      (xs.zipIdx number).mapM fun (v, i) =>
        typeOf v (name ++ "Option" ++ toString i) := by
  induction xs generalizing number with
  | nil => rfl
  | cons v rest ih => rw [choiceTypes, List.zipIdx_cons, List.mapM_cons, ih]

/-- The type of one property. -/
def propertyType (name : String) :
    Scalar × Value → Except Fault (Scalar × Value × TypeExpr)
  | (k, v) => do
    let part ← k.text
    let type ← typeOf v (typeName [name, part])
    pure (k, v, type)

/-- The types of properties, each under its own name. -/
theorem propertyTypes_eq (ms : Members) (name : String) :
    propertyTypes ms name = ms.mapM (propertyType name) := by
  induction ms with
  | nil => rfl
  | cons e rest ih =>
      obtain ⟨k, v⟩ := e
      rw [propertyTypes, List.mapM_cons, ih]
      simp [propertyType, bind_assoc]

/-! ## Basic types -/

/-- The basic types by name. -/
def basicNames : List String :=
  ["string", "integer", "number", "boolean", "array", "object"]

theorem name_eq_str {v : Value} {text : String} (h : v.name = .ok (.str text)) :
    v = .str text := by
  cases v with
  | scalar s =>
      obtain rfl := Except.ok.inj h
      rfl
  | pair a b =>
      obtain ⟨first, -, hsecond⟩ := bind_eq_ok.mp h
      obtain ⟨second, -, hpair⟩ := bind_eq_ok.mp hsecond
      exact nomatch Except.ok.inj hpair
  | _ => exact nomatch h

section

variable {ms : Members}

theorem basicType_string (parts : Parts) (name : String) :
    basicType ms parts "string" name = textType ms := by
  rfl

theorem basicType_integer (parts : Parts) (name : String) :
    basicType ms parts "integer" name = .ok .integer := by
  rfl

theorem basicType_number (parts : Parts) (name : String) :
    basicType ms parts "number" name = .ok .number := by
  rfl

theorem basicType_boolean (parts : Parts) (name : String) :
    basicType ms parts "boolean" name = .ok .flag := by
  rfl

theorem basicType_array (parts : Parts) (name : String) :
    basicType ms parts "array" name =
      .list <$> parts.schema "items" (name ++ "Item") := by
  rfl

theorem basicType_object (parts : Parts) (name : String) :
    basicType ms parts "object" name = objectType ms parts name := by
  rfl

theorem basicType_other {basic : Value} {k : Scalar}
    (hother : ∀ name ∈ basicNames, basic ≠ .str name) (hk : basic.name = .ok k)
    (parts : Parts) (name : String) :
    basicType ms parts basic name = choiceType parts name ["anyOf", "oneOf"] := by
  have hne : ∀ name ∈ basicNames, k ≠ .str name := by
    rintro name hname rfl
    exact hother name hname (name_eq_str hk)
  rw [basicType, hk, ok_bind]
  split
  · exact absurd rfl (hne "string" (by decide))
  · exact absurd rfl (hne "integer" (by decide))
  · exact absurd rfl (hne "number" (by decide))
  · exact absurd rfl (hne "boolean" (by decide))
  · exact absurd rfl (hne "array" (by decide))
  · exact absurd rfl (hne "object" (by decide))
  · rfl

/-- The type of a schema after its `nullable` was looked at. -/
def orNull (ms : Members) (type : TypeExpr) : TypeExpr :=
  match valueAt "nullable" ms with
  | .bool true => if type.coversNull then type else .optional type
  | _ => type

private theorem bind_orNull (x : Except Fault TypeExpr) :
    (x >>= fun type => match valueAt "nullable" ms with
      | .bool true => pure (if type.coversNull then type else .optional type)
      | _ => pure type) = orNull ms <$> x := by
  unfold orNull
  split <;> rfl

theorem schemaType_of_list {basics : List Value} (h : valueAt "type" ms = .list basics)
    (parts : Parts) (name : String) :
    schemaType ms parts name = orNull ms <$> listedType ms parts basics name := by
  rw [schemaType, h]
  exact bind_orNull _

theorem schemaType_of_basic (h : ∀ basics, valueAt "type" ms ≠ .list basics)
    (parts : Parts) (name : String) :
    schemaType ms parts name =
      orNull ms <$> basicType ms parts (valueAt "type" ms) name := by
  cases htype : valueAt "type" ms with
  | list basics => exact absurd htype (h basics)
  | _ =>
      rw [schemaType, htype]
      exact bind_orNull _

end

/-! ## Schemas that a type is made from -/

/-- A basic type that a schema asks for; among several, null is none. -/
def Asks (ms : Members) (basic : Value) : Prop :=
  match valueAt "type" ms with
  | .list basics => basic ∈ basics ∧ basic.isText "null" = false
  | v => basic = v

theorem asks_of_list {ms : Members} {basics : List Value}
    (h : valueAt "type" ms = .list basics) {basic : Value} :
    Asks ms basic ↔ basic ∈ basics ∧ basic.isText "null" = false := by
  rw [Asks, h]

theorem asks_of_basic {ms : Members} (h : ∀ basics, valueAt "type" ms ≠ .list basics)
    {basic : Value} :
    Asks ms basic ↔ basic = valueAt "type" ms := by
  unfold Asks
  split
  · next basics hlist => exact absurd hlist (h basics)
  · rfl

/-- The schemas that a schema is a choice of: those of the first list with any. -/
def branches (ms : Members) : List Value :=
  match valueAt "anyOf" ms with
  | .list (x :: xs) => x :: xs
  | _ =>
    match valueAt "oneOf" ms with
    | .list xs => xs
    | _ => []

/-- The first list with anything in it decides the type of a choice. -/
theorem choiceType_eq (ms : Members) (name : String) :
    choiceType (partsOf ms) name ["anyOf", "oneOf"] =
      match branches ms with
      | [] => .ok .any
      | x :: xs => .ofMembers <$> choiceTypes (x :: xs) name 1 := by
  have hlist : ∀ (key : String) (keys : List String) (x : Value) (xs : List Value),
      valueAt key ms = .list (x :: xs) →
      choiceType (partsOf ms) name (key :: keys) =
        .ofMembers <$> choiceTypes (x :: xs) name 1 := by
    intro key keys x xs hkey
    rw [choiceType, partsOf_choices, hkey, choicesIn, choiceTypes]
    simp [bind_assoc]
  have hnone : ∀ (key : String) (keys : List String),
      (∀ x xs, valueAt key ms ≠ .list (x :: xs)) →
      choiceType (partsOf ms) name (key :: keys) =
        choiceType (partsOf ms) name keys := by
    intro key keys hkey
    have hchoices : choicesIn (valueAt key ms) name = .ok [] := by
      cases hvalue : valueAt key ms with
      | list xs =>
          cases xs with
          | nil => rfl
          | cons x xs => exact absurd hvalue (hkey x xs)
      | _ => rfl
    rw [choiceType, partsOf_choices, hchoices, ok_bind]
  by_cases hany : ∃ x xs, valueAt "anyOf" ms = .list (x :: xs)
  · obtain ⟨x, xs, hany⟩ := hany
    have hbranches : branches ms = x :: xs := by rw [branches, hany]
    rw [hbranches, hlist _ _ x xs hany]
  have hanyNone : ∀ x xs, valueAt "anyOf" ms ≠ .list (x :: xs) := fun x xs h =>
    hany ⟨x, xs, h⟩
  have hbranches : branches ms = match valueAt "oneOf" ms with
      | .list xs => xs
      | _ => [] := by
    unfold branches
    split
    · next x xs h => exact absurd h (hanyNone x xs)
    · rfl
  rw [hnone _ _ hanyNone, hbranches]
  cases hone : valueAt "oneOf" ms with
  | list xs =>
      cases xs with
      | nil => exact hnone _ _ (by simp [hone])
      | cons x xs => exact hlist _ _ x xs hone
  | _ => exact hnone _ _ (by simp [hone])

/-- A schema whose type a basic type of another one is made from. -/
inductive UsesFor (ms : Members) : Value → Value → Prop
  | item : UsesFor ms "array" (valueAt "items" ms)
  | value : (∀ e rest, valueAt "properties" ms ≠ .object (e :: rest)) →
      UsesFor ms "object" (valueAt "additionalProperties" ms)
  | property {props : Members} {k : Scalar} {v : Value} : valueAt "properties" ms =
      .object props → (k, v) ∈ props →
      UsesFor ms "object" v
  | branch {basic v : Value} : (∀ name ∈ basicNames, basic ≠ .str name) →
      v ∈ branches ms → UsesFor ms basic v

section

variable {ms : Members} {w : Value}

theorem usesFor_array : UsesFor ms "array" w ↔ w = valueAt "items" ms := by
  refine ⟨fun h => ?_, fun h => h ▸ .item⟩
  generalize hbasic : Tree.str "array" = basic at h
  cases h with
  | item => rfl
  | branch hother => exact absurd hbasic.symm (hother "array" (by decide))
  | _ => simp at hbasic

theorem usesFor_object_of_properties {e : Scalar × Value} {rest : Members}
    (hprops : valueAt "properties" ms = .object (e :: rest)) :
    UsesFor ms "object" w ↔ ∃ k, (k, w) ∈ e :: rest := by
  refine ⟨fun h => ?_, fun ⟨k, hk⟩ => .property hprops hk⟩
  generalize hbasic : Tree.str "object" = basic at h
  cases h with
  | item => simp at hbasic
  | value hnone => exact absurd hprops (hnone e rest)
  | @property props k v hother hmem =>
      rw [hprops] at hother
      obtain rfl : e :: rest = props := by simpa using hother
      exact ⟨k, hmem⟩
  | branch hother => exact absurd hbasic.symm (hother "object" (by decide))

theorem usesFor_object_of_none
    (hnone : ∀ e rest, valueAt "properties" ms ≠ .object (e :: rest)) :
    UsesFor ms "object" w ↔ w = valueAt "additionalProperties" ms := by
  refine ⟨fun h => ?_, fun h => h ▸ .value hnone⟩
  generalize hbasic : Tree.str "object" = basic at h
  cases h with
  | item => simp at hbasic
  | value => rfl
  | @property props k v hprops hmem =>
      cases props with
      | nil => simp at hmem
      | cons e rest => exact absurd hprops (hnone e rest)
  | branch hother => exact absurd hbasic.symm (hother "object" (by decide))

theorem usesFor_other {basic : Value}
    (hother : ∀ name ∈ basicNames, basic ≠ .str name) :
    UsesFor ms basic w ↔ w ∈ branches ms := by
  refine ⟨fun h => ?_, .branch hother⟩
  cases h with
  | item => exact absurd rfl (hother "array" (by decide))
  | branch _ hmem => exact hmem
  | _ => exact absurd rfl (hother "object" (by decide))

theorem not_usesFor_leaf {basic : String}
    (hbasic : basic ∈ ["string", "integer", "number", "boolean"]) :
    ¬ UsesFor ms basic w := by
  intro h
  generalize hname : Tree.str basic = v at h
  cases h with
  | branch hother =>
      have hname' : basic ∈ basicNames := by
        simp only [List.mem_cons, List.not_mem_nil, or_false] at hbasic
        rcases hbasic with rfl | rfl | rfl | rfl <;> decide
      exact hother basic hname' hname.symm
  | _ =>
      obtain rfl : basic = _ := by simpa using hname
      simp at hbasic

end

/-- A schema whose type the type of another one is made from. -/
def Uses : Value → Value → Prop
  | .object ms, v => ∃ basic, Asks ms basic ∧ UsesFor ms basic v
  | _, _ => False

/-- The same after any number of steps. -/
def Reaches : Value → Value → Prop :=
  Relation.ReflTransGen Uses

/-- What is under a key is a member, or null. -/
theorem valueAt_cases (key : String) (ms : Members) :
    valueAt key ms = .null ∨ ∃ k, (k, valueAt key ms) ∈ ms := by
  rw [valueAt]
  cases h : Members.get? key ms with
  | none => exact .inl rfl
  | some v =>
      obtain ⟨k, -, hmem⟩ := Members.mem_of_get? h
      exact .inr ⟨k, hmem⟩

theorem branches_cases (ms : Members) :
    branches ms = [] ∨
    ∃ key ∈ ["anyOf", "oneOf"], valueAt key ms = .list (branches ms) := by
  unfold branches
  split
  · exact .inr ⟨"anyOf", by simp, by assumption⟩
  split
  · exact .inr ⟨"oneOf", by simp, by assumption⟩
  · exact .inl rfl

theorem not_uses_of_not_object {v : Value} (h : ∀ ms : Members, v ≠ .object ms)
    (w : Value) : ¬ Uses v w := by
  cases v with
  | marked mark ms => exact absurd rfl (h ms)
  | _ => exact id

theorem reaches_object {v : Value} {ms : Members} :
    Reaches v (.object ms) ↔ v = .object ms ∨ ∃ w, Uses v w ∧
      Reaches w (.object ms) := by
  rw [Reaches, Relation.ReflTransGen.cases_head_iff]

/-- What holds of a value if it holds of the schemas that its type is made from, holds
of every value. -/
theorem uses_induction {motive : Value → Prop}
    (step : ∀ v, (∀ w, Uses v w → motive w) → motive v) (v : Value) :
    motive v := by
  have hnull : motive .null := step _ fun w hw => hw.elim
  -- a schema may use the items of a list and the members of an object that
  -- are its members
  suffices h : motive v ∧ (∀ xs, v = .list xs → ∀ x ∈ xs, motive x) ∧
      (∀ ms : Members, v = .object ms → ∀ e ∈ ms, motive e.2) from h.1
  induction v using Tree.parts_induction with
  | scalar s => exact ⟨step _ fun w hw => hw.elim, by simp, by simp⟩
  | list xs ih =>
      exact ⟨step _ fun w hw =>
        hw.elim, by simpa using fun x hx => (ih x hx).1, by simp⟩
  | pair a b => exact ⟨step _ fun w hw => hw.elim, by simp, by simp⟩
  | set names => exact ⟨step _ fun w hw => hw.elim, by simp, by simp⟩
  | marked mark ms ih =>
      obtain ⟨⟩ := mark
      have hunder : ∀ key : String, motive (valueAt key ms) ∧
          (∀ xs, valueAt key ms = .list xs → ∀ x ∈ xs, motive x) ∧
          (∀ props : Members, valueAt key ms = .object props → ∀ e ∈ props,
            motive e.2) := by
        intro key
        rcases valueAt_cases key ms with hkey | ⟨k, hk⟩
        · rw [hkey]
          exact ⟨hnull, by simp, by simp⟩
        · exact ih _ hk
      refine ⟨step _ fun w hw => ?_, by simp, by simpa using fun e he => (ih e he).1⟩
      obtain ⟨basic, -, huses⟩ := hw
      cases huses with
      | item => exact (hunder "items").1
      | value => exact (hunder "additionalProperties").1
      | property hprops hmem => exact (hunder "properties").2.2 _ hprops _ hmem
      | branch _ hmem =>
          rcases branches_cases ms with hnone | ⟨key, -, hkey⟩
          · simp [hnone] at hmem
          · exact (hunder key).2.1 _ hkey w hmem

end ApiWorkbench.Server
