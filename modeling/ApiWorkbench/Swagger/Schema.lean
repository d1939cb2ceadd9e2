import ApiWorkbench.Text.Blank
import ApiWorkbench.Value.Reading

/-!
# Schemas of Swagger 2.0

A schema keeps the constraints that mean the same in both formats, in a fixed order,
followed by its items, properties, additional properties and parts, each converted in
turn. A reference into the definitions points to the component schemas afterwards.
-/

namespace ApiWorkbench.Swagger

/-- The constraints of a schema that are taken over as they are. -/
def sharedConstraints : List String :=
  ["type", "format", "title", "description", "default", "enum",
    "minimum", "maximum", "minLength", "maxLength", "pattern", "minItems", "maxItems",
    "uniqueItems", "required"]

/-- The members of a schema that hold schemas, in the order in which they are
written. -/
def nestedMembers : List String :=
  ["items", "properties", "additionalProperties", "allOf"]

/-- Something without a meaning for the schema is left out; everything else is kept. -/
def unlessBlank (v : Value) (converted : Except Fault Value) :
    Except Fault (Option Value) :=
  if v.isBlank then pure none else do pure (some (← converted))

/-- A reference into the definitions, as one into the component schemas. -/
def schemaReference (pointer : String) : Value :=
  .record
    [("$ref", .str (Text.replaceAll "#/definitions/" "#/components/schemas/" pointer))]

/-- The constraints of a schema followed by its converted nested members. -/
def joinSchema (ms : Members) (converted : List (Scalar × Value)) : Value :=
  let constraints := sharedConstraints.map fun (key : String) =>
    (key, (Members.get? key ms).getD .null)
  let nested := nestedMembers.map fun (key : String) =>
    (key, (Members.get? key converted).getD .null)
  .recordOf (constraints ++ nested)

mutual

/-- A schema, converted. What is no object says nothing. -/
def convertSchema : Value → Except Fault Value
  | .object [] => pure .emptyObject
  | .object ms =>
    match Members.get? "$ref" ms with
    | some (.str pointer) => pure (schemaReference pointer)
    | _ => do pure (joinSchema ms (← convertNested ms))
  | _ => pure .emptyObject

/-- The nested members of a schema that have a meaning, converted. -/
def convertNested : List (Scalar × Value) → Except Fault (List (Scalar × Value))
  | [] => pure []
  | (k, v) :: rest => do
    let converted ←
      if k.same "items" then unlessBlank v (convertSchema v)
      else if k.same "properties" then unlessBlank v (convertProperties v)
      else if k.same "allOf" then unlessBlank v (convertParts v)
      else if k.same "additionalProperties" then
        match v with
        | .bool b => pure (some (.bool b))
        | v => unlessBlank v (convertSchema v)
      else pure none
    let others ← convertNested rest
    match converted with
    | some w => pure ((k, w) :: others)
    | none => pure others

/-- The properties of a schema, each converted. -/
def convertProperties : Value → Except Fault Value
  | .object ms => do pure (.object (← convertMembers ms))
  | _ => throw .notAnObject

/-- Schemas under names, each converted. -/
def convertMembers : List (Scalar × Value) → Except Fault (List (Scalar × Value))
  | [] => pure []
  | (k, v) :: rest => do
    let w ← convertSchema v
    pure ((k, w) :: (← convertMembers rest))

/-- The parts of a schema, each converted. The names of an object and the letters of a
text are no schemas and say nothing. -/
def convertParts : Value → Except Fault Value
  | .list xs => do pure (.list (← convertItems xs))
  | .pair a b => do
    let first ← convertSchema a
    pure (.list [first, ← convertSchema b])
  | v => do pure (.list ((← v.items).map fun _ => .emptyObject))

/-- Schemas in a list, each converted. -/
def convertItems : List Value → Except Fault (List Value)
  | [] => pure []
  | v :: rest => do
    let w ← convertSchema v
    pure (w :: (← convertItems rest))

end

end ApiWorkbench.Swagger
