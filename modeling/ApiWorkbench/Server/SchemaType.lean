import ApiWorkbench.Server.Name
import ApiWorkbench.Server.TypeExpr
import ApiWorkbench.Value.Reading

/-!
# Types of schemas

Every schema has a type. What says nothing that a type can express, references included,
has the type of anything.

The type of a schema depends on the types of the schemas inside it, which are found
under its names: `Parts` answers for these when they are asked for, and `typeOf` goes
down a schema by handing out the parts below.
-/

namespace ApiWorkbench.Server

open Members (valueAt)

/-- The types of the parts of a schema. The names are those of the records that the
parts may become. -/
structure Parts where
  /-- the schema under a key -/
  schema : (key name : String) → Except Fault TypeExpr
  /-- the schemas in the list under a key; none where no list is -/
  choices : (key name : String) → Except Fault (List TypeExpr)
  /-- the properties, each with its schema; none where no object is -/
  properties : (name : String) → Except Fault (List (Scalar × Value × TypeExpr))

/-- The types that formats of texts stand for. -/
def textFormats : List (String × TypeExpr) :=
  [("date", .date), ("date-time", .moment), ("email", .email), ("uri", .url),
    ("url", .url)]

/-- A value that can be part of a type: one without integers that are too long
to be written. -/
def writable (v : Value) : Except Fault Value :=
  if v.isWritable then pure v else throw .notANumber

/-- The type of the texts of a schema: one of its values, or a format. -/
def textType (schema : Members) : Except Fault TypeExpr :=
  match valueAt "enum" schema with
  | .list (v :: rest) => do pure (.oneOf (← (v :: rest).mapM writable))
  | _ => do
    let format ← (valueAt "format" schema).name
    pure (match textFormats.find? fun entry => format.same entry.1 with
      | some (_, type) => type
      | none => .text)

/-- The names that a schema requires. -/
def requiredNames (schema : Members) : Except Fault (List Scalar) :=
  match valueAt "required" schema with
  | .list names => names.mapM Tree.name
  | _ => pure []

/-- The description of a schema; null where no schema is. -/
def describedBy : Value → Except Fault Value
  | .object schema => writable (valueAt "description" schema)
  | _ => pure .null

/-- The type of the objects of a schema: a record of its properties, or a map. -/
def objectType (schema : Members) (parts : Parts) (name : String) :
    Except Fault TypeExpr := do
  match valueAt "properties" schema with
  | .object (_ :: _) =>
    let required ← requiredNames schema
    let entries ← (← parts.properties name).mapM fun (key, property, type) => do
      pure (key, ⟨required.any key.same, ← describedBy property⟩, type)
    pure (.record name entries)
  | _ => do pure (.map (← parts.schema "additionalProperties" (name ++ "Value")))

/-- The type of the values that one of several schemas describes. -/
def choiceType (parts : Parts) (name : String) : List String → Except Fault TypeExpr
  | [] => pure .any
  | key :: rest => do
    match ← parts.choices key name with
    | [] => choiceType parts name rest
    | types => pure (.ofMembers types)

/-- The type of the values of a schema that are of a basic type. -/
def basicType (schema : Members) (parts : Parts) (basic : Value) (name : String) :
    Except Fault TypeExpr := do
  match ← basic.name with
  | .str "string" => textType schema
  | .str "integer" => pure .integer
  | .str "number" => pure .number
  | .str "boolean" => pure .flag
  | .str "array" => do pure (.list (← parts.schema "items" (name ++ "Item")))
  | .str "object" => objectType schema parts name
  | _ => choiceType parts name ["anyOf", "oneOf"]

/-- The type of the values of a schema that are of one of several basic types. -/
def listedType (schema : Members) (parts : Parts) (basics : List Value)
    (name : String) :
    Except Fault TypeExpr := do
  let types ← basics.mapM fun basic =>
    if basic.isText "null" then pure .none else basicType schema parts basic name
  pure (.ofMembers (TypeExpr.distinct types))

/-- The type of a schema, given its parts. -/
def schemaType (schema : Members) (parts : Parts) (name : String) :
    Except Fault TypeExpr := do
  let type ← match valueAt "type" schema with
    | .list basics => listedType schema parts basics name
    | basic => basicType schema parts basic name
  match valueAt "nullable" schema with
  | .bool true => pure (if type.coversNull then type else .optional type)
  | _ => pure type

mutual

/-- The type of a schema. A record in it takes the name, records further down extend
it. -/
def typeOf : Value → (name : String) → Except Fault TypeExpr
  | .object ms, name =>
    schemaType ms ⟨fun key name => typeUnder ms key name, fun key name =>
      choicesUnder ms key name, fun name => propertiesUnder ms name⟩ name
  | _, _ => pure .any

/-- The type of the schema under a key. -/
def typeUnder : List (Scalar × Value) → (key name : String) → Except Fault TypeExpr
  | [], _, _ => pure .any
  | (k, v) :: rest, key, name =>
      if k.same key then typeOf v name else typeUnder rest key name

/-- The types of the schemas in the list under a key. -/
def choicesUnder : List (Scalar × Value) → (key name : String) →
    Except Fault (List TypeExpr)
  | [], _, _ => pure []
  | (k, v) :: rest, key, name =>
      if k.same key then choicesIn v name else choicesUnder rest key name

/-- The types of the schemas in a list. -/
def choicesIn : Value → (name : String) → Except Fault (List TypeExpr)
  | .list xs, name => choiceTypes xs name 1
  | _, _ => pure []

/-- The types of schemas, each under a name with its number. -/
def choiceTypes : List Value → (name : String) → (number : Nat) →
    Except Fault (List TypeExpr)
  | [], _, _ => pure []
  | v :: rest, name, number => do
    let type ← typeOf v (name ++ "Option" ++ toString number)
    pure (type :: (← choiceTypes rest name (number + 1)))

/-- The types of the properties. -/
def propertiesUnder : List (Scalar × Value) → (name : String) →
    Except Fault (List (Scalar × Value × TypeExpr))
  | [], _ => pure []
  | (k, v) :: rest, name =>
      if k.same "properties" then propertiesIn v name else propertiesUnder rest name

/-- The types of the properties in an object. -/
def propertiesIn : Value → (name : String) →
    Except Fault (List (Scalar × Value × TypeExpr))
  | .object ms, name => propertyTypes ms name
  | _, _ => pure []

/-- The types of schemas under keys; each key extends the name. -/
def propertyTypes : List (Scalar × Value) → (name : String) →
    Except Fault (List (Scalar × Value × TypeExpr))
  | [], _ => pure []
  | (k, v) :: rest, name => do
    let type ← typeOf v (typeName [name, ← k.text])
    pure ((k, v, type) :: (← propertyTypes rest name))

end

end ApiWorkbench.Server
