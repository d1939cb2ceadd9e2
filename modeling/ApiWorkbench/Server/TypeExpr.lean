import ApiWorkbench.Value.Literal

/-!
# Type expressions

A generated server states the types of its inputs as Python expressions. `TypeExpr` is
such an expression, and `TypeExpr.source` is its source: names, brackets and literals
only. All text that comes from a document stands inside a literal.

The entries of a record carry a note: whether they have to be there, and a description.
`annotated` puts the note around the source of a type, `recordSource` joins the sources
of the entries.
-/

namespace ApiWorkbench.Server

/-- What is noted about an entry besides its type; a blank description is none. -/
structure Note where
  required : Bool
  description : Value

/-- A type of values. -/
inductive TypeExpr where
  /-- anything -/
  | any
  /-- null only -/
  | none
  | text
  | integer
  | number
  | flag
  | date
  | moment
  | email
  | url
  /-- one of some values -/
  | oneOf (values : List Value)
  | list (item : TypeExpr)
  /-- an object with values of one type under any names -/
  | map (value : TypeExpr)
  /-- a value of any of several types -/
  | union (members : List TypeExpr)
  /-- null or a value of a type -/
  | optional (type : TypeExpr)
  /-- an object with known names -/
  | record (name : String) (entries : List (Scalar × Note × TypeExpr))

/-- The source of a type with its note around it. -/
def annotated (note : Note) (type : String) : String :=
  let described :=
    if note.description.isBlank then type
    else "Annotated[" ++ type ++ ", Field(description=" ++
      note.description.literal ++ ")]"
  if note.required then described else "NotRequired[" ++ described ++ "]"

/-- The source of a record, from the sources of its entries. -/
def recordSource (name : String) (entries : List (Scalar × String)) : String :=
  let body := entries.map fun (key, type) => key.literal ++ ": " ++ type
  "TypedDict(" ++ textLiteral name ++ ", \x7b" ++ ", ".intercalate body ++ "\x7d)"

namespace TypeExpr

mutual

/-- The source of a type. -/
def source : TypeExpr → String
  | .any => "Any"
  | .none => "None"
  | .text => "str"
  | .integer => "int"
  | .number => "float"
  | .flag => "bool"
  | .date => "date"
  | .moment => "datetime"
  | .email => "EmailStr"
  | .url => "AnyUrl"
  | .oneOf values => "Literal[" ++ ", ".intercalate (values.map Tree.literal) ++ "]"
  | .list item => "list[" ++ item.source ++ "]"
  | .map value => "dict[str, " ++ value.source ++ "]"
  | .union members => "Union[" ++ ", ".intercalate (sources members) ++ "]"
  | .optional type => "Optional[" ++ type.source ++ "]"
  | .record name entries => recordSource name (entrySources entries)

/-- The sources of several types. -/
def sources : List TypeExpr → List String
  | [] => []
  | type :: rest => type.source :: sources rest

/-- The sources of the entries of a record, with their notes. -/
def entrySources : List (Scalar × Note × TypeExpr) → List (Scalar × String)
  | [] => []
  | (key, note, type) :: rest => (key, annotated note type.source) :: entrySources rest

end

/-- Whether null alone is of a type, or everything: then it makes no difference
to allow null. -/
def coversNull : TypeExpr → Bool
  | .any => true
  | .none => true
  | _ => false

/-- The type of the values of any of several types; of a single one that is
the type itself. -/
def ofMembers : List TypeExpr → TypeExpr
  | [type] => type
  | types => .union types

/-- The types without those whose source is that of an earlier one. -/
def distinct (types : List TypeExpr) : List TypeExpr :=
  types.foldl (fun kept type =>
    if kept.any (·.source == type.source) then kept else kept ++ [type]) []

end TypeExpr

end ApiWorkbench.Server
