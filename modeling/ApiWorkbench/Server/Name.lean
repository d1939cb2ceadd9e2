import ApiWorkbench.Text.Blank
import ApiWorkbench.Text.CharSet
import ApiWorkbench.Text.WordChar
import ApiWorkbench.Value.Literal

/-!
# Names in a generated server

Types, tools, the functions that handle them and the arguments of these functions are
named after parts of the document, whatever these are called. A name that is taken gets
a number: `free` looks for the least one from two on.
-/

namespace ApiWorkbench.Server

/-! ## Free names -/

/-- A name with a number after it. -/
def numbered (base : String) (number : Nat) : String :=
  base ++ "_" ++ toString number

/-- The least number, starting from `number`, that makes a free name; at most `tries`
numbers are looked at. -/
def freeNumber (taken : String → Bool) (base : String) : (tries number : Nat) → Nat
  | 0, number => number
  | tries + 1, number =>
    if taken (numbered base number) then freeNumber taken base tries (number + 1)
    else number

/-- `base`, or `base_2`, `base_3`, ... whichever is first free. -/
def free (taken : String → Bool) (tries : Nat) (base : String) : String :=
  if taken base then numbered base (freeNumber taken base tries 2) else base

/-! ## Types -/

/-- A word with its first letter in upper case. -/
def capitalized : List Char → List Char
  | [] => []
  | c :: rest => c.toUpper :: rest

/-- The name of a type: the words of the parts, capitalized and joined. It starts
with a letter. -/
def typeName (parts : List String) : String :=
  let words := parts.flatMap fun part =>
    Text.runsBy (fun c => !Text.isAsciiAlphanumeric c) part.toList
  let name := (words.map capitalized).flatten
  match name with
  | [] => "Model"
  | c :: _ =>
      if Text.isAsciiDigit c then "Model" ++ String.ofList name else String.ofList name

/-! ## Tools -/

/-- What a tool name may be made of. -/
def isToolChar (c : Char) : Bool :=
  Text.isAsciiAlphanumeric c || c == '_' || c == '-'

/-- The characters with each run of underscores made a single one. -/
def singleUnderscores : List Char → List Char
  | [] => []
  | c :: rest =>
    if c == '_' && rest.head? == some '_' then singleUnderscores rest
    else c :: singleUnderscores rest

/-- The name of the tool for an operation: its id with only plain characters, or
else the fallback. -/
def toolName (operationId : String) (fallback : String) : String :=
  let plain := operationId.toList.map fun c => if isToolChar c then c else '_'
  match Text.trimBy (· == '_') (singleUnderscores plain) with
  | [] => fallback
  | name => String.ofList name

/-- The first free name for a tool. -/
def freeToolName (used : List String) (base : String) : String :=
  free used.contains (used.length + 1) base

/-! ## Functions -/

/-- The names that the function for a tool brings into the generated module: its own,
and those of the type and of the adapter of its input. -/
def handlerNames (name : String) : List String :=
  [name, name ++ "_input", name ++ "_adapter"]

/-- The name of the function for a tool, such that none of the names it brings along
is used already. -/
def handlerName (used : List String) (tool : String) : String :=
  free (fun name => (handlerNames name).any used.contains) (used.length + 1)
    ("tool_" ++ Text.underscored tool)

/-! ## Arguments -/

/-- The words that are no names in Python. -/
def reservedWords : List String :=
  ["False", "None", "True", "and", "as", "assert", "async", "await", "break", "class",
    "continue", "def", "del", "elif", "else", "except", "finally", "for", "from",
    "global", "if", "import", "in", "is", "lambda", "nonlocal", "not", "or", "pass",
    "raise", "return", "try", "while", "with", "yield"]

/-- Whether a text is unfit to name an argument: it is no name, or could be one
of the module. -/
def isUnfitArgument (name : String) : Bool :=
  name.toList.head?.all Text.isDigit || reservedWords.contains name
    || name.startsWith "_" || name.startsWith "tool_"

/-- The name of the argument for an input. -/
def argumentBase (input : String) : String :=
  let name := Text.underscored input
  if isUnfitArgument name then "arg_" ++ name else name

/-- The first free name of an argument for an input. -/
def argumentName (used : List String) (input : String) : String :=
  free used.contains (used.length + 1) (argumentBase input)

end ApiWorkbench.Server
