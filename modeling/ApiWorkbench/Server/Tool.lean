import ApiWorkbench.Document.Operation
import ApiWorkbench.Document.Parameter
import ApiWorkbench.Document.Template
import ApiWorkbench.Reference.Expansion
import ApiWorkbench.Server.SchemaType
import ApiWorkbench.Shape.Conversion

/-!
# Tools

A tool stands for one operation of a document. Its inputs are the parameters of the
operation, shared ones included, and the request body; for every parameter it says where
in a request it goes. References are expanded first.

Tools are listed path by path and, in each, method by method. No two of them have
the same name.
-/

namespace ApiWorkbench.Server

open Document
open Members (valueAt listAt)

/-- An input of a tool. -/
structure Input where
  name : String
  type : TypeExpr
  required : Bool
  description : Option String

/-- Where in a request a parameter goes. -/
structure Placement where
  name : String
  location : String
deriving DecidableEq, Repr

/-- What a generated server offers for one operation. -/
structure Tool where
  name : String
  description : String
  inputs : List Input
  method : Method
  path : String
  placements : List Placement
  contentType : Option String
  operationId : String
  baseUrl : Option String

/-- Why no tools can be made of a document. -/
inductive ToolError where
  /-- something that has to be a text is none -/
  | misshapen (problems : List Shape.Problem)
  | fault (cause : Fault)

instance : MonadLift (Except Fault) (Except ToolError) where
  monadLift result := result.mapError .fault

/-- The text that a tool needs under a name. -/
def requireText (name : String) (v : Value) : Except ToolError String :=
  match (Shape.toText v).under name with
  | .valid s => pure s
  | .invalid problems => throw (.misshapen problems)

/-- The text that a tool may have under a name. -/
def allowText (name : String) : Value → Except ToolError (Option String)
  | .null => pure none
  | v => do pure (some (← requireText name v))

/-! ## Inputs -/

namespace Input

/-- What is noted about an input in the type of all inputs. -/
def note (input : Input) : Note :=
  ⟨input.required, (input.description.map Tree.str).getD .null⟩

end Input

/-- The name of the type of all inputs of a tool. -/
def inputTypeName (tool : String) : String :=
  typeName [tool, "Input"]

/-- The type of all inputs of a tool. -/
def inputType (tool : String) (inputs : List Input) : TypeExpr :=
  .record (inputTypeName tool)
    (inputs.map fun input => (.str input.name, input.note, input.type))

/-- The type that a parameter has without a schema. -/
def plainSchema : Value :=
  .record [("type", "string")]

/-- The parameters of an operation: objects with a name. -/
def namedParameters (parameters : List Value) : List (String × Members) :=
  parameters.filterMap fun parameter => match parameter with
    | .object ms =>
      match valueAt "name" ms with
      | .str name => some (name, ms)
      | _ => none
    | _ => none

/-- The input for a parameter. -/
def parameterInput (tool name : String) (parameter : Members) :
    Except ToolError Input := do
  let schema := (valueAt "schema" parameter).orElse plainSchema
  let type ← typeOf schema (typeName [inputTypeName tool, name])
  let description ← allowText "description"
    ((valueAt "description" parameter).orElse .null)
  pure ⟨name, type, !(valueAt "required" parameter).isBlank, description⟩

/-- The inputs for parameters that are not among the names seen; of a repeated one
only the first. -/
def parameterInputs (tool : String) (seen : List String) : List (String × Members) →
    Except ToolError (List Input)
  | [] => pure []
  | (name, parameter) :: rest =>
    if seen.contains name then parameterInputs tool seen rest
    else do
      let input ← parameterInput tool name parameter
      pure (input :: (← parameterInputs tool (name :: seen) rest))

/-- The name of the input for the request body. -/
def bodyInputName : String := "requestBody"

/-- The description of a request body that has none. -/
def bodyDescription : String := "Request body"

/-- The content type of a request body, and what is said about that content; JSON if
there is a choice. -/
def bodyContent (body : Value) : Option (String × Value) :=
  match body with
  | .object ms =>
    match valueAt "content" ms with
    | .object content =>
      match Members.get? Template.jsonMediaType content, content with
      | some media, _ => some (Template.jsonMediaType, media)
      | none, (contentType, media) :: _ => some (contentType.display, media)
      | none, [] => none
    | _ => none
  | _ => none

/-- The input for a request body, if its content has a schema. -/
def bodyInput (tool : String) (body : Value) : Except ToolError (Option Input) := do
  match body, bodyContent body with
  | .object ms, some (_, .object media) =>
    match valueAt "schema" media with
    | .object schema =>
      let type ← typeOf (.object schema) (typeName [inputTypeName tool, "Body"])
      let description ← requireText "description"
        ((valueAt "description" ms).orElse bodyDescription)
      pure
        (some ⟨bodyInputName, type, !(valueAt "required" ms).isBlank, some description⟩)
    | _ => pure none
  | _, _ => pure none

/-- All inputs of a tool. A parameter that is called like the request body
takes its place. -/
def toolInputs (tool : String) (parameters : List (String × Members)) (body : Value) :
    Except ToolError (List Input) := do
  let inputs ← parameterInputs tool [] parameters
  if inputs.any (·.name == bodyInputName) then pure inputs
  else
    match ← bodyInput tool body with
    | some input => pure (inputs ++ [input])
    | none => pure inputs

/-- Where a parameter without a location goes. -/
def defaultLocation : String := "query"

/-- Where parameters go. -/
def placementsOf (parameters : List (String × Members)) :
    Except ToolError (List Placement) :=
  parameters.mapM fun (name, parameter) => do
    let location := (Members.get? "in" parameter).getD defaultLocation
    pure ⟨name, ← requireText "location" location⟩

/-! ## Operations -/

/-- The most characters in the description of a tool. -/
def maxDescription : Nat := 1024

/-- The first characters of a text. -/
def firstChars (count : Nat) (text : String) : String :=
  String.ofList (text.toList.take count)

/-- The description of the tool for an operation. -/
def toolDescription (operation : Members) (method : Method) (path : String) :
    Except Fault String := do
  let title : Value := (method.name.map Char.toUpper) ++ " " ++ path
  let description := (valueAt "summary" operation).orElse
    ((valueAt "description" operation).orElse title)
  pure (firstChars maxDescription (← description.text))

/-- The id of an operation that has none. -/
def defaultOperationId (method : Method) (path : String) : String :=
  method.name ++ "_" ++ path.map fun c => if Text.isAsciiAlphanumeric c then c else '_'

/-- The tool for an operation, given the names of the tools so far. -/
def toolOf (document : Value) (baseUrl shared : Value) (path : String) (method : Method)
    (operation : Value) (used : List String) : Except ToolError Tool := do
  let operation ← (← (Reference.expand operation document : Except Fault Value)).members
  let operationId ← ((valueAt "operationId" operation).orElse
    (defaultOperationId method path)).text
  let name := freeToolName used (toolName operationId method.name)
  let own ← listAt "parameters" operation
  let parameters := namedParameters (← mergeParameters (← shared.items) own)
  let body := valueAt "requestBody" operation
  let inputs ← toolInputs name parameters body
  let description ← toolDescription operation method path
  let placements ← placementsOf parameters
  let baseUrl ← allowText "base_url" baseUrl
  pure {
    name
    description
    inputs
    method
    path
    placements
    contentType := (bodyContent body).map (·.1)
    operationId
    baseUrl }

/-! ## Documents -/

/-- The operations of a path item, in the order of the methods. -/
def operationsIn (item : Members) : List (Method × Value) :=
  Method.all.filterMap fun method => match Members.get? method.name item with
    | some (.object operation) => some (method, .object operation)
    | _ => none

/-- The tools for the operations of a path item, after those made so far. -/
def pathTools (document baseUrl : Value) (path : Scalar) (item : Members)
    (tools : List Tool) :
    Except ToolError (List Tool) := do
  let shared ← Reference.expand ((valueAt "parameters" item).orElse (.list [])) document
  (operationsIn item).foldlM (fun tools (method, operation) => do
    let tool ← toolOf document baseUrl shared path.display method operation
      (tools.map (·.name))
    pure (tools ++ [tool])) tools

/-- The address of the first server of a document; null without one. -/
def firstServerUrl (document : Members) : Except Fault Value := do
  let servers := valueAt "servers" document
  if servers.isBlank then pure .null
  else
    match ← servers.first with
    | .object server => pure (valueAt "url" server)
    | _ => pure .null

/-- The tools for all operations of a document. A base address that is given counts
instead of that of the document. -/
def toolsOf (document : Value) (baseUrl : Option String) :
    Except ToolError (List Tool) := do
  let ms ← document.members
  let baseUrl ← match baseUrl with
    | some url => if url.isEmpty then firstServerUrl ms else pure (.str url)
    | none => firstServerUrl ms
  let paths ← (valueAt "paths" ms).membersOrNone
  paths.foldlM (fun tools (path, item) => match item with
    | .object item => pathTools document baseUrl path item tools
    | _ => pure tools) []

end ApiWorkbench.Server
