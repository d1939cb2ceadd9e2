import ApiWorkbench.Document.Operation
import ApiWorkbench.Document.Parameter
import ApiWorkbench.Reference.Pointer
import ApiWorkbench.Swagger.Schema
import ApiWorkbench.Value.Literal

/-!
# Operations of Swagger 2.0

An operation takes the parameters of its path in, gives up those that describe the
payload for a request body, and moves the schema of each response under the first media
type that it produces.

Parameters in the query, a header, the path or a cookie stay parameters and get a
schema. Those that describe the payload, in the body or as form data, become a request
body; since they have no place among the components, a reference to one of them is
replaced by what it refers to first.
-/

namespace ApiWorkbench.Swagger

/-! ## Parameters -/

/-- Where references to shared parameters point. -/
def sharedParameters : String := "#/parameters/"

/-- The member of an object under a name; null when absent. -/
def fieldOf (members : Members) (name : String) : Value :=
  (Members.get? name members).getD .null

/-- Whether a parameter lies at a location. -/
def isLocatedIn (location : String) (parameter : Members) : Bool :=
  (fieldOf parameter "in").isText location

/-- Whether a parameter describes the payload. -/
def isPayload (parameter : Members) : Bool :=
  isLocatedIn "body" parameter || isLocatedIn "formData" parameter

/-- A reference to a shared payload parameter, replaced by that parameter; any other
parameter as it is. -/
def inlinePayload (document : Value) (parameter : Members) : Except Fault Members :=
  match fieldOf parameter "$ref" with
  | .str pointer =>
    if pointer.startsWith sharedParameters then do
      match ← Reference.resolve (.str pointer) document with
      | .object target => pure (if isPayload target then target else parameter)
      | _ => pure parameter
    else pure parameter
  | _ => pure parameter

/-- The schema of a parameter that has a type. -/
def valueSchema (parameter : Members) : Except Fault Value := do
  let field := fieldOf parameter
  let items ←
    if (field "items").isBlank then pure .null else convertSchema (field "items")
  pure (.recordOf [("type", field "type"), ("format", field "format"),
    ("enum", field "enum"), ("items", items)])

/-- A parameter that is not part of the payload. -/
def convertParameter (parameter : Members) : Except Fault Value := do
  let field := fieldOf parameter
  match Members.get? "$ref" parameter with
  | some (.str pointer) =>
    pure (.record [("$ref",
      .str (Text.replaceAll sharedParameters "#/components/parameters/" pointer))])
  | some _ => throw .notText
  | none =>
    let schema ← if (field "type").isBlank then pure .null else valueSchema parameter
    pure (.recordOf [("name", field "name"), ("in", field "in"), ("description",
      field "description"), ("required", field "required"), ("schema", schema)])

/-- The request body that a body parameter describes. -/
def bodyRequest (parameter : Members) : Except Fault Value := do
  let field := fieldOf parameter
  let schema ← convertSchema ((field "schema").orElse .emptyObject)
  pure (.recordOf [("description", field "description"), ("required", field "required"),
    ("content", .record [("application/json", .record [("schema", schema)])])])

/-- The request body that form data describe: an object with a property per
parameter. -/
def formRequest (parameters : List Members) (consumes : Value) :
    Except Fault Value := do
  let multipart ← consumes.holds "multipart/form-data"
  let properties ← parameters.mapM fun parameter => do
    let field := fieldOf parameter
    pure (← (field "name").name, Tree.recordOf [("type", field "type"),
      ("format", field "format"), ("description", field "description")])
  let required := (parameters.filter fun parameter =>
    !(fieldOf parameter "required").isBlank).map fun parameter =>
    fieldOf parameter "name"
  let schema : Value := .recordOf
    [("type", "object"), ("properties", .object (Members.ofEntries properties)),
    ("required", if required.isEmpty then .null else .list required)]
  let mediaType :=
    if multipart then "multipart/form-data" else "application/x-www-form-urlencoded"
  pure (.record [("content", .record [(mediaType, .record [("schema", schema)])])])

/-! ## Operations -/

/-- The objects in a list. -/
def objectsIn : List Value → List Members
  | [] => []
  | .object ms :: rest => ms :: objectsIn rest
  | _ :: rest => objectsIn rest

/-- The parameters of an operation, those of its path and references to payload
parameters resolved. -/
def effectiveParameters (document : Value) (item op : Members) :
    Except Fault (List Members) := do
  let shared ← (fieldOf item "parameters").itemsOrNone
  let own ← (fieldOf op "parameters").itemsOrNone
  (objectsIn (← Document.mergeParameters shared own)).mapM (inlinePayload document)

/-- The request body of an operation: the first body parameter, or else all form
data, or else none. -/
def requestBody (op : Members) (parameters : List Members) : Except Fault Value :=
  match parameters.filter (isLocatedIn "body"),
    parameters.filter (isLocatedIn "formData") with
  | body :: _, _ => bodyRequest body
  | [], [] => pure .null
  | [], forms => formRequest forms ((fieldOf op "consumes").orElse (.list []))

/-- A response; its schema goes under the first of the media types. -/
def convertResponse (produces : Value) (response : Members) : Except Fault Value := do
  let description := (fieldOf response "description").orElse "Response"
  let schema := fieldOf response "schema"
  if schema.isBlank then pure (.record [("description", description)])
  else
    let mediaType ← (← produces.first).name
    let converted ← convertSchema schema
    pure (.record [("description", description),
      ("content", .object [(mediaType, .record [("schema", converted)])])])

/-- The responses of an operation under their codes, written as texts. -/
def convertResponses (produces : Value) : List (Scalar × Value) → Except Fault Members
  | [] => pure []
  | (code, .object response) :: rest => do
    let converted ← convertResponse produces response
    let name ← code.textName
    pure ((name, converted) :: (← convertResponses produces rest))
  | _ :: rest => convertResponses produces rest

/-- An operation; `item` is the path item that holds it. -/
def convertOperation (document : Value) (item op : Members) : Except Fault Value := do
  let field := fieldOf op
  let parameters ← effectiveParameters document item op
  let kept ← (parameters.filter fun p => !isPayload p).mapM convertParameter
  let body ← requestBody op parameters
  let produces := (field "produces").orElse (.list ["application/json"])
  let responses ← convertResponses produces (← (field "responses").membersOrNone)
  pure (.recordOf [("summary", field "summary"), ("description", field "description"),
    ("operationId", field "operationId"), ("tags", field "tags"),
      ("deprecated", field "deprecated"),
    ("parameters", if kept.isEmpty then .null else .list kept), ("requestBody", body),
    ("responses", .object (Members.ofEntries responses)),
      ("security", field "security")])

/-- A path item with its operations, in the order of the methods. -/
def convertPathItem (document : Value) (item : Members) : Except Fault Value := do
  let operations ← Document.Method.all.filterMapM fun method =>
    match Members.get? method.name item with
    | some (.object op) => do
        pure (some (Scalar.str method.name, ← convertOperation document item op))
    | _ => pure none
  pure (.object operations)

end ApiWorkbench.Swagger
