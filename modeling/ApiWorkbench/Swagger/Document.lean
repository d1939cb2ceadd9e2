import ApiWorkbench.Document.Completion
import ApiWorkbench.Swagger.Operation

/-!
# Documents of Swagger 2.0

A whole document, converted to the current format and completed. The address of the
server is put together from scheme, host and base path; definitions, shared parameters
and security definitions move into the components.

Of the security definitions, basic authentication becomes an HTTP scheme, keys stay as
they are, and an OAuth definition becomes a scheme with the one flow it describes.
Definitions of other types are dropped.
-/

namespace ApiWorkbench.Swagger

/-- The name of an OAuth flow in the current format. -/
def flowName (flow : Scalar) : Option String :=
  if flow.same "implicit" then some "implicit"
  else if flow.same "password" then some "password"
  else if flow.same "application" then some "clientCredentials"
  else if flow.same "accessCode" then some "authorizationCode"
  else none

/-- The flow of an OAuth definition; only some flows have an authorization or a
token address. -/
def convertFlow (scheme : Members) (name : String) : Value :=
  let field := fieldOf scheme
  let authorizes := name == "implicit" || name == "authorizationCode"
  .recordOf [
    ("authorizationUrl", if authorizes then field "authorizationUrl" else .null),
    ("tokenUrl", if name == "implicit" then .null else field "tokenUrl"),
    ("scopes", (field "scopes").orElse .emptyObject)]

/-- A security definition, or nothing if its type is unknown. -/
def convertScheme (scheme : Value) : Except Fault (Option Value) := do
  let ms ← scheme.members
  let field := fieldOf ms
  let type := field "type"
  if type.isText "basic" then
    pure (some (.recordOf [("type", "http"), ("scheme", "basic"),
      ("description", field "description")]))
  else if type.isText "apiKey" then
    pure (some (.recordOf [("type", "apiKey"), ("name", field "name"),
      ("in", field "in"), ("description", field "description")]))
  else if type.isText "oauth2" then
    let flows := match flowName (← (field "flow").name) with
      | some name => [(name, convertFlow ms name)]
      | none => []
    pure (some (.recordOf [("type", "oauth2"), ("description", field "description"),
      ("flows", .record flows)]))
  else pure none

/-- The security definitions of a document, as security schemes. -/
def convertSchemes : List (Scalar × Value) → Except Fault Members
  | [] => pure []
  | (name, scheme) :: rest => do
    let converted ← convertScheme scheme
    let others ← convertSchemes rest
    pure (match converted with
      | some v => (name, v) :: others
      | none => others)

/-- The servers of a document: one, if it names a host. -/
def convertServers (document : Members) : Except Fault Value := do
  let field := fieldOf document
  if (field "host").isBlank then pure .null
  else
    let scheme ← ((field "schemes").orElse (.list ["https"])).first
    let basePath := (field "basePath").orElse ""
    let url := (← scheme.text) ++ "://" ++ (← (field "host").text) ++ (← basePath.text)
    pure (.list [.record [("url", .str url), ("description", "Default server")]])

/-- The information about a document, with a title and a version. -/
def convertInfo (info : Members) : Except Fault Value := do
  let field := fieldOf info
  let version ← ((field "version").orElse "1.0.0").text
  pure <| .recordOf [
    ("title", (field "title").orElse "Converted API"),
    ("version", .str version),
    ("description", field "description"),
    ("termsOfService", field "termsOfService"),
    ("contact", field "contact"),
    ("license", field "license")]

/-- The entries that are objects, each changed by a function that may fail. -/
def convertObjects (convert : Members → Except Fault Value) :
    List (Scalar × Value) → Except Fault Members
  | [] => pure []
  | (name, .object ms) :: rest => do
    let converted ← convert ms
    pure ((name, converted) :: (← convertObjects convert rest))
  | _ :: rest => convertObjects convert rest

/-- The shared parameters that may stay shared: those that are not part of the
payload. -/
def lastingParameters (parameters : Members) : Members :=
  parameters.filter fun entry => match entry.2 with
    | .object ms => !isPayload ms
    | _ => false

/-- A map, or null in place of an empty one. -/
def objectOrNull (members : Members) : Value :=
  if members.isEmpty then .null else .object members

/-- A document in the current format, complete. -/
def convertDocument (document : Value) : Except Fault Value := do
  let ms ← document.members
  let field := fieldOf ms
  let info ← convertInfo (← (field "info").membersOrNone)
  let servers ← convertServers ms
  let paths ← convertObjects (convertPathItem document)
    (← (field "paths").membersOrNone)
  let schemas ← convertMembers (← (field "definitions").membersOrNone)
  let parameters ← convertObjects convertParameter
    (lastingParameters (← (field "parameters").membersOrNone))
  let schemes ← convertSchemes (← (field "securityDefinitions").membersOrNone)
  Document.complete (.recordOf [
    ("openapi", Document.defaultVersion),
    ("info", info),
    ("servers", servers),
    ("paths", .object paths),
    ("components", .recordOf [("schemas", objectOrNull schemas), ("parameters",
      objectOrNull parameters), ("securitySchemes", objectOrNull schemes)]),
    ("tags", field "tags"),
    ("externalDocs", field "externalDocs"),
    ("security", field "security")])

end ApiWorkbench.Swagger
