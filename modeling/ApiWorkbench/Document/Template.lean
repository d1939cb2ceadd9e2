import ApiWorkbench.Document.Completion

/-!
# Templates

What the editor inserts when something is added: an operation, a parameter, a response
and so on, each with the members that a user will want to fill in.
-/

namespace ApiWorkbench.Document.Template

variable {μ : Type} [Inhabited μ]

/-- A document without paths, in complete form. -/
def document : Tree μ :=
  .record [
    ("openapi", defaultVersion),
    ("info", .record [
      ("title", "New API"),
      ("version", "1.0.0"),
      ("description", ""),
      ("contact", .emptyObject),
      ("license", .emptyObject)]),
    ("paths", .emptyObject),
    ("externalDocs", .emptyObject),
    ("security", .list []),
    ("servers", .list []),
    ("components", .record [
      ("links", .emptyObject),
      ("callbacks", .emptyObject),
      ("schemas", .emptyObject),
      ("securitySchemes", .emptyObject)])]

/-- An operation with one response. -/
def operation : Tree μ :=
  .record [
    ("summary", ""),
    ("description", ""),
    ("operationId", ""),
    ("parameters", .list []),
    ("responses", .record [("200", .record [("description", "Successful response")])]),
    ("tags", .list []),
    ("externalDocs", .emptyObject)]

/-- A parameter of the query. -/
def parameter : Tree μ :=
  .record [
    ("name", "newParam"),
    ("in", "query"),
    ("required", .bool false),
    ("schema", .record [("type", "string")])]

/-- A response. -/
def response : Tree μ :=
  .record [("description", "Response description")]

/-- The response that takes the place of the last one. -/
def fallbackResponse : Tree μ :=
  .record [("description", "Default response")]

/-- What a media type describes at first: anything. -/
def mediaType : Tree μ :=
  .record [("schema", .emptyObject)]

/-- The media type of request bodies. -/
def jsonMediaType : String := "application/json"

/-- A request body of JSON. -/
def requestBody : Tree μ :=
  .record [
    ("required", .bool false),
    ("content", .record [(jsonMediaType, mediaType)])]

/-- A server. -/
def server : Tree μ :=
  .record [("url", "https://api.example.com"), ("description", "")]

/-- A variable of a server's address. -/
def serverVariable : Tree μ :=
  .record [("default", "change-me"), ("description", "")]

/-- A tag, in complete form. -/
def tag : Tree μ :=
  .record [("name", "newTag"), ("description", ""), ("externalDocs", .emptyObject)]

/-- A security scheme: a key in the query. -/
def securityScheme : Tree μ :=
  .record [("type", "apiKey"), ("name", "api_key"), ("in", "query")]

/-- The members that a security scheme of a type has, besides type and description. -/
def securitySchemeFields : String → List (String × Tree μ)
  | "apiKey" => [("name", "api_key"), ("in", "query")]
  | "http" => [("scheme", "bearer")]
  | "oauth2" => [("flows", .emptyObject)]
  | "openIdConnect" => [("openIdConnectUrl", "")]
  | _ => []

/-- A security scheme of a type, with a description unless that is blank. -/
def securitySchemeOfType (type : String) (description : Tree μ) : Tree μ :=
  let described := if description.isBlank then [] else [("description", description)]
  .record ([("type", .str type)] ++ described ++ securitySchemeFields type)

/-- An OAuth flow without scopes. -/
def oauthFlow : Tree μ :=
  .record [("scopes", .emptyObject)]

/-- A callback whose address comes with the request. -/
def callback : Tree μ :=
  .record [("\x7b$url\x7d", .emptyObject)]

/-- A schema of an object. -/
def schema : Tree μ :=
  .record [("type", "object")]

end ApiWorkbench.Document.Template
