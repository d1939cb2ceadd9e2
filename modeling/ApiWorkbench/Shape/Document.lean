import ApiWorkbench.Document.Operation
import ApiWorkbench.Shape.Basic

/-!
# The shape of an OpenAPI document

The kinds of objects in a document and their fields. Objects may have further members
with any values. A parameter in the path has to be required.
-/

namespace ApiWorkbench.Shape

/-- The kinds of objects in a document. -/
inductive DocumentKind where
  | reference
  | externalDocs
  | contact
  | license
  | info
  | serverVariable
  | server
  | tag
  | schema
  | mediaType
  | parameter
  | requestBody
  | response
  | operation
  | pathItem
  | oauthFlow
  | oauthFlows
  | securityScheme
  | components
  | document
deriving DecidableEq, Repr

namespace DocumentKind

/-- A text, if anything. -/
def optionalText (name : String) : Field DocumentKind :=
  { name, shape := .nullable .text }

/-- A text that has to be there. -/
def requiredText (name : String) : Field DocumentKind :=
  { name, required := true, shape := .text }

/-- A value of a shape or null. -/
def optionalField (name : String) (shape : Shape DocumentKind) : Field DocumentKind :=
  { name, shape := .nullable shape }

/-- A reference, or a value of a shape. -/
def orReference (label : String) (shape : Shape DocumentKind) : Shape DocumentKind :=
  .either [("Reference", .kind .reference), (label, shape)]

/-- A schema or a reference to one. -/
def schemaOrReference : Shape DocumentKind :=
  orReference "Schema" (.kind .schema)

/-- The schema of a parameter or a media type. -/
def schemaField : Field DocumentKind :=
  { name := "schema"
    alternative := some "schema_"
    shape := .nullable schemaOrReference }

/-- How a parameter is called where it is one of several choices. -/
def parameterLabel : String :=
  "function-after[_path_parameters_are_required(), Parameter]"

/-- Parameters, each one or a reference to one. -/
def parametersField : Field DocumentKind :=
  optionalField "parameters" (.list (orReference parameterLabel (.kind .parameter)))

/-- Lists of the schemes that together allow an access, each with scopes. -/
def securityField : Field DocumentKind :=
  optionalField "security" (.list (.map (.list .text)))

/-- The name of a kind. -/
def label : DocumentKind → String
  | reference => "Reference"
  | externalDocs => "ExternalDocs"
  | contact => "Contact"
  | license => "License"
  | info => "Info"
  | serverVariable => "ServerVariable"
  | server => "Server"
  | tag => "Tag"
  | schema => "Schema"
  | mediaType => "MediaType"
  | parameter => "Parameter"
  | requestBody => "RequestBody"
  | response => "Response"
  | operation => "Operation"
  | pathItem => "PathItem"
  | oauthFlow => "OAuthFlow"
  | oauthFlows => "OAuthFlows"
  | securityScheme => "SecurityScheme"
  | components => "Components"
  | document => "Document"

/-- The fields of a kind. -/
def fields : DocumentKind → List (Field DocumentKind)
  | reference =>
      [{ name := "$ref", alternative := some "ref", required := true, shape := .text }]
  | externalDocs => [optionalText "description", optionalText "url"]
  | contact => [optionalText "name", optionalText "url", optionalText "email"]
  | license => [optionalText "name", optionalText "url"]
  | info => [requiredText "title", requiredText "version", optionalText "description",
      optionalText "termsOfService", optionalField "contact" (.kind contact),
      optionalField "license" (.kind license)]
  | serverVariable => [requiredText "default", optionalText "description",
      optionalField "enum" (.list .text)]
  | server => [requiredText "url", optionalText "description",
      optionalField "variables" (.map (.kind serverVariable))]
  | tag => [requiredText "name", optionalText "description",
      optionalField "externalDocs" (.kind externalDocs)]
  | schema => [
      optionalField "type" (.either [("str", .text), ("list[str]", .list .text)]),
      optionalText "format",
      optionalField "enum" (.list .any),
      optionalField "items" schemaOrReference,
      optionalField "properties" (.map schemaOrReference),
      optionalField "additionalProperties"
        (.either [("bool", .flag), ("Reference", .kind reference),
          ("Schema", .kind schema)]),
      optionalField "required" (.list .text),
      optionalField "anyOf" (.list schemaOrReference),
      optionalField "oneOf" (.list schemaOrReference),
      optionalField "allOf" (.list schemaOrReference)]
  | mediaType => [schemaField]
  | parameter => [
      requiredText "name",
      { name := "in", alternative := some "location", required := true,
        shape := .word ["query", "header", "path", "cookie"] },
      optionalText "description",
      { name := "required", shape := .flag },
      schemaField]
  | requestBody => [optionalText "description",
      { name := "content", shape := .map (.kind mediaType) },
      { name := "required", shape := .flag }]
  | response =>
      [optionalText "description", optionalField "content" (.map (.kind mediaType))]
  | operation => [
      optionalText "operationId",
      optionalText "summary",
      optionalText "description",
      optionalField "tags" (.list .text),
      parametersField,
      optionalField "requestBody" (orReference "RequestBody" (.kind requestBody)),
      { name := "responses", shape := .map (orReference "Response" (.kind response)) },
      optionalField "callbacks" (.map (.map (.kind pathItem))),
      securityField]
  | pathItem =>
    [optionalText "summary", optionalText "description"]
      ++ Document.Method.all.map
        (fun method => optionalField method.name (.kind operation))
      ++ [parametersField]
  | oauthFlow =>
      [optionalText "authorizationUrl", optionalText "tokenUrl",
        optionalText "refreshUrl", { name := "scopes", shape := .map .text }]
  | oauthFlows => ["implicit", "password", "clientCredentials", "authorizationCode"].map
      fun flow => optionalField flow (.kind oauthFlow)
  | securityScheme => [
      { name := "type"
        required := true
        shape := .word ["apiKey", "http", "oauth2", "openIdConnect"] },
      optionalText "description",
      optionalText "name",
      { name := "in", alternative := some "location", shape := .nullable .text },
      optionalText "scheme",
      optionalText "bearerFormat",
      optionalField "flows" (.kind oauthFlows),
      optionalText "openIdConnectUrl"]
  | components => [
      optionalField "schemas" (.map schemaOrReference),
      optionalField "securitySchemes"
        (.map (orReference "SecurityScheme" (.kind securityScheme))),
      optionalField "links" (.map .any),
      optionalField "callbacks" (.map .any)]
  | document => [
      requiredText "openapi",
      optionalField "info" (.kind info),
      optionalField "servers" (.list (.kind server)),
      { name := "paths", shape := .map (.kind pathItem) },
      optionalField "components" (.kind components),
      securityField,
      optionalField "tags" (.list (.kind tag)),
      optionalField "externalDocs" (.kind externalDocs)]

/-- What a parameter is under a name or its alternative. -/
def parameterMember (members : Members) (name alternative : String) : Value :=
  match Members.get? name members with
  | some v => v
  | none => (Members.get? alternative members).getD .null

/-- Whether a parameter is required. -/
def isRequired (members : Members) : Bool :=
  match Members.get? "required" members with
  | some v =>
    match toFlag v with
    | .valid b => b
    | .invalid _ => false
  | none => false

/-- A parameter in the path has to be required. -/
def further : DocumentKind → Members → List Cause
  | parameter, members =>
    if (parameterMember members "in" "location").isText "path" &&
        !isRequired members then
      match Members.get? "name" members with
      | some name =>
        match toTextOrNumber name with
        | .valid name => [.optionalPathParameter name]
        | .invalid _ => []
      | none => []
    else []
  | _, _ => []

end DocumentKind

/-- The kinds of objects in a document, with their fields and rules. -/
def documentKinds : Kinds DocumentKind where
  label := DocumentKind.label
  fields := DocumentKind.fields
  further := DocumentKind.further

/-- What is wrong with a document. -/
def documentProblems (document : Value) : List Problem :=
  check documentKinds document (.kind .document)

end ApiWorkbench.Shape
