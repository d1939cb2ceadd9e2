import ApiWorkbench.Value.Reading

/-!
# The sample document

An editor that is started without a document shows a small pet store. The document is
written out in complete form.
-/

namespace ApiWorkbench.Document

variable {μ : Type} [Inhabited μ]

/-- The operation that lists pets. -/
def listPets : Tree μ :=
  .record [
    ("operationId", "listPets"),
    ("summary", "List all pets"),
    ("description", "Returns a list of all pets in the store"),
    ("tags", .list ["pets"]),
    ("parameters", .list [
      .record [
        ("name", "limit"),
        ("in", "query"),
        ("description", "Maximum number of pets to return"),
        ("required", .bool false),
        ("schema", .record [("type", "integer"), ("format", "int32")])]]),
    ("responses", .record [
      ("200", .record [
        ("description", "A list of pets"),
        ("content", .record [
          ("application/json", .record [
            ("schema", .record [
              ("type", "array"),
              ("items", .record [("$ref", "#/components/schemas/Pet")])])])])])]),
    ("externalDocs", .emptyObject)]

/-- The operation that creates a pet. -/
def createPet : Tree μ :=
  .record [
    ("operationId", "createPet"),
    ("summary", "Create a pet"),
    ("description", "Creates a new pet in the store"),
    ("tags", .list ["pets"]),
    ("requestBody", .record [
      ("required", .bool true),
      ("content", .record [
        ("application/json",
          .record [("schema", .record [("$ref", "#/components/schemas/Pet")])])])]),
    ("responses",
      .record [("201", .record [("description", "Pet created successfully")])]),
    ("parameters", .list []),
    ("externalDocs", .emptyObject)]

/-- The operation that shows one pet. -/
def getPet : Tree μ :=
  .record [
    ("operationId", "getPet"),
    ("summary", "Get a pet by ID"),
    ("tags", .list ["pets"]),
    ("parameters", .list [
      .record [
        ("name", "petId"),
        ("in", "path"),
        ("required", .bool true),
        ("description", "The ID of the pet"),
        ("schema", .record [("type", "string")])]]),
    ("responses", .record [
      ("200", .record [
        ("description", "A pet"),
        ("content", .record [
          ("application/json",
            .record [("schema", .record [("$ref", "#/components/schemas/Pet")])])])]),
      ("404", .record [("description", "Pet not found")])]),
    ("externalDocs", .emptyObject)]

/-- The operation that deletes a pet. -/
def deletePet : Tree μ :=
  .record [
    ("operationId", "deletePet"),
    ("summary", "Delete a pet"),
    ("tags", .list ["pets"]),
    ("parameters", .list [
      .record [
        ("name", "petId"),
        ("in", "path"),
        ("required", .bool true),
        ("schema", .record [("type", "string")])]]),
    ("responses",
      .record [("204", .record [("description", "Pet deleted successfully")])]),
    ("externalDocs", .emptyObject)]

/-- The schema of a pet. -/
def petSchema : Tree μ :=
  .record [
    ("type", "object"),
    ("required", .list ["id", "name"]),
    ("properties", .record [
      ("id", .record [("type", "string")]),
      ("name", .record [("type", "string")]),
      ("tag", .record [("type", "string")]),
      ("status", .record [("type", "string"),
        ("enum", .list ["available", "pending", "sold"])])])]

/-- The pet store. -/
def sample : Tree μ :=
  .record [
    ("openapi", "3.0.3"),
    ("info", .record [
      ("title", "Petstore API"),
      ("version", "1.0.0"),
      ("description", "A sample Pet Store API"),
      ("contact", .record [("name", "API Support"), ("email", "support@example.com")]),
      ("license",
        .record [("name", "MIT"), ("url", "https://opensource.org/licenses/MIT")])]),
    ("servers", .list [
      .record [
        ("url", "https://api.petstore.example.com/v1"),
        ("description", "Production server")]]),
    ("paths", .record [
      ("/pets", .record [("get", listPets), ("post", createPet)]),
      ("/pets/\x7bpetId\x7d", .record [("get", getPet), ("delete", deletePet)])]),
    ("components", .record [
      ("schemas", .record [("Pet", petSchema)]),
      ("securitySchemes", .record [
        ("api_key",
          .record [("type", "apiKey"), ("name", "X-API-Key"), ("in", "header")])]),
      ("links", .emptyObject),
      ("callbacks", .emptyObject)]),
    ("tags", .list [
      .record [
        ("name", "pets"),
        ("description", "Pet operations"),
        ("externalDocs", .emptyObject)]]),
    ("externalDocs", .emptyObject),
    ("security", .list [])]

end ApiWorkbench.Document
