import ApiWorkbench.Command.Kind
import ApiWorkbench.Value.Reading

/-!
# Writing commands

A command as the object that it is read from, with all of its fields. The path and the
method of an operation come before the tag, the other fields after it.
-/

namespace ApiWorkbench.Command

variable {μ : Type} [Inhabited μ]

/-- A text or null. -/
def optionalValue (s : Option String) : Tree μ :=
  match s with
  | some s => .str s
  | none => .null

/-- The fields of a place for media types. -/
def ContentPlace.fields (place : ContentPlace) : List (String × Tree μ) :=
  [("target", .str place.target.name), ("status_code", optionalValue place.statusCode)]

/-- The fields of a change to the servers. -/
def ServerEdit.fields : ServerEdit μ → List (String × Tree μ)
  | .add => []
  | .update index server => [("index", .int index), ("server", .object server)]
  | .remove index => [("index", .int index)]
  | .addVariable server name => [("server_index", .int server), ("name", .str name)]
  | .updateVariable server oldName newName definition =>
    [("server_index", .int server), ("old_name", .str oldName),
      ("new_name", .str newName), ("variable", .object definition)]
  | .removeVariable server name => [("server_index", .int server), ("name", .str name)]

/-- The fields of a change to the tags. -/
def TagEdit.fields : TagEdit μ → List (String × Tree μ)
  | .add => []
  | .update index tag => [("index", .int index), ("tag", .object tag)]
  | .remove index => [("index", .int index)]

/-- The fields of a change to the paths. -/
def PathEdit.fields : PathEdit μ → List (String × Tree μ)
  | .add => []
  | .rename oldPath newPath => [("old_path", .str oldPath), ("new_path", .str newPath)]
  | .update path item => [("path", .str path), ("path_item", .object item)]
  | .remove path => [("path", .str path)]
  | .duplicate path => [("path", .str path)]
  | .removeAll => []

/-- The fields of a change to an operation, besides its path and method. -/
def OperationEdit.fields : OperationEdit μ → List (String × Tree μ)
  | .add => []
  | .update changes => [("operation", .object changes)]
  | .remove => []
  | .addParameter => []
  | .updateParameter index parameter =>
      [("index", .int index), ("parameter", .object parameter)]
  | .removeParameter index => [("index", .int index)]
  | .addResponse statusCode => [("status_code", .str statusCode)]
  | .updateResponse statusCode response =>
    [("status_code", .str statusCode), ("response", .object response)]
  | .removeResponse statusCode => [("status_code", .str statusCode)]
  | .renameResponse oldStatus newStatus =>
    [("old_status", .str oldStatus), ("new_status", .str newStatus)]
  | .addRequestBody => []
  | .updateRequestBody body => [("request_body", .object body)]
  | .removeRequestBody => []
  | .addMediaType place mediaType => place.fields ++ [("media_type", .str mediaType)]
  | .renameMediaType place oldType newType =>
    place.fields ++ [("old_media_type", .str oldType), ("new_media_type", .str newType)]
  | .removeMediaType place mediaType => place.fields ++ [("media_type", .str mediaType)]
  | .addCallback => []
  | .renameCallback oldName newName =>
      [("old_name", .str oldName), ("new_name", .str newName)]
  | .removeCallback name => [("name", .str name)]
  | .duplicateCallback name => [("name", .str name)]

/-- The fields of a change to security. -/
def SecurityEdit.fields : SecurityEdit μ → List (String × Tree μ)
  | .add => []
  | .update name scheme => [("name", .str name), ("scheme", .object scheme)]
  | .changeType name type => [("name", .str name), ("scheme_type", .str type.name)]
  | .remove name => [("name", .str name)]
  | .rename oldName newName => [("old_name", .str oldName), ("new_name", .str newName)]
  | .toggleFlow name flow enabled =>
    [("name", .str name), ("flow", .str flow.name), ("enabled", .bool enabled)]
  | .addScope name flow => [("name", .str name), ("flow", .str flow.name)]
  | .renameScope name flow oldScope newScope description =>
    [("name", .str name), ("flow", .str flow.name), ("old_scope", .str oldScope),
      ("new_scope", .str newScope), ("description", optionalValue description)]
  | .removeScope name flow scope =>
    [("name", .str name), ("flow", .str flow.name), ("scope", .str scope)]
  | .toggleGlobal name enabled =>
      [("scheme_name", .str name), ("enabled", .bool enabled)]

/-- The fields of a change to the schemas. -/
def SchemaEdit.fields : SchemaEdit μ → List (String × Tree μ)
  | .add => []
  | .update name schema => [("name", .str name), ("schema", .object schema)]
  | .remove name => [("name", .str name)]
  | .rename oldName newName => [("old_name", .str oldName), ("new_name", .str newName)]
  | .duplicate name => [("name", .str name)]

/-- The fields before the tag of a command. -/
def leadingFields : Command μ → List (String × Tree μ)
  | .operation path method _ => [("path", .str path), ("method", .str method.name)]
  | _ => []

/-- The fields after the tag of a command. -/
def fields : Command μ → List (String × Tree μ)
  | .setDocument document => [("document", .object document)]
  | .saveSnapshot => []
  | .undo => []
  | .loadSample => []
  | .reset => []
  | .info changes => [("info", .object changes)]
  | .externalDocs changes => [("external_docs", .object changes)]
  | .servers edit => edit.fields
  | .tags edit => edit.fields
  | .paths edit => edit.fields
  | .operation _ _ edit => edit.fields
  | .renameOperation path oldMethod newMethod =>
    [("path", .str path), ("old_method", .str oldMethod.name),
      ("new_method", .str newMethod.name)]
  | .security edit => edit.fields
  | .schemas edit => edit.fields

/-- A command as an object. -/
def write (command : Command μ) : Tree μ :=
  .record (command.leadingFields ++ [("type", .str command.kind.tag)] ++ command.fields)

end ApiWorkbench.Command
