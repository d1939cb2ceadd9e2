import ApiWorkbench.Command.Kind
import ApiWorkbench.Shape.Conversion

/-!
# Reading commands

A command is read from an object with a tag under `type` and the fields of its kind;
further members mean nothing. Everything that is wrong with the fields is reported,
under the tag.
-/

namespace ApiWorkbench.Command

open Shape

variable {μ : Type}

/-- A method. -/
def toMethod : Tree μ → Validated Document.Method :=
  toWord (Document.Method.all.map fun method => (method.name, method))

/-- An OAuth flow. -/
def toFlow : Tree μ → Validated Flow :=
  toWord (Flow.all.map fun flow => (flow.name, flow))

/-- A type of security schemes. -/
def toSchemeType : Tree μ → Validated SchemeType :=
  toWord (SchemeType.all.map fun type => (type.name, type))

/-- A target of commands about media types. -/
def toTarget : Tree μ → Validated Target :=
  toWord (Target.all.map fun target => (target.name, target))

/-- The media type of a new entry unless another is named. -/
def defaultMediaType : String := "application/json"

/-- The text under a name. -/
def textField (name : String) : Tree.Members μ → Validated String :=
  required name toText

/-- The integer under a name. -/
def integerField (name : String) : Tree.Members μ → Validated Int :=
  required name toInteger

/-- The object under a name. -/
def objectField (name : String) : Tree.Members μ → Validated (Tree.Members μ) :=
  required name toObject

/-- The schema of a command, which may be under either of two names. -/
def schemaField (ms : Tree.Members μ) : Validated (Tree.Members μ) :=
  match Members.get? "schema" ms with
  | some _ => objectField "schema" ms
  | none =>
      if Members.contains "schema_" ms then objectField "schema_" ms
      else objectField "schema" ms

/-- Where media types are edited. -/
def placeField (ms : Tree.Members μ) : Validated ContentPlace :=
  ContentPlace.mk <$> required "target" toTarget ms
    <*> optional "status_code" none (toNullable toText) ms

/-- A command about one operation. -/
def onOperation (edit : Tree.Members μ → Validated (OperationEdit μ))
    (ms : Tree.Members μ) :
    Validated (Command μ) :=
  .operation <$> textField "path" ms <*> required "method" toMethod ms <*> edit ms

/-- Reads the fields of a command of a kind. -/
def Kind.read (kind : Kind) (ms : Tree.Members μ) : Validated (Command μ) :=
  let text (name : String) := textField name ms
  let integer (name : String) := integerField name ms
  let object (name : String) := objectField name ms
  let flow := required "flow" toFlow ms
  match kind with
  | setDocument => .setDocument <$> object "document"
  | saveSnapshot => pure .saveSnapshot
  | undo => pure .undo
  | loadSample => pure .loadSample
  | reset => pure .reset
  | updateInfo => .info <$> object "info"
  | updateExternalDocs => .externalDocs <$> object "external_docs"
  | addServer => pure (.servers .add)
  | updateServer => .servers <$> (.update <$> integer "index" <*> object "server")
  | removeServer => .servers <$> (.remove <$> integer "index")
  | addServerVariable =>
      .servers <$> (.addVariable <$> integer "server_index" <*> text "name")
  | updateServerVariable =>
    .servers <$> (.updateVariable <$> integer "server_index" <*> text "old_name" <*>
      text "new_name" <*> object "variable")
  | removeServerVariable =>
      .servers <$> (.removeVariable <$> integer "server_index" <*> text "name")
  | addTag => pure (.tags .add)
  | updateTag => .tags <$> (.update <$> integer "index" <*> object "tag")
  | removeTag => .tags <$> (.remove <$> integer "index")
  | addPath => pure (.paths .add)
  | renamePath => .paths <$> (.rename <$> text "old_path" <*> text "new_path")
  | updatePath => .paths <$> (.update <$> text "path" <*> object "path_item")
  | removePath => .paths <$> (.remove <$> text "path")
  | duplicatePath => .paths <$> (.duplicate <$> text "path")
  | removeAllPaths => pure (.paths .removeAll)
  | addOperation => onOperation (fun _ => pure .add) ms
  | updateOperation => onOperation (fun ms => .update <$> objectField "operation" ms) ms
  | removeOperation => onOperation (fun _ => pure .remove) ms
  | renameOperation =>
    .renameOperation <$> text "path" <*> required "old_method" toMethod ms
      <*> required "new_method" toMethod ms
  | addParameter => onOperation (fun _ => pure .addParameter) ms
  | updateParameter =>
    onOperation (fun ms => .updateParameter <$> integerField "index" ms <*>
      objectField "parameter" ms) ms
  | removeParameter =>
      onOperation (fun ms => .removeParameter <$> integerField "index" ms) ms
  | addResponse =>
      onOperation (fun ms => .addResponse <$> textField "status_code" ms) ms
  | updateResponse =>
    onOperation (fun ms => .updateResponse <$> textField "status_code" ms <*>
      objectField "response" ms) ms
  | removeResponse =>
      onOperation (fun ms => .removeResponse <$> textField "status_code" ms) ms
  | renameResponse =>
    onOperation (fun ms => .renameResponse <$> textField "old_status" ms <*>
      textField "new_status" ms) ms
  | addRequestBody => onOperation (fun _ => pure .addRequestBody) ms
  | updateRequestBody =>
      onOperation (fun ms => .updateRequestBody <$> objectField "request_body" ms) ms
  | removeRequestBody => onOperation (fun _ => pure .removeRequestBody) ms
  | addMediaType =>
    onOperation (fun ms => .addMediaType <$> placeField ms
      <*> optional "media_type" defaultMediaType toText ms) ms
  | renameMediaType =>
    onOperation (fun ms => .renameMediaType <$> placeField ms <*>
      textField "old_media_type" ms <*> textField "new_media_type" ms) ms
  | removeMediaType =>
    onOperation (fun ms => .removeMediaType <$> placeField ms <*>
      textField "media_type" ms) ms
  | addCallback => onOperation (fun _ => pure .addCallback) ms
  | renameCallback =>
    onOperation (fun ms => .renameCallback <$> textField "old_name" ms <*>
      textField "new_name" ms) ms
  | removeCallback => onOperation (fun ms => .removeCallback <$> textField "name" ms) ms
  | duplicateCallback =>
      onOperation (fun ms => .duplicateCallback <$> textField "name" ms) ms
  | addSecurityScheme => pure (.security .add)
  | updateSecurityScheme => .security <$> (.update <$> text "name" <*> object "scheme")
  | changeSecuritySchemeType =>
    .security <$>
      (.changeType <$> text "name" <*> required "scheme_type" toSchemeType ms)
  | removeSecurityScheme => .security <$> (.remove <$> text "name")
  | renameSecurityScheme =>
      .security <$> (.rename <$> text "old_name" <*> text "new_name")
  | toggleOAuthFlow =>
    .security <$>
      (.toggleFlow <$> text "name" <*> flow <*> required "enabled" toFlag ms)
  | addOAuthScope => .security <$> (.addScope <$> text "name" <*> flow)
  | renameOAuthScope =>
    .security <$> (.renameScope <$> text "name" <*> flow <*> text "old_scope" <*>
      text "new_scope" <*> optional "description" none (toNullable toText) ms)
  | removeOAuthScope =>
      .security <$> (.removeScope <$> text "name" <*> flow <*> text "scope")
  | toggleGlobalSecurity =>
    .security <$>
      (.toggleGlobal <$> text "scheme_name" <*> required "enabled" toFlag ms)
  | addSchema => pure (.schemas .add)
  | updateSchema => .schemas <$> (.update <$> text "name" <*> schemaField ms)
  | removeSchema => .schemas <$> (.remove <$> text "name")
  | renameSchema => .schemas <$> (.rename <$> text "old_name" <*> text "new_name")
  | duplicateSchema => .schemas <$> (.duplicate <$> text "name")

/-- A command. -/
def read : Tree μ → Validated (Command μ)
  | .marked _ ms =>
    match Members.get? "type" ms with
    | none => .fail .untagged
    | some v =>
      let unknown := Cause.unknownTag v.display Kind.tags
      match v with
      | .str tag =>
        match Kind.ofTag? tag with
        | some kind => (kind.read ms).under tag
        | none => .fail unknown
      | _ => .fail unknown
  | _ => .fail .noFields

/-- A script: a list of commands. -/
def readAll : Tree μ → Validated (List (Command μ)) :=
  toList read

end ApiWorkbench.Command
