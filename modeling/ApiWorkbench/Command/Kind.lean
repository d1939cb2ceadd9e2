import ApiWorkbench.Command.Basic

/-!
# Kinds of commands

A script of commands says of each command which kind it is of, by a tag. Every command
is of one kind.
-/

namespace ApiWorkbench.Command

/-- The kinds of commands. -/
inductive Kind where
  | setDocument
  | saveSnapshot
  | undo
  | loadSample
  | reset
  | updateInfo
  | updateExternalDocs
  | addServer
  | updateServer
  | removeServer
  | addServerVariable
  | updateServerVariable
  | removeServerVariable
  | addTag
  | updateTag
  | removeTag
  | addPath
  | renamePath
  | updatePath
  | removePath
  | duplicatePath
  | removeAllPaths
  | addOperation
  | updateOperation
  | removeOperation
  | renameOperation
  | addParameter
  | updateParameter
  | removeParameter
  | addResponse
  | updateResponse
  | removeResponse
  | renameResponse
  | addRequestBody
  | updateRequestBody
  | removeRequestBody
  | addMediaType
  | renameMediaType
  | removeMediaType
  | addCallback
  | renameCallback
  | removeCallback
  | duplicateCallback
  | addSecurityScheme
  | updateSecurityScheme
  | changeSecuritySchemeType
  | removeSecurityScheme
  | renameSecurityScheme
  | toggleOAuthFlow
  | addOAuthScope
  | renameOAuthScope
  | removeOAuthScope
  | toggleGlobalSecurity
  | addSchema
  | updateSchema
  | removeSchema
  | renameSchema
  | duplicateSchema
deriving DecidableEq, Repr

namespace Kind

/-- All kinds. -/
def all : List Kind :=
  [setDocument, saveSnapshot, undo, loadSample, reset, updateInfo, updateExternalDocs,
    addServer, updateServer, removeServer, addServerVariable, updateServerVariable,
    removeServerVariable, addTag, updateTag, removeTag, addPath, renamePath, updatePath,
    removePath, duplicatePath, removeAllPaths, addOperation, updateOperation,
      removeOperation,
    renameOperation, addParameter, updateParameter, removeParameter, addResponse,
      updateResponse,
    removeResponse, renameResponse, addRequestBody, updateRequestBody,
      removeRequestBody,
    addMediaType, renameMediaType, removeMediaType, addCallback, renameCallback,
      removeCallback,
    duplicateCallback, addSecurityScheme, updateSecurityScheme,
      changeSecuritySchemeType,
    removeSecurityScheme, renameSecurityScheme, toggleOAuthFlow, addOAuthScope,
      renameOAuthScope,
    removeOAuthScope, toggleGlobalSecurity, addSchema, updateSchema,
      removeSchema, renameSchema,
    duplicateSchema]

/-- The tag of a kind. -/
def tag : Kind → String
  | setDocument => "SET_SPEC"
  | saveSnapshot => "SAVE_SNAPSHOT"
  | undo => "UNDO"
  | loadSample => "LOAD_DEMO"
  | reset => "RESET_SPEC"
  | updateInfo => "UPDATE_INFO"
  | updateExternalDocs => "UPDATE_EXTERNAL_DOCS"
  | addServer => "ADD_SERVER"
  | updateServer => "UPDATE_SERVER"
  | removeServer => "REMOVE_SERVER"
  | addServerVariable => "ADD_SERVER_VARIABLE"
  | updateServerVariable => "UPDATE_SERVER_VARIABLE"
  | removeServerVariable => "REMOVE_SERVER_VARIABLE"
  | addTag => "ADD_TAG"
  | updateTag => "UPDATE_TAG"
  | removeTag => "REMOVE_TAG"
  | addPath => "ADD_PATH"
  | renamePath => "RENAME_PATH"
  | updatePath => "UPDATE_PATH"
  | removePath => "REMOVE_PATH"
  | duplicatePath => "DUPLICATE_PATH"
  | removeAllPaths => "REMOVE_ALL_PATHS"
  | addOperation => "ADD_OPERATION"
  | updateOperation => "UPDATE_OPERATION"
  | removeOperation => "REMOVE_OPERATION"
  | renameOperation => "RENAME_OPERATION"
  | addParameter => "ADD_PARAMETER"
  | updateParameter => "UPDATE_PARAMETER"
  | removeParameter => "REMOVE_PARAMETER"
  | addResponse => "ADD_RESPONSE"
  | updateResponse => "UPDATE_RESPONSE"
  | removeResponse => "REMOVE_RESPONSE"
  | renameResponse => "RENAME_RESPONSE"
  | addRequestBody => "ADD_REQUEST_BODY"
  | updateRequestBody => "UPDATE_REQUEST_BODY"
  | removeRequestBody => "REMOVE_REQUEST_BODY"
  | addMediaType => "ADD_MEDIA_TYPE"
  | renameMediaType => "RENAME_MEDIA_TYPE"
  | removeMediaType => "REMOVE_MEDIA_TYPE"
  | addCallback => "ADD_CALLBACK"
  | renameCallback => "RENAME_CALLBACK"
  | removeCallback => "REMOVE_CALLBACK"
  | duplicateCallback => "DUPLICATE_CALLBACK"
  | addSecurityScheme => "ADD_SECURITY_SCHEME"
  | updateSecurityScheme => "UPDATE_SECURITY_SCHEME"
  | changeSecuritySchemeType => "CHANGE_SECURITY_SCHEME_TYPE"
  | removeSecurityScheme => "REMOVE_SECURITY_SCHEME"
  | renameSecurityScheme => "RENAME_SECURITY_SCHEME"
  | toggleOAuthFlow => "TOGGLE_OAUTH_FLOW"
  | addOAuthScope => "ADD_OAUTH_SCOPE"
  | renameOAuthScope => "RENAME_OAUTH_SCOPE"
  | removeOAuthScope => "REMOVE_OAUTH_SCOPE"
  | toggleGlobalSecurity => "TOGGLE_GLOBAL_SECURITY"
  | addSchema => "ADD_SCHEMA"
  | updateSchema => "UPDATE_SCHEMA"
  | removeSchema => "REMOVE_SCHEMA"
  | renameSchema => "RENAME_SCHEMA"
  | duplicateSchema => "DUPLICATE_SCHEMA"

/-- The kind with a tag. -/
def ofTag? (tag : String) : Option Kind :=
  all.find? fun kind => kind.tag == tag

/-- All tags. -/
def tags : List String :=
  all.map tag

end Kind

/-- The kind of a command. -/
def kind {μ : Type} : Command μ → Kind
  | .setDocument _ => .setDocument
  | .saveSnapshot => .saveSnapshot
  | .undo => .undo
  | .loadSample => .loadSample
  | .reset => .reset
  | .info _ => .updateInfo
  | .externalDocs _ => .updateExternalDocs
  | .servers .add => .addServer
  | .servers (.update _ _) => .updateServer
  | .servers (.remove _) => .removeServer
  | .servers (.addVariable _ _) => .addServerVariable
  | .servers (.updateVariable _ _ _ _) => .updateServerVariable
  | .servers (.removeVariable _ _) => .removeServerVariable
  | .tags .add => .addTag
  | .tags (.update _ _) => .updateTag
  | .tags (.remove _) => .removeTag
  | .paths .add => .addPath
  | .paths (.rename _ _) => .renamePath
  | .paths (.update _ _) => .updatePath
  | .paths (.remove _) => .removePath
  | .paths (.duplicate _) => .duplicatePath
  | .paths .removeAll => .removeAllPaths
  | .operation _ _ .add => .addOperation
  | .operation _ _ (.update _) => .updateOperation
  | .operation _ _ .remove => .removeOperation
  | .renameOperation _ _ _ => .renameOperation
  | .operation _ _ .addParameter => .addParameter
  | .operation _ _ (.updateParameter _ _) => .updateParameter
  | .operation _ _ (.removeParameter _) => .removeParameter
  | .operation _ _ (.addResponse _) => .addResponse
  | .operation _ _ (.updateResponse _ _) => .updateResponse
  | .operation _ _ (.removeResponse _) => .removeResponse
  | .operation _ _ (.renameResponse _ _) => .renameResponse
  | .operation _ _ .addRequestBody => .addRequestBody
  | .operation _ _ (.updateRequestBody _) => .updateRequestBody
  | .operation _ _ .removeRequestBody => .removeRequestBody
  | .operation _ _ (.addMediaType _ _) => .addMediaType
  | .operation _ _ (.renameMediaType _ _ _) => .renameMediaType
  | .operation _ _ (.removeMediaType _ _) => .removeMediaType
  | .operation _ _ .addCallback => .addCallback
  | .operation _ _ (.renameCallback _ _) => .renameCallback
  | .operation _ _ (.removeCallback _) => .removeCallback
  | .operation _ _ (.duplicateCallback _) => .duplicateCallback
  | .security .add => .addSecurityScheme
  | .security (.update _ _) => .updateSecurityScheme
  | .security (.changeType _ _) => .changeSecuritySchemeType
  | .security (.remove _) => .removeSecurityScheme
  | .security (.rename _ _) => .renameSecurityScheme
  | .security (.toggleFlow _ _ _) => .toggleOAuthFlow
  | .security (.addScope _ _) => .addOAuthScope
  | .security (.renameScope _ _ _ _ _) => .renameOAuthScope
  | .security (.removeScope _ _ _) => .removeOAuthScope
  | .security (.toggleGlobal _ _) => .toggleGlobalSecurity
  | .schemas .add => .addSchema
  | .schemas (.update _ _) => .updateSchema
  | .schemas (.remove _) => .removeSchema
  | .schemas (.rename _ _) => .renameSchema
  | .schemas (.duplicate _) => .duplicateSchema

end ApiWorkbench.Command
