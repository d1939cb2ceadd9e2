import ApiWorkbench.Document.Operation

/-!
# Commands

Everything that can be done to a document in the editor is a command. Commands are
grouped by the section of the document that they change: its servers, tags, paths, the
operations under its paths, its security and its schemas. Positions are integers, since
a command may name one that no list has; payloads are the members of an object, whose
parts carry marks.
-/

namespace ApiWorkbench

namespace Command

/-- The flows of an OAuth scheme. -/
inductive Flow where
  | implicit
  | password
  | clientCredentials
  | authorizationCode
deriving DecidableEq, Repr

namespace Flow

/-- All flows. -/
def all : List Flow := [implicit, password, clientCredentials, authorizationCode]

/-- The name of a flow in a scheme. -/
def name : Flow → String
  | implicit => "implicit"
  | password => "password"
  | clientCredentials => "clientCredentials"
  | authorizationCode => "authorizationCode"

end Flow

/-- The types of security schemes. -/
inductive SchemeType where
  | apiKey
  | http
  | oauth2
  | openIdConnect
deriving DecidableEq, Repr

namespace SchemeType

/-- All types. -/
def all : List SchemeType := [apiKey, http, oauth2, openIdConnect]

/-- The name of a type in a scheme. -/
def name : SchemeType → String
  | apiKey => "apiKey"
  | http => "http"
  | oauth2 => "oauth2"
  | openIdConnect => "openIdConnect"

end SchemeType

/-- Where media types are edited. -/
inductive Target where
  | requestBody
  | response
deriving DecidableEq, Repr

namespace Target

/-- All targets. -/
def all : List Target := [requestBody, response]

/-- The name of a target in a command. -/
def name : Target → String
  | requestBody => "request_body"
  | response => "response"

end Target

/-- The content that a command about media types is about; the status code counts for
responses only. -/
structure ContentPlace where
  target : Target
  statusCode : Option String

/-- What can be done to the servers. -/
inductive ServerEdit (μ : Type) where
  | add
  | update (index : Int) (server : Tree.Members μ)
  | remove (index : Int)
  | addVariable (server : Int) (name : String)
  | updateVariable (server : Int) (oldName newName : String)
      (definition : Tree.Members μ)
  | removeVariable (server : Int) (name : String)

/-- What can be done to the tags of a document. -/
inductive TagEdit (μ : Type) where
  | add
  | update (index : Int) (tag : Tree.Members μ)
  | remove (index : Int)

/-- What can be done to the paths. -/
inductive PathEdit (μ : Type) where
  | add
  | rename (oldPath newPath : String)
  | update (path : String) (item : Tree.Members μ)
  | remove (path : String)
  | duplicate (path : String)
  | removeAll

/-- What can be done to one operation. -/
inductive OperationEdit (μ : Type) where
  | add
  | update (changes : Tree.Members μ)
  | remove
  | addParameter
  | updateParameter (index : Int) (parameter : Tree.Members μ)
  | removeParameter (index : Int)
  | addResponse (statusCode : String)
  | updateResponse (statusCode : String) (response : Tree.Members μ)
  | removeResponse (statusCode : String)
  | renameResponse (oldStatus newStatus : String)
  | addRequestBody
  | updateRequestBody (body : Tree.Members μ)
  | removeRequestBody
  | addMediaType (place : ContentPlace) (mediaType : String)
  | renameMediaType (place : ContentPlace) (oldType newType : String)
  | removeMediaType (place : ContentPlace) (mediaType : String)
  | addCallback
  | renameCallback (oldName newName : String)
  | removeCallback (name : String)
  | duplicateCallback (name : String)

/-- What can be done to security schemes and to what the document requires of them. -/
inductive SecurityEdit (μ : Type) where
  | add
  | update (name : String) (scheme : Tree.Members μ)
  | changeType (name : String) (type : SchemeType)
  | remove (name : String)
  | rename (oldName newName : String)
  | toggleFlow (name : String) (flow : Flow) (enabled : Bool)
  | addScope (name : String) (flow : Flow)
  | renameScope (name : String) (flow : Flow) (oldScope newScope : String)
      (description : Option String)
  | removeScope (name : String) (flow : Flow) (scope : String)
  | toggleGlobal (name : String) (enabled : Bool)

/-- What can be done to the schemas. -/
inductive SchemaEdit (μ : Type) where
  | add
  | update (name : String) (schema : Tree.Members μ)
  | remove (name : String)
  | rename (oldName newName : String)
  | duplicate (name : String)

end Command

open Command in
/-- A command. -/
inductive Command (μ : Type) where
  /-- starts over with a document -/
  | setDocument (document : Tree.Members μ)
  /-- remembers the document as it is -/
  | saveSnapshot
  /-- goes back to what was remembered -/
  | undo
  | loadSample
  | reset
  | info (changes : Tree.Members μ)
  | externalDocs (changes : Tree.Members μ)
  | servers (edit : ServerEdit μ)
  | tags (edit : TagEdit μ)
  | paths (edit : PathEdit μ)
  | operation (path : String) (method : Document.Method) (edit : OperationEdit μ)
  | renameOperation (path : String) (oldMethod newMethod : Document.Method)
  | security (edit : SecurityEdit μ)
  | schemas (edit : SchemaEdit μ)

end ApiWorkbench
