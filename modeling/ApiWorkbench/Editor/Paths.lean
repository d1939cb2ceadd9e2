import ApiWorkbench.Command.Basic
import ApiWorkbench.Document.Template
import ApiWorkbench.Editor.Servers

/-!
# Editing paths and operations

Paths map to path items, path items map methods to operations. An edit that names a
path, a method or a part of an operation that is not there changes nothing.
-/

namespace ApiWorkbench.Editor

open Document Command

variable {μ : Type} [Inhabited μ]

/-! ## Paths -/

/-- Where a new path is put. -/
def newPath : String := "/newPath"

/-- Adds a path unless there is a new one already. -/
def addPath (item : Tree.Members μ → Option (Tree μ)) : Edit μ := fun members => do
  let paths := Members.mapAt "paths" members
  if ← paths.holds newPath then Edit.nothing
  else
    let ms ← paths.members
    match item ms with
    | some v =>
        Edit.changed (Members.put "paths" (.object (Members.put newPath v ms)) members)
    | none => Edit.nothing

/-- Adds a copy of a path unless there is a new one already. -/
def duplicatePath (copy : Tree μ → Tree μ) (path : String) : Edit μ := fun members => do
  let paths := Members.mapAt "paths" members
  if ← paths.holds newPath then Edit.nothing
  else if ← paths.holds path then
    addPath (fun ms => (Members.get? path ms).map copy) members
  else Edit.nothing

/-- Makes an edit in a path item. -/
def withinPath (path : String) (edit : Edit μ) : Edit μ :=
  .withinMap "paths" (.within path edit)

/-- Changes the paths of a document. -/
def editPaths (copy : Tree μ → Tree μ) : PathEdit μ → Edit μ
  | .add => addPath fun _ => some .emptyObject
  | .rename oldPath newPath => .renameEntry "paths" oldPath newPath
  | .update path item => withinPath path fun ms => Edit.changed (Members.putAll ms item)
  | .remove path => .removeEntry "paths" path
  | .duplicate path => duplicatePath copy path
  | .removeAll => fun members => Edit.changed (Members.put "paths" .emptyObject members)

/-! ## Whole operations -/

/-- Adds an operation unless there is one. -/
def addOperation (method : Method) : Edit μ := fun item =>
  if Members.contains method.name item then Edit.nothing
  else Edit.changed (Members.put method.name Template.operation item)

/-- Takes an operation away. -/
def removeOperation (method : Method) : Edit μ := fun item =>
  if Members.contains method.name item then
    Edit.changed (Members.erase method.name item)
  else Edit.nothing

/-- Moves an operation to another method. If there is an operation too, the two
change places. -/
def renameOperation (oldMethod newMethod : Method) : Edit μ := fun item => do
  match Members.get? oldMethod.name item, Members.get? newMethod.name item with
  | none, _ => Edit.nothing
  | some v, some w =>
      Edit.changed (Members.put newMethod.name v (Members.put oldMethod.name w item))
  | some _, none => Edit.changed (← renamed oldMethod.name newMethod.name item)

/-- Changes members of an operation; those that are set to null disappear. -/
def updateOperation (changes : Tree.Members μ) : Edit μ := fun op =>
  Edit.changed ((Members.putAll op changes).filter fun entry => !entry.2.isNull)

/-! ## Responses -/

/-- Adds a response unless there is one with that status code. -/
def addResponse (statusCode : String) : Edit μ := fun op => do
  let responses := Members.mapAt "responses" op
  if ← responses.holds statusCode then Edit.nothing
  else
    let map := Members.put statusCode Template.response (← responses.members)
    Edit.changed (Members.put "responses" (.object map) op)

/-- Takes a response away; the last one is replaced by a fallback. -/
def removeResponse (statusCode : String) : Edit μ := fun op => do
  let responses := Members.erase statusCode (← (Members.mapAt "responses" op).members)
  let kept :=
    if responses.isEmpty then [(.str "default", Template.fallbackResponse)]
    else responses
  Edit.changed (Members.put "responses" (.object kept) op)

/-! ## Media types -/

/-- Changes the content of the request body. -/
def withinBody (edit : Edit μ) : Edit μ :=
  .within "requestBody" fun body => do
    match ← edit (← (Members.mapAt "content" body).toMembers) with
    | some content => Edit.changed (Members.put "content" (.object content) body)
    | none => Edit.nothing

/-- Changes the content of a response; an empty content disappears. -/
def withinResponse (statusCode : Option String) (edit : Edit μ) : Edit μ :=
  let name : Scalar := match statusCode with
    | some code => .str code
    | none => .null
  .withinMap "responses" (.within name fun response => do
    match ← edit (← (Members.mapAt "content" response).toMembers) with
    | some content => Edit.changed (putUnlessEmpty "content" content response)
    | none => Edit.nothing)

/-- Changes the content at a place. -/
def withinContent (place : ContentPlace) (edit : Edit μ) : Edit μ :=
  match place.target with
  | .requestBody => withinBody edit
  | .response => withinResponse place.statusCode edit

/-- Adds a media type unless it is there. -/
def addMediaType (mediaType : String) : Edit μ := fun content =>
  if Members.contains mediaType content then Edit.nothing
  else Edit.changed (Members.put mediaType Template.mediaType content)

/-- Renames a media type. -/
def renameMediaType (oldType newType : String) : Edit μ := fun content => do
  if oldType == newType || !Members.contains oldType content then Edit.nothing
  else Edit.changed (← renamed oldType newType content)

/-- Takes a media type away; the last one of a request body is replaced. -/
def removeMediaType (target : Target) (mediaType : String) : Edit μ := fun content =>
  if Members.contains mediaType content then
    let kept := Members.erase mediaType content
    if kept.isEmpty && target == .requestBody then
      Edit.changed [(.str Template.jsonMediaType, Template.mediaType)]
    else Edit.changed kept
  else Edit.nothing

/-! ## Callbacks -/

/-- The name of a new callback. -/
def newCallback : String := "newCallback"

/-- Changes the callbacks of an operation; an empty map of them disappears. -/
def withinCallbacks (edit : Edit μ) : Edit μ := fun op => do
  match ← edit (← (Members.mapAt "callbacks" op).toMembers) with
  | some callbacks => Edit.changed (putUnlessEmpty "callbacks" callbacks op)
  | none => Edit.nothing

/-- Adds a callback under the first free name. -/
def addCallback (callback : Tree μ) : Edit μ := fun callbacks =>
  Edit.changed (Members.put (Members.freeName (Members.names callbacks) newCallback)
    callback callbacks)

/-- Renames a callback. -/
def renameCallback (oldName newName : String) : Edit μ := fun callbacks => do
  if oldName == newName || !Members.contains oldName callbacks then Edit.nothing
  else Edit.changed (← renamed oldName newName callbacks)

/-- Takes a callback away. -/
def removeCallback (name : String) : Edit μ := fun callbacks =>
  if Members.contains name callbacks then Edit.changed (Members.erase name callbacks)
  else Edit.nothing

/-- Adds a copy of a callback. -/
def duplicateCallback (copy : Tree μ → Tree μ) (name : String) :
    Edit μ := fun callbacks =>
  match Members.get? name callbacks with
  | some callback => addCallback (copy callback) callbacks
  | none => Edit.nothing

/-! ## Operations -/

/-- Changes the members of an operation that is there. -/
def editWithinOperation (copy : Tree μ → Tree μ) : OperationEdit μ → Edit μ
  | .add => fun _ => Edit.nothing
  | .remove => fun _ => Edit.nothing
  | .update changes => updateOperation changes
  | .addParameter => .append "parameters" Template.parameter
  | .updateParameter index parameter =>
      .replaceItem "parameters" index (.object parameter)
  | .removeParameter index => .removeItem "parameters" index
  | .addResponse statusCode => addResponse statusCode
  | .updateResponse statusCode response =>
      .putEntry "responses" statusCode (.object response)
  | .removeResponse statusCode => removeResponse statusCode
  | .renameResponse oldStatus newStatus => .renameEntry "responses" oldStatus newStatus
  | .addRequestBody => fun op =>
      Edit.changed (Members.put "requestBody" Template.requestBody op)
  | .updateRequestBody body => fun op =>
      Edit.changed (Members.put "requestBody" (.object body) op)
  | .removeRequestBody => fun op =>
    if Members.contains "requestBody" op then
      Edit.changed (Members.erase "requestBody" op)
    else Edit.nothing
  | .addMediaType place mediaType => withinContent place (addMediaType mediaType)
  | .renameMediaType place oldType newType =>
      withinContent place (renameMediaType oldType newType)
  | .removeMediaType place mediaType =>
      withinContent place (removeMediaType place.target mediaType)
  | .addCallback => withinCallbacks (addCallback Template.callback)
  | .renameCallback oldName newName => withinCallbacks (renameCallback oldName newName)
  | .removeCallback name => withinCallbacks (removeCallback name)
  | .duplicateCallback name => withinCallbacks (duplicateCallback copy name)

/-- Changes one operation. -/
def editOperation (copy : Tree μ → Tree μ) (path : String) (method : Method) :
    OperationEdit μ → Edit μ
  | .add => withinPath path (addOperation method)
  | .remove => withinPath path (removeOperation method)
  | edit => withinPath path (.within method.name (editWithinOperation copy edit))

end ApiWorkbench.Editor
