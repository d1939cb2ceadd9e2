import ApiWorkbench.Command.Basic
import ApiWorkbench.Document.Template
import ApiWorkbench.Editor.Edit

/-!
# Editing servers and tags

Servers and tags are lists in the document. A server may have variables; the map of them
disappears with the last one.
-/

namespace ApiWorkbench.Editor

open Document Command

variable {μ : Type} [Inhabited μ]

/-- A map under a name, or nothing under it if the map is empty. -/
def putUnlessEmpty (name : String) (map members : Tree.Members μ) : Tree.Members μ :=
  if map.isEmpty then Members.erase name members
  else Members.put name (.object map) members

/-- Changes the variables of a server. -/
def editVariables (edit : Tree.Members μ → Tree.Members μ) (server : Tree μ) :
    Except Fault (Tree μ) := do
  let ms ← server.toMembers
  let definitions ← (Members.mapAt "variables" ms).toMembers
  pure (.object (putUnlessEmpty "variables" (edit definitions) ms))

/-- Changes the variables of the server at a position. -/
def editServerVariables (index : Int) (edit : Tree.Members μ → Tree.Members μ) :
    Edit μ := fun members => do
  let servers ← Members.listAt "servers" members
  match position? index servers with
  | none => Edit.nothing
  | some i => do
    let server ← editVariables edit (servers.getD i .null)
    Edit.changed (putList "servers" (servers.set i server) members)

/-- Changes the servers of a document. -/
def editServers : ServerEdit μ → Edit μ
  | .add => .append "servers" Template.server
  | .update index server => .replaceItem "servers" index (.object server)
  | .remove index => .removeItem "servers" index
  | .addVariable index name =>
    editServerVariables index (Members.put name Template.serverVariable)
  | .updateVariable index oldName newName definition =>
    editServerVariables index fun definitions =>
      let others :=
        if oldName == newName then definitions else Members.erase oldName definitions
      Members.put newName (.object definition) others
  | .removeVariable index name => editServerVariables index (Members.erase name)

/-- Changes the tags of a document. -/
def editTags : TagEdit μ → Edit μ
  | .add => .append "tags" Template.tag
  | .update index tag => .replaceItem "tags" index (.object tag)
  | .remove index => .removeItem "tags" index

end ApiWorkbench.Editor
