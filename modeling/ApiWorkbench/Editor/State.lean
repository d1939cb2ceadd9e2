import ApiWorkbench.Document.Completion
import ApiWorkbench.Document.Sample
import ApiWorkbench.Document.Sharing
import ApiWorkbench.Editor.Components
import ApiWorkbench.Editor.Paths
import ApiWorkbench.Editor.Servers

/-!
# The state of the editor

The editor holds a document and remembers one earlier document, its snapshot. A command
turns a state into the next one; a script is the commands of a list in turn. A command
that names a part that is not there changes nothing.

Only `saveSnapshot` sets the snapshot and only `undo` looks at it. A document that a
script brings in, or that comes back from the snapshot, is copied and completed first.
What these two come to depends on the marks of documents; for values they are
`Handling.plain`.

The commands of a script may share objects: the same part of a text may stand in several
commands, and several times in one. Such a script is run on a document with anchors, and
each command makes its own copies.
-/

namespace ApiWorkbench.Editor

open Document Command

/-- How documents with marks are copied and completed. -/
structure Handling (μ : Type) where
  copy : Tree μ → Tree μ
  complete : Tree μ → Except Fault (Tree μ)

/-- Values need no copies. -/
def Handling.plain : Handling Unit where
  copy := id
  complete := Document.complete

/-- The document that is edited, and the one to go back to. -/
structure State (μ : Type) where
  document : Tree μ
  snapshot : Option (Tree μ)

variable {μ : Type}

namespace State

/-- A document with nothing to go back to. -/
def ofDocument (document : Tree μ) : State μ :=
  ⟨document, none⟩

/-- The state with another document. -/
def withDocument (document : Tree μ) (state : State μ) : State μ :=
  { state with document }

/-- The state with a document in completed form. -/
def accept (handling : Handling μ) (document : Tree μ) (state : State μ) :
    Except Fault (State μ) := do
  pure (state.withDocument (← handling.complete (handling.copy document)))

/-- The state with its document as the snapshot. -/
def remember (state : State μ) : State μ :=
  { state with snapshot := some state.document }

/-- The state with the document of the snapshot, if there is one. -/
def goBack (handling : Handling μ) (state : State μ) : Except Fault (State μ) :=
  match state.snapshot with
  | some document => state.accept handling document
  | none => pure state

variable [Inhabited μ]

/-- The state of an editor that was given no document: the sample. -/
def initial : State μ :=
  ofDocument sample

/-- Makes an edit in the document. -/
def edit (e : Edit μ) (state : State μ) : Except Fault (State μ) := do
  match ← e (← state.document.members) with
  | some ms => pure (state.withDocument (.object ms))
  | none => pure state

end State

/-- Whether a command renames a method or a status code to itself. -/
def renamesToItself : Command μ → Bool
  | .renameOperation _ oldMethod newMethod => oldMethod == newMethod
  | .operation _ _ (.renameResponse oldStatus newStatus) => oldStatus == newStatus
  | _ => false

variable [Inhabited μ]

/-- Changes members of the map under a name. -/
def changeMap (name : String) (changes : Tree.Members μ) : Edit μ := fun members => do
  let map ← (Members.mapAt name members).members
  Edit.changed (Members.put name (.object (Members.putAll map changes)) members)

/-- The state after a command. -/
def State.applyWith (handling : Handling μ) (state : State μ) (command : Command μ) :
    Except Fault (State μ) :=
  if renamesToItself command then pure state
  else match command with
  | .setDocument document => state.accept handling (.object document)
  | .saveSnapshot => pure state.remember
  | .undo => state.goBack handling
  | .loadSample => pure (state.withDocument sample)
  | .reset => pure (state.withDocument Template.document)
  | .info changes => state.edit (changeMap "info" changes)
  | .externalDocs changes => state.edit (changeMap "externalDocs" changes)
  | .servers e => state.edit (editServers e)
  | .tags e => state.edit (editTags e)
  | .paths e => state.edit (editPaths handling.copy e)
  | .operation path method e => state.edit (editOperation handling.copy path method e)
  | .renameOperation path oldMethod newMethod =>
    state.edit (withinPath path (renameOperation oldMethod newMethod))
  | .security e => state.edit (editSecurity e)
  | .schemas e => state.edit (editSchemas handling.copy e)

/-- The state after a command on values. -/
def State.apply (state : State Unit) (command : Command Unit) :
    Except Fault (State Unit) :=
  state.applyWith .plain command

/-- The state after the commands of a script on values. -/
def State.applyAll (state : State Unit) (commands : List (Command Unit)) :
    Except Fault (State Unit) :=
  commands.foldlM State.apply state

namespace Script

/-- The commands of a script. -/
abbrev Commands : Type := List (Command (Option Anchor))

/-- How the command at a position of a script handles documents. -/
def handling (position : Nat) : Handling (Option Anchor) where
  copy := AnchoredValue.copy position
  complete := Document.Sharing.complete

/-- The state after commands, the first of which stands at a position. -/
def applyFrom (position : Nat) (state : State (Option Anchor)) :
    Commands → Except Fault (State (Option Anchor))
  | [] => pure state
  | command :: rest => do
    let state ← state.applyWith (handling position) command
    applyFrom (position + 1) state rest

/-- The pruned form of a document after the commands of a script. -/
def run (commands : Commands) (document : Value) : Except Fault Value := do
  let state ← applyFrom 0 (.ofDocument (AnchoredValue.ofValue document)) commands
  pure (← Document.Sharing.prune state.document).plain

end Script

end ApiWorkbench.Editor
