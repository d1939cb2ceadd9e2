import ApiWorkbench.Editor.State
import ApiWorkbench.Editor.Store

/-!
# Editing sessions

A session is the state of an editor together with a store. Saving remembers the document
both in the state and in the store, going back prefers what the store has: so a session
can go back to what an earlier one saved.
-/

namespace ApiWorkbench.Editor

/-- An editor with a store. -/
structure Session where
  state : State Unit
  store : Store

namespace Session

/-- A session with a document; without one, with the sample. -/
def start (document : Option Value) (store : Store) : Session :=
  ⟨(document.map State.ofDocument).getD .initial, store⟩

/-- A new session over the same store. -/
def restart (document : Option Value) (session : Session) : Session :=
  start document session.store

/-- The session after a command. -/
def dispatch (session : Session) (command : Command Unit) : Except Fault Session := do
  pure { session with state := ← session.state.apply command }

/-- The session after the commands of a script, up to the first that fails. -/
def dispatchAll (session : Session) : List (Command Unit) → Session × Option Fault
  | [] => (session, none)
  | command :: rest =>
    match session.dispatch command with
    | .ok session => session.dispatchAll rest
    | .error fault => (session, some fault)

/-- Saves the document. The state remembers it even if the store cannot. -/
def save (session : Session) : Session × Option Store.Failure :=
  let state := session.state.remember
  let (store, failure) := session.store.write state.document
  (⟨state, store⟩, failure)

/-- Goes back to the document in the store, or to the snapshot if the store has none. -/
def undo (session : Session) : Except Fault Session := do
  match ← session.store.read with
  | some document =>
      pure { session with state := ← session.state.accept .plain document }
  | none => session.dispatch .undo

/-- Empties the store. -/
def clear (session : Session) : Except Store.Failure Session := do
  pure { session with store := ← session.store.clear }

end Session

end ApiWorkbench.Editor
