import ApiWorkbench.Document.Operation
import ApiWorkbench.Document.Parameter

/-!
# Complete documents

The editor relies on certain members being there. Completing a document gives every
blank one of them its empty form and moves the parameters that a path shares into its
operations. Members that are present keep their places; missing ones are added at the
end in a fixed order.
-/

namespace ApiWorkbench.Document

/-- The version that a document without one is given. -/
def defaultVersion : String := "3.0.3"

/-- The maps that the components of a complete document have. -/
def componentMaps : List String :=
  ["links", "callbacks", "schemas", "securitySchemes"]

section

variable {μ : Type}

/-- `members` with `v` under `name` if there is nothing, or a blank value, under it. -/
def fill (name : String) (v : Tree μ) (members : Tree.Members μ) : Tree.Members μ :=
  match Members.get? name members with
  | some w => if w.isBlank then Members.put name v members else members
  | none => Members.put name v members

variable [Inhabited μ]

/-- A tag with a description of external documents. -/
def completeTag (tag : Tree.Members μ) : Tree.Members μ :=
  fill "externalDocs" .emptyObject tag

/-- The information about a document, with contact and licence. -/
def completeInfo (info : Tree.Members μ) : Tree.Members μ :=
  fill "license" .emptyObject (fill "contact" .emptyObject info)

/-- The components of a document, with all component maps. -/
def completeComponents (components : Tree.Members μ) : Tree.Members μ :=
  componentMaps.foldl (fun ms name => fill name .emptyObject ms) components

/-- An operation with tags, parameters and external documents, joined by the parameters
of its path item. -/
def completeOperation (item op : Tree.Members μ) : Except Fault (Tree.Members μ) := do
  let op := fill "externalDocs" .emptyObject
    (fill "parameters" (.list []) (fill "tags" (.list []) op))
  let shared := ((Members.get? "parameters" item).getD .null).orElse (.list [])
  Members.modifyM "parameters" (fun own => do
    pure (.list (← mergeParameters (← shared.items) (← own.items)))) op

/-- What a document without any information about it is given. -/
def untitledInfo : Tree μ :=
  .record [("version", "1.0.0"), ("title", "Untitled")]

end

/-- A tag among the tags of a document, completed if it is an object. -/
def completeAnyTag : Value → Value
  | .object ms => .object (completeTag ms)
  | v => v

/-- The tags of a document, completed; a blank value is left alone. -/
def completeTags : Value → Except Fault Value
  | .list tags => pure (.list (tags.map completeAnyTag))
  | .pair a b => pure (.pair (completeAnyTag a) (completeAnyTag b))
  | v => do
    if v.isBlank then pure v
    else
      let _ ← v.items
      pure v

/-- Changes the members of an object. -/
def withinObject (change : Members → Members) (v : Value) : Except Fault Value := do
  pure (.object (change (← v.members)))

/-- Completes every operation and drops what has been moved into the operations. -/
def completion : PathItemEdit where
  operation := completeOperation
  item := Members.erase "parameters"

/-- The complete form of a document. -/
def complete (document : Value) : Except Fault Value := do
  let ms ← document.members
  let ms ← Members.modifyM "tags" completeTags ms
  let ms ← Members.modifyM "info" (withinObject completeInfo)
    (fill "info" untitledInfo ms)
  let ms := fill "externalDocs" .emptyObject ms
  let ms := fill "security" (.list []) ms
  let ms := fill "servers" (.list []) ms
  let ms := fill "paths" .emptyObject ms
  let ms ← Members.modifyM "components" (withinObject completeComponents)
    (fill "components" .emptyObject ms)
  let ms ← Members.modifyM "paths" completion.apply ms
  pure (.object (fill "openapi" defaultVersion ms))

end ApiWorkbench.Document
