import ApiWorkbench.Document.Pruning
import ApiWorkbench.Value.Anchor

/-!
# Documents with shared objects

Completing and pruning change the objects of a document one after the other. Where one
object stands in several places the order of these changes can be seen: an operation
that is shared by two paths takes in the parameters of both. So a change is made to an
object as it is at the moment, and where the object has an anchor it is noted for the
other places; they are brought up to date at the end.

The objects are visited as they come in the document, operations in the order of the
methods, the callbacks of an operation after the operation itself, and a path item after
its operations. A document without anchors becomes what `Document.complete` and
`Document.prune` make of it.
-/

namespace ApiWorkbench.Document.Sharing

/-- A step that may change objects and may meet a fault. -/
abbrev Visit (α : Type) : Type := StateT Objects (Except Fault) α

/-- Members whose parts may have anchors. -/
abbrev AnchoredMembers : Type := Tree.Members (Option Anchor)

/-- Members with all objects in them as they are at the moment. -/
def settled (ms : AnchoredMembers) : Visit AnchoredMembers := do
  pure ((← get).settleMembers ms)

/-- The members of an object as they are at the moment, given those that are written
in the document. -/
def current (mark : Option Anchor) (written : AnchoredMembers) :
    Visit AnchoredMembers := do
  settled ((← get).latest mark written)

/-- Notes what has become of an object for its other places. -/
def note (mark : Option Anchor) (ms : AnchoredMembers) : Visit Unit :=
  match mark with
  | some anchor => modify (·.change anchor ms)
  | none => pure ()

/-- Changes the members of a value if it is an object. -/
def changeObject (change : AnchoredMembers → Visit AnchoredMembers) :
    AnchoredValue → Visit AnchoredValue
  | .marked mark written => do
    let ms ← change (← current mark written)
    note mark ms
    pure (.marked mark ms)
  | v => pure v

/-- Changes the members of an object. -/
def changeMembers (change : AnchoredMembers → Visit AnchoredMembers)
    (v : AnchoredValue) :
    Visit AnchoredValue :=
  if v.isObject then changeObject change v else throw .notAnObject

/-- Changes the members of an object; there is nothing to change in a blank value. -/
def changeAnyMembers (change : AnchoredMembers → Visit AnchoredMembers)
    (v : AnchoredValue) :
    Visit AnchoredValue :=
  if v.isObject then changeObject change v
  else if v.isBlank then pure v
  else throw .notAnObject

/-- Changes whatever is under a name. -/
def changeUnder (name : Scalar) (change : AnchoredValue → Visit AnchoredValue)
    (ms : AnchoredMembers) :
    Visit AnchoredMembers :=
  ms.mapM fun entry => do
    if entry.1.same name then pure (entry.1, ← change entry.2) else pure entry

/-- What is done with a path item: to each operation, given the members of the path
item, and to the path item in the end. -/
structure Edit where
  operation : (item op : AnchoredMembers) → Except Fault AnchoredMembers
  item : AnchoredMembers → AnchoredMembers

namespace Edit

/-- Changes an operation of a path item and then, with `visit`, the path items inside
its callbacks. -/
def visitOperation (edit : Edit) (visit : AnchoredValue → Visit AnchoredValue)
    (item : AnchoredMembers) :
    AnchoredValue → Visit AnchoredValue :=
  changeObject fun op => do
    let op ← edit.operation (← settled item) op
    changeUnder "callbacks" (changeAnyMembers
      (Members.mapValuesM (changeObject (Members.mapValuesM visit)))) op

/-- Changes the operations of a path item and then the path item; what is no object says
nothing. At most `depth` path items lie inside one another. -/
def visitItem (edit : Edit) : (depth : Nat) → AnchoredValue → Visit AnchoredValue
  | 0, v => pure v
  | depth + 1, v =>
    changeObject (fun item => do
      let visited ← Method.all.foldlM (fun ms method =>
        changeUnder method.name (edit.visitOperation (visitItem edit depth) item) ms)
          item
      pure (edit.item (← settled visited))) v

end Edit

/-- Completes every operation and drops what has been moved into the operations. -/
def completion : Edit where
  operation := completeOperation
  item := Members.erase "parameters"

/-- Prunes every operation. -/
def pruning : Edit where
  operation := fun _ op => pruneOperation op
  item := id

/-- Changes the tags of a document that are objects. -/
def changeTags (change : AnchoredMembers → Except Fault AnchoredMembers) :
    AnchoredValue → Visit AnchoredValue
  | .list tags => do pure (.list (← tags.mapM (changeObject fun ms => change ms)))
  | .pair a b => do
    let first ← changeObject (fun ms => change ms) a
    pure (.pair first (← changeObject (fun ms => change ms) b))
  | v => do
    let _ ← (v.itemsOrNone : Except Fault (List AnchoredValue))
    pure v

/-- Completes the members of a document. -/
def completeMembers (depth : Nat) (ms : AnchoredMembers) : Visit AnchoredMembers := do
  let ms ← Members.modifyM "tags" (changeTags fun tag => pure (completeTag tag)) ms
  let ms := fill "info" untitledInfo (← settled ms)
  let ms ← Members.modifyM "info"
    (changeMembers fun info => pure (completeInfo info)) ms
  let ms := fill "externalDocs" .emptyObject (← settled ms)
  let ms := fill "security" (.list []) ms
  let ms := fill "servers" (.list []) ms
  let ms := fill "paths" .emptyObject ms
  let ms := fill "components" .emptyObject ms
  let ms ← Members.modifyM "components"
    (changeMembers fun parts => pure (completeComponents parts)) ms
  let ms ← Members.modifyM "paths"
    (changeMembers (Members.mapValuesM (completion.visitItem depth))) ms
  pure (fill "openapi" defaultVersion (← settled ms))

/-- Prunes the members of a document. -/
def pruneMembers (depth : Nat) (ms : AnchoredMembers) : Visit AnchoredMembers := do
  let ms ← Members.modifyM "paths"
    (changeAnyMembers (Members.mapValuesM (pruning.visitItem depth))) ms
  let ms ← Members.modifyM "tags" (changeTags pruneTag) ms
  let ms ← dropUnless "externalDocs" ["url"] (← settled ms)
  let ms ← Members.modifyM "info" (changeObject fun info => pruneInfo info) ms
  let ms := dropBlank "tags" (dropBlank "servers" (dropBlank "security" (← settled ms)))
  match Members.get? "components" ms with
  | some (.marked mark written) => do
    let components ← changeObject (fun parts => pure (pruneComponents parts))
      (.marked mark written)
    pure (dropBlank "components" (Members.put "components" components ms))
  | _ => pure ms

/-- A document after a change to its members. -/
def changed (change : (depth : Nat) → AnchoredMembers → Visit AnchoredMembers)
    (document : AnchoredValue) :
    Except Fault AnchoredValue := do
  let (document, objects) ← (changeMembers (change document.height) document).run
    (.unchanged document)
  pure (objects.settle document)

/-- The complete form of a document. -/
def complete : AnchoredValue → Except Fault AnchoredValue :=
  changed completeMembers

/-- The pruned form of a document. -/
def prune : AnchoredValue → Except Fault AnchoredValue :=
  changed pruneMembers

end ApiWorkbench.Document.Sharing
