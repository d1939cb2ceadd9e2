import ApiWorkbench.Value.Reading

/-!
# Operations of a document

An operation stands in a path item under an HTTP method. It may have callbacks, and a
callback maps expressions to path items of its own, so that operations nest.
`PathItemEdit` is a change that is made to every operation of a path item at every
callback depth, and `PathItemEdit.apply` makes it.
-/

namespace ApiWorkbench.Document

/-- The HTTP methods that an operation may stand under. -/
inductive Method where
  | get
  | put
  | post
  | delete
  | options
  | head
  | patch
  | trace
deriving DecidableEq, Repr

namespace Method

/-- All methods, in the order in which operations are visited. -/
def all : List Method :=
  [get, put, post, delete, options, head, patch, trace]

/-- The name of a method in a path item. -/
def name : Method → String
  | get => "get"
  | put => "put"
  | post => "post"
  | delete => "delete"
  | options => "options"
  | head => "head"
  | patch => "patch"
  | trace => "trace"

end Method

/-- Whether a member of a path item is named for a method. -/
def isMethod (name : Scalar) : Bool :=
  Method.all.any fun method => name.same method.name

/-- A change to path items: what becomes of each operation, given the members of the
path item that holds it, and what becomes of the path item after its operations. -/
structure PathItemEdit where
  operation : (item op : Members) → Except Fault Members
  item : Members → Members

namespace PathItemEdit

mutual

/-- Changes the operations among the members of a path item; `item` holds all
of its members. -/
def operations (edit : PathItemEdit) (item : Members) :
    List (Scalar × Value) → Except Fault (List (Scalar × Value))
  | [] => pure []
  | (name, .object op) :: rest => do
    let changed ←
      if isMethod name then edit.operation item (← nested edit op) else pure op
    pure ((name, .object changed) :: (← operations edit item rest))
  | (name, v) :: rest => do
    pure ((name, v) :: (← operations edit item rest))

/-- Changes the path items inside the callbacks of an operation, whose
members these are. -/
def nested (edit : PathItemEdit) :
    List (Scalar × Value) → Except Fault (List (Scalar × Value))
  | [] => pure []
  | (name, v) :: rest => do
    let changed ← if name.same "callbacks" then callbacks edit v else pure v
    pure ((name, changed) :: (← nested edit rest))

/-- Changes the path items inside a map of callbacks. -/
def callbacks (edit : PathItemEdit) : Value → Except Fault Value
  | .object ms => do pure (.object (← callbackEntries edit ms))
  | v => if v.isBlank then pure v else throw .notAnObject

/-- Changes the path items inside each callback of a map. -/
def callbackEntries (edit : PathItemEdit) :
    List (Scalar × Value) → Except Fault (List (Scalar × Value))
  | [] => pure []
  | (name, .object expressions) :: rest => do
    let changed ← pathItems edit expressions
    pure ((name, .object changed) :: (← callbackEntries edit rest))
  | (name, v) :: rest => do
    pure ((name, v) :: (← callbackEntries edit rest))

/-- Changes every path item among the entries of a map. -/
def pathItems (edit : PathItemEdit) :
    List (Scalar × Value) → Except Fault (List (Scalar × Value))
  | [] => pure []
  | (name, .object item) :: rest => do
    let changed ← operations edit item item
    pure ((name, .object (edit.item changed)) :: (← pathItems edit rest))
  | (name, v) :: rest => do
    pure ((name, v) :: (← pathItems edit rest))

end

/-- Makes a change in every path item of a map of paths. -/
def apply (edit : PathItemEdit) (paths : Value) : Except Fault Value := do
  pure (.object (← pathItems edit (← paths.members)))

end PathItemEdit

end ApiWorkbench.Document
