import ApiWorkbench.Document.Completion
import ApiWorkbench.Value.Members

/-!
# Pruned documents

A document is shared without the members that only the editor needs. Pruning drops
external documents without an address, a licence without a name, a contact that names no
way to reach anyone, and lists and component maps that are empty; everything else stays
as it is and where it is.
-/

namespace ApiWorkbench.Document

section

variable {μ : Type}

/-- Whether an object, or a blank value in its place, has something under one of the
names. -/
def hasAny (names : List String) (v : Tree μ) : Except Fault Bool :=
  if v.isBlank then pure false
  else names.anyM fun (name : String) => do pure !(← v.member name).isBlank

/-- `members` without the one under `name` if it has nothing under any of `needed`. -/
def dropUnless (name : String) (needed : List String) (members : Tree.Members μ) :
    Except Fault (Tree.Members μ) := do
  match Members.get? name members with
  | none => pure members
  | some v => pure (if ← hasAny needed v then members else Members.erase name members)

/-- `members` without the one under `name` if it is blank. -/
def dropBlank (name : String) (members : Tree.Members μ) : Tree.Members μ :=
  match Members.get? name members with
  | none => members
  | some v => if v.isBlank then Members.erase name members else members

/-- Whether a value is a scalar or is made of scalars only and cannot change. -/
def isConstant : Tree μ → Bool
  | .scalar _ => true
  | .pair a b => isConstant a && isConstant b
  | _ => false

/-- Values in order, each once, at its first place. -/
def distinct (seen : List (Tree μ)) : List (Tree μ) → List (Tree μ)
  | [] => []
  | v :: rest =>
      if seen.any v.same then distinct seen rest else v :: distinct (v :: seen) rest

/-- The tags of an operation, each once. -/
def pruneOperationTags (tags : Tree μ) : Except Fault (Tree μ) := do
  let names ← tags.items
  if names.all isConstant then pure (.list (distinct [] names)) else throw .notAName

/-- An operation without blank external documents and tags. -/
def pruneOperation (op : Tree.Members μ) : Except Fault (Tree.Members μ) := do
  let op ← dropUnless "externalDocs" ["url"] op
  Members.modifyM "tags" pruneOperationTags (dropBlank "tags" op)

/-- A tag without blank external documents. -/
def pruneTag (tag : Tree.Members μ) : Except Fault (Tree.Members μ) :=
  dropUnless "externalDocs" ["url"] tag

/-- The information about a document without a nameless licence and an empty contact. -/
def pruneInfo (info : Tree.Members μ) : Except Fault (Tree.Members μ) := do
  dropUnless "contact" ["name", "email", "url"] (← dropUnless "license" ["name"] info)

/-- Components without empty maps. -/
def pruneComponents (components : Tree.Members μ) : Tree.Members μ :=
  componentMaps.foldl (fun ms name => dropBlank name ms) components

end

/-- Changes the members of a value if it is an object. -/
def withinAny (change : Members → Except Fault Members) : Value → Except Fault Value
  | .object ms => do pure (.object (← change ms))
  | v => pure v

/-- Prunes every operation. -/
def pruning : PathItemEdit where
  operation := fun _ op => pruneOperation op
  item := id

/-- The tags of a document, pruned. -/
def pruneTags : Value → Except Fault Value
  | .list tags => do pure (.list (← tags.mapM (withinAny pruneTag)))
  | .pair a b => do
    let first ← withinAny pruneTag a
    pure (.pair first (← withinAny pruneTag b))
  | v => do
    if v.isBlank then pure v
    else
      let _ ← v.items
      pure v

/-- The pruned form of a document; components of which nothing is left disappear. -/
def prune (document : Value) : Except Fault Value := do
  let ms ← document.members
  let ms ← Members.modifyM "paths"
    (fun paths => if paths.isBlank then pure paths else pruning.apply paths) ms
  let ms ← Members.modifyM "tags" pruneTags ms
  let ms ← dropUnless "externalDocs" ["url"] ms
  let ms ← Members.modifyM "info" (withinAny pruneInfo) ms
  let ms := dropBlank "tags" (dropBlank "servers" (dropBlank "security" ms))
  match Members.get? "components" ms with
  | some (.object components) =>
    pure (.object (dropBlank "components"
      (Members.put "components" (.object (pruneComponents components)) ms)))
  | _ => pure (.object ms)

end ApiWorkbench.Document
