import ApiWorkbench.Yaml.Node
import ApiWorkbench.Yaml.Scalar

/-!
# The first problem of a document

A document may have several problems, and only one of them is reported. Nodes are looked
at by generations: the root, then what it holds, then what its parts hold, each
generation in order. A scalar is read when it is met; a collection that has been met
before is not looked at again. The first problem found this way is the one to report.

A node that is found as a key may change what it stands for: a key `=` is a text, and
stays one in the other places where the same node stands. Likewise a mapping keeps the
entries that its merge keys were replaced by. So a `Survey` records both.
-/

namespace ApiWorkbench.Yaml

/-- What has been found out about the nodes of a document so far. Nodes go by
their numbers. -/
structure Survey where
  /-- the collections that have been met -/
  met : List Nat
  /-- those of them whose contents are to be looked at, the last one first -/
  waiting : List Node
  /-- the entries of the mappings whose merge keys have been replaced -/
  resolved : List (Nat × List (Node × Node))
  /-- the keys `=` that have been found to be texts -/
  texts : List Nat

namespace Survey

/-- Nothing has been looked at. -/
def start : Survey := ⟨[], [], [], []⟩

/-- The type of a node as far as it is known. -/
def tagOf (s : Survey) (node : Node) : Tag :=
  if node.tag == .value && s.texts.contains node.number then .str else node.tag

mutual

/-- The text of a scalar; a mapping stands for the value it has under `=`, which may
lead back to the mapping. -/
def scalarText (s : Survey) : Node → Except Failure (List Char)
  | .scalar _ _ text => pure text
  | .torn _ text => pure text.shown.toList
  | .sequence _ _ _ => throw .malformed
  | .loop _ _ => throw (.meaningless .endless)
  | .mapping number _ entries =>
    if (s.resolved.lookup number).isSome then throw .malformed else ownText s entries

/-- The text of the value under `=`. -/
def ownText (s : Survey) : List (Node × Node) → Except Failure (List Char)
  | [] => throw .malformed
  | (k, v) :: rest => if s.tagOf k == .value then scalarText s v else ownText s rest

end

/-- The value of a node with a scalar type. -/
def scalarOf (s : Survey) (node : Node) : Except Failure Scalar := do
  let text ← s.scalarText node
  match node, s.tagOf node with
  | .torn _ text, _ => pure (.torn text)
  | .mapping _ _ _, .timestamp => throw (.meaningless .notADate)
  | _, tag => scalarValue tag text

mutual

/-- The entries of a mapping without merge keys: those taken from other
mappings, then its own. -/
def entriesOf (s : Survey) : Node → Except Failure (Survey × List (Node × Node))
  | .mapping number _ entries =>
    match s.resolved.lookup number with
    | some entries => pure (s, entries)
    | none => do
      let (s, taken, own) ← separate s entries
      pure ({ s with resolved := (number, taken ++ own) :: s.resolved }, taken ++ own)
  | _ => throw .malformed

/-- The entries that merge keys take from other mappings, and the entries
under other keys. -/
def separate (s : Survey) : List (Node × Node) →
    Except Failure (Survey × List (Node × Node) × List (Node × Node))
  | [] => pure (s, [], [])
  | (k, v) :: rest =>
    if k.tag == .merge then do
      let (s, first) ← takenFrom s v
      let (s, taken, own) ← separate s rest
      pure (s, first ++ taken, own)
    else do
      let s := if k.tag == .value then { s with texts := k.number :: s.texts } else s
      let (s, taken, own) ← separate s rest
      pure (s, taken, (k, v) :: own)

/-- The entries that a merge key takes from its value: a mapping, or mappings of which
the first one wins. -/
def takenFrom (s : Survey) : Node → Except Failure (Survey × List (Node × Node))
  | .scalar _ _ _ | .torn _ _ | .loop _ _ => throw .malformed
  | .sequence _ _ items => takenFromAll s items
  | .mapping number tag entries => entriesOf s (.mapping number tag entries)

/-- The entries of mappings, those of the last one first. -/
def takenFromAll (s : Survey) : List Node → Except Failure (Survey × List (Node × Node))
  | [] => pure (s, [])
  | node :: rest => do
    let (s, first) ← entriesOf s node
    let (s, others) ← takenFromAll s rest
    pure (s, others ++ first)

end

/-- Meets a node: reads a scalar, and puts off a collection. -/
def meet (s : Survey) (node : Node) : Except Failure Survey :=
  if node.tag.isCollection then
    if s.met.contains node.number then pure s
    else pure { s with met := node.number :: s.met, waiting := node :: s.waiting }
  else do
    let _ ← s.scalarOf node
    pure s

/-- Meets the key and the value of an entry. Collections are no keys. -/
def meetEntry (s : Survey) (entry : Node × Node) : Except Failure Survey :=
  if entry.1.tag.isCollection then throw .malformed
  else do (← s.meet entry.1).meet entry.2

/-- Meets both parts of a pair, which is written as a mapping of one entry. -/
def meetPair (s : Survey) : Node → Except Failure Survey
  | .mapping number _ entries =>
    match (s.resolved.lookup number).getD entries with
    | [(first, second)] => do (← s.meet first).meet second
    | _ => throw .malformed
  | _ => throw .malformed

/-- Looks at what a collection holds. An alias inside the collection shows nothing
new. -/
def lookInto (s : Survey) (node : Node) : Except Failure Survey :=
  match node.tag, node with
  | .sequence, .sequence _ _ items => items.foldlM meet s
  | .orderedMap, .sequence _ _ items => items.foldlM meetPair s
  | .pairs, .sequence _ _ items => items.foldlM meetPair s
  | .mapping, .mapping _ _ _ | .set, .mapping _ _ _ => do
    let (s, entries) ← s.entriesOf node
    entries.foldlM meetEntry s
  | _, .loop _ _ => pure s
  | _, _ => throw .malformed

/-- Looks at generation after generation, as many as `fuel` says. -/
def generations : (fuel : Nat) → Survey → Except Failure Survey
  | 0, s => pure s
  | fuel + 1, s =>
    match s.waiting with
    | [] => pure s
    | waiting => do
        generations fuel (← waiting.reverse.foldlM lookInto { s with waiting := [] })

end Survey

/-- Makes sure that all of a document has a meaning, or reports its first problem. Every
generation has a collection that has not been met before, and no number of a node is
greater than that of the root. -/
def survey (root : Node) : Except Failure Unit := do
  let _ ← Survey.generations (root.number + 1) (← Survey.start.meet root)

end ApiWorkbench.Yaml
