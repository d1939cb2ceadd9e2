import ApiWorkbench.Value.Anchor
import ApiWorkbench.Yaml.Survey

/-!
# Reading YAML text

The value of a document. A mapping may take entries from others through a merge
key; they come before its own entries, which replace them. Names of members have
to be scalars.

One node may stand in several places of a document. `readAnchored` keeps track of that:
objects that come from one node and stand in several places have one anchor.

A value that is a part of itself has no end, and neither reader gives one. Whether it
takes pairs to come round is told, since there are walks through documents that do not
look into pairs.
-/

namespace ApiWorkbench.Yaml

/-- The value of a node that is a key. A key `=` is a text like any other. -/
def keyValue (node : Node) : Except Failure Scalar :=
  if node.tag.isCollection then throw .malformed
  else if node.tag ==
    .value then do pure (.str (String.ofList (← Survey.start.scalarText node)))
  else Survey.start.scalarOf node

section Values

variable {μ : Type} (mark : Option Nat → μ)

mutual

/-- The value of a node. The mark of an object is made from the number of its node;
where the value goes round it has an empty object, whose mark is made from nothing. -/
def valueOf : Node → Except Failure (Tree μ)
  | .scalar number tag text => (keyValue (.scalar number tag text)).map .scalar
  | .torn number text => (keyValue (.torn number text)).map .scalar
  | .sequence _ .sequence items => (itemValues items).map .list
  | .sequence _ .orderedMap items => (pairValues items).map .list
  | .sequence _ .pairs items => (pairValues items).map .list
  | .sequence _ _ _ => throw .malformed
  | .mapping number .mapping entries =>
      (memberValues entries).map (.marked (mark (some number)))
  | .mapping _ .set entries =>
      (memberValues entries).map fun members => .set (Members.names members)
  | .mapping number tag entries => (keyValue (.mapping number tag entries)).map .scalar
  | .loop _ _ => pure (.marked (mark none) [])

/-- The values of items. -/
def itemValues : List Node → Except Failure (List (Tree μ))
  | [] => pure []
  | node :: rest => do
    let value ← valueOf node
    let others ← itemValues rest
    pure (value :: others)

/-- The values of pairs, which are mappings of one entry each. -/
def pairValues : List Node → Except Failure (List (Tree μ))
  | [] => pure []
  | .mapping _ _ [(first, second)] :: rest => do
    let pair ←
      if first.tag == .merge then do
        match ← takenEntries second with
        | [(key, value)] => pure (.pair (.scalar key) value)
        | _ => throw .malformed
      else do
        let key ← valueOf first
        let value ← valueOf second
        pure (.pair key value)
    let others ← pairValues rest
    pure (pair :: others)
  | .mapping _ _ entries :: rest => do
    let pair ← match ← entryValues entries with
      | ([(key, value)], []) => pure (.pair (.scalar key) value)
      | ([], [(key, value)]) => pure (.pair (.scalar key) value)
      | _ => throw .malformed
    let others ← pairValues rest
    pure (pair :: others)
  | _ :: _ => throw .malformed

/-- The members that the entries of a mapping make. -/
def memberValues (entries : List (Node × Node)) : Except Failure (Tree.Members μ) := do
  let (taken, own) ← entryValues entries
  pure (Members.ofEntries (taken ++ own))

/-- The entries that a mapping takes from others, and its own ones. -/
def entryValues : List (Node × Node) → Except Failure (Tree.Members μ × Tree.Members μ)
  | [] => pure ([], [])
  | (k, v) :: rest =>
    if k.tag == .merge then do
      let first ← takenEntries v
      let (taken, own) ← entryValues rest
      pure (first ++ taken, own)
    else do
      let key ← keyValue k
      let value ← valueOf v
      let (taken, own) ← entryValues rest
      pure (taken, (key, value) :: own)

/-- The entries taken from the value of a merge key: a mapping, or mappings of which the
first one wins. -/
def takenEntries : Node → Except Failure (Tree.Members μ)
  | .scalar _ _ _ | .torn _ _ | .loop _ _ => throw .malformed
  | .mapping _ _ entries => do
    let (taken, own) ← entryValues entries
    pure (taken ++ own)
  | .sequence _ _ items => takenItems items

/-- The entries taken from mappings, those of the last one first. -/
def takenItems : List Node → Except Failure (Tree.Members μ)
  | [] => pure []
  | .mapping _ _ entries :: rest => do
    let (taken, own) ← entryValues entries
    let others ← takenItems rest
    pure (others ++ (taken ++ own))
  | _ :: _ => throw .malformed

end

/-- The value of a YAML text with marks on its objects; null for a text without a
document. The survey has read every scalar that counts, and what is left to find out is
whether keys are scalars and merges have entries. -/
def readMarked (text : String) : Except Failure (Tree μ) := do
  match ← compose text with
  | none => pure .null
  | some root =>
    survey root
    (valueOf mark root).mapError fun _ => .malformed

end Values

mutual

/-- Whether a place that is marked can be reached in a value, by lists and objects or
also through pairs. -/
def reachesMark (pairs : Bool) : Tree Bool → Bool
  | .list xs => itemsReachMark pairs xs
  | .pair a b => pairs && (reachesMark pairs a || reachesMark pairs b)
  | .marked mark ms => mark || membersReachMark pairs ms
  | _ => false

/-- Whether a place that is marked can be reached in items. -/
def itemsReachMark (pairs : Bool) : List (Tree Bool) → Bool
  | [] => false
  | v :: rest => reachesMark pairs v || itemsReachMark pairs rest

/-- Whether a place that is marked can be reached in members. -/
def membersReachMark (pairs : Bool) : List (Scalar × Tree Bool) → Bool
  | [] => false
  | (_, v) :: rest => reachesMark pairs v || membersReachMark pairs rest

end

/-- Makes sure that a value with marks where it goes round has an end. -/
def requireEnd (rounds : Tree Bool) : Except Failure Unit :=
  if reachesMark true rounds then
    throw (.circular rounds.isObject (!reachesMark false rounds)) else pure ()

/-- The value of a YAML text; null for a text without a document. -/
def read (text : String) : Except Failure Value := do
  let v ← readMarked Option.isNone text
  requireEnd v
  pure v.plain

/-- The value of a YAML text in which one object may stand in several places. -/
def readAnchored (text : String) : Except Failure AnchoredValue := do
  let v ← readMarked id text
  requireEnd (v.mapMarks Option.isNone)
  pure (AnchoredValue.withoutLoneAnchors (v.mapMarks fun mark => mark.map fun number =>
    ⟨number, []⟩))

end ApiWorkbench.Yaml
