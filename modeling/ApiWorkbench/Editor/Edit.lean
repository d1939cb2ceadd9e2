import ApiWorkbench.Value.Reading

/-!
# Edits

An edit is a change to the members of an object that may find nothing to change: then
the whole document stays as it is, however deep inside it the edit was to be made.
-/

namespace ApiWorkbench.Editor

/-- A change to members; none if nothing is to be changed. -/
abbrev Edit (μ : Type) : Type := Tree.Members μ → Except Fault (Option (Tree.Members μ))

variable {μ : Type}

namespace Edit

/-- Changes nothing. -/
def nothing : Except Fault (Option (Tree.Members μ)) :=
  pure none

/-- Changes members to others. -/
def changed (members : Tree.Members μ) : Except Fault (Option (Tree.Members μ)) :=
  pure (some members)

end Edit

/-! ## Lists -/

/-- The position of an item; none beyond the ends of the list. -/
def position? (index : Int) (items : List (Tree μ)) : Option Nat :=
  if 0 ≤ index && index < items.length then some index.toNat else none

/-- The list without the item at a position; the list as it is if there is none. -/
def withoutItem (index : Int) (items : List (Tree μ)) : List (Tree μ) :=
  match position? index items with
  | some i => items.eraseIdx i
  | none => items

/-- `members` with a list under a name. -/
def putList (name : String) (items : List (Tree μ)) (members : Tree.Members μ) :
    Tree.Members μ :=
  Members.put name (.list items) members

namespace Edit

/-- Adds an item to the list under a name. -/
def append (name : String) (item : Tree μ) : Edit μ := fun members => do
  changed (putList name ((← Members.listAt name members) ++ [item]) members)

/-- Puts an item into the list under a name, in place of the one at a position. -/
def replaceItem (name : String) (index : Int) (item : Tree μ) :
    Edit μ := fun members => do
  let items ← Members.listAt name members
  match position? index items with
  | some i => changed (putList name (items.set i item) members)
  | none => nothing

/-- Takes the item at a position out of the list under a name. -/
def removeItem (name : String) (index : Int) : Edit μ := fun members => do
  changed (putList name (withoutItem index (← Members.listAt name members)) members)

end Edit

/-! ## Maps -/

/-- The members of a map with one of them renamed. -/
def renamed (oldName newName : String) (members : Tree.Members μ) :
    Except Fault (Tree.Members μ) :=
  match Members.rename? oldName newName members with
  | some members => pure members
  | none => throw .missingEntry

variable [Inhabited μ]

namespace Edit

/-- Makes an edit in the object under a name; where no object is, there is
nothing to change. -/
def within (name : Scalar) (edit : Edit μ) : Edit μ := fun members => do
  match Members.get? name members with
  | some (.marked _ inner) =>
    match ← edit inner with
    | some inner => changed (Members.put name (.object inner) members)
    | none => nothing
  | _ => nothing

/-- Makes an edit in the map under a name; a blank value is an empty map. -/
def withinMap (name : Scalar) (edit : Edit μ) : Edit μ := fun members => do
  match ← edit (← (Members.mapAt name members).members) with
  | some inner => changed (Members.put name (.object inner) members)
  | none => nothing

/-- Renames an entry of the map under a name, if there is such an entry. -/
def renameEntry (name : String) (oldName newName : String) : Edit μ := fun members => do
  let map := Members.mapAt name members
  if oldName == newName then nothing
  else if ← map.holds oldName then
    changed
      (Members.put name (.object (← renamed oldName newName (← map.members))) members)
  else nothing

/-- Takes an entry out of the map under a name, if there is such an entry. -/
def removeEntry (name : String) (entry : String) : Edit μ := fun members => do
  let map := Members.mapAt name members
  if ← map.holds entry then
    changed (Members.put name (.object (Members.erase entry (← map.members))) members)
  else nothing

/-- Puts an entry into the map under a name. -/
def putEntry (name : String) (entry : String) (v : Tree μ) : Edit μ := fun members => do
  changed (Members.put name
    (.object (Members.put entry v (← (Members.mapAt name members).members))) members)

/-- Puts an entry under the first free name into the map under a name. -/
def addEntry (name : String) (base : String) (v : Tree μ) : Edit μ := fun members => do
  let map ← (Members.mapAt name members).members
  let entry := Members.freeName (Members.names map) base
  changed (Members.put name (.object (Members.put entry v map)) members)

/-- Puts a copy of an entry of the map under a name there under the first free name. -/
def duplicateEntry (copy : Tree μ → Tree μ) (name : String) (base entry : String) :
    Edit μ := fun members => do
  let map := Members.mapAt name members
  if ← map.holds entry then
    let map ← map.members
    changed (Members.put name (.object (Members.put (Members.freeName
      (Members.names map) base) (copy (Members.valueAt entry map)) map)) members)
  else nothing

end Edit

end ApiWorkbench.Editor
