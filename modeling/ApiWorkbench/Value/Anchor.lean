import ApiWorkbench.Value.Members

/-!
# Anchors

An object may stand in several places of a document and still be one object, so that
what is done to it shows everywhere. Objects are told apart by anchors: two objects with
the same anchor are one. An object without an anchor stands in one place only.

`Objects` holds the members that the anchored objects have at the moment. The members
written in a tree may be those of earlier on; `Objects.settle` brings them up to date.
-/

namespace ApiWorkbench

/-- What identifies an object: the part of a text that it comes from, and the copies
that were made of it. -/
structure Anchor where
  /-- the number of the part -/
  part : Nat
  /-- the numbers of the copies, the last one first -/
  copies : List Nat
deriving DecidableEq, Repr

/-- A value whose objects may have anchors. -/
abbrev AnchoredValue : Type := Tree (Option Anchor)

namespace Tree

variable {μ ν : Type}

mutual

/-- The value with every mark changed. -/
def mapMarks (f : μ → ν) : Tree μ → Tree ν
  | .scalar s => .scalar s
  | .list xs => .list (mapItemMarks f xs)
  | .pair a b => .pair (mapMarks f a) (mapMarks f b)
  | .set names => .set names
  | .marked mark ms => .marked (f mark) (mapMemberMarks f ms)

/-- List items with every mark changed. -/
def mapItemMarks (f : μ → ν) : List (Tree μ) → List (Tree ν)
  | [] => []
  | v :: rest => mapMarks f v :: mapItemMarks f rest

/-- Members with every mark changed. -/
def mapMemberMarks (f : μ → ν) : List (Scalar × Tree μ) → List (Scalar × Tree ν)
  | [] => []
  | (k, v) :: rest => (k, mapMarks f v) :: mapMemberMarks f rest

end

/-- The value without its marks. -/
def plain (v : Tree μ) : Value :=
  mapMarks (fun _ => ()) v

mutual

/-- How deep objects, lists and pairs are nested in a value. -/
def height : Tree μ → Nat
  | .scalar _ => 0
  | .list xs => itemsHeight xs + 1
  | .pair a b => max (height a) (height b) + 1
  | .set _ => 0
  | .marked _ ms => membersHeight ms + 1

/-- The greatest height of list items. -/
def itemsHeight : List (Tree μ) → Nat
  | [] => 0
  | v :: rest => max (height v) (itemsHeight rest)

/-- The greatest height of members. -/
def membersHeight : List (Scalar × Tree μ) → Nat
  | [] => 0
  | (_, v) :: rest => max (height v) (membersHeight rest)

end

end Tree

namespace AnchoredValue

/-- A value whose objects stand in one place each. -/
def ofValue (v : Value) : AnchoredValue :=
  v.mapMarks fun _ => none

/-- A copy of a value. Within it, one object still may stand in several places.
Different copies need different numbers. -/
def copy (number : Nat) (v : AnchoredValue) : AnchoredValue :=
  v.mapMarks fun mark => mark.map fun anchor =>
    { anchor with copies := number :: anchor.copies }

mutual

/-- The anchors of the objects in a value, each as often as it is found. -/
def anchors : AnchoredValue → List Anchor
  | .scalar _ => []
  | .list xs => itemAnchors xs
  | .pair a b => anchors a ++ anchors b
  | .set _ => []
  | .marked mark ms => mark.toList ++ memberAnchors ms

/-- The anchors of the objects in list items. -/
def itemAnchors : List AnchoredValue → List Anchor
  | [] => []
  | v :: rest => anchors v ++ itemAnchors rest

/-- The anchors of the objects in members. -/
def memberAnchors : List (Scalar × AnchoredValue) → List Anchor
  | [] => []
  | (_, v) :: rest => anchors v ++ memberAnchors rest

end

/-- The value with anchors on those objects only that stand in more than one place of
it. -/
def withoutLoneAnchors (v : AnchoredValue) : AnchoredValue :=
  let found := v.anchors
  v.mapMarks fun mark => mark.filter fun anchor => 1 < found.count anchor

end AnchoredValue

/-- The members of the anchored objects that have changed; `depth` is more than any
value is nested. -/
structure Objects where
  depth : Nat
  changed : List (Anchor × Tree.Members (Option Anchor))

namespace Objects

/-- No changes yet in a value. Whatever is changed moves parts of it down by a few
levels at most. -/
def unchanged (v : AnchoredValue) : Objects :=
  ⟨2 * v.height + 8, []⟩

/-- The members of an object after the changes, given those that are written in a
tree. -/
def latest (objects : Objects) (mark : Option Anchor)
    (written : Tree.Members (Option Anchor)) :
    Tree.Members (Option Anchor) :=
  (mark.bind fun anchor => List.lookup anchor objects.changed).getD written

/-- A value with all of its objects up to date. -/
def settleTo (objects : Objects) : (depth : Nat) → AnchoredValue → AnchoredValue
  | 0, v => v
  | depth + 1, v =>
    match v with
    | .list xs => .list (xs.map (settleTo objects depth))
    | .pair a b => .pair (settleTo objects depth a) (settleTo objects depth b)
    | .marked mark ms =>
      .marked mark ((objects.latest mark ms).map fun entry =>
        (entry.1, settleTo objects depth entry.2))
    | v => v

/-- A value with all of its objects up to date. -/
def settle (objects : Objects) (v : AnchoredValue) : AnchoredValue :=
  objects.settleTo objects.depth v

/-- Members with all objects in them up to date. -/
def settleMembers (objects : Objects) (ms : Tree.Members (Option Anchor)) :
    Tree.Members (Option Anchor) :=
  ms.map fun entry => (entry.1, objects.settle entry.2)

/-- The objects after a change to one of them. -/
def change (anchor : Anchor) (members : Tree.Members (Option Anchor))
    (objects : Objects) : Objects :=
  { objects with
    changed := (anchor, members) :: objects.changed.filter (·.1 != anchor) }

end Objects

end ApiWorkbench
