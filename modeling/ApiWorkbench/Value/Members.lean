import ApiWorkbench.Value.Basic

/-!
# Ordered members

The members of an object are a list of named entries. Putting an entry under a name that
is present replaces its value and keeps its position; a new name goes to the end. Names
are compared with `Scalar.same`, and an entry keeps the name it was first put under.

Two values are the same if they have the same items in the same order, or the same
members in any order; scalars are compared as names are. Marks do not count.
-/

namespace ApiWorkbench

namespace Members

variable {α : Type}

/-- The entry under a name. -/
def get? (name : Scalar) : List (Scalar × α) → Option α
  | [] => none
  | (k, v) :: rest => if k.same name then some v else get? name rest

/-- Whether a name is present. -/
def contains (name : Scalar) (members : List (Scalar × α)) : Bool :=
  (get? name members).isSome

/-- `v` under `name`: in the place of the entry it replaces, or at the end. -/
def put (name : Scalar) (v : α) : List (Scalar × α) → List (Scalar × α)
  | [] => [(name, v)]
  | (k, w) :: rest => if k.same name then (k, v) :: rest else (k, w) :: put name v rest

/-- The members without the entry under `name`. -/
def erase (name : Scalar) (members : List (Scalar × α)) : List (Scalar × α) :=
  members.filter fun entry => !entry.1.same name

/-- `members` with all of `others` put into it, in order. -/
def putAll (members others : List (Scalar × α)) : List (Scalar × α) :=
  others.foldl (fun ms entry => put entry.1 entry.2 ms) members

/-- The members that a sequence of entries makes: a repeated name keeps its first place
and its last value. -/
def ofEntries (entries : List (Scalar × α)) : List (Scalar × α) :=
  putAll [] entries

/-- The names in order. -/
def names (members : List (Scalar × α)) : List Scalar :=
  members.map (·.1)

/-- `old` renamed to `new` in its place; an entry that was under `new` disappears. None
if `old` is missing. -/
def rename? (old new : Scalar) (members : List (Scalar × α)) :
    Option (List (Scalar × α)) :=
  (get? old members).map fun value =>
    ofEntries <| members.filterMap fun (k, v) =>
      if k.same old then some (new, value) else if k.same new then none else some (k, v)

/-- The least number, starting from `counter`, that makes a free name when written after
`base`; at most `tries` numbers are looked at. -/
def freeSuffix (taken : String → Bool) (base : String) : (tries counter : Nat) → Nat
  | 0, counter => counter
  | tries + 1, counter =>
    if taken (base ++ toString counter) then freeSuffix taken base tries (counter + 1)
    else counter

/-- `base`, or `base1`, `base2`, ... whichever is first free among `names`. One more try
than there are names always finds a free one. -/
def freeName (names : List Scalar) (base : String) : String :=
  let taken (name : String) := names.any fun k => k.same name
  if taken base then base ++ toString (freeSuffix taken base (names.length + 1) 1)
  else base

/-- The values of all entries changed by a function that may fail. -/
def mapValuesM {m : Type → Type} [Monad m] {β : Type} (f : α → m β) :
    List (Scalar × α) → m (List (Scalar × β))
  | [] => pure []
  | (k, v) :: rest => do
    let w ← f v
    let others ← mapValuesM f rest
    pure ((k, w) :: others)

/-- The entry under a name, if there is one, changed by a function that may fail. -/
def modifyM {m : Type → Type} [Monad m] (name : Scalar) (f : α → m α) :
    List (Scalar × α) → m (List (Scalar × α))
  | [] => pure []
  | (k, v) :: rest =>
    if k.same name then do
      let w ← f v
      pure ((k, w) :: rest)
    else do
      let others ← modifyM name f rest
      pure ((k, v) :: others)

end Members

/-! ## Equality of values -/

/-- Whether two sets hold the same names, given that each holds a name only once. -/
def sameNames (names others : List Scalar) : Bool :=
  names.length == others.length && names.all fun name => others.any name.same

mutual

/-- Equality of values. -/
def Tree.same {μ ν : Type} : Tree μ → Tree ν → Bool
  | .scalar a, .scalar b => a.same b
  | .list xs, .list ys => sameItems xs ys
  | .pair a b, .pair c d => a.same c && b.same d
  | .set a, .set b => sameNames a b
  | .marked _ ms, .marked _ ns => ms.length == ns.length && sameMembers ms ns
  | _, _ => false

/-- Equality of lists, item by item. -/
def sameItems {μ ν : Type} : List (Tree μ) → List (Tree ν) → Bool
  | [], [] => true
  | x :: xs, y :: ys => x.same y && sameItems xs ys
  | _, _ => false

/-- Whether other members hold the same value under each name. -/
def sameMembers {μ ν : Type} : List (Scalar × Tree μ) → List (Scalar × Tree ν) → Bool
  | [], _ => true
  | (k, v) :: rest, others =>
    (match Members.get? k others with
    | some w => v.same w
    | none => false) && sameMembers rest others

end

end ApiWorkbench
