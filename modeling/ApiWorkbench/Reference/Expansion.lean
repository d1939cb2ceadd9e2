import ApiWorkbench.Reference.Pointer

/-!
# Expanding references

An object with a pointer under `$ref` stands for what the pointer leads to. Expanding a
value puts that in its place; members beside the pointer override those of an object
found there. A pointer that leads nowhere is left, and so is one that is being expanded
already: that is where a recursive structure is cut.

What a pair holds is never looked at.

`expandWith` walks a value once and is told by a function what becomes of each pointer.
`expandFrom` is the knot: it expands what a pointer leads to while holding that pointer
back, and ends because every expansion takes one pointer off the list of those that may
still be followed.
-/

namespace ApiWorkbench.Reference

/-- What becomes of a pointer. -/
inductive Target where
  /-- it stays, with everything beside it -/
  | held
  /-- it leads nowhere; what is beside it is expanded -/
  | missing
  /-- this stands in its place -/
  | found (v : Value)

/-- What `follow` makes of the pointer of an object; an object without a pointer is like
one whose pointer leads nowhere. -/
def target (follow : String → Except Fault Target) (members : Members) :
    Except Fault Target :=
  match Members.get? "$ref" members with
  | some (.str pointer) => follow pointer
  | _ => pure .missing

mutual

/-- A value with every pointer replaced by what `follow` makes of it. -/
def expandWith (follow : String → Except Fault Target) : Value → Except Fault Value
  | .scalar s => pure (.scalar s)
  | .list xs => do pure (.list (← expandItems follow xs))
  | .pair a b => pure (.pair a b)
  | .set names => pure (.set names)
  | .object ms => do
    match ← target follow ms with
    | .held => pure (.object ms)
    | .missing => do pure (.object (← expandMembers follow ms))
    | .found (.object base) => do
      pure (.object (Members.putAll base (← expandSiblings follow ms)))
    | .found v => pure v

/-- Expands list items. -/
def expandItems (follow : String → Except Fault Target) :
    List Value → Except Fault (List Value)
  | [] => pure []
  | v :: rest => do
    let w ← expandWith follow v
    pure (w :: (← expandItems follow rest))

/-- Expands the values of members. -/
def expandMembers (follow : String → Except Fault Target) :
    List (Scalar × Value) → Except Fault (List (Scalar × Value))
  | [] => pure []
  | (k, v) :: rest => do
    let w ← expandWith follow v
    pure ((k, w) :: (← expandMembers follow rest))

/-- Expands the values of the members beside a pointer, which is left out. -/
def expandSiblings (follow : String → Except Fault Target) :
    List (Scalar × Value) → Except Fault (List (Scalar × Value))
  | [] => pure []
  | (k, v) :: rest =>
    if k.same "$ref" then expandSiblings follow rest
    else do
      let w ← expandWith follow v
      pure ((k, w) :: (← expandSiblings follow rest))

end

mutual

/-- Every pointer in a value. -/
def pointers : Value → List String
  | .scalar _ => []
  | .list xs => itemPointers xs
  | .pair _ _ => []
  | .set _ => []
  | .object ms =>
    (match Members.get? "$ref" ms with
    | some (.str pointer) => [pointer]
    | _ => []) ++ memberPointers ms

/-- Every pointer in list items. -/
def itemPointers : List Value → List String
  | [] => []
  | v :: rest => pointers v ++ itemPointers rest

/-- Every pointer in the values of members. -/
def memberPointers : List (Scalar × Value) → List String
  | [] => []
  | (_, v) :: rest => pointers v ++ memberPointers rest

end

/-- Follows a pointer without expanding what it leads to. -/
def followOnce (root : Value) (pointer : String) : Except Fault Target := do
  let found ← resolve (.str pointer) root
  pure (if found.isNull then .missing else .found found)

/-- A value expanded to any depth, following only pointers among `free`; at most `depth`
pointers may be open inside one another. -/
def expandFrom (root : Value) :
    (depth : Nat) → (free : List String) → Value → Except Fault Value
  | 0, _, v => expandWith (fun _ => pure .held) v
  | depth + 1, free, v =>
    expandWith (fun pointer => do
      if free.contains pointer then
        match ← followOnce root pointer with
        | .found next => do
          pure (.found (← expandFrom root depth (free.filter (· != pointer)) next))
        | other => pure other
      else pure .held) v

/-- A value with every pointer into `root` expanded. -/
def expand (node root : Value) : Except Fault Value :=
  let free := (pointers node ++ pointers root).eraseDups
  expandFrom root free.length free node

/-- A value with its own pointers expanded, but not those in what they lead to. -/
def expandShallow (node root : Value) : Except Fault Value :=
  expandWith (followOnce root) node

end ApiWorkbench.Reference
