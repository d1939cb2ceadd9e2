import ApiWorkbench.Value.Members

/-!
# Reading values of unknown shape

Documents are edited and generated from without having been checked first, so every step
may meet a value of a kind it cannot use. Such a step ends with a `Fault` that says what
was missing. A member that is absent reads as null.
-/

namespace ApiWorkbench

/-- Why a value could not be used. -/
inductive Fault where
  /-- members were asked of something that is no object -/
  | notAnObject
  /-- items were asked of a value that has none -/
  | notIterable
  /-- a list or an object stood where a name is needed -/
  | notAName
  /-- a text was needed -/
  | notText
  /-- an entry that has to be there is missing -/
  | missingEntry
  /-- a value that the text format cannot express -/
  | notExpressible
  /-- a number whose text is too long, or made of ornamental digits -/
  | notANumber
  /-- a code beyond that of the last character -/
  | notACharacter
  /-- a date, a time or an offset that does not exist -/
  | notADate
  /-- a value that is a part of itself -/
  | endless
  /-- a torn text, for a file that cannot hold it -/
  | torn
deriving DecidableEq, Repr

/-- The most digits an integer may have in a text. -/
def maxDigits : Nat := 4300

/-- Whether an integer is short enough to be written and read back. -/
def isWritable (n : Int) : Bool :=
  n.natAbs < Nat.pow 10 maxDigits

/-- Whether a scalar is no integer that is too long to be written. -/
def Scalar.isWritable : Scalar → Bool
  | .int n => ApiWorkbench.isWritable n
  | .pair a b => a.isWritable && b.isWritable
  | _ => true

/-- Whether a scalar has nothing torn in it. -/
def Scalar.isWhole : Scalar → Bool
  | .torn _ => false
  | .pair a b => a.isWhole && b.isWhole
  | _ => true

mutual

/-- Whether no text in a value is torn. -/
def Tree.isWhole {μ : Type} : Tree μ → Bool
  | .scalar s => s.isWhole
  | .list xs => areWhole xs
  | .pair a b => a.isWhole && b.isWhole
  | .set names => names.all Scalar.isWhole
  | .marked _ ms => membersAreWhole ms

/-- Whether no text in list items is torn. -/
def areWhole {μ : Type} : List (Tree μ) → Bool
  | [] => true
  | v :: rest => v.isWhole && areWhole rest

/-- Whether no text in members or their names is torn. -/
def membersAreWhole {μ : Type} : List (Scalar × Tree μ) → Bool
  | [] => true
  | (k, v) :: rest => k.isWhole && v.isWhole && membersAreWhole rest

end

mutual

/-- Whether no integer in a value is too long to be written. -/
def Tree.isWritable {μ : Type} : Tree μ → Bool
  | .scalar s => s.isWritable
  | .list xs => areWritable xs
  | .pair a b => a.isWritable && b.isWritable
  | .set names => names.all Scalar.isWritable
  | .marked _ ms => membersAreWritable ms

/-- Whether no integer in list items is too long to be written. -/
def areWritable {μ : Type} : List (Tree μ) → Bool
  | [] => true
  | v :: rest => v.isWritable && areWritable rest

/-- Whether no integer in members or their names is too long to be written. -/
def membersAreWritable {μ : Type} : List (Scalar × Tree μ) → Bool
  | [] => true
  | (k, v) :: rest => k.isWritable && v.isWritable && membersAreWritable rest

end

namespace Tree

variable {μ : Type}

/-- The object with the given members, under names that are texts. -/
def record [Inhabited μ] (fields : List (String × Tree μ)) : Tree μ :=
  .object (fields.map fun field => (.str field.1, field.2))

/-- The object with the given members that are not null. -/
def recordOf [Inhabited μ] (fields : List (String × Tree μ)) : Tree μ :=
  record (fields.filter fun field => !field.2.isNull)

/-- The members of an object. -/
def members : Tree μ → Except Fault (Tree.Members μ)
  | .marked _ ms => pure ms
  | _ => throw .notAnObject

/-- The member of an object under a name; null when absent. -/
def member (v : Tree μ) (name : Scalar) : Except Fault (Tree μ) := do
  let ms ← v.members
  pure ((Members.get? name ms).getD null)

/-- The members of an object, or none at all for a blank value. -/
def membersOrNone (v : Tree μ) : Except Fault (Tree.Members μ) :=
  if v.isBlank then pure [] else v.members

/-- The items of a list, a pair or a set, the names of an object, the characters of a
text, and bytes as integers. -/
def items : Tree μ → Except Fault (List (Tree μ))
  | .list xs => pure xs
  | .pair a b => pure [a, b]
  | .set names => pure (names.map .scalar)
  | .marked _ ms => pure (ms.map fun entry => .scalar entry.1)
  | .str s => pure (s.toList.map fun c => str c.toString)
  | .scalar (.torn text) =>
      pure (text.letters.map fun letter => .scalar (.ofLetters [letter]))
  | .scalar (.bytes b) => pure (b.map fun byte => int byte.toNat)
  | _ => throw .notIterable

/-- The items of a value, or none at all for a blank one. -/
def itemsOrNone (v : Tree μ) : Except Fault (List (Tree μ)) :=
  if v.isBlank then pure [] else v.items

/-- The first item of a list or a pair, the first character of a text, the first byte;
what an object has under zero. -/
def first : Tree μ → Except Fault (Tree μ)
  | .marked _ ms =>
    match Members.get? (.int 0) ms with
    | some v => pure v
    | none => throw .missingEntry
  | .set _ => throw .notIterable
  | v => do
    match ← v.items with
    | x :: _ => pure x
    | [] => throw .missingEntry

/-- Whether a value is the given text. -/
def isText (text : String) : Tree μ → Bool
  | .str s => s == text
  | _ => false

/-- A value for use as a name: a scalar or a pair of names. -/
def name : Tree μ → Except Fault Scalar
  | .scalar s => pure s
  | .pair a b => do
    let first ← name a
    pure (.pair first (← name b))
  | _ => throw .notAName

/-- Whether a value is the scalar of a name. -/
def isNamed (name : String) : Tree μ → Bool
  | .scalar s => s.same name
  | _ => false

/-- Whether `part` occurs in a list as consecutive items. -/
def occursIn {α : Type} [BEq α] (part : List α) : List α → Bool
  | [] => part.isEmpty
  | c :: rest => part.isPrefixOf (c :: rest) || occursIn part rest

/-- Whether a value holds a name: as a member, as an item, or as a part of a text. -/
def holds (v : Tree μ) (name : String) : Except Fault Bool :=
  match v with
  | .marked _ ms => pure (Members.contains name ms)
  | .list xs => pure (xs.any (isNamed name))
  | .pair a b => pure (a.isNamed name || b.isNamed name)
  | .set names => pure (names.any fun k => k.same name)
  | .str s => pure (occursIn name.toList s.toList)
  | .scalar (.torn text) => pure (occursIn (Text.letters name) text.letters)
  | _ => throw .notIterable

/-- The entry that a two-item value stands for. -/
def entry (v : Tree μ) : Except Fault (Scalar × Tree μ) := do
  match ← v.items with
  | [k, w] => pure (← k.name, w)
  | _ => throw .notIterable

/-- The members of an object, or those that the entries of another value make. -/
def toMembers : Tree μ → Except Fault (Tree.Members μ)
  | .marked _ ms => pure ms
  | v => do
    let entries ← (← v.items).mapM entry
    pure (Members.ofEntries entries)

end Tree

namespace Members

variable {μ : Type}

/-- What is under a name; null when absent. -/
def valueAt (name : Scalar) (members : Tree.Members μ) : Tree μ :=
  (Members.get? name members).getD .null

/-- The map under a name; an empty one for a blank value. -/
def mapAt [Inhabited μ] (name : Scalar) (members : Tree.Members μ) : Tree μ :=
  (valueAt name members).orElse .emptyObject

/-- The list under a name; an empty one for a blank value. -/
def listAt (name : Scalar) (members : Tree.Members μ) : Except Fault (List (Tree μ)) :=
  (valueAt name members).itemsOrNone

end Members

end ApiWorkbench
