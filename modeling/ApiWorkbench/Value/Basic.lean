import ApiWorkbench.Decimal.Binary64
import ApiWorkbench.Text.Letter
import ApiWorkbench.Value.Calendar

/-!
# Values of documents

A document is a tree of scalars, lists and objects. The members of an object keep their
order, which is part of the document, and their names are scalars: a text format may
leave a name unquoted and thereby make it a number, and such a name has to survive until
it is turned into text. Some text formats also know pairs, sets of names, and bytes; a
pair of names is a name, too.

Every object of a `Tree` carries a mark. A `Value` is a tree whose marks say nothing;
marks are of use where it matters that one and the same object stands in several places.

Numbers are compared by value wherever names are compared: the integer 1, the number 1.0
and `true` name the same member. `Scalar.same` is that comparison; the structural
equality of the type keeps them apart.
-/

namespace ApiWorkbench

/-- The leaves of a document, which are also the names its objects may use. -/
inductive Scalar where
  | null
  | bool (b : Bool)
  | int (n : Int)
  | float (x : Binary64)
  | str (s : String)
  /-- a text with halves of surrogate pairs -/
  | torn (text : Text.Torn)
  | bytes (b : List UInt8)
  | date (d : Date)
  | moment (m : Moment)
  /-- a pair that is used as a name; as a part of a document it is a `Tree.pair` -/
  | pair (first second : Scalar)
deriving DecidableEq, Repr, Inhabited

/-- A document or a part of one, with a mark on every object. -/
inductive Tree (μ : Type) where
  | scalar (s : Scalar)
  | list (items : List (Tree μ))
  | pair (first second : Tree μ)
  | set (names : List Scalar)
  | marked (mark : μ) (members : List (Scalar × Tree μ))
deriving Repr

instance {μ : Type} : Inhabited (Tree μ) := ⟨.scalar .null⟩

/-- The entries of an object whose parts carry marks, in order. -/
abbrev Tree.Members (μ : Type) : Type := List (Scalar × Tree μ)

/-- A document or a part of one. -/
abbrev Value : Type := Tree Unit

/-- The entries of an object, in order. -/
abbrev Members : Type := Tree.Members Unit

namespace Scalar

instance : Coe String Scalar := ⟨str⟩

/-- The number that a scalar counts as in comparisons: an integer, or a
double that is none. -/
def number? : Scalar → Option (Int ⊕ Binary64)
  | bool b => some (.inl (if b then 1 else 0))
  | int n => some (.inl n)
  | float x =>
    match x.toInt? with
    | some n => some (.inl n)
    | none => some (.inr x)
  | _ => none

/-- Equality of scalars as names: numbers by value, everything else by content. -/
def same : Scalar → Scalar → Bool
  | null, null => true
  | str a, str b => a == b
  | torn a, torn b => a == b
  | bytes a, bytes b => a == b
  | date a, date b => a == b
  | moment a, moment b => a.same b
  | pair a b, pair c d => same a c && same b d
  | a, b =>
    match a.number?, b.number? with
    | some (.inl m), some (.inl n) => m == n
    | some (.inr x), some (.inr y) => x.same y
    | _, _ => false

/-- A scalar is blank when it carries nothing: null, false, zero, the empty
text and no bytes. -/
def isBlank : Scalar → Bool
  | .null => true
  | .bool b => !b
  | .int n => n == 0
  | .float x => x.isZero
  | .str s => s.isEmpty
  | .torn _ => false
  | .bytes b => b.isEmpty
  | .date _ => false
  | .moment _ => false
  | .pair _ _ => false

/-- Whether a scalar is a torn text. -/
def isTorn : Scalar → Bool
  | torn _ => true
  | _ => false

/-- The text of letters. -/
def ofLetters (letters : List Text.Letter) : Scalar :=
  if h : letters.any Text.Letter.isHalf then torn ⟨letters, h⟩
  else str (String.ofList (letters.map Text.Letter.shown))

end Scalar

/-- An object whose mark says nothing. -/
@[match_pattern] abbrev Value.object (members : Members) : Value := .marked () members

namespace Tree

variable {μ : Type}

/-- The value that stands for nothing. -/
@[match_pattern] abbrev null : Tree μ := .scalar .null

/-- A truth value. -/
@[match_pattern] abbrev bool (b : Bool) : Tree μ := .scalar (.bool b)

/-- An integer. -/
@[match_pattern] abbrev int (n : Int) : Tree μ := .scalar (.int n)

/-- A double. -/
@[match_pattern] abbrev float (x : Binary64) : Tree μ := .scalar (.float x)

/-- A text. -/
@[match_pattern] abbrev str (s : String) : Tree μ := .scalar (.str s)

instance : Coe String (Tree μ) := ⟨str⟩

/-- A new object. -/
abbrev object [Inhabited μ] (members : Tree.Members μ) : Tree μ :=
  .marked default members

/-- The object without members. -/
abbrev emptyObject [Inhabited μ] : Tree μ := object []

/-- Whether a value is an object. -/
def isObject : Tree μ → Bool
  | .marked _ _ => true
  | _ => false

/-- Whether a value is null. -/
def isNull : Tree μ → Bool
  | .null => true
  | _ => false

/-- Whether a value is a text. -/
def isString : Tree μ → Bool
  | .str _ | .scalar (.torn _) => true
  | _ => false

/-- A value is blank when it carries nothing: a blank scalar, an empty list,
set or object. -/
def isBlank : Tree μ → Bool
  | .scalar s => s.isBlank
  | .list items => items.isEmpty
  | .pair _ _ => false
  | .set names => names.isEmpty
  | .marked _ members => members.isEmpty

/-- `v`, or `default` where `v` is blank. -/
def orElse (v default : Tree μ) : Tree μ :=
  if v.isBlank then default else v

end Tree

end ApiWorkbench
