import ApiWorkbench.Value.Literal

/-!
# Problems of shape

A problem says where in a value something is wrong and what. `Validated` is a result
that gathers the problems of all of its parts instead of stopping at the first.
-/

namespace ApiWorkbench.Shape

/-- What can be wrong with a value. -/
inductive Cause where
  | missing
  | notText
  /-- bytes that encode no text, or a text that no bytes encode -/
  | notUtf8
  /-- an integer that is too long to be written as a text; it ends the check -/
  | notWritable
  | notList
  | notObject
  | notFlag
  /-- a text or a number that is no word for a truth value -/
  | unclearFlag
  | notInteger
  /-- a text that is no integer -/
  | unreadableInteger
  /-- a number with a fraction -/
  | fractional
  | tooLarge
  | notFinite
  /-- not one of a few words -/
  | notOneOf (words : List String)
  /-- no object of the named kind -/
  | notInstance (kind : String)
  /-- a name that is no text, in an object of a known kind -/
  | nameNotText
  /-- nothing that fields could be taken from -/
  | noFields
  | optionalPathParameter (name : String)
  /-- no tag where one decides what the value is -/
  | untagged
  | unknownTag (tag : String) (known : List String)
deriving DecidableEq, Repr

/-- Words in quotes, the last two joined by `or`. -/
def quotedChoice : List String → String
  | [] => ""
  | [a] => s!"'{a}'"
  | [a, b] => s!"'{a}' or '{b}'"
  | a :: rest => s!"'{a}', " ++ quotedChoice rest

/-- The wording of a cause. -/
def Cause.message : Cause → String
  | .missing => "Field required"
  | .notText => "Input should be a valid string"
  | .notUtf8 =>
      "Input should be a valid string, unable to parse raw data as a unicode string"
  | .notWritable => "Exceeds the limit for integer string conversion"
  | .notList => "Input should be a valid list"
  | .notObject => "Input should be a valid dictionary"
  | .notFlag => "Input should be a valid boolean"
  | .unclearFlag => "Input should be a valid boolean, unable to interpret input"
  | .notInteger => "Input should be a valid integer"
  | .unreadableInteger =>
      "Input should be a valid integer, unable to parse string as an integer"
  | .fractional =>
      "Input should be a valid integer, got a number with a fractional part"
  | .tooLarge => "Unable to parse input string as an integer, exceeded maximum size"
  | .notFinite => "Input should be a finite number"
  | .notOneOf words => "Input should be " ++ quotedChoice words
  | .notInstance kind => "Input should be a valid dictionary or instance of " ++ kind
  | .nameNotText => "Keys should be strings"
  | .noFields => "Input should be a valid dictionary or object to extract fields from"
  | .optionalPathParameter name =>
      s!"Value error, path parameter '{name}' must be required"
  | .untagged => "Unable to extract tag using discriminator 'type'"
  | .unknownTag tag known =>
    s!"Input tag '{tag}' found using 'type' does not match any of the expected tags: "
      ++ ", ".intercalate (known.map fun word => s!"'{word}'")

/-- Something wrong at a place, which is given by the names and positions
that lead there. -/
structure Problem where
  location : List String
  cause : Cause
deriving DecidableEq, Repr

namespace Problem

/-- The problem as seen from one level further out. -/
def under (part : String) (p : Problem) : Problem :=
  { p with location := part :: p.location }

/-- The place and the wording of a problem. -/
def message (p : Problem) : String :=
  ".".intercalate p.location ++ ": " ++ p.cause.message

end Problem

/-- A result, or everything that is wrong. -/
inductive Validated (α : Type) where
  | valid (a : α)
  | invalid (problems : List Problem)

namespace Validated

variable {α β : Type}

/-- The result of a function on two parts; the problems of both. -/
def map2 {γ : Type} (f : α → β → γ) : Validated α → Validated β → Validated γ
  | .valid a, .valid b => .valid (f a b)
  | .valid _, .invalid q => .invalid q
  | .invalid p, .valid _ => .invalid p
  | .invalid p, .invalid q => .invalid (p ++ q)

instance : Applicative Validated where
  pure := .valid
  seq f x := map2 (fun f a => f a) f (x ())

/-- Only a problem, here. -/
def fail (cause : Cause) : Validated α :=
  .invalid [⟨[], cause⟩]

/-- A result whose problems lie under a part of the place. -/
def under (part : String) : Validated α → Validated α
  | .valid a => .valid a
  | .invalid problems => .invalid (problems.map (·.under part))

/-- The problems of a result. -/
def problems : Validated α → List Problem
  | .valid _ => []
  | .invalid problems => problems

/-- The results of a function on all items, with the problems of each under its
position. -/
def items (f : α → Validated β) : (position : Nat) → List α → Validated (List β)
  | _, [] => .valid []
  | position, a :: rest =>
    map2 (· :: ·) ((f a).under (toString position)) (items f (position + 1) rest)

end Validated

end ApiWorkbench.Shape
