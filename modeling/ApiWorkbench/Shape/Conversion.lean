import ApiWorkbench.Decimal.Reading
import ApiWorkbench.Shape.Problem
import ApiWorkbench.Text.Percent
import ApiWorkbench.Value.Reading

/-!
# Lenient conversions

Where a truth value, an integer or a text is expected, some other values are taken for
one: words for truth values, integers written as text or as doubles without a fraction,
and truth values as integers. Bytes count as the text that they encode, and pairs and
sets as lists. A torn text is a text, but nothing can be read from it.
-/

namespace ApiWorkbench.Shape

variable {μ : Type}

/-- The words for false. -/
def falseWords : List String := ["0", "off", "f", "false", "n", "no"]

/-- The words for true. -/
def trueWords : List String := ["1", "on", "t", "true", "y", "yes"]

/-- The truth value that a number is. -/
def flagOfInteger (n : Int) : Validated Bool :=
  if n == 0 then .valid false else if n == 1 then .valid true else .fail .unclearFlag

/-- The first number beyond the integers of 64 bits. -/
def machineBound : Nat := Nat.pow 2 63

/-- Integers of 64 bits. -/
def isMachineInteger (n : Int) : Bool :=
  -(machineBound : Int) ≤ n && n < machineBound

/-- The truth value that a word stands for. -/
def flagOfWord (text : String) : Validated Bool :=
  let word := String.ofList (text.toList.map Char.toLower)
  if falseWords.contains word then .valid false
  else if trueWords.contains word then .valid true
  else .fail .unclearFlag

/-- A truth value. -/
def toFlag : Tree μ → Validated Bool
  | .bool b => .valid b
  | .str s => flagOfWord s
  | .scalar (.bytes b) =>
    match Text.utf8? b with
    | some s => flagOfWord s
    | none => .fail .unclearFlag
  | .scalar (.torn _) => .fail .notUtf8
  | .int n => if isMachineInteger n then flagOfInteger n else .fail .notFlag
  | .float x =>
    match x.toInt? with
    | some n => if n.natAbs < machineBound then flagOfInteger n else .fail .notFlag
    | none => .fail .notFlag
  | _ => .fail .notFlag

/-- Whether a character is an ASCII digit. -/
def isAsciiDigit (c : Char) : Bool :=
  '0' ≤ c && c ≤ '9'

/-- A number after its leading zeros, among which there may be underscores. At a point
and at the end the last character passed over stays. -/
def dropZeros (last : Char) : List Char → Option (List Char)
  | [] => some [last]
  | c :: rest =>
    if c == '0' || c == '_' then dropZeros c rest
    else if isAsciiDigit c || c == '-' then some (c :: rest)
    else if c == '.' then some (last :: c :: rest)
    else none

/-- A number without leading zeros; it has to begin with a digit or a minus sign. -/
def withoutZeros : List Char → Option (List Char)
  | '0' :: rest => dropZeros '0' rest
  | c :: rest => if isAsciiDigit c || c == '-' then some (c :: rest) else none
  | [] => none

/-- A number without a leading plus sign, and without the zeros that follow a minus sign
or stand in front. -/
def withoutPadding : List Char → Option (List Char)
  | '+' :: '-' :: _ => none
  | '+' :: rest => withoutZeros rest
  | '-' :: rest => (withoutZeros rest).map ('-' :: ·)
  | cs => withoutZeros cs

/-- A number without a fraction of zeros. -/
def withoutFraction (cs : List Char) : Option (List Char) :=
  match cs.span (· != '.') with
  | (whole, '.' :: fraction) =>
    if !fraction.isEmpty && fraction.all (· == '0') then some whole else none
  | _ => some cs

/-- Whether underscores stand only between other characters, one at a time. -/
def areSeparators : List Char → Bool
  | [] => true
  | ['_'] => false
  | '_' :: '_' :: _ => false
  | _ :: rest => areSeparators rest

/-- A number without the underscores between its digits. -/
def withoutUnderscores (cs : List Char) : Option (List Char) :=
  if cs.head? != some '_' && areSeparators cs then some (cs.filter (· != '_')) else none

/-- The integer of digits after an optional minus sign, without leading zeros; it may
not be too long. -/
def plainInteger (cs : List Char) : Option Int :=
  let (negative, digits) := match cs with
    | '-' :: rest => (true, rest)
    | _ => (false, cs)
  let canonical := digits == ['0'] || digits.head? != some '0'
  if canonical && !digits.isEmpty && digits.all isAsciiDigit && cs.length ≤
      maxDigits then do
    let n ← Decimal.readDigits 10 digits
    pure (if negative then -(n : Int) else n)
  else none

/-- The integer that a text spells. -/
def integerOfText (text : List Char) : Option Int := do
  let cs ← withoutPadding (Text.trimBy Text.isNumberBlank text)
  plainInteger (← withoutUnderscores (← withoutFraction cs))

/-- Whether a text begins with an integer that is too long, written without
leading zeros. -/
def beginsTooLong (text : List Char) : Bool :=
  let (sign, rest) := match text with
    | '-' :: rest => (1, rest)
    | _ => (0, text)
  let digits := rest.takeWhile isAsciiDigit
  digits.head? != some '0' && maxDigits < sign + digits.length

/-- The integer that a text spells, if it is not too long. -/
def readInteger (text : String) : Validated Int :=
  if beginsTooLong text.toList then .fail .tooLarge
  else match integerOfText text.toList with
    | some n => .valid n
    | none => .fail .unreadableInteger

/-- An integer. -/
def toInteger : Tree μ → Validated Int
  | .int n => .valid n
  | .bool b => .valid (if b then 1 else 0)
  | .str s => readInteger s
  | .scalar (.bytes b) =>
    match Text.utf8? b with
    | some s => readInteger s
    | none => .fail .unreadableInteger
  | .scalar (.torn _) => .fail .notUtf8
  | .float x =>
    if !x.isFinite then .fail .notFinite
    else match x.toInt? with
      | some n => if n.natAbs < machineBound then .valid n else .fail .tooLarge
      | none => .fail .fractional
  | _ => .fail .notInteger

/-- A text. -/
def toText : Tree μ → Validated String
  | .str s => .valid s
  | .scalar (.torn text) => .valid text.shown
  | .scalar (.bytes b) =>
    match Text.utf8? b with
    | some s => .valid s
    | none => .fail .notUtf8
  | _ => .fail .notText

/-- A text, or a number taken for one. -/
def toTextOrNumber : Tree μ → Validated String
  | .int n => if isWritable n then .valid (toString n) else .fail .notWritable
  | .float x => .valid x.literal
  | v => toText v

/-- One of a few words, each standing for something. -/
def toWord {α : Type} (words : List (String × α)) (v : Tree μ) : Validated α :=
  match v with
  | .str s =>
    match words.find? (·.1 == s) with
    | some word => .valid word.2
    | none => .fail (.notOneOf (words.map (·.1)))
  | .scalar (.torn _) => .fail .notUtf8
  | _ => .fail (.notOneOf (words.map (·.1)))

/-- A name as a part of a place. Truth values are given as integers there. -/
def placeOf : Scalar → String
  | .str s => s
  | .torn text => text.shown
  | .bool b => if b then "1" else "0"
  | k => k.literal

/-- A name that has to be a text. -/
def toTextName : Scalar → Validated Scalar
  | .torn text => .valid (.torn text)
  | k => .str <$> toText (.scalar k : Value)

/-- The members of an object whose names have to be texts. -/
def toTextNames : Tree.Members μ → Validated (Tree.Members μ)
  | [] => .valid []
  | (k, v) :: rest =>
    let name := ((toTextName k).under "[key]").under (placeOf k)
    Validated.map2 (fun name others => (name, v) :: others) name (toTextNames rest)

/-- An object whose names are texts. -/
def toObject : Tree μ → Validated (Tree.Members μ)
  | .marked _ ms => Members.ofEntries <$> toTextNames ms
  | _ => .fail .notObject

/-- A value or null. -/
def toNullable {α : Type} (read : Tree μ → Validated α) : Tree μ → Validated (Option α)
  | .null => .valid none
  | v => some <$> read v

/-- A list. -/
def toList {α : Type} (read : Tree μ → Validated α) : Tree μ → Validated (List α)
  | .list xs => Validated.items read 0 xs
  | .pair a b => Validated.items read 0 [a, b]
  | .set names => Validated.items read 0 (names.map .scalar)
  | _ => .fail .notList

/-! ## Fields -/

/-- What is under a name has to be there. -/
def required {α : Type} (name : String) (read : Tree μ → Validated α)
    (members : Tree.Members μ) :
    Validated α :=
  match Members.get? name members with
  | some v => (read v).under name
  | none => .invalid [⟨[name], .missing⟩]

/-- What is under a name, or a default. -/
def optional {α : Type} (name : String) (default : α) (read : Tree μ → Validated α)
    (members : Tree.Members μ) : Validated α :=
  match Members.get? name members with
  | some v => (read v).under name
  | none => .valid default

end ApiWorkbench.Shape
