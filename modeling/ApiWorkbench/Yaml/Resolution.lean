import ApiWorkbench.Text.Blank
import ApiWorkbench.Yaml.Cursor

/-!
# The type of a scalar

A plain scalar without a tag has the type whose notation it follows: a truth value, a
number, null, a date or time, or the two marks that mappings give a meaning to.
Everything else is a text.
-/

namespace ApiWorkbench.Yaml

/-- The types that a tag may name. -/
inductive Tag where
  | null
  | bool
  | int
  | float
  | timestamp
  | str
  | binary
  /-- the key of entries taken from another mapping -/
  | merge
  /-- the key of a mapping's own value -/
  | value
  | sequence
  | mapping
  | set
  | orderedMap
  | pairs
  /-- a type that is not known -/
  | unknown
deriving DecidableEq, Repr

/-- Whether a type is one of collections. -/
def Tag.isCollection : Tag → Bool
  | .sequence | .mapping | .set | .orderedMap | .pairs => true
  | _ => false

/-- Whether the items of a type are pairs. -/
def Tag.isOfPairs : Tag → Bool
  | .orderedMap | .pairs => true
  | _ => false

/-- Whether the node under a key of a type is taken apart: its entries are merged, or it
is asked for its own value. -/
def Tag.takesApart : Tag → Bool
  | .merge | .value => true
  | _ => false

/-- What the names of the known types begin with. -/
def coreNamespace : String := "tag:yaml.org,2002:"

/-- The type that a full tag names. -/
def Tag.ofName (name : List Char) : Tag :=
  let types : List (String × Tag) := [("null", .null), ("bool", .bool), ("int", .int),
    ("float", .float), ("timestamp", .timestamp), ("str", .str), ("binary", .binary),
    ("merge", .merge), ("value", .value), ("seq", .sequence), ("map", .mapping),
      ("set", .set),
    ("omap", .orderedMap), ("pairs", .pairs)]
  match types.find? fun type => name == (coreNamespace ++ type.1).toList with
  | some type => type.2
  | none => .unknown

/-- The words for truth values. -/
def boolWords : List String :=
  ["yes", "Yes", "YES", "no", "No", "NO", "true", "True", "TRUE", "false", "False",
    "FALSE", "on", "On", "ON", "off", "Off", "OFF"]

/-- The words for null. -/
def nullWords : List String :=
  ["", "~", "null", "Null", "NULL"]

/-- A text without one leading sign. -/
def unsigned : List Char → List Char
  | '+' :: rest => rest
  | '-' :: rest => rest
  | cs => cs

/-- Digits and underscores. -/
def isDigitOrGap (c : Char) : Bool :=
  isDigit c || c == '_'

/-- A nonempty text of characters with a property. -/
def isRunOf (p : Char → Bool) (cs : List Char) : Bool :=
  !cs.isEmpty && cs.all p

/-- Decimal digits and underscores, a digit first. -/
def isDecimalRun : List Char → Bool
  | [] => false
  | c :: rest => isDigit c && rest.all isDigitOrGap

/-- A number below sixty, in one or two digits. -/
def isSixtieth : List Char → Bool
  | [a] => isDigit a
  | [a, b] => '0' ≤ a && a ≤ '5' && isDigit b
  | _ => false

/-- Numbers below sixty after a first number, with colons between. -/
def isSexagesimal (cs : List Char) : Bool :=
  match Text.splitAt ':' cs with
  | first :: second :: others => isDecimalRun first && (second :: others).all isSixtieth
  | _ => false

/-- The notations of integers: binary, octal, hexadecimal, decimal and sexagesimal. -/
def isIntText (cs : List Char) : Bool :=
  match unsigned cs with
  | '0' :: 'b' :: digits => isRunOf (fun c => c == '0' || c == '1' || c == '_') digits
  | '0' :: 'x' :: digits =>
    isRunOf (fun c => isDigit c || ('a' ≤ c && c ≤ 'f') || ('A' ≤ c && c ≤ 'F') ||
      c == '_') digits
  | '0' :: digits => digits.all fun c => ('0' ≤ c && c ≤ '7') || c == '_'
  | digits => isDecimalRun digits || isSexagesimal digits

/-- Nothing, or the letter `e`, a sign and digits. -/
def isExponent : List Char → Bool
  | [] => true
  | e :: sign :: digits =>
      (e == 'e' || e == 'E') && (sign == '+' || sign == '-') && isRunOf isDigit digits
  | _ => false

/-- The notations of doubles: with a point and perhaps an exponent, sexagesimal with a
point, and the words for what is infinite or no number. -/
def isFloatText (cs : List Char) : Bool :=
  let body := unsigned cs
  let (whole, rest) := body.span isDigitOrGap
  let decimal := match rest with
    | '.' :: fraction =>
      (isDecimalRun whole || (body == cs &&
        whole.isEmpty && isDecimalRun (fraction.takeWhile isDigitOrGap))) &&
        isExponent (fraction.dropWhile isDigitOrGap)
    | _ => false
  let sexagesimal := match Text.splitAt '.' body with
    | [sixtieths, fraction] => isSexagesimal sixtieths && fraction.all isDigitOrGap
    | _ => false
  decimal || sexagesimal
    || [".inf", ".Inf", ".INF"].any (·.toList == body)
    || [".nan", ".NaN", ".NAN"].any (·.toList == cs)

/-! ## Dates and times -/

/-- The parts of a date and time as they are written. -/
structure TimestampText where
  year : List Char
  month : List Char
  day : List Char
  /-- hour, minute, second and fraction of a second -/
  clock : Option (List Char × List Char × List Char × List Char)
  /-- sign, hours and minutes of the offset; no sign for universal time -/
  zone : Option (Option Char × List Char × List Char)

/-- A run of digits at the start of a text, if its length is in range. -/
def digitsBetween (least most : Nat) (cs : List Char) :
    Option (List Char × List Char) :=
  let digits := (cs.take most).takeWhile isDigit
  if least ≤ digits.length then some (digits, cs.drop digits.length) else none

/-- What is left after a given character. -/
def afterChar (c : Char) : List Char → Option (List Char)
  | d :: rest => if d == c then some rest else none
  | [] => none

/-- The offset at the end of a time: none, `Z`, or a signed time. -/
def timestampZone (cs : List Char) :
    Option (Option (Option Char × List Char × List Char)) :=
  match cs.dropWhile isBlankChar with
  | [] => if cs.isEmpty then some none else none
  | ['Z'] => some (some (none, [], []))
  | sign :: rest =>
    if sign == '+' || sign == '-' then do
      let (hours, rest) ← digitsBetween 1 2 rest
      match rest with
      | [] => some (some (some sign, hours, []))
      | rest => do
        let (minutes, rest) ← digitsBetween 2 2 (← afterChar ':' rest)
        if rest.isEmpty then some (some (some sign, hours, minutes)) else none
    else none

/-- The time after a date: a letter T or white space, then hour, minute, second,
fraction and offset. -/
def timestampClock (cs : List Char) :
    Option ((List Char × List Char × List Char × List Char) ×
      Option (Option Char × List Char × List Char)) := do
  let rest ← match cs with
    | 'T' :: rest => some rest
    | 't' :: rest => some rest
    | c :: _ => if isBlankChar c then some (cs.dropWhile isBlankChar) else none
    | [] => none
  let (hour, rest) ← digitsBetween 1 2 rest
  let (minute, rest) ← digitsBetween 2 2 (← afterChar ':' rest)
  let (second, rest) ← digitsBetween 2 2 (← afterChar ':' rest)
  let (fraction, rest) := match rest with
    | '.' :: rest => rest.span isDigit
    | _ => ([], rest)
  let zone ← timestampZone rest
  pure ((hour, minute, second, fraction), zone)

/-- The parts of a date, or of a date and a time. -/
def timestampText? (cs : List Char) : Option TimestampText := do
  let (year, rest) ← digitsBetween 4 4 cs
  let (month, rest) ← digitsBetween 1 2 (← afterChar '-' rest)
  let (day, rest) ← digitsBetween 1 2 (← afterChar '-' rest)
  if rest.isEmpty then pure ⟨year, month, day, none, none⟩
  else
    let (clock, zone) ← timestampClock rest
    pure ⟨year, month, day, some clock, zone⟩

/-- Whether a plain scalar is a date or a time. A date alone needs two digits for
month and day. -/
def isTimestampText (cs : List Char) : Bool :=
  match timestampText? cs with
  | some parts =>
      parts.clock.isSome || (parts.month.length == 2 && parts.day.length == 2)
  | none => false

/-- The type of a plain scalar without a tag. -/
def plainTag (cs : List Char) : Tag :=
  let isOneOf (words : List String) := words.any (·.toList == cs)
  if isOneOf boolWords then .bool
  else if isFloatText cs then .float
  else if isIntText cs then .int
  else if cs == ['<', '<'] then .merge
  else if isOneOf nullWords then .null
  else if isTimestampText cs then .timestamp
  else if cs == ['='] then .value
  else if cs == ['!'] || cs == ['&'] || cs == ['*'] then .unknown
  else .str

/-- The text without one line feed at its end, unless that is all of it. -/
def withoutFinalFeed (cs : List Char) : List Char :=
  match cs.reverse with
  | '\n' :: c :: rest => (c :: rest).reverse
  | _ => cs

/-- The type of a scalar whose text decides on it. A line feed at its end
does not count. -/
def impliedTag (cs : List Char) : Tag :=
  plainTag (withoutFinalFeed cs)

end ApiWorkbench.Yaml
