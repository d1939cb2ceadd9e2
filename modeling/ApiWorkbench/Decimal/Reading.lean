import ApiWorkbench.Decimal.Binary64
import ApiWorkbench.Text.Blank
import ApiWorkbench.Text.CharSet

/-!
# Reading numbers

Numbers are read from texts that may have white space around them and a sign. Decimal
digits of any script count; an integer in base two, eight or sixteen may repeat its
base as a prefix.
-/

namespace ApiWorkbench.Decimal

/-- The value of a digit or a letter used as a digit. -/
def digitValue? (c : Char) : Option Nat :=
  if 'a' ≤ c && c ≤ 'z' then some (c.toNat - 'a'.toNat + 10)
  else if 'A' ≤ c && c ≤ 'Z' then some (c.toNat - 'A'.toNat + 10)
  else Text.decimalDigit? c

/-- The number that digits spell in a base; none for no digits or for one that the base
does not have. -/
def readDigits (base : Nat) (cs : List Char) : Option Nat :=
  if cs.isEmpty then none
  else cs.foldlM (fun n c => do
    let d ← digitValue? c
    if d < base then pure (base * n + d) else none) 0

/-- Whether a text starts with a sign, and what is left after it. -/
def readSign : List Char → Bool × List Char
  | '-' :: rest => (true, rest)
  | '+' :: rest => (false, rest)
  | cs => (false, cs)

/-- The letter of a base's prefix. -/
def baseLetters : Nat → List Char
  | 2 => ['b', 'B']
  | 8 => ['o', 'O']
  | 16 => ['x', 'X']
  | _ => []

/-- The integer that a text spells in a base. -/
def readInteger (base : Nat) (text : List Char) : Option Int := do
  let (negative, cs) := readSign (Text.trimBy Text.isNumberBlank text)
  let digits := match cs with
    | '0' :: letter :: rest => if (baseLetters base).contains letter then rest else cs
    | _ => cs
  let n ← readDigits base digits
  pure (if negative then -(n : Int) else n)

/-- Whether a character is a decimal digit. -/
def isDecimalDigit (c : Char) : Bool :=
  (Text.decimalDigit? c).isSome

/-- The exponent after a number: a letter, perhaps a sign, and digits; zero if
nothing is left. -/
def readExponent : List Char → Option Int
  | [] => some 0
  | e :: rest =>
    if e == 'e' || e == 'E' then do
      let (negative, digits) := readSign rest
      if digits.all isDecimalDigit then
        let n ← readDigits 10 digits
        pure (if negative then -(n : Int) else n)
      else none
    else none

/-- The double that a text spells: a decimal number, or a word for what is
infinite or no number. -/
def readDouble (text : List Char) : Option Binary64 := do
  let (negative, cs) := readSign (Text.trimBy Text.isNumberBlank text)
  let word := String.ofList (cs.map Char.toLower)
  if word == "inf" || word == "infinity" then pure (.infinity negative)
  else if word == "nan" then pure .nan
  else
    let (whole, rest) := cs.span isDecimalDigit
    let (fraction, rest) := match rest with
      | '.' :: rest => rest.span isDecimalDigit
      | _ => ([], rest)
    let digits ← readDigits 10 (whole ++ fraction)
    let exponent ← readExponent rest
    pure (.ofDecimal negative digits (exponent - fraction.length))

end ApiWorkbench.Decimal
