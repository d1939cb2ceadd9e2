import ApiWorkbench.Decimal.Reading
import ApiWorkbench.Text.Base64
import ApiWorkbench.Yaml.Resolution

/-!
# Values of scalars

What a scalar of each type stands for. A tag may force a type on a text that does not
have its notation; such a text is read as far as the rules for numbers go and is
meaningless otherwise.
-/

namespace ApiWorkbench.Yaml

/-- A number, or a scalar that stands for none. -/
def orMeaningless {α : Type} (fault : Fault) (result : Option α) : Except Failure α :=
  match result with
  | some a => pure a
  | none => throw (.meaningless fault)

/-- The truth value of a word. -/
def boolValue (text : List Char) : Except Failure Bool :=
  let word := String.ofList (text.map Char.toLower)
  if ["yes", "true", "on"].contains word then pure true
  else if ["no", "false", "off"].contains word then pure false
  else throw (.meaningless .notANumber)

/-- The value of numbers between colons, each worth sixty times the next. -/
def sexagesimalValue (parts : List Int) : Int :=
  parts.foldl (fun total part => 60 * total + part) 0

/-- An integer in base ten; one with too many digits has no value. -/
def decimalInteger (text : List Char) : Option Int :=
  if maxDigits < (text.filter Decimal.isDecimalDigit).length then none
  else Decimal.readInteger 10 text

/-- The value of an integer without its underscores and its sign. -/
def unsignedInteger (text : List Char) : Option Int :=
  match text with
  | [] => none
  | ['0'] => some 0
  | '0' :: 'b' :: rest => Decimal.readInteger 2 rest
  | '0' :: 'x' :: rest => Decimal.readInteger 16 rest
  | '0' :: _ => Decimal.readInteger 8 text
  | _ =>
    if text.contains ':' then ((Text.splitAt ':' text).mapM decimalInteger).map
      sexagesimalValue
    else decimalInteger text

/-- The value of an integer. Underscores mean nothing. -/
def intValue (text : List Char) : Except Failure Int := do
  let (negative, digits) := Decimal.readSign (text.filter (· != '_'))
  let n ← orMeaningless .notANumber (unsignedInteger digits)
  pure (if negative then -n else n)

/-- A double as the machine computes with it. -/
def machineFloat (x : Binary64) : Float := Float.ofBits x.bits

/-- The double of numbers between colons, summed up from the last one on, which is worth
`weight`. None if a weight is too large for a double. -/
def sexagesimalDouble (weight : Nat) (sum : Float) : List Binary64 → Option Binary64
  | [] => some ⟨sum.toBits⟩
  | part :: rest =>
    let factor := Binary64.ofDecimal false weight 0
    if factor.isFinite then
      sexagesimalDouble (60 * weight)
        (sum + machineFloat part * machineFloat factor) rest
    else none

/-- The number with its sign bit flipped. -/
def negated (x : Binary64) : Binary64 :=
  .ofMagnitudeBits (!x.isNegative) x.magnitudeBits

/-- The value of a double without its underscores and its sign, in lower case. -/
def unsignedDouble (text : List Char) : Option Binary64 :=
  if text == ".inf".toList then some (.infinity false)
  else if text == ".nan".toList then some .nan
  else if text.contains ':' then do
    let parts ← (Text.splitAt ':' text).mapM Decimal.readDouble
    sexagesimalDouble 1 0.0 parts.reverse
  else Decimal.readDouble text

/-- The value of a double. Underscores mean nothing. -/
def floatValue (text : List Char) : Except Failure Binary64 := do
  let cleaned := (text.filter (· != '_')).map Char.toLower
  if cleaned.isEmpty then throw (.meaningless .notANumber)
  let (negative, digits) := Decimal.readSign cleaned
  let x ← orMeaningless .notANumber (unsignedDouble digits)
  pure (if negative then negated x else x)

/-- The number that digits spell. -/
def digitsValue (digits : List Char) : Nat :=
  digits.foldl (fun n d => 10 * n + (d.toNat - '0'.toNat)) 0

/-- The microseconds that the digits after a point stand for. -/
def microseconds (fraction : List Char) : Nat :=
  let digits := fraction.take 6
  digitsValue digits * Nat.pow 10 (6 - digits.length)

/-- The offset of a time in minutes. -/
def offsetMinutes (zone : Option Char × List Char × List Char) : Int :=
  let (sign, hours, minutes) := zone
  let size : Int := digitsValue hours * 60 + digitsValue minutes
  if sign == some '-' then -size else size

/-- The date or the moment that a text stands for, perhaps with a line feed at its end.
Offsets have to be shorter than a day. -/
def timestampValue (text : List Char) : Except Failure Scalar := do
  let parts ← orMeaningless .notADate (timestampText? (withoutFinalFeed text))
  let date : Date :=
    ⟨digitsValue parts.year, digitsValue parts.month, digitsValue parts.day⟩
  match parts.clock with
  | none => if date.isValid then pure (.date date) else throw (.meaningless .notADate)
  | some (hour, minute, second, fraction) =>
    let offset := parts.zone.map offsetMinutes
    let moment : Moment := ⟨date, digitsValue hour, digitsValue minute,
      digitsValue second, microseconds fraction, offset⟩
    if moment.isValid && (offset.getD 0).natAbs < 24 * 60 then pure (.moment moment)
    else throw (.meaningless .notADate)

/-- The bytes that a text stands for in base 64. -/
def bytesValue (text : List Char) : Except Failure (List UInt8) :=
  if text.all (·.toNat < 128) then
    match Text.Base64.decode text with
    | some bytes => pure bytes
    | none => throw .malformed
  else throw .malformed

/-- The value of a scalar. -/
def scalarValue (tag : Tag) (text : List Char) : Except Failure Scalar :=
  match tag with
  | .null => pure .null
  | .bool => do pure (.bool (← boolValue text))
  | .int => do pure (.int (← intValue text))
  | .float => do pure (.float (← floatValue text))
  | .timestamp => timestampValue text
  | .str => pure (.str (String.ofList text))
  | .binary => do pure (.bytes (← bytesValue text))
  | _ => throw .malformed

end ApiWorkbench.Yaml
