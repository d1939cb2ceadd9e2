import ApiWorkbench.Decimal.Notation
import ApiWorkbench.Value.Literal
import ApiWorkbench.Value.Reading

/-!
# JSON text

Values are written with their members in order: compactly, on one line in ASCII, or with
one entry per line and two spaces of indentation per level. Names that are no texts are
written as the text of the scalar, and a pair is written as a list of two. Dates and
moments, bytes and sets, and integers beyond the length that a reader accepts, cannot be
written. A half of a surrogate pair is written with its escape where all characters
beyond ASCII are; the other layouts only show that there is one, since what they are
written to could not hold it (`Tree.isWhole`).
-/

namespace ApiWorkbench.Json

/-- How entries are set out. -/
inductive Layout where
  /-- no white space at all -/
  | compact
  /-- one line with a space after each comma and colon; characters beyond
  ASCII are escaped -/
  | ascii
  /-- an entry per line, a space after each colon -/
  | indented
deriving DecidableEq, Repr

namespace Layout

/-- What stands before the first entry of a container at a depth, and after the last one
of a deeper container. -/
def gap : Layout → Nat → String
  | indented, depth => "\n".pushn ' ' (2 * depth)
  | _, _ => ""

/-- What stands between the entries of a container at a depth. -/
def separator : Layout → Nat → String
  | compact, _ => ","
  | ascii, _ => ", "
  | indented, depth => "," ++ gap indented depth

/-- What stands between a name and its value. -/
def colon : Layout → String
  | compact => ":"
  | _ => ": "

/-- Whether a character may stand for itself. -/
def allows : Layout → Char → Bool
  | ascii, c => 32 ≤ c.toNat && c.toNat < 127
  | _, c => 32 ≤ c.toNat

end Layout

/-- A code of sixteen bits as an escape. -/
def codeEscape (code : Nat) : String :=
  "\\u" ++ paddedHex 4 code

/-- A character by its code, or by the surrogates of a code that is too large
for one escape. -/
def unicodeEscape (c : Char) : String :=
  let code := c.toNat
  if code < 0x10000 then codeEscape code
  else codeEscape (0xd800 + (code - 0x10000) / 0x400) ++
    codeEscape (0xdc00 + (code - 0x10000) % 0x400)

/-- A character inside a JSON string. -/
def escapedChar (layout : Layout) (c : Char) : String :=
  if c == '"' then "\\\""
  else if c == '\\' then "\\\\"
  else if c == '\n' then "\\n"
  else if c == '\r' then "\\r"
  else if c == '\t' then "\\t"
  else if c.toNat == 8 then "\\b"
  else if c.toNat == 12 then "\\f"
  else if layout.allows c then c.toString
  else unicodeEscape c

/-- A text between double quotes. -/
def stringText (layout : Layout) (s : String) : String :=
  "\"" ++ String.join (s.toList.map (escapedChar layout)) ++ "\""

/-- A letter inside a JSON string. -/
def escapedLetter (layout : Layout) : Text.Letter → String
  | .char c => escapedChar layout c
  | .half index =>
    if layout = .ascii then codeEscape (Text.Letter.half index).code
    else escapedChar layout Text.replacementChar

/-- A torn text between double quotes. -/
def tornText (layout : Layout) (text : Text.Torn) : String :=
  "\"" ++ String.join (text.letters.map (escapedLetter layout)) ++ "\""

/-- A double; infinities and the absence of a number by their JSON extensions. -/
def floatText (x : Binary64) : String :=
  if x.isNaN then "NaN"
  else if x.isInfinite then (if x.isNegative then "-Infinity" else "Infinity")
  else x.finiteText

/-- A scalar outside quotes, or a quoted text. -/
def scalarText (layout : Layout) : Scalar → Except Fault String
  | .null => pure "null"
  | .bool b => pure (if b then "true" else "false")
  | .int n => if isWritable n then pure (toString n) else throw .notANumber
  | .float x => pure (floatText x)
  | .str s => pure (stringText layout s)
  | .torn text => pure (tornText layout text)
  | .bytes _ => throw .notExpressible
  | .date _ => throw .notExpressible
  | .moment _ => throw .notExpressible
  | .pair _ _ => throw .notExpressible

/-- The name of a member: always between quotes. -/
def nameText (layout : Layout) : Scalar → Except Fault String
  | .str s => pure (stringText layout s)
  | .torn text => pure (tornText layout text)
  | k => do pure ("\"" ++ (← scalarText layout k) ++ "\"")

/-- Entries between brackets; an empty container is written without any gap. -/
def bracketed (layout : Layout) (depth : Nat) (opening closing : String) :
    List String → String
  | [] => opening ++ closing
  | entries =>
    opening ++ layout.gap (depth + 1) ++
      (layout.separator (depth + 1)).intercalate entries ++ layout.gap depth ++ closing

mutual

/-- The text of a value that stands at a depth. -/
def valueText (layout : Layout) (depth : Nat) : Value → Except Fault String
  | .scalar s => scalarText layout s
  | .list xs => do
      pure (bracketed layout depth "[" "]" (← itemTexts layout (depth + 1) xs))
  | .pair a b => do
    let first ← valueText layout (depth + 1) a
    pure (bracketed layout depth "[" "]" [first, ← valueText layout (depth + 1) b])
  | .set _ => throw .notExpressible
  | .object ms => do
    pure (bracketed layout depth "\x7b" "\x7d" (← memberTexts layout (depth + 1) ms))

/-- The texts of list items. -/
def itemTexts (layout : Layout) (depth : Nat) : List Value → Except Fault (List String)
  | [] => pure []
  | v :: rest => do
    let text ← valueText layout depth v
    pure (text :: (← itemTexts layout depth rest))

/-- The texts of members, with their names. -/
def memberTexts (layout : Layout) (depth : Nat) :
    List (Scalar × Value) → Except Fault (List String)
  | [] => pure []
  | (k, v) :: rest => do
    let name ← nameText layout k
    let text ← valueText layout depth v
    pure ((name ++ layout.colon ++ text) :: (← memberTexts layout depth rest))

end

/-- A whole value as JSON text. -/
def write (layout : Layout) (v : Value) : Except Fault String :=
  valueText layout 0 v

end ApiWorkbench.Json
