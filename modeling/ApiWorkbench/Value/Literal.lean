import ApiWorkbench.Decimal.Notation
import ApiWorkbench.Text.Printable
import ApiWorkbench.Value.Reading

/-!
# Values as Python literals

Generated modules hold values as Python source. A text is put between single quotes, or
between double quotes when it has a single quote and no double quote; backslashes, the
quote and everything that is not printable are escaped; a half of a surrogate pair is
printable never. `Tree.display` is the plain form used inside messages and names: a text
stands for itself there.
-/

namespace ApiWorkbench

/-- `n` in lowercase hexadecimal with at least `width` digits. -/
def paddedHex (width n : Nat) : String :=
  let digits := String.ofList (Nat.toDigits 16 n)
  "".pushn '0' (width - digits.length) ++ digits

/-- A character inside a literal that uses `quote`. -/
def literalChar (quote c : Char) : String :=
  if c == quote || c == '\\' then "\\".push c
  else if c == '\n' then "\\n"
  else if c == '\r' then "\\r"
  else if c == '\t' then "\\t"
  else if Text.isPrintable c then c.toString
  else if c.toNat < 0x100 then "\\x" ++ paddedHex 2 c.toNat
  else if c.toNat < 0x10000 then "\\u" ++ paddedHex 4 c.toNat
  else "\\U" ++ paddedHex 8 c.toNat

/-- A letter inside a literal that uses `quote`. -/
def literalLetter (quote : Char) : Text.Letter → String
  | .char c => literalChar quote c
  | .half index => "\\u" ++ paddedHex 4 (Text.Letter.half index).code

/-- The quote that characters are put between. -/
def literalQuote (chars : List Char) : Char :=
  if chars.contains '\'' && !chars.contains '"' then '"' else '\''

/-- A text as a literal. -/
def textLiteral (text : String) : String :=
  let quote := literalQuote text.toList
  quote.toString ++ String.join (text.toList.map (literalChar quote)) ++ quote.toString

/-- A torn text as a literal. -/
def tornLiteral (text : Text.Torn) : String :=
  let quote := literalQuote text.shown.toList
  quote.toString ++ String.join (text.letters.map (literalLetter quote)) ++
    quote.toString

/-- The character with the code of a byte as it stands in a literal of bytes; only ASCII
is left as it is. -/
def literalByte (quote c : Char) : String :=
  if c.toNat < 0x7f then literalChar quote c else "\\x" ++ paddedHex 2 c.toNat

/-- Bytes as a literal. -/
def bytesLiteral (bytes : List UInt8) : String :=
  let chars := bytes.map fun byte => Char.ofNat byte.toNat
  let quote := literalQuote chars
  "b" ++ quote.toString ++ String.join (chars.map (literalByte quote)) ++ quote.toString

/-- A double as a literal; infinities and the absence of a number by their usual
names. -/
def Binary64.literal (x : Binary64) : String :=
  if x.isNaN then "nan"
  else if x.isInfinite then (if x.isNegative then "-inf" else "inf")
  else x.finiteText

/-- A date as the expression that makes it. -/
def Date.literal (d : Date) : String :=
  s!"datetime.date({d.year}, {d.month}, {d.day})"

/-- An offset from universal time, in minutes, as the expression that makes it. -/
def Moment.offsetLiteral (offset : Int) : String :=
  if offset == 0 then "datetime.timezone.utc"
  else
    let seconds := offset * 60
    let span :=
      if seconds < 0 then s!"days=-1, seconds={seconds + 86400}"
      else s!"seconds={seconds}"
    s!"datetime.timezone(datetime.timedelta({span}))"

/-- A moment as the expression that makes it; seconds and microseconds only as far as
they are needed. -/
def Moment.literal (m : Moment) : String :=
  let clock :=
    if m.microsecond != 0 then [m.hour, m.minute, m.second, m.microsecond]
    else if m.second != 0 then [m.hour, m.minute, m.second]
    else [m.hour, m.minute]
  let numbers := ([m.date.year, m.date.month, m.date.day] ++ clock).map toString
  let parts := match m.offset with
    | none => numbers
    | some offset => numbers ++ ["tzinfo=" ++ offsetLiteral offset]
  "datetime.datetime(" ++ ", ".intercalate parts ++ ")"

/-- A scalar as a literal. -/
def Scalar.literal : Scalar → String
  | .null => "None"
  | .bool b => if b then "True" else "False"
  | .int n => toString n
  | .float x => x.literal
  | .str s => textLiteral s
  | .torn text => tornLiteral text
  | .bytes b => bytesLiteral b
  | .date d => d.literal
  | .moment m => m.literal
  | .pair a b => "(" ++ a.literal ++ ", " ++ b.literal ++ ")"

/-- A set as a literal; there is no literal of the empty one, only an expression. -/
def setLiteral : List Scalar → String
  | [] => "set()"
  | names => "\x7b" ++ ", ".intercalate (names.map Scalar.literal) ++ "\x7d"

mutual

/-- A value as a literal, on one line. -/
def Tree.literal {μ : Type} : Tree μ → String
  | .scalar s => s.literal
  | .list items => "[" ++ ", ".intercalate (Tree.itemLiterals items) ++ "]"
  | .pair a b => "(" ++ a.literal ++ ", " ++ b.literal ++ ")"
  | .set names => setLiteral names
  | .marked _ members =>
      "\x7b" ++ ", ".intercalate (Tree.memberLiterals members) ++ "\x7d"

/-- The literals of list items. -/
def Tree.itemLiterals {μ : Type} : List (Tree μ) → List String
  | [] => []
  | v :: rest => v.literal :: Tree.itemLiterals rest

/-- The entries of an object as literals. -/
def Tree.memberLiterals {μ : Type} : List (Scalar × Tree μ) → List String
  | [] => []
  | (k, v) :: rest => (k.literal ++ ": " ++ v.literal) :: Tree.memberLiterals rest

end

/-- A scalar as plain text. -/
def Scalar.display : Scalar → String
  | .str s => s
  | .torn text => text.shown
  | .date d => d.text
  | .moment m => m.text " "
  | s => s.literal

/-- A value as plain text: texts as they are, lists and objects as literals. -/
def Tree.display {μ : Type} : Tree μ → String
  | .scalar s => s.display
  | v => v.literal

/-- A scalar as plain text, unless it is an integer that is too long to be written. -/
def Scalar.text (s : Scalar) : Except Fault String :=
  if s.isWritable then pure s.display else throw .notANumber

/-- The text that a scalar is as a name of members. -/
def Scalar.textName : Scalar → Except Fault Scalar
  | .torn text => pure (.torn text)
  | s => do pure (.str (← s.text))

/-- A value as plain text, unless an integer in it is too long to be written. -/
def Tree.text {μ : Type} (v : Tree μ) : Except Fault String :=
  if v.isWritable then pure v.display else throw .notANumber

end ApiWorkbench
