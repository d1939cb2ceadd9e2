import ApiWorkbench.Text.Base64
import ApiWorkbench.Value.Literal
import ApiWorkbench.Yaml.Resolution

/-!
# YAML text

Values are written as blocks, two spaces deeper on each level; the items of a list that
is the value of a member stand at the level of that member. A scalar stands without
quotes where its text is read back as the same scalar, between single quotes where that
is possible, and between double quotes otherwise. Lines are never folded. Bytes and sets
stand after their tags: bytes as lines of digits of base 64, a set as an object with
nulls under its names.
-/

namespace ApiWorkbench.Yaml

/-! ## How a text is written -/

/-- Line ends as far as the writer keeps them. -/
def isKeptBreak (c : Char) : Bool :=
  c == '\n' || c.toNat == 0x85 || c.toNat == 0x2028 || c.toNat == 0x2029

/-- Characters that need an escape wherever they stand. -/
def needsEscape (c : Char) : Bool :=
  let n := c.toNat
  !(c == '\n' || (0x20 ≤ n && n ≤ 0x7e) || n == 0x85 ||
    (0xa0 ≤ n && n ≤ 0xfffd && n != 0xfeff)
    || (0x10000 ≤ n && n < 0x10ffff))

/-- Whether a text holds a line end next to a space. -/
def hasSpacedBreak : List Char → Bool
  | a :: b :: rest =>
    (isKeptBreak a && b == ' ') || (a == ' ' && isKeptBreak b) ||
      hasSpacedBreak (b :: rest)
  | _ => false

/-- Whether a text can be written between single quotes. -/
def allowsSingleQuotes (cs : List Char) : Bool :=
  !cs.any needsEscape && !hasSpacedBreak cs

/-- Whether a character after the first one, between two others, would not be read as
part of a plain scalar. -/
def interruptsPlain (before c after : Char) : Bool :=
  (c == ':' && isBlankOrEnd after) || (c == '#' && isBlankOrEnd before)

/-- Whether any character after the first one would not be read as part of a plain
scalar. -/
def isInterrupted (before : Char) : List Char → Bool
  | [] => false
  | c :: rest => interruptsPlain before c (rest.headD endChar) || isInterrupted c rest

/-- Whether a text may not begin a plain scalar. -/
def beginsIndicator : List Char → Bool
  | [] => true
  | c :: rest =>
    "#,[]\x7b\x7d&*!|>'\"%@\x60".toList.contains c
      || ((c == '?' || c == ':' || c == '-') && isBlankOrEnd (rest.headD endChar))

/-- Whether a text can be written without quotes. -/
def allowsPlain (cs : List Char) : Bool :=
  let edge (c : Option Char) := c.any fun c => c == ' ' || isKeptBreak c
  !beginsIndicator cs
    && !"---".toList.isPrefixOf cs && !"...".toList.isPrefixOf cs
    && !isInterrupted (cs.headD endChar) (cs.drop 1)
    && !edge cs.head? && !edge cs.getLast?
    && !cs.any needsEscape && !cs.any isKeptBreak

/-- A text with single quotes doubled and a line end before each group of line ends;
every such group is followed by the indentation. -/
def singleQuotedChars (indentation : String) (afterBreak : Bool) : List Char → String
  | [] => if afterBreak then indentation else ""
  | c :: rest =>
    if isKeptBreak c then
      (if !afterBreak && c == '\n' then "\n" else "") ++ c.toString
        ++ singleQuotedChars indentation true rest
    else
      (if afterBreak then indentation else "") ++
        (if c == '\'' then "''" else c.toString) ++
        singleQuotedChars indentation false rest

/-- `n` in uppercase hexadecimal with at least `width` digits. -/
def upperHex (width n : Nat) : String :=
  (paddedHex width n).map Char.toUpper

/-- The letter of a one-character escape. -/
def escapeLetter? (c : Char) : Option Char :=
  match c.toNat with
  | 0 => some '0'
  | 7 => some 'a'
  | 8 => some 'b'
  | 9 => some 't'
  | 10 => some 'n'
  | 11 => some 'v'
  | 12 => some 'f'
  | 13 => some 'r'
  | 0x1b => some 'e'
  | 0x22 => some '"'
  | 0x5c => some '\\'
  | 0x85 => some 'N'
  | 0x2028 => some 'L'
  | 0x2029 => some 'P'
  | _ => none

/-- A character between double quotes. -/
def doubleQuotedChar (c : Char) : String :=
  let n := c.toNat
  match escapeLetter? c with
  | some letter => "\\".push letter
  | none =>
    if (0x20 ≤ n && n ≤ 0x7e) || (0xa0 ≤ n && n ≤ 0xfffd && n != 0xfeff) then c.toString
    else if n ≤ 0xff then "\\x" ++ upperHex 2 n
    else if n ≤ 0xffff then "\\u" ++ upperHex 4 n
    else "\\U" ++ upperHex 8 n

/-- Spaces. -/
def spaces (count : Nat) : String :=
  "".pushn ' ' count

/-- A text as it stands in a block that is indented by `indent`; `isKey` for a key on
the line of its value. -/
def textScalar (indent : Nat) (isKey : Bool) (s : String) : String :=
  let cs := s.toList
  if plainTag cs == .str && allowsPlain cs then s
  else if allowsSingleQuotes cs && !(isKey && cs.any isKeptBreak) then
    "'" ++ singleQuotedChars (spaces (indent + 2)) false cs ++ "'"
  else "\"" ++ String.join (cs.map doubleQuotedChar) ++ "\""

/-- A letter between double quotes. -/
def doubleQuotedLetter : Text.Letter → String
  | .char c => doubleQuotedChar c
  | .half index => "\\u" ++ upperHex 4 (Text.Letter.half index).code

/-- A torn text, which stands between double quotes always. -/
def tornSource (text : Text.Torn) : String :=
  "\"" ++ String.join (text.letters.map doubleQuotedLetter) ++ "\""

/-! ## Scalars and keys -/

/-- A double, always with a point. -/
def floatText (x : Binary64) : String :=
  if x.isNaN then ".nan"
  else if x.isInfinite then (if x.isNegative then "-.inf" else ".inf")
  else
    let text := x.finiteText
    if text.contains '.' then text
    else match text.toList.span (· != 'e') with
      | (whole, 'e' :: power) => String.ofList whole ++ ".0e" ++ String.ofList power
      | _ => text

/-- The most digits of base 64 on a line. -/
def bytesLineWidth : Nat := 76

/-- Digits in lines. -/
def digitLines : (lines : Nat) → List Char → List String
  | 0, _ => []
  | lines + 1, cs =>
    if cs.isEmpty then []
    else String.ofList (cs.take bytesLineWidth) ::
      digitLines lines (cs.drop bytesLineWidth)

/-- Bytes in a block that is indented by `indent`. -/
def bytesSource (indent : Nat) (bytes : List UInt8) : String :=
  match digitLines bytes.length (Text.Base64.encode bytes) with
  | [] => "!!binary \"\""
  | lines =>
      "!!binary |" ++ String.join
        (lines.map fun line => "\n" ++ spaces (indent + 2) ++ line)

/-- A scalar in a block that is indented by `indent`. -/
def scalarSource (indent : Nat) (isKey : Bool) : Scalar → Except Fault String
  | .null => pure "null"
  | .bool b => pure (if b then "true" else "false")
  | .int n => if isWritable n then pure (toString n) else throw .notANumber
  | .float x => pure (floatText x)
  | .str s => pure (textScalar indent isKey s)
  | .torn text => pure (tornSource text)
  | .bytes b => pure (bytesSource indent b)
  | .date d => pure d.text
  | .moment m => pure (m.text " ")
  | .pair _ _ => throw .notExpressible

/-- The shorthand for the type of a scalar, whose length counts towards the
length of a key. -/
def typeTag : Scalar → String
  | .null => "!!null"
  | .bool _ => "!!bool"
  | .int _ => "!!int"
  | .float _ => "!!float"
  | .str _ | .torn _ => "!!str"
  | .bytes _ => "!!binary"
  | .date _ => "!!timestamp"
  | .moment _ => "!!timestamp"
  | .pair _ _ => "!!seq"

/-- The text that a key has before it is quoted. -/
def bareText : Scalar → Except Fault String
  | .str s => pure s
  | .torn text => pure text.shown
  | k => scalarSource 0 true k

/-- Whether a key can stand on the line of its value: it has to be short and
without line ends. -/
def isSimpleKey (k : Scalar) : Except Fault Bool := do
  let text ← bareText k
  match k with
  | .bytes _ => pure false
  | _ =>
      pure (!text.isEmpty && !text.toList.any isKeptBreak &&
        (typeTag k).length + text.length < 128)

/-! ## Blocks -/

/-- Entries one below the other. -/
def stacked (indent : Nat) (entries : List String) : String :=
  ("\n" ++ spaces indent).intercalate entries

/-- The values of a pair, each after a dash. -/
def pairSource (indent : Nat) (first second : String) : String :=
  stacked indent ["-" ++ first, "-" ++ second]

/-- A key with its value, which is written after a colon on the line of the key if
`simple` is set, and otherwise after one on a line of its own. -/
def keyLines (indent : Nat) (simple : Bool) (k : Scalar) (value : Except Fault String) :
    Except Fault String := do
  if simple then pure ((← scalarSource indent true k) ++ ":" ++ (← value))
  else pure ("? " ++ (← scalarSource indent false k) ++ "\n" ++ spaces indent ++
    ":" ++ (← value))

/-- The names of a set after its tag, on lines of their own. -/
def setSource (indent : Nat) : List Scalar → Except Fault String
  | [] => pure "!!set \x7b\x7d"
  | names => do
    let lines ← names.mapM
      fun k => do keyLines indent (← isSimpleKey k) k (pure " null")
    pure ("!!set\n" ++ spaces indent ++ stacked indent lines)

mutual

/-- A value after the indicator of an item or of a key or value on its own; blocks begin
on the same line. -/
def afterIndicator (indent : Nat) : Value → Except Fault String
  | .scalar s => do pure (" " ++ (← scalarSource indent false s))
  | .list [] => pure " []"
  | .object [] => pure " \x7b\x7d"
  | .list xs => do pure (" " ++ stacked (indent + 2) (← itemLines (indent + 2) xs))
  | .pair a b => do
    pure (" " ++ pairSource (indent + 2) (← afterIndicator (indent + 2) a)
      (← afterIndicator (indent + 2) b))
  | .set names => do pure (" " ++ (← setSource (indent + 2) names))
  | .object ms => do pure (" " ++ stacked (indent + 2) (← memberLines (indent + 2) ms))

/-- A value after a key and its colon; blocks begin on the next line. -/
def afterKey (indent : Nat) : Value → Except Fault String
  | .scalar s => do pure (" " ++ (← scalarSource indent false s))
  | .list [] => pure " []"
  | .object [] => pure " \x7b\x7d"
  | .list xs => do
      pure ("\n" ++ spaces indent ++ stacked indent (← itemLines indent xs))
  | .pair a b => do
    pure ("\n" ++ spaces indent ++ pairSource indent (← afterIndicator indent a)
      (← afterIndicator indent b))
  | .set names => do pure (" " ++ (← setSource (indent + 2) names))
  | .object ms => do
    pure ("\n" ++ spaces (indent + 2) ++
      stacked (indent + 2) (← memberLines (indent + 2) ms))

/-- The items of a list, each after a dash. -/
def itemLines (indent : Nat) : List Value → Except Fault (List String)
  | [] => pure []
  | v :: rest => do
    let text ← afterIndicator indent v
    pure (("-" ++ text) :: (← itemLines indent rest))

/-- The members of an object. A key that cannot stand on the line of its value has a
line of its own. -/
def memberLines (indent : Nat) : List (Scalar × Value) → Except Fault (List String)
  | [] => pure []
  | (k, v) :: rest => do
    let simple ← isSimpleKey k
    let value := if simple then afterKey indent v else afterIndicator indent v
    let entry ← keyLines indent simple k value
    pure (entry :: (← memberLines indent rest))

end

/-- A whole value as YAML text. -/
def write : Value → Except Fault String
  | .scalar s => do pure ((← scalarSource 0 false s) ++ "\n")
  | .list [] => pure "[]\n"
  | .object [] => pure "\x7b\x7d\n"
  | .list xs => do pure (stacked 0 (← itemLines 0 xs) ++ "\n")
  | .pair a b => do
      pure (pairSource 0 (← afterIndicator 0 a) (← afterIndicator 0 b) ++ "\n")
  | .set names => do pure ((← setSource 0 names) ++ "\n")
  | .object ms => do pure (stacked 0 (← memberLines 0 ms) ++ "\n")

end ApiWorkbench.Yaml
