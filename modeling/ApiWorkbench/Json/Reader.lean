import ApiWorkbench.Text.Percent
import ApiWorkbench.Value.Reading

/-!
# Reading JSON text

The reader works on the list of characters that are left and returns a value together
with what remains. A problem is placed by the number of characters from its place to the
end of the text, so that no position has to be carried along; `Failure.line` turns that
into a line number. Numbers with a fraction or an exponent are doubles, all others
integers; a repeated name keeps its first place and its last value.
-/

namespace ApiWorkbench.Json

/-- What can be wrong with a JSON text. -/
inductive Problem where
  | expectedValue
  | expectedName
  | expectedColon
  | expectedComma
  | unterminatedString
  | controlCharacter
  | invalidEscape
  | invalidUnicodeEscape
  | extraData
  | byteOrderMark
deriving DecidableEq, Repr

/-- The wording of a problem. -/
def Problem.message : Problem → String
  | .expectedValue => "Expecting value"
  | .expectedName => "Expecting property name enclosed in double quotes"
  | .expectedColon => "Expecting ':' delimiter"
  | .expectedComma => "Expecting ',' delimiter"
  | .unterminatedString => "Unterminated string starting at"
  | .controlCharacter => "Invalid control character at"
  | .invalidEscape => "Invalid \\escape"
  | .invalidUnicodeEscape => "Invalid \\uXXXX escape"
  | .extraData => "Extra data"
  | .byteOrderMark => "Unexpected UTF-8 BOM (decode using utf-8-sig)"

/-- Why a text could not be read. -/
inductive Failure where
  /-- a problem, and the number of characters from its place to the end -/
  | syntaxProblem (problem : Problem) (remaining : Nat)
  /-- an integer with more digits than are accepted -/
  | tooManyDigits
deriving DecidableEq, Repr

/-- The line of a place that has `remaining` characters after it. -/
def lineAt (text : List Char) (remaining : Nat) : Nat :=
  ((text.take (text.length - remaining)).filter (· == '\n')).length + 1

/-- What was read, and what is left after it. -/
abbrev Read (α : Type) := α × List Char

/-- A problem at the start of what is left. -/
def problemAt {α : Type} (problem : Problem) (rest : List Char) : Except Failure α :=
  throw (.syntaxProblem problem rest.length)

/-- The characters that may stand between tokens. -/
def isSpace (c : Char) : Bool :=
  c == ' ' || c == '\t' || c == '\n' || c == '\r'

/-- What is left after white space. -/
def skipSpace (cs : List Char) : List Char :=
  cs.dropWhile isSpace

/-- The number that four hexadecimal digits spell. -/
def hexNumber? (digits : List Char) : Option Nat :=
  digits.foldlM (fun n c => (Text.hexDigit? c).map (16 * n + ·)) 0

/-- The four hexadecimal digits after `\u`, which is `escape` with everything after it;
at least one more character has to follow them. -/
def readHex (escape : List Char) : Except Failure (Read Nat) :=
  match escape.drop 1 with
  | a :: b :: c :: d :: next :: rest =>
    match hexNumber? [a, b, c, d] with
    | some n => pure (n, next :: rest)
    | none => problemAt .invalidUnicodeEscape escape
  | _ => problemAt .invalidUnicodeEscape escape

/-- The letter after `\u`; two escapes that make a surrogate pair are one character. -/
def readUnicodeEscape (escape : List Char) : Except Failure (Read Text.Letter) := do
  let (high, rest) ← readHex escape
  let single := Text.Letter.ofCode high
  match rest with
  | '\\' :: 'u' :: more =>
    if 0xd800 ≤ high && high < 0xdc00 && more.length > 4 then do
      let (low, rest') ← readHex ('u' :: more)
      if 0xdc00 ≤ low && low < 0xe000 then
        pure (.char (Char.ofNat (0x10000 + (high - 0xd800) * 0x400 + (low - 0xdc00))),
          rest')
      else pure (single, rest)
    else pure (single, rest)
  | _ => pure (single, rest)

/-- The character that a single-character escape stands for. -/
def simpleEscape? : Char → Option Char
  | '"' => some '"'
  | '\\' => some '\\'
  | '/' => some '/'
  | 'b' => some (Char.ofNat 8)
  | 'f' => some (Char.ofNat 12)
  | 'n' => some '\n'
  | 'r' => some '\r'
  | 't' => some '\t'
  | _ => none

/-- The rest of a string whose opening quote had `start` characters from it to the end
of the text; `done` holds the letters read so far, latest first. -/
def readString (start : Nat) :
    (fuel : Nat) → (done : List Text.Letter) → List Char → Except Failure (Read Scalar)
  | 0, _, _ => throw (.syntaxProblem .unterminatedString start)
  | _ + 1, _, [] => throw (.syntaxProblem .unterminatedString start)
  | _ + 1, done, '"' :: rest => pure (.ofLetters done.reverse, rest)
  | _ + 1, _, ['\\'] => throw (.syntaxProblem .unterminatedString start)
  | fuel + 1, done, '\\' :: 'u' :: rest => do
    let (letter, rest) ← readUnicodeEscape ('u' :: rest)
    readString start fuel (letter :: done) rest
  | fuel + 1, done, '\\' :: e :: rest =>
    match simpleEscape? e with
    | some c => readString start fuel (.char c :: done) rest
    | none => problemAt .invalidEscape ('\\' :: e :: rest)
  | fuel + 1, done, c :: rest =>
    if c.toNat < 32 then problemAt .controlCharacter (c :: rest)
    else readString start fuel (.char c :: done) rest

/-- Whether a character is an ASCII digit. -/
def isDecimalDigit (c : Char) : Bool :=
  '0' ≤ c && c ≤ '9'

/-- The number that ASCII digits spell. -/
def digitsNumber (digits : List Char) : Nat :=
  digits.foldl (fun n c => 10 * n + (c.toNat - '0'.toNat)) 0

/-- The digits of a number before its point: a zero counts only alone. -/
def readWhole : List Char → List Char × List Char
  | '0' :: rest => (['0'], rest)
  | cs => cs.span isDecimalDigit

/-- The fraction digits of a number: a point counts only when a digit follows it. -/
def readFraction : List Char → List Char × List Char
  | '.' :: c :: rest =>
    if isDecimalDigit c then (c :: rest).span isDecimalDigit else ([], '.' :: c :: rest)
  | cs => ([], cs)

/-- The exponent of a number: the letter counts only when digits follow it and its
sign. -/
def readExponent (cs : List Char) : Option Int × List Char :=
  let exponent (negative : Bool) (after : List Char) : Option Int × List Char :=
    match after.span isDecimalDigit with
    | ([], _) => (none, cs)
    | (digits, rest) =>
      let n : Int := digitsNumber digits
      (some (if negative then -n else n), rest)
  match cs with
  | e :: rest =>
    if e == 'e' || e == 'E' then
      match rest with
      | '-' :: after => exponent true after
      | '+' :: after => exponent false after
      | _ => exponent false rest
    else (none, cs)
  | [] => (none, cs)

/-- An unsigned number after its sign; `start` is where the whole number starts. -/
def readNumber (negative : Bool) (start cs : List Char) : Except Failure (Read Value) :=
  let (whole, rest) := readWhole cs
  if whole.isEmpty then problemAt .expectedValue start
  else
    let (fraction, rest) := readFraction rest
    let (exponent, rest) := readExponent rest
    if fraction.isEmpty && exponent.isNone then
      if maxDigits < whole.length then throw .tooManyDigits
      else
        let n : Int := digitsNumber whole
        pure (.int (if negative then -n else n), rest)
    else
      let scale := exponent.getD 0 - fraction.length
      pure (.float (.ofDecimal negative (digitsNumber (whole ++ fraction)) scale), rest)

/-- A literal word, a number, or a problem at `cs`. -/
def readAtom (cs : List Char) : Except Failure (Read Value) :=
  let word (text : String) (v : Value) : Option (Value × List Char) :=
    if text.toList.isPrefixOf cs then some (v, cs.drop text.length) else none
  let words := [word "null" .null, word "true" (.bool true), word "false" (.bool false),
    word "NaN" (.float .nan), word "Infinity" (.float (.infinity false)),
    word "-Infinity" (.float (.infinity true))]
  match words.findSome? id with
  | some result => pure result
  | none =>
    match cs with
    | '-' :: rest => readNumber true cs rest
    | _ => readNumber false cs cs

mutual

/-- A value at the start of `cs`. -/
def readValue : (fuel : Nat) → (cs : List Char) → Except Failure (Read Value)
  | 0, cs => problemAt .expectedValue cs
  | _ + 1, '"' :: rest => do
    let (s, rest) ← readString (rest.length + 1) (rest.length + 1) [] rest
    pure (.scalar s, rest)
  | fuel + 1, '\x7b' :: rest =>
    match skipSpace rest with
    | '\x7d' :: rest => pure (.object [], rest)
    | rest => readMembers fuel [] rest
  | fuel + 1, '[' :: rest =>
    match skipSpace rest with
    | ']' :: rest => pure (.list [], rest)
    | rest => readItems fuel [] rest
  | _ + 1, cs => readAtom cs

/-- The items of a list from the start of one on; `done` holds the earlier
ones, latest first. -/
def readItems : (fuel : Nat) → (done : List Value) → (cs : List Char) →
    Except Failure (Read Value)
  | 0, _, cs => problemAt .expectedValue cs
  | fuel + 1, done, cs => do
    let (v, rest) ← readValue fuel cs
    match skipSpace rest with
    | ']' :: rest => pure (.list (v :: done).reverse, rest)
    | ',' :: rest => readItems fuel (v :: done) (skipSpace rest)
    | rest => problemAt .expectedComma rest

/-- The members of an object from the start of one on; `done` holds the earlier ones. -/
def readMembers : (fuel : Nat) → (done : Members) → (cs : List Char) →
    Except Failure (Read Value)
  | 0, _, cs => problemAt .expectedName cs
  | fuel + 1, done, '"' :: rest => do
    let (name, rest) ← readString (rest.length + 1) (rest.length + 1) [] rest
    match skipSpace rest with
    | ':' :: rest =>
      let (v, rest) ← readValue fuel (skipSpace rest)
      let done := Members.put name v done
      match skipSpace rest with
      | '\x7d' :: rest => pure (.object done, rest)
      | ',' :: rest => readMembers fuel done (skipSpace rest)
      | rest => problemAt .expectedComma rest
    | rest => problemAt .expectedColon rest
  | _ + 1, _, cs => problemAt .expectedName cs

end

/-- The value of a JSON text, which nothing but white space may surround. -/
def read (text : String) : Except Failure Value :=
  let cs := text.toList
  if cs.head? == some (Char.ofNat 0xfeff) then problemAt .byteOrderMark cs
  else do
    let (v, rest) ← readValue (2 * cs.length + 2) (skipSpace cs)
    match skipSpace rest with
    | [] => pure v
    | rest => problemAt .extraData rest

end ApiWorkbench.Json
