import ApiWorkbench.Text.Percent
import ApiWorkbench.Yaml.Cursor

/-!
# Quoted scalars

The text between single or double quotes. A line end inside it is read as a space,
further line ends after it as themselves, and the white space around them is dropped.
Between single quotes only the quote itself is special and is written twice; between
double quotes a backslash starts an escape or hides a line end.
-/

namespace ApiWorkbench.Yaml

/-- The character that a one-character escape stands for. -/
def escapedChar? (c : Char) : Option Char :=
  match c with
  | '0' => some '\x00'
  | 'a' => some '\x07'
  | 'b' => some '\x08'
  | 't' => some '\t'
  | '\t' => some '\t'
  | 'n' => some '\n'
  | 'v' => some '\x0b'
  | 'f' => some '\x0c'
  | 'r' => some '\r'
  | 'e' => some '\x1b'
  | ' ' => some ' '
  | '"' => some '"'
  | '\\' => some '\\'
  | '/' => some '/'
  | 'N' => some '\u0085'
  | '_' => some '\u00a0'
  | 'L' => some '\u2028'
  | 'P' => some '\u2029'
  | _ => none

/-- The number of hexadecimal digits after an escape letter. -/
def escapeDigits? : Char → Option Nat
  | 'x' => some 2
  | 'u' => some 4
  | 'U' => some 8
  | _ => none

/-- The number that hexadecimal digits spell. -/
def hexValue? (digits : List Char) : Option Nat :=
  digits.foldlM (fun n c => (Text.hexDigit? c).map (16 * n + ·)) 0

/-- The line ends after a first one, with the white space at the start of lines passed
over. A line that marks a document boundary may not occur inside quotes. -/
def quotedBreaks : (fuel : Nat) → Cursor → Except Failure (List Char × Cursor)
  | 0, c => pure ([], c)
  | fuel + 1, c =>
    if c.atMarker then throw .malformed
    else
      let c := c.skipWhile isBlankChar
      if isBreak c.peek then do
        let (first, c) := c.lineBreak
        let (others, c) ← quotedBreaks fuel c
        pure (first ++ others, c)
      else pure ([], c)

/-- White space inside quotes, at least one character of it. -/
def quotedSpace (c : Cursor) : Except Failure (List Char × Cursor) := do
  let (blanks, c) := c.takeWhile isBlankChar
  if c.peek == endChar then throw .malformed
  else if isBreak c.peek then
    let (first, c) := c.lineBreak
    let (others, c) ← quotedBreaks (c.rest.length + 1) c
    if first != ['\n'] then pure (first ++ others, c)
    else if others.isEmpty then pure ([' '], c)
    else pure (others, c)
  else pure (blanks, c)

/-- What a backslash between double quotes stands for; the cursor is on the
character after it. -/
def quotedEscape (c : Cursor) : Except Failure (List Text.Letter × Cursor) :=
  let letter := c.peek
  match escapedChar? letter, escapeDigits? letter with
  | some ch, _ => pure ([.char ch], c.next)
  | none, some count =>
    let digits := c.next.rest.take count
    if digits.length == count then
      match hexValue? digits with
      | some code => do pure ([← letterOfCode code], c.next.skip count)
      | none => throw .malformed
    else throw .malformed
  | none, none =>
    if isBreak letter then do
      let c := c.lineBreak.2
      let (chars, c) ← quotedBreaks (c.rest.length + 1) c
      pure (chars.map .char, c)
    else throw .malformed

/-- The rest of a quoted scalar and the place after its closing quote; `done` holds what
was read before, latest first. -/
def quotedRest (double : Bool) :
    (fuel : Nat) → (done : List Text.Letter) → Cursor → Except Failure
    (List Text.Letter × Cursor)
  | 0, _, _ => throw .malformed
  | fuel + 1, done, c =>
    let ch := c.peek
    if ch == (if double then '"' else '\'') then
      if !double && c.peekAt 1 == '\'' then
        quotedRest double fuel (.char '\'' :: done) (c.skip 2)
      else pure (done.reverse, c.next)
    else if double && ch == '\\' then do
      let (letters, c) ← quotedEscape c.next
      quotedRest double fuel (letters.reverse ++ done) c
    else if isBlankOrEnd ch then do
      let (chars, c) ← quotedSpace c
      quotedRest double fuel ((chars.map .char).reverse ++ done) c
    else quotedRest double fuel (.char ch :: done) c.next

/-- A quoted scalar; the cursor is on its opening quote. -/
def quotedScalar (c : Cursor) : Except Failure (List Text.Letter × Cursor) :=
  quotedRest (c.peek == '"') (c.rest.length + 1) [] c.next

end ApiWorkbench.Yaml
