import ApiWorkbench.Value.Reading

/-!
# A place in a YAML text

A cursor is what is left of a text, together with the index, the line and the column of
its first character. Beyond the end of the text a cursor shows the character zero, which
no YAML text may contain.

The characters that end a line are the line feed, the carriage return, the next-line
character and the two Unicode separators; the first three, and a carriage return with a
line feed, are read as one line feed.
-/

namespace ApiWorkbench.Yaml

/-- Why a text is no usable YAML document. -/
inductive Failure where
  /-- it breaks the rules of YAML or of its data types -/
  | malformed
  /-- it holds a scalar that the rules allow but that stands for no value -/
  | meaningless (fault : Fault)
  /-- its value is a part of itself; whether it is an object, and whether
  that takes pairs -/
  | circular (isObject takesPairs : Bool)
deriving DecidableEq, Repr

/-- The character beyond the end. -/
def endChar : Char := '\x00'

/-- Characters that end a line. -/
def isBreak (c : Char) : Bool :=
  c == '\n' || c == '\r' || c.toNat == 0x85 || c.toNat == 0x2028 || c.toNat == 0x2029

/-- A line ends here. -/
def endsLine (c : Char) : Bool :=
  c == endChar || isBreak c

/-- A space, or the end of a line. -/
def isSpaceOrEnd (c : Char) : Bool :=
  c == ' ' || endsLine c

/-- A space or a tab, or the end of a line. -/
def isBlankOrEnd (c : Char) : Bool :=
  c == '\t' || isSpaceOrEnd c

/-- A space or a tab. -/
def isBlankChar (c : Char) : Bool :=
  c == ' ' || c == '\t'

/-- ASCII digits. -/
def isDigit (c : Char) : Bool :=
  '0' ≤ c && c ≤ '9'

/-- Characters of anchor names, tag handles and directive names. -/
def isNameChar (c : Char) : Bool :=
  isDigit c || ('a' ≤ c && c ≤ 'z') || ('A' ≤ c && c ≤ 'Z') || c == '-' || c == '_'

/-- A place in a text. -/
structure Cursor where
  rest : List Char
  index : Nat
  line : Nat
  column : Nat
deriving Repr

namespace Cursor

/-- The start of a text. -/
def start (text : List Char) : Cursor :=
  ⟨text, 0, 0, 0⟩

/-- The character at a distance. -/
def peekAt (c : Cursor) (distance : Nat) : Char :=
  c.rest.getD distance endChar

/-- The character at the cursor. -/
def peek (c : Cursor) : Char :=
  c.peekAt 0

/-- The next place. A byte order mark takes up no column. -/
def next (c : Cursor) : Cursor :=
  match c.rest with
  | [] => c
  | ch :: rest =>
    if isBreak ch && !(ch == '\r' && rest.head? == some '\n') then
      ⟨rest, c.index + 1, c.line + 1, 0⟩
    else ⟨rest, c.index + 1, c.line, if ch.toNat ==
      0xfeff then c.column else c.column + 1⟩

/-- The place a number of characters further on. -/
def skip : Nat → Cursor → Cursor
  | 0, c => c
  | n + 1, c => skip n c.next

/-- The longest run of characters with a property, and the place after it. -/
def takeWhile (p : Char → Bool) (c : Cursor) : List Char × Cursor :=
  let run := c.rest.takeWhile p
  (run, c.skip run.length)

/-- The place after the longest run of characters with a property. -/
def skipWhile (p : Char → Bool) (c : Cursor) : Cursor :=
  (c.takeWhile p).2

/-- The place after any spaces. -/
def skipSpaces (c : Cursor) : Cursor :=
  c.skipWhile (· == ' ')

/-- The place at the end of the line. -/
def skipLine (c : Cursor) : Cursor :=
  c.skipWhile fun ch => !endsLine ch

/-- The line end at the cursor, as it is read, and the place after it; nothing if
there is none. -/
def lineBreak (c : Cursor) : List Char × Cursor :=
  let ch := c.peek
  if ch == '\r' && c.peekAt 1 == '\n' then (['\n'], c.skip 2)
  else if ch == '\n' || ch == '\r' || ch.toNat == 0x85 then (['\n'], c.next)
  else if isBreak ch then ([ch], c.next)
  else ([], c)

/-- Whether a line that marks the start or the end of a document begins here. -/
def atMarker (c : Cursor) : Bool :=
  ("---".toList.isPrefixOf c.rest || "...".toList.isPrefixOf c.rest) &&
    isBlankOrEnd (c.peekAt 3)

end Cursor

/-- Whether a character may occur in a YAML text. -/
def isAllowed (c : Char) : Bool :=
  let n := c.toNat
  n == 9 || n == 10 || n == 13 || (0x20 ≤ n && n ≤ 0x7e) || n == 0x85 ||
    (0xa0 ≤ n && n ≤ 0xd7ff)
    || (0xe000 ≤ n && n ≤ 0xfffd) || 0x10000 ≤ n

/-- The letter with a code. -/
def letterOfCode (code : Nat) : Except Failure Text.Letter :=
  if code ≤ 0x10ffff then pure (.ofCode code) else throw (.meaningless .notACharacter)

end ApiWorkbench.Yaml
