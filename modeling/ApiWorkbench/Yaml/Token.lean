import ApiWorkbench.Text.Percent
import ApiWorkbench.Yaml.Cursor

/-!
# Tokens of a YAML text

The indentation of a text becomes explicit in its tokens: blocks have a start and an
end, and a mapping key is announced before its text. A handle and a suffix make up a
tag; a tag written out in full has no handle.
-/

namespace ApiWorkbench.Yaml

/-- A token. -/
inductive Token where
  | versionDirective (major : Nat)
  | tagDirective (handle expansion : List Char)
  | otherDirective
  | documentStart
  | documentEnd
  | blockSequenceStart
  | blockMappingStart
  | blockEnd
  | flowSequenceStart
  | flowSequenceEnd
  | flowMappingStart
  | flowMappingEnd
  | blockEntry
  | flowEntry
  | key
  | value
  | alias (name : List Char)
  | anchor (name : List Char)
  | tag (handle : Option (List Char)) (suffix : List Char)
  | scalar (plain : Bool) (text : List Char)
  /-- a quoted scalar whose text is torn -/
  | torn (text : Text.Torn)
  /-- no token can be read from here on -/
  | broken (failure : Failure)
deriving DecidableEq, Repr

/-- The token of a quoted text. -/
def Token.quoted (letters : List Text.Letter) : Token :=
  if h : letters.any Text.Letter.isHalf then .torn ⟨letters, h⟩
  else .scalar false (letters.map Text.Letter.shown)

/-! ## Tags and directives -/

/-- Characters that may stand in a tag. -/
def isTagChar (c : Char) : Bool :=
  isNameChar c || ";/?:@&=+$,_.!~*'()[]".toList.contains c

/-- The bytes that a run of percent escapes stands for. -/
def tagEscapes : (fuel : Nat) → Cursor → Except Failure (List Nat × Cursor)
  | 0, c => pure ([], c)
  | fuel + 1, c =>
    if c.peek == '%' then
      match Text.hexDigit? (c.peekAt 1), Text.hexDigit? (c.peekAt 2) with
      | some high, some low => do
        let (bytes, c) ← tagEscapes fuel (c.skip 3)
        pure ((16 * high + low) :: bytes, c)
      | _, _ => throw .malformed
    else pure ([], c)

/-- Characters and escapes of a tag. -/
def tagChars : (fuel : Nat) → Cursor → Except Failure (List Char × Cursor)
  | 0, c => pure ([], c)
  | fuel + 1, c =>
    if c.peek == '%' then do
      let (bytes, c) ← tagEscapes (c.rest.length + 1) c
      match Text.utf8? (bytes.map UInt8.ofNat) with
      | none => throw .malformed
      | some text =>
        let (others, c) ← tagChars fuel c
        pure (text.toList ++ others, c)
    else if isTagChar c.peek then do
      let (others, c') ← tagChars fuel c.next
      pure (c.peek :: others, c')
    else pure ([], c)

/-- The part of a tag after its handle; there has to be one. -/
def tagText (c : Cursor) : Except Failure (List Char × Cursor) := do
  let (chars, c') ← tagChars (c.rest.length + 1) c
  if c'.index == c.index then throw .malformed else pure (chars, c')

/-- A tag handle: an exclamation mark, or a name between two of them. -/
def tagHandle (c : Cursor) : Except Failure (List Char × Cursor) :=
  if c.peek != '!' then throw .malformed
  else if c.peekAt 1 == ' ' then pure (['!'], c.next)
  else
    let (name, c) := c.next.takeWhile isNameChar
    if c.peek == '!' then pure ('!' :: name ++ ['!'], c.next)
    else throw .malformed

/-- A tag before a node; the cursor is on its exclamation mark. -/
def tagToken (c : Cursor) : Except Failure (Token × Cursor) := do
  let second := c.peekAt 1
  let (token, c) ←
    if second == '<' then do
      let (suffix, c) ← tagText (c.skip 2)
      if c.peek == '>' then pure (Token.tag none suffix, c.next) else throw .malformed
    else if isBlankOrEnd second then pure (Token.tag none ['!'], c.next)
    else
      let word := c.next.rest.takeWhile fun ch => !isSpaceOrEnd ch
      if word.contains '!' then do
        let (handle, c) ← tagHandle c
        let (suffix, c) ← tagText c
        pure (Token.tag (some handle) suffix, c)
      else do
        let (suffix, c) ← tagText c.next
        pure (Token.tag (some ['!']) suffix, c)
  if isSpaceOrEnd c.peek then pure (token, c) else throw .malformed

/-- The name of an anchor or an alias; the cursor is on the indicator before it. -/
def anchorName (c : Cursor) : Except Failure (List Char × Cursor) :=
  let (name, c) := c.next.takeWhile isNameChar
  if name.isEmpty then throw .malformed
  else if isBlankOrEnd c.peek ||
    "?:,]\x7d%@\x60".toList.contains c.peek then pure (name, c)
  else throw .malformed

/-- A number in a directive. -/
def directiveNumber (c : Cursor) : Except Failure (Nat × Cursor) :=
  let (digits, c) := c.takeWhile isDigit
  if digits.isEmpty then throw .malformed
  else pure (digits.foldl (fun n d => 10 * n + (d.toNat - '0'.toNat)) 0, c)

/-- The version after a version directive. -/
def versionDirective (c : Cursor) : Except Failure (Token × Cursor) := do
  let (major, c) ← directiveNumber c.skipSpaces
  if c.peek != '.' then throw .malformed
  let (_, c) ← directiveNumber c.next
  if isSpaceOrEnd c.peek then pure (.versionDirective major, c) else throw .malformed

/-- The handle after a tag directive and what it expands to. -/
def tagDirective (c : Cursor) : Except Failure (Token × Cursor) := do
  let (handle, c) ← tagHandle c.skipSpaces
  if c.peek != ' ' then throw .malformed
  let (expansion, c) ← tagText c.skipSpaces
  if isSpaceOrEnd c.peek then pure (.tagDirective handle expansion, c)
  else throw .malformed

/-- A directive and its line; the cursor is on its percent sign. -/
def directive (c : Cursor) : Except Failure (Token × Cursor) := do
  let (name, c) := c.next.takeWhile isNameChar
  if name.isEmpty || !isSpaceOrEnd c.peek then throw .malformed
  let (token, c) ←
    if name == "YAML".toList then versionDirective c
    else if name == "TAG".toList then tagDirective c
    else pure (Token.otherDirective, c.skipLine)
  let c := c.skipSpaces
  let c := if c.peek == '#' then c.skipLine else c
  if endsLine c.peek then pure (token, c.lineBreak.2) else throw .malformed

end ApiWorkbench.Yaml
