import ApiWorkbench.Yaml.Block
import ApiWorkbench.Yaml.Plain
import ApiWorkbench.Yaml.Quoted
import ApiWorkbench.Yaml.Token

/-!
# Reading tokens

Whether a scalar or a bracketed node is a mapping key shows only when the colon after it
is read. Until then the node is a candidate: it may be a key if the colon follows on the
same line and within 1024 characters, and it has to be one if it stands at the
indentation of the block it is in. When the colon comes, the key token, and the start of
a block mapping if need be, are put in front of the node.
-/

namespace ApiWorkbench.Yaml

/-- A node that may turn out to be a mapping key. -/
structure Candidate where
  /-- the number of tokens before the node -/
  position : Nat
  /-- the node can be nothing but a key -/
  required : Bool
  index : Nat
  line : Nat
  column : Nat
deriving Repr

/-- The state of reading tokens. -/
structure Lexer where
  cursor : Cursor
  /-- the tokens read so far, latest first -/
  tokens : List Token
  /-- the indentation of the block at hand, -1 outside of all blocks -/
  indent : Int
  /-- the indentations of the blocks around it, innermost first -/
  outer : List Int
  /-- whether a key may start here -/
  keyAllowed : Bool
  /-- the candidate on the innermost level of brackets, and those on the
  levels around it -/
  candidate : Option Candidate
  outerCandidates : List (Option Candidate)
deriving Repr

namespace Lexer

/-- The start of a text. -/
def start (text : List Char) : Lexer where
  cursor := .start text
  tokens := []
  indent := -1
  outer := []
  keyAllowed := true
  candidate := none
  outerCandidates := []

/-- Whether the place is inside brackets. -/
def inFlow (s : Lexer) : Bool :=
  !s.outerCandidates.isEmpty

/-- Adds a token. -/
def push (token : Token) (s : Lexer) : Lexer :=
  { s with tokens := token :: s.tokens }

/-- Adds a token of a number of characters and moves past it. -/
def pushOver (token : Token) (width : Nat) (s : Lexer) : Lexer :=
  { s with tokens := token :: s.tokens, cursor := s.cursor.skip width }

/-- Puts a token in front of all but the first `position` tokens. -/
def insert (token : Token) (position : Nat) (s : Lexer) : Lexer :=
  let later := s.tokens.length - position
  { s with tokens := s.tokens.take later ++ token :: s.tokens.drop later }

/-- Says whether a key may start next. -/
def allowKey (allowed : Bool) (s : Lexer) : Lexer :=
  { s with keyAllowed := allowed }

/-- A candidate that can no longer be a key, given the place reached: none is left of
it, and it must not have been required. -/
def settle (c : Cursor) (candidate : Option Candidate) :
    Except Failure (Option Candidate) :=
  match candidate with
  | none => pure none
  | some key =>
    if key.line != c.line || key.index + 1024 < c.index then
      if key.required then throw .malformed else pure none
    else pure (some key)

/-- Drops the candidates that the place reached rules out. -/
def dropStale (s : Lexer) : Except Failure Lexer := do
  let candidate ← settle s.cursor s.candidate
  let outer ← s.outerCandidates.mapM (settle s.cursor)
  pure { s with candidate := candidate, outerCandidates := outer }

/-- Gives the candidate on this level up. -/
def dropCandidate (s : Lexer) : Except Failure Lexer :=
  match s.candidate with
  | some key =>
      if key.required then throw .malformed else pure { s with candidate := none }
  | none => pure s

/-- Makes the node that starts here a candidate, if a key may start here. -/
def markCandidate (s : Lexer) : Except Failure Lexer :=
  if s.keyAllowed then do
    let s ← s.dropCandidate
    let key : Candidate := {
      position := s.tokens.length
      required := !s.inFlow && s.indent == s.cursor.column
      index := s.cursor.index
      line := s.cursor.line
      column := s.cursor.column }
    pure { s with candidate := some key }
  else pure s

/-- Ends all blocks that are indented more than `column`. -/
def closeBlocks (column : Int) (s : Lexer) : Lexer :=
  if s.inFlow then s else close s s.outer
where
  /-- Ends blocks, those around the one at hand being `outer`. -/
  close (s : Lexer) : List Int → Lexer
    | [] => s
    | indent :: outer =>
      if column < s.indent then
        close
          { s with tokens := .blockEnd :: s.tokens, indent := indent, outer := outer }
          outer
      else s

/-- Starts a block at a column unless the block at hand is already indented that far;
`opening` is put in front of all but the first `position` tokens. -/
def openBlock (opening : Token) (column position : Nat) (s : Lexer) : Lexer :=
  if s.indent < column then
    { (s.insert opening position) with indent := column, outer := s.indent :: s.outer }
  else s

/-! ## Reading one token -/

/-- Passes over white space, comments and line ends. -/
def skipSpace : (fuel : Nat) → Lexer → Lexer
  | 0, s => s
  | fuel + 1, s =>
    let c := s.cursor.skipSpaces
    let c := if c.peek == '#' then c.skipLine else c
    if isBreak c.peek then
      skipSpace fuel
        { s with cursor := c.lineBreak.2, keyAllowed := s.keyAllowed || !s.inFlow }
    else { s with cursor := c }

/-- Passes over a byte order mark at the start of the text. -/
def skipMark (s : Lexer) : Lexer :=
  if s.cursor.index == 0 && s.cursor.peek.toNat == 0xfeff then
    { s with cursor := s.cursor.next } else s

/-- The end of the text. -/
def readEnd (s : Lexer) : Except Failure Lexer := do
  let s ← (s.closeBlocks (-1)).dropCandidate
  pure (s.allowKey false)

/-- A directive. -/
def readDirective (s : Lexer) : Except Failure Lexer := do
  let s ← (s.closeBlocks (-1)).dropCandidate
  let (token, c) ← directive s.cursor
  pure { s.allowKey false with tokens := token :: s.tokens, cursor := c }

/-- A document boundary. -/
def readBoundary (token : Token) (s : Lexer) : Except Failure Lexer := do
  let s ← (s.closeBlocks (-1)).dropCandidate
  pure ((s.allowKey false).pushOver token 3)

/-- An opening bracket. -/
def readOpening (token : Token) (s : Lexer) : Except Failure Lexer := do
  let s ← s.markCandidate
  pure { ((s.allowKey true).pushOver token 1) with
    candidate := none, outerCandidates := s.candidate :: s.outerCandidates }

/-- A closing bracket. -/
def readClosing (token : Token) (s : Lexer) : Except Failure Lexer := do
  let s ← s.dropCandidate
  match s.outerCandidates with
  | [] => throw .malformed
  | candidate :: outer =>
    pure { ((s.allowKey false).pushOver token 1) with
      candidate := candidate, outerCandidates := outer }

/-- A comma inside brackets. -/
def readFlowEntry (s : Lexer) : Except Failure Lexer := do
  let s ← (s.allowKey true).dropCandidate
  pure (s.pushOver .flowEntry 1)

/-- The dash before an item of a block sequence. -/
def readBlockEntry (s : Lexer) : Except Failure Lexer := do
  if !s.inFlow && !s.keyAllowed then throw .malformed
  let s := if s.inFlow then s
    else s.openBlock .blockSequenceStart s.cursor.column s.tokens.length
  let s ← (s.allowKey true).dropCandidate
  pure (s.pushOver .blockEntry 1)

/-- The question mark before a key. -/
def readKey (s : Lexer) : Except Failure Lexer := do
  if !s.inFlow && !s.keyAllowed then throw .malformed
  let s := if s.inFlow then s
    else s.openBlock .blockMappingStart s.cursor.column s.tokens.length
  let s ← (s.allowKey !s.inFlow).dropCandidate
  pure (s.pushOver .key 1)

/-- The colon before a value. The candidate before it, if there is one, is a key. -/
def readValue (s : Lexer) : Except Failure Lexer := do
  match s.candidate with
  | some key =>
    let s := { s with candidate := none }.insert .key key.position
    let s :=
      if s.inFlow then s else s.openBlock .blockMappingStart key.column key.position
    pure ((s.allowKey false).pushOver .value 1)
  | none =>
    if !s.inFlow && !s.keyAllowed then throw .malformed
    let s := if s.inFlow then s
      else s.openBlock .blockMappingStart s.cursor.column s.tokens.length
    pure ((s.allowKey !s.inFlow).pushOver .value 1)

/-- An alias or an anchor. -/
def readAnchor (token : List Char → Token) (s : Lexer) : Except Failure Lexer := do
  let s ← s.markCandidate
  let (name, c) ← anchorName s.cursor
  pure { s.allowKey false with tokens := token name :: s.tokens, cursor := c }

/-- A tag. -/
def readTag (s : Lexer) : Except Failure Lexer := do
  let s ← s.markCandidate
  let (token, c) ← tagToken s.cursor
  pure { s.allowKey false with tokens := token :: s.tokens, cursor := c }

/-- A block scalar. -/
def readBlockScalar (s : Lexer) : Except Failure Lexer := do
  let s ← (s.allowKey true).dropCandidate
  let (text, c) ← blockScalar s.indent s.cursor
  pure { s with tokens := .scalar false text :: s.tokens, cursor := c }

/-- A quoted scalar. -/
def readQuoted (s : Lexer) : Except Failure Lexer := do
  let s ← s.markCandidate
  let (letters, c) ← quotedScalar s.cursor
  pure { s.allowKey false with tokens := .quoted letters :: s.tokens, cursor := c }

/-- A plain scalar. -/
def readPlain (s : Lexer) : Except Failure Lexer := do
  let s ← s.markCandidate
  let scalar := plainScalar s.inFlow (s.indent + 1) s.cursor
  pure { s.allowKey scalar.newLine with
    tokens := .scalar true scalar.text :: s.tokens, cursor := scalar.cursor }

/-- The next token, from its first character on. -/
def readToken (s : Lexer) : Except Failure Lexer :=
  let c := s.cursor
  let ch := c.peek
  let spaced := isBlankOrEnd (c.peekAt 1)
  if c.column == 0 && ch == '%' then s.readDirective
  else if c.column == 0 && c.atMarker then
    s.readBoundary (if ch == '-' then .documentStart else .documentEnd)
  else if ch == '[' then s.readOpening .flowSequenceStart
  else if ch == '\x7b' then s.readOpening .flowMappingStart
  else if ch == ']' then s.readClosing .flowSequenceEnd
  else if ch == '\x7d' then s.readClosing .flowMappingEnd
  else if ch == ',' then s.readFlowEntry
  else if ch == '-' && spaced then s.readBlockEntry
  else if ch == '?' && (s.inFlow || spaced) then s.readKey
  else if ch == ':' && (s.inFlow || spaced) then s.readValue
  else if ch == '*' then s.readAnchor .alias
  else if ch == '&' then s.readAnchor .anchor
  else if ch == '!' then s.readTag
  else if (ch == '|' || ch == '>') && !s.inFlow then s.readBlockScalar
  else if ch == '\'' || ch == '"' then s.readQuoted
  else if beginsPlain s.inFlow c then s.readPlain
  else throw .malformed

/-- The number of tokens that are certain when nothing further can be read: those before
the first candidate that is left. -/
def certain (s : Lexer) : Nat :=
  let positions := (s.candidate :: s.outerCandidates).filterMap fun candidate =>
    match settle s.cursor candidate with
    | .ok none => none
    | _ => candidate.map (·.position)
  positions.foldl min s.tokens.length

/-- The lexer at its next token, or at the end of the text. Candidates that cannot be
keys any longer are dropped on the way, and blocks that are indented more deeply end. -/
def arrive (s : Lexer) : Except Failure Lexer := do
  let next ← (skipSpace (s.cursor.rest.length + 1) s.skipMark).dropStale
  pure (next.closeBlocks next.cursor.column)

/-- The tokens that are found further on after a step, or those that are certain if
the step fails. -/
def orBroken (s : Lexer) (step : Except Failure Lexer) (further : Lexer → List Token) :
    List Token :=
  match step with
  | .error failure => s.tokens.reverse.take s.certain ++ [.broken failure]
  | .ok next => further next

/-- Reads tokens to the end of the text. -/
def readAll : (fuel : Nat) → Lexer → List Token
  | 0, s => s.tokens.reverse
  | fuel + 1, s =>
    s.orBroken s.arrive fun here =>
      if here.cursor.rest.isEmpty then s.orBroken here.readEnd fun last =>
        last.tokens.reverse
      else s.orBroken here.readToken fun next => readAll fuel next

end Lexer

/-- The tokens of a text, up to where it cannot be read on. -/
def tokens (text : String) : List Token :=
  let cs := text.toList
  if cs.all isAllowed then Lexer.readAll (cs.length + 1) (.start cs)
  else [.broken .malformed]

end ApiWorkbench.Yaml
