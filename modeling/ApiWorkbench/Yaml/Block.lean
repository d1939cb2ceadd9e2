import ApiWorkbench.Yaml.Cursor

/-!
# Block scalars

A block scalar consists of the indented lines after its header. A literal one keeps its
line ends, a folded one reads a line end between two lines that start without white
space as a space. The header may fix the indentation and says whether the line ends at
the very end are kept, dropped, or reduced to one.
-/

namespace ApiWorkbench.Yaml

/-- What becomes of the line ends at the end of a block scalar. -/
inductive Chomping where
  /-- one of them is kept -/
  | clip
  | strip
  | keep
deriving DecidableEq, Repr

/-- The indicator of a chomping. -/
def chompingOf? : Char → Option Chomping
  | '+' => some .keep
  | '-' => some .strip
  | _ => none

/-- The indentation that a digit fixes. Zero is no indentation. -/
def indentationOf? (c : Char) : Except Failure (Option Nat) :=
  if c == '0' then throw .malformed
  else pure (if isDigit c then some (c.toNat - '0'.toNat) else none)

/-- The indicators after `|` or `>`, in either order. -/
def blockIndicators (c : Cursor) : Except Failure (Chomping × Option Nat × Cursor) := do
  let (chomping, increment, c) ← match chompingOf? c.peek with
    | some chomping => do
      match ← indentationOf? c.next.peek with
      | some n => pure (chomping, some n, c.skip 2)
      | none => pure (chomping, none, c.next)
    | none => do
      match ← indentationOf? c.peek with
      | some n =>
        match chompingOf? c.next.peek with
        | some chomping => pure (chomping, some n, c.skip 2)
        | none => pure (Chomping.clip, some n, c.next)
      | none => pure (Chomping.clip, none, c)
  if isSpaceOrEnd c.peek then pure (chomping, increment, c) else throw .malformed

/-- The rest of a line on which only a comment may stand, and its end. -/
def ignoredLine (c : Cursor) : Except Failure Cursor :=
  let c := c.skipSpaces
  let c := if c.peek == '#' then c.skipLine else c
  if endsLine c.peek then pure c.lineBreak.2 else throw .malformed

/-- The line ends before the first line with content, and the greatest column on
the way to it. -/
def leadingBreaks : (fuel : Nat) → (deepest : Nat) → Cursor → List Char × Nat × Cursor
  | 0, deepest, c => ([], deepest, c)
  | fuel + 1, deepest, c =>
    if c.peek == ' ' then leadingBreaks fuel (max deepest c.next.column) c.next
    else if isBreak c.peek then
      let (first, c) := c.lineBreak
      let (others, deepest, c) := leadingBreaks fuel deepest c
      (first ++ others, deepest, c)
    else ([], deepest, c)

/-- The place after spaces up to a column. -/
def skipIndent (indent : Nat) (c : Cursor) : Cursor :=
  c.skip ((c.rest.take (indent - c.column)).takeWhile (· == ' ')).length

/-- The ends of lines without content, with their indentation passed over. -/
def blockBreaks (indent : Nat) : (fuel : Nat) → Cursor → List Char × Cursor
  | 0, c => ([], c)
  | fuel + 1, c =>
    let c := skipIndent indent c
    if isBreak c.peek then
      let (first, c) := c.lineBreak
      let (others, c) := blockBreaks indent fuel c
      (first ++ others, c)
    else ([], c)

/-- Whether a line with content stands at the indentation of the scalar. -/
def continuesBlock (indent : Nat) (c : Cursor) : Bool :=
  c.column == indent && c.peek != endChar

/-- The lines of a block scalar from the cursor on. `breaks` are the line ends before
it; `done` is what was read before them. -/
def blockLines (folded : Bool) (chomping : Chomping) (indent : Nat) :
    (fuel : Nat) → (done lineEnd breaks : List Char) → Cursor → List Char × Cursor
  | 0, done, _, _, c => (done, c)
  | fuel + 1, done, lineEnd, breaks, c =>
    if continuesBlock indent c then
      let flush := !isBlankChar c.peek
      let (line, c) := c.takeWhile fun ch => !endsLine ch
      let done := done ++ breaks ++ line
      let (lineEnd, c) := c.lineBreak
      let (breaks, c) := blockBreaks indent (c.rest.length + 1) c
      if continuesBlock indent c then
        let joint :=
          if folded && lineEnd == ['\n'] && flush && !isBlankChar c.peek then
            (if breaks.isEmpty then [' '] else [])
          else lineEnd
        blockLines folded chomping indent fuel (done ++ joint) [] breaks c
      else finish done lineEnd breaks c
    else finish done lineEnd breaks c
where
  /-- The text with the line ends that the chomping leaves. -/
  finish (done lineEnd breaks : List Char) (c : Cursor) : List Char × Cursor :=
    match chomping with
    | .strip => (done, c)
    | .clip => (done ++ lineEnd, c)
    | .keep => (done ++ lineEnd ++ breaks, c)

/-- A block scalar in a block that is indented by `indent`; the cursor is on its
first character. -/
def blockScalar (indent : Int) (c : Cursor) : Except Failure (List Char × Cursor) := do
  let folded := c.peek == '>'
  let (chomping, increment, c) ← blockIndicators c.next
  let c ← ignoredLine c
  let least := (max 1 (indent + 1)).toNat
  match increment with
  | some n =>
    let indent := least + n - 1
    let (breaks, c) := blockBreaks indent (c.rest.length + 1) c
    pure (blockLines folded chomping indent (c.rest.length + 1) [] [] breaks c)
  | none =>
    let (breaks, deepest, c) := leadingBreaks (c.rest.length + 1) 0 c
    pure (blockLines folded chomping (max least deepest) (c.rest.length + 1)
      [] [] breaks c)

end ApiWorkbench.Yaml
