import ApiWorkbench.Yaml.Cursor

/-!
# Plain scalars

A scalar without quotes ends where white space, a comment, a mapping value or, inside
brackets, a bracket or a comma would be read. It may go on in further lines that are
indented deeply enough, and line ends inside it are read as they are in quoted scalars.
-/

namespace ApiWorkbench.Yaml

/-- Characters with a meaning inside brackets. -/
def isFlowIndicator (c : Char) : Bool :=
  c == ',' || c == '[' || c == ']' || c == '\x7b' || c == '\x7d'

/-- Whether a plain scalar ends at `c`, which `following` comes after. -/
def endsPlain (inFlow : Bool) (c following : Char) : Bool :=
  isBlankOrEnd c
    || (c == ':' && (isBlankOrEnd following || (inFlow && isFlowIndicator following)))
    || (inFlow && (isFlowIndicator c || c == '?'))

/-- The characters of a plain scalar up to the first white space. -/
def plainRun (inFlow : Bool) : List Char → List Char
  | [] => []
  | c :: rest =>
    if endsPlain inFlow c (rest.headD endChar) then [] else c :: plainRun inFlow rest

/-- The line ends and leading spaces after a first line end; none if a document
boundary follows. -/
def plainBreaks : (fuel : Nat) → Cursor → Option (List Char) × Cursor
  | 0, c => (some [], c)
  | fuel + 1, c =>
    if c.peek == ' ' then plainBreaks fuel c.next
    else if isBreak c.peek then
      let (first, c) := c.lineBreak
      if c.atMarker then (none, c)
      else
        let (others, c) := plainBreaks fuel c
        (others.map (first ++ ·), c)
    else (some [], c)

/-- What was found after a run of a plain scalar. -/
structure PlainGap where
  /-- how the gap is read if the scalar goes on; none if it cannot -/
  text : Option (List Char)
  /-- whether a line end was passed -/
  newLine : Bool
  cursor : Cursor

/-- The white space after a run of a plain scalar. -/
def plainGap (c : Cursor) : PlainGap :=
  let (spaces, c) := c.takeWhile (· == ' ')
  if isBreak c.peek then
    let (first, c) := c.lineBreak
    if c.atMarker then ⟨none, true, c⟩
    else
      match plainBreaks (c.rest.length + 1) c with
      | (none, c) => ⟨none, true, c⟩
      | (some others, c) =>
        let text := if first != ['\n'] then first ++ others
          else if others.isEmpty then [' '] else others
        ⟨some text, true, c⟩
  else ⟨if spaces.isEmpty then none else some spaces, false, c⟩

/-- A plain scalar that was read. -/
structure PlainScalar where
  text : List Char
  /-- whether a line end was passed after the scalar -/
  newLine : Bool
  cursor : Cursor

/-- The rest of a plain scalar; `done` holds what was read before and `gap` the white
space after that. -/
def plainRest (inFlow : Bool) (indent : Int) :
    (fuel : Nat) → (done gap : List Char) → (newLine : Bool) → Cursor → PlainScalar
  | 0, done, _, newLine, c => ⟨done, newLine, c⟩
  | fuel + 1, done, gap, newLine, c =>
    let run := plainRun inFlow c.rest
    if c.peek == '#' || run.isEmpty then ⟨done, newLine, c⟩
    else
      let done := done ++ gap ++ run
      let found := plainGap (c.skip run.length)
      match found.text with
      | none => ⟨done, found.newLine, found.cursor⟩
      | some gap =>
        if !inFlow && (found.cursor.column : Int) < indent then
          ⟨done, found.newLine, found.cursor⟩
        else plainRest inFlow indent fuel done gap found.newLine found.cursor

/-- A plain scalar whose further lines have to be indented by at least `indent`, unless
it stands in brackets. -/
def plainScalar (inFlow : Bool) (indent : Int) (c : Cursor) : PlainScalar :=
  plainRest inFlow indent (c.rest.length + 1) [] [] false c

/-- Whether a plain scalar may begin here. -/
def beginsPlain (inFlow : Bool) (c : Cursor) : Bool :=
  let ch := c.peek
  let indicator := isBlankOrEnd ch || isFlowIndicator ch
    || "-?:#&*!|>'\"%@\x60".toList.contains ch
  !indicator ||
    (!isBlankOrEnd (c.peekAt 1) && (ch == '-' || (!inFlow && (ch == '?' || ch == ':'))))

end ApiWorkbench.Yaml
