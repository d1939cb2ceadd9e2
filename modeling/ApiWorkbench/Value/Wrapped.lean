import ApiWorkbench.Text.Blank
import ApiWorkbench.Value.Literal

/-!
# Literals over several lines

A literal that does not fit into the width of a page is wrapped: an object or a list has
one entry per line, a text becomes several literals, which stand for the text that they
make together; pairs and sets are left on one line. A text is broken after its line ends
and, where a line is still too long, after white space.

`column` is where a literal starts, and `after` is the number of characters that follow
it on its last line.
-/

namespace ApiWorkbench

namespace Wrapped

/-- The width of a page. -/
def pageWidth : Nat := 80

/-- Whether a literal fits. -/
def fits (column after : Nat) (literal : String) : Bool :=
  literal.length + column + after ≤ pageWidth

/-- The lines of a text, with their ends. -/
def endedLines : List Char → List (List Char)
  | [] => []
  | '\r' :: '\n' :: rest => ['\r', '\n'] :: endedLines rest
  | c :: rest =>
    if Text.isLineBoundary c then [c] :: endedLines rest
    else match endedLines rest with
      | [] => [[c]]
      | line :: lines => (c :: line) :: lines

/-- The words of a line, each with the white space after it. -/
def spacedWords : List Char → List (List Char)
  | [] => []
  | c :: rest =>
    match spacedWords rest with
    | [] => [[c]]
    | word :: words =>
      if Text.isBlank c && !word.head?.all Text.isBlank then [c] :: word :: words
      else (c :: word) :: words

/-- The literal of some characters. -/
def charsLiteral (text : List Char) : String :=
  textLiteral (String.ofList text)

/-- The literal of some characters, unless there are none. -/
def nonemptyLiteral (text : List Char) : List String :=
  if text.isEmpty then [] else [charsLiteral text]

/-- Words as literals, as many words in each as fit; `pending` are the words of
the next literal. -/
def wordLiterals (column after : Nat) (pending : List Char) :
    List (List Char) → List String
  | [] => nonemptyLiteral pending
  | word :: rest =>
    let joined := pending ++ word
    if fits column (if rest.isEmpty then after else 0) (charsLiteral joined) then
      wordLiterals column after joined rest
    else nonemptyLiteral pending ++ wordLiterals column after word rest

/-- A line as literals. -/
def lineLiterals (column after : Nat) (line : List Char) : List String :=
  let literal := charsLiteral line
  if fits column after literal then [literal]
  else wordLiterals column after [] (spacedWords line)

/-- Lines as literals. -/
def linesLiterals (column after : Nat) : List (List Char) → List String
  | [] => []
  | line :: rest =>
    lineLiterals column (if rest.isEmpty then after else 0) line ++
      linesLiterals column after rest

/-- A new line on which the next entry starts at a column. -/
def newLine (column : Nat) : String :=
  "\n".pushn ' ' column

/-- A text as one literal or several. -/
def textLiterals (column after : Nat) (text : String) : String :=
  if text.isEmpty then textLiteral text
  else (newLine column).intercalate
    (linesLiterals column after (endedLines text.toList))

mutual

/-- A value as a literal, wrapped where it does not fit. -/
def literal (column after : Nat) : Value → String
  | .object ms =>
    if fits column after (Value.object ms).literal then (Value.object ms).literal
    else "\x7b" ++ memberLiterals (column + 1) (after + 1) ms ++ "\x7d"
  | .list xs =>
    if fits column after (Tree.list xs : Value).literal then
      (Tree.list xs : Value).literal
    else "[" ++ itemLiterals (column + 1) (after + 1) xs ++ "]"
  | .scalar (.str s) =>
    if fits column after (textLiteral s) then textLiteral s
    else textLiterals column after s
  | .scalar s => s.literal
  | .pair a b => (Tree.pair a b).literal
  | .set names => setLiteral names

/-- List items, one per line. -/
def itemLiterals (column after : Nat) : List Value → String
  | [] => ""
  | [v] => literal column after v
  | v :: rest =>
      literal column 1 v ++ "," ++ newLine column ++ itemLiterals column after rest

/-- Members, one per line. -/
def memberLiterals (column after : Nat) : List (Scalar × Value) → String
  | [] => ""
  | [(k, v)] => k.literal ++ ": " ++ literal (column + k.literal.length + 2) after v
  | (k, v) :: rest =>
    k.literal ++ ": " ++ literal (column + k.literal.length + 2) 1 v ++ "," ++
      newLine column ++ memberLiterals column after rest

end

end Wrapped

/-- A value as a literal that is wrapped at the width of a page. -/
def Value.wrappedLiteral (v : Value) : String :=
  Wrapped.literal 0 0 v

end ApiWorkbench
