/-!
# Brackets of Python source

Source text is taken to be well formed if its brackets close in the right order and its
string literals end. Brackets inside comments and literals do not count.
-/

namespace ApiWorkbench.Check

/-- The bracket that closes another. -/
def closing? : Char → Option Char
  | '(' => some ')'
  | '[' => some ']'
  | '\x7b' => some '\x7d'
  | _ => none

/-- Whether a character closes a bracket. -/
def isClosing (c : Char) : Bool :=
  c == ')' || c == ']' || c == '\x7d'

/-- What is left after the end of a literal; none if it does not end. A literal in three
quotes may run over lines. -/
def afterLiteral (quote : Char) (long : Bool) : List Char → Option (List Char)
  | [] => none
  | ['\\'] => none
  | '\\' :: _ :: rest => afterLiteral quote long rest
  | c :: rest =>
    if long then
      match rest with
      | a :: b :: after =>
        if c == quote && a == quote && b == quote then some after
        else afterLiteral quote long (a :: b :: after)
      | _ => none
    else if c == quote then some rest
    else if c == '\n' then none
    else afterLiteral quote long rest

/-- Whether brackets close and literals end, with `opened` the brackets that still have
to be closed, innermost first. -/
def bracketsClose : (fuel : Nat) → (opened : List Char) → List Char → Bool
  | 0, _, _ => false
  | _ + 1, opened, [] => opened.isEmpty
  | fuel + 1, opened, c :: rest =>
    if c == '#' then bracketsClose fuel opened (rest.dropWhile (· != '\n'))
    else if c == '\'' || c == '"' then
      let long := rest.take 2 == [c, c]
      match afterLiteral c long (if long then rest.drop 2 else rest) with
      | some after => bracketsClose fuel opened after
      | none => false
    else match closing? c with
      | some closing => bracketsClose fuel (closing :: opened) rest
      | none =>
        if isClosing c then
          match opened with
          | innermost :: others => innermost == c && bracketsClose fuel others rest
          | [] => false
        else bracketsClose fuel opened rest

/-- Whether source text is well formed as far as brackets and literals go. -/
def isSource (content : String) : Bool :=
  bracketsClose (content.length + 1) [] content.toList

end ApiWorkbench.Check
