import ApiWorkbench.Text.Blank
import ApiWorkbench.Text.WordChar

/-!
# Requirement lines

A requirement names a package, perhaps with extras in brackets, and perhaps with
versions: comparisons with commas between them. Comments start at a number sign; blank
lines require nothing.
-/

namespace ApiWorkbench.Check

/-- Characters of the names of packages and extras. -/
def isPackageChar (c : Char) : Bool :=
  Text.isAsciiAlphanumeric c || c == '.' || c == '_' || c == '-'

/-- Characters of versions. -/
def isVersionChar (c : Char) : Bool :=
  isPackageChar c || c == '*' || c == '+' || c == '!'

/-- What is left after the name of a package. -/
def afterName : List Char → Option (List Char)
  | c :: rest =>
      if Text.isAsciiAlphanumeric c then some (rest.dropWhile isPackageChar) else none
  | [] => none

/-- What is left after a nonempty run of characters. -/
def afterRun (p : Char → Bool) (cs : List Char) : Option (List Char) :=
  match cs with
  | c :: rest => if p c then some (rest.dropWhile p) else none
  | [] => none

/-- What is left after extras from the start of one on, the closing bracket included. -/
def afterExtras : (fuel : Nat) → List Char → Option (List Char)
  | 0, _ => none
  | fuel + 1, cs =>
    match afterRun isPackageChar cs with
    | some (']' :: rest) => some rest
    | some (',' :: rest) => afterExtras fuel (rest.dropWhile Text.isBlank)
    | _ => none

/-- What is left after a comparison sign. -/
def afterComparison : List Char → Option (List Char)
  | '=' :: '=' :: rest => some rest
  | '>' :: '=' :: rest => some rest
  | '<' :: '=' :: rest => some rest
  | '~' :: '=' :: rest => some rest
  | '!' :: '=' :: rest => some rest
  | '>' :: rest => some rest
  | '<' :: rest => some rest
  | _ => none

/-- What is left after a comparison and its version. -/
def afterVersion (cs : List Char) : Option (List Char) := do
  let rest ← afterComparison (cs.dropWhile Text.isBlank)
  afterRun isVersionChar (rest.dropWhile Text.isBlank)

/-- Whether the rest of a line is versions with commas between them. -/
def areVersions : (fuel : Nat) → List Char → Bool
  | 0, _ => false
  | fuel + 1, cs =>
    match afterVersion cs with
    | none => false
    | some rest =>
      if rest.isEmpty then true
      else match rest.dropWhile Text.isBlank with
        | ',' :: rest => areVersions fuel rest
        | _ => false

/-- Whether a line is a requirement. -/
def isRequirement (line : List Char) : Bool :=
  match afterName line with
  | none => false
  | some rest =>
    let afterBrackets := match rest with
      | '[' :: extras => afterExtras (extras.length + 1) extras
      | _ => some rest
    match afterBrackets with
    | none => false
    | some [] => true
    | some versions => areVersions (versions.length + 1) versions

/-- A line without its comment and the white space around the rest. -/
def requirementText (line : List Char) : List Char :=
  Text.trimBy Text.isBlank (line.takeWhile (· != '#'))

/-- The first of the lines, counted from `number`, that is neither blank nor
a requirement. -/
def firstInvalid (number : Nat) : List (List Char) → Option (Nat × String)
  | [] => none
  | line :: rest =>
    let text := requirementText line
    if text.isEmpty || isRequirement text then firstInvalid (number + 1) rest
    else some (number, String.ofList text)

/-- The first line of a requirements file that is no requirement, with its number. -/
def invalidRequirement (content : String) : Option (Nat × String) :=
  firstInvalid 1 (Text.linesOf content.toList)

end ApiWorkbench.Check
