import ApiWorkbench.Text.Blank
import ApiWorkbench.Text.CharSet
import ApiWorkbench.Text.Percent
import ApiWorkbench.Value.Reading

/-!
# Pointers into a document

A pointer is a path of segments after an optional `#`. Each segment names a member of an
object or, in decimal digits of any script, an item of a list. In a segment `~1` stands
for a slash and `~0` for a tilde; after that percent encoding is undone. Empty segments
are passed over. Where nothing is found the result is null.
-/

namespace ApiWorkbench.Reference

/-- A segment with its tilde escapes undone. -/
def unescape : List Char → List Char
  | '~' :: '1' :: rest => '/' :: unescape rest
  | '~' :: '0' :: rest => '~' :: unescape rest
  | c :: rest => c :: unescape rest
  | [] => []

/-- The segments of a pointer, decoded. -/
def segments (pointer : String) : List String :=
  let path := match pointer.toList with
    | '#' :: rest => rest
    | path => path
  ((Text.splitAt '/' path).filter fun part => !part.isEmpty).map fun part =>
    Text.percentDecode (String.ofList (unescape part))

/-- The position that a segment of digits names. -/
def position (part : String) : Except Fault Nat :=
  match Text.decimalNumber? part with
  | some n => if part.length ≤ maxDigits then pure n else throw .notANumber
  | none => throw .notANumber

/-- One step of a walk: the member or the item that a segment names. -/
def step (current : Value) (part : String) : Except Fault (Option Value) :=
  match current with
  | .object ms => pure (Members.get? part ms)
  | .list xs =>
    if !part.isEmpty && part.toList.all Text.isDigit then do pure xs[← position part]?
    else pure none
  | _ => pure none

/-- Walks along segments; null where a step finds nothing. -/
def walk (current : Value) : List String → Except Fault Value
  | [] => pure current
  | part :: rest => do
    match ← step current part with
    | some next => walk next rest
    | none => pure .null

/-- What a pointer leads to in a document; null for a pointer that is no text or
leads nowhere. -/
def resolve (pointer root : Value) : Except Fault Value :=
  match pointer with
  | .str text => walk root (segments text)
  | _ => pure .null

end ApiWorkbench.Reference
