/-!
# Letters

A text is a sequence of letters. A letter is a character, but for one exception: an
escape may name half of a surrogate pair, and a half that stands alone has no character.
A text that holds such a half is torn. It is kept as it is in a document, and it can be
written with escapes; but it has no form in a file.

Where a text is taken apart or made into another one (pointers, addresses, names that a
command gives, generated source around literals), a half counts as the character that
stands for what has none.
-/

namespace ApiWorkbench.Text

/-- Stands for what has no character. -/
def replacementChar : Char := Char.ofNat 0xfffd

/-- A letter of a text. -/
inductive Letter where
  | char (c : Char)
  /-- half of a surrogate pair, counted from the first one -/
  | half (index : Fin 0x800)
deriving DecidableEq, Repr

namespace Letter

/-- Whether a letter is half of a surrogate pair. -/
def isHalf : Letter → Bool
  | char _ => false
  | half _ => true

/-- The code of a letter. -/
def code : Letter → Nat
  | char c => c.toNat
  | half index => 0xd800 + index

/-- The letter with a code, which is at most that of the last character. -/
def ofCode (code : Nat) : Letter :=
  if h : 0xd800 ≤ code ∧ code < 0xe000 then half ⟨code - 0xd800, by omega⟩
  else char (Char.ofNat code)

/-- The character that a letter counts as. -/
def shown : Letter → Char
  | char c => c
  | half _ => replacementChar

end Letter

/-- The letters of a text without halves. -/
def letters (s : String) : List Letter :=
  s.toList.map .char

/-- A text with halves of surrogate pairs. -/
structure Torn where
  letters : List Letter
  isTorn : letters.any Letter.isHalf = true
deriving DecidableEq, Repr

/-- The text that a torn one counts as. -/
def Torn.shown (text : Torn) : String :=
  String.ofList (text.letters.map Letter.shown)

end ApiWorkbench.Text
