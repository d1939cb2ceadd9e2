/-!
# Base 64

Three bytes are written as four digits of six bits each, and equals signs fill up the
last group of digits. Reading passes over everything that is neither a digit nor an
equals sign. An equals sign that fills up a group ends the text, whatever comes after
it; any other says nothing.
-/

namespace ApiWorkbench.Text.Base64

/-- The digits in the order of their values. -/
def digits : List Char :=
  "ABCDEFGHIJKLMNOPQRSTUVWXYZabcdefghijklmnopqrstuvwxyz0123456789+/".toList

/-- The digit of a value. -/
def digit (value : Nat) : Char :=
  digits.getD value '='

/-- The value of a digit. -/
def value? (c : Char) : Option Nat :=
  digits.idxOf? c

/-- Bytes as digits. -/
def encode : List UInt8 → List Char
  | [] => []
  | [a] => [digit (a.toNat / 4), digit (a.toNat % 4 * 16), '=', '=']
  | [a, b] =>
    [digit (a.toNat / 4), digit (a.toNat % 4 * 16 + b.toNat / 16),
      digit (b.toNat % 16 * 4), '=']
  | a :: b :: c :: rest =>
    digit (a.toNat / 4) :: digit (a.toNat % 4 * 16 + b.toNat / 16)
      :: digit (b.toNat % 16 * 4 + c.toNat / 64) :: digit (c.toNat % 64) :: encode rest

/-- The whole bytes that the digits of a group make. -/
def groupBytes : List Nat → List UInt8
  | a :: b :: rest =>
    UInt8.ofNat (a * 4 + b / 16) :: match rest with
      | [] => []
      | c :: rest =>
          UInt8.ofNat (b % 16 * 16 + c / 4) :: rest.map fun d =>
            UInt8.ofNat (c % 4 * 64 + d)
  | _ => []

/-- The bytes of a text, given the digits of the group at hand and the equals signs
after the last of them; none if a group is left open. -/
def decodeFrom (group : List Nat) (pads : Nat) : List Char → Option (List UInt8)
  | [] => if group.isEmpty then some [] else none
  | c :: rest =>
    if c == '=' then
      if group.length < 2 then decodeFrom group pads rest
      else if 4 ≤ group.length + (pads + 1) then some (groupBytes group)
      else decodeFrom group (pads + 1) rest
    else match value? c with
      | none => decodeFrom group pads rest
      | some d =>
        if group.length < 3 then decodeFrom (group ++ [d]) 0 rest
        else (decodeFrom [] 0 rest).map (groupBytes (group ++ [d]) ++ ·)

/-- The bytes of a text. -/
def decode (text : List Char) : Option (List UInt8) :=
  decodeFrom [] 0 text

end ApiWorkbench.Text.Base64
