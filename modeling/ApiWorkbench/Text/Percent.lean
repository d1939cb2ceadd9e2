import ApiWorkbench.Text.Letter

/-!
# Percent encoding

A percent sign and two hexadecimal digits stand for a byte. Runs of ASCII characters
are turned into bytes and read as UTF-8; bytes that are no UTF-8 become one
replacement character per ill-formed piece. A percent sign without two hexadecimal
digits stays as it is.
-/

namespace ApiWorkbench.Text

/-- The value of a hexadecimal digit. -/
def hexDigit? (c : Char) : Option Nat :=
  if '0' ≤ c && c ≤ '9' then some (c.toNat - '0'.toNat)
  else if 'a' ≤ c && c ≤ 'f' then some (c.toNat - 'a'.toNat + 10)
  else if 'A' ≤ c && c ≤ 'F' then some (c.toNat - 'A'.toNat + 10)
  else none

/-- Bytes that may follow the first byte of a sequence. -/
def isContinuationByte (b : Nat) : Bool :=
  0x80 ≤ b && b < 0xc0

/-- Whether `second` may come second after the lead byte `lead`: this keeps out overlong
forms, surrogates and code points past the last one. -/
def mayFollowLead (lead second : Nat) : Bool :=
  if lead < 0xc2 then false
  else if lead < 0xe0 then isContinuationByte second
  else if lead == 0xe0 then 0xa0 ≤ second && second < 0xc0
  else if lead == 0xed then 0x80 ≤ second && second < 0xa0
  else if lead < 0xf0 then isContinuationByte second
  else if lead == 0xf0 then 0x90 ≤ second && second < 0xc0
  else if lead < 0xf4 then isContinuationByte second
  else lead == 0xf4 && 0x80 ≤ second && second < 0x90

/-- Bytes read as UTF-8, every ill-formed piece as one replacement character. -/
def decodeUtf8 : List Nat → List Char
  | [] => []
  | [a] => [if a < 0x80 then Char.ofNat a else replacementChar]
  | a :: b :: rest =>
    if a < 0x80 then Char.ofNat a :: decodeUtf8 (b :: rest)
    else if !mayFollowLead a b then replacementChar :: decodeUtf8 (b :: rest)
    else if a < 0xe0 then Char.ofNat ((a - 0xc0) * 64 + (b - 0x80)) :: decodeUtf8 rest
    else match rest with
      | [] => [replacementChar]
      | c :: rest =>
        if !isContinuationByte c then replacementChar :: decodeUtf8 (c :: rest)
        else if a < 0xf0 then
          Char.ofNat (((a - 0xe0) * 64 + (b - 0x80)) * 64 + (c - 0x80)) ::
            decodeUtf8 rest
        else match rest with
          | [] => [replacementChar]
          | d :: rest =>
            if !isContinuationByte d then replacementChar :: decodeUtf8 (d :: rest)
            else
              Char.ofNat ((((a - 0xf0) * 64 + (b - 0x80)) * 64 + (c - 0x80)) * 64 +
                (d - 0x80)) :: decodeUtf8 rest

/-- Bytes read as UTF-8, if they are. -/
def utf8? (bytes : List UInt8) : Option String :=
  String.fromUTF8? ⟨bytes.toArray⟩

/-- The bytes that ASCII text with percent signs spells. -/
def percentBytes : List Char → List Nat
  | '%' :: high :: low :: rest =>
    match hexDigit? high, hexDigit? low with
    | some h, some l => (16 * h + l) :: percentBytes rest
    | _, _ => '%'.toNat :: percentBytes (high :: low :: rest)
  | c :: rest => c.toNat :: percentBytes rest
  | [] => []

/-- Percent-decoding with `pending` the ASCII characters read since the last other
one, latest first. -/
def percentDecodeFrom (pending : List Char) : List Char → List Char
  | [] => decodeUtf8 (percentBytes pending.reverse)
  | c :: rest =>
    if c.toNat < 128 then percentDecodeFrom (c :: pending) rest
    else decodeUtf8 (percentBytes pending.reverse) ++ c :: percentDecodeFrom [] rest

/-- The text that a percent-encoded text stands for; one without a percent sign
stands for itself. -/
def percentDecode (text : String) : String :=
  if text.toList.contains '%' then String.ofList (percentDecodeFrom [] text.toList)
  else text

end ApiWorkbench.Text
