import ApiWorkbench.Decimal.Binary64

/-!
# Decimal notation of doubles

A finite double is written with the fewest digits that read back as the same double; of
two such numbers with equally many digits the nearer one is taken. The digits stand in
positional notation when the decimal exponent lies between -4 and 15, and in exponent
notation, with at least two exponent digits, otherwise. A point or an exponent is always
written, so that the text never looks like an integer.
-/

namespace ApiWorkbench.Binary64

/-- The number of decimal digits of a natural number, one for zero. -/
def decimalLength (n : Nat) : Nat :=
  (Nat.toDigits 10 n).length

/-- The decimal exponent of the positive quotient `n / d`, for quotients not below
`10 ^ -400`: the power of ten of its first digit. -/
def decimalExponent (n d : Nat) : Int :=
  (decimalLength (n * Nat.pow 10 400 / d) : Int) - 401

/-- The two decimal numbers with `count` digits around `n / d`, the nearer one first
(the even one on a tie), each as digits and exponent. -/
def decimalNeighbours (n d count : Nat) : List (Nat × Int) :=
  let top := decimalExponent n d
  let unit := top - count + 1
  let (a, b) :=
    if 0 ≤ unit then (n, d * Nat.pow 10 unit.toNat)
    else (n * Nat.pow 10 (-unit).toNat, d)
  let below := a / b
  let rest := a % b
  let upper : Nat × Int :=
    if below + 1 == Nat.pow 10 count then (1, top + 1) else (below + 1, unit)
  if 2 * rest < b || (2 * rest == b && below % 2 == 0) then [(below, unit), upper]
  else [upper, (below, unit)]

/-- The shortest decimal that reads back as the finite nonzero double `x`, as digits and
exponent; the sign is left aside. Seventeen digits always suffice. -/
def shortestDecimal (x : Binary64) : Nat × Int :=
  let (m, e) := x.magnitude
  let (n, d) := if 0 ≤ e then (m * Nat.pow 2 e.toNat, 1) else (m, Nat.pow 2 (-e).toNat)
  let readsBack (digits : Nat × Int) : Bool :=
    (ofDecimal false digits.1 digits.2).magnitudeBits == x.magnitudeBits
  let candidates := (List.range 17).flatMap fun k => decimalNeighbours n d (k + 1)
  (candidates.find? readsBack).getD (0, 0)

/-- Decimal digits in positional or exponent notation; `digits` times ten to the
`exponent` is the number. -/
def decimalText (digits : Nat) (exponent : Int) : String :=
  let text := toString digits
  let count := text.length
  let point : Int := exponent + count
  if -4 < point && point ≤ 16 then
    if point ≤ 0 then "0.".pushn '0' (-point).toNat ++ text
    else if (count : Int) ≤ point then text.pushn '0' (point.toNat - count) ++ ".0"
    else
      let (whole, fraction) := text.toList.splitAt point.toNat
      String.ofList whole ++ "." ++ String.ofList fraction
  else
    let power := point - 1
    let size := toString power.natAbs
    let head := match text.toList with
      | first :: next :: more => String.ofList (first :: '.' :: next :: more)
      | _ => text
    head ++ "e" ++ (if power < 0 then "-" else "+") ++
      (if size.length < 2 then "0" ++ size else size)

/-- The notation of a finite double. -/
def finiteText (x : Binary64) : String :=
  let unsigned := if x.isZero then "0.0" else
    let (digits, exponent) := x.shortestDecimal
    decimalText digits exponent
  if x.isNegative then "-" ++ unsigned else unsigned

end ApiWorkbench.Binary64
