/-!
# Double-precision numbers

A number of 64 bits in the binary format of IEEE 754, held as its bit pattern so
that equality is decidable and zero has its two signs. Everything here is exact
arithmetic on natural numbers: `ofRatio` rounds a quotient to the nearest double,
ties to the even significand, and `magnitude` gives a finite double back as a
significand and a power of two.
-/

namespace ApiWorkbench

/-- A double-precision number, by its bit pattern. -/
structure Binary64 where
  bits : UInt64
deriving DecidableEq, Repr, Inhabited

namespace Binary64

/-- Whether the sign bit is set. -/
def isNegative (x : Binary64) : Bool :=
  x.bits.toNat ≥ Nat.pow 2 63

/-- The bit pattern without the sign bit; magnitudes are ordered as these numbers
are. -/
def magnitudeBits (x : Binary64) : Nat :=
  x.bits.toNat % Nat.pow 2 63

/-- The magnitude bits of infinity. -/
def infinityBits : Nat := 0x7ff0000000000000

/-- Not a number. -/
def isNaN (x : Binary64) : Bool :=
  x.magnitudeBits > infinityBits

/-- Infinity of either sign. -/
def isInfinite (x : Binary64) : Bool :=
  x.magnitudeBits == infinityBits

/-- Neither infinite nor not a number. -/
def isFinite (x : Binary64) : Bool :=
  x.magnitudeBits < infinityBits

/-- Zero of either sign. -/
def isZero (x : Binary64) : Bool :=
  x.magnitudeBits == 0

/-- The number with the given sign and magnitude bits. -/
def ofMagnitudeBits (negative : Bool) (magnitude : Nat) : Binary64 :=
  ⟨(if negative then Nat.pow 2 63 + magnitude else magnitude).toUInt64⟩

/-- Infinity with the given sign. -/
def infinity (negative : Bool) : Binary64 :=
  ofMagnitudeBits negative infinityBits

/-- The usual pattern that is not a number. -/
def nan : Binary64 := ⟨0x7ff8000000000000⟩

/-- The magnitude of a finite number as `m * 2 ^ e`, given as `(m, e)`. -/
def magnitude (x : Binary64) : Nat × Int :=
  let fraction := x.magnitudeBits % Nat.pow 2 52
  let exponent : Nat := x.magnitudeBits / Nat.pow 2 52
  if exponent == 0 then (fraction, -1074)
  else (Nat.pow 2 52 + fraction, Int.ofNat exponent - 1075)

/-- The quotient `n / d` rounded to the nearest natural number, ties to even. -/
def roundedQuotient (n d : Nat) : Nat :=
  let q := n / d
  let r := n % d
  if 2 * r < d then q
  else if d < 2 * r then q + 1
  else if q % 2 == 0 then q else q + 1

/-- `n / d / 2 ^ e` as a quotient of natural numbers. -/
def scaledRatio (n d : Nat) (e : Int) : Nat × Nat :=
  if 0 ≤ e then (n, d * Nat.pow 2 e.toNat) else (n * Nat.pow 2 (-e).toNat, d)

/-- The exponent `e` of the double nearest to `n / d`: the one that gives the
significand 53 bits, but not below the exponent of the subnormal numbers. -/
def exponentFor (n d : Nat) : Int :=
  let guess : Int := (Nat.log2 n : Int) - (Nat.log2 d : Int) - 52
  let (a, b) := scaledRatio n d guess
  let exact := if a < b * Nat.pow 2 52 then guess - 1 else guess
  max exact (-1074)

/-- The double nearest to `± n / d`. A significand rounded up to 54 bits carries
into the exponent, and past the largest finite number into infinity, by the very
layout of the bits. -/
def ofRatio (negative : Bool) (n d : Nat) : Binary64 :=
  if n == 0 then ofMagnitudeBits negative 0
  else
    let e := exponentFor n d
    let (a, b) := scaledRatio n d e
    let bits := (e + 1074).toNat * Nat.pow 2 52 + roundedQuotient a b
    ofMagnitudeBits negative (min bits infinityBits)

/-- The double nearest to `± digits * 10 ^ exponent`. Exponents far outside the range of
doubles are answered without computing the power. -/
def ofDecimal (negative : Bool) (digits : Nat) (exponent : Int) : Binary64 :=
  if digits == 0 then ofMagnitudeBits negative 0
  else if 400 < exponent then infinity negative
  else if exponent + ((Nat.log2 digits + 1) / 3 + 1 : Nat) <
    -330 then ofMagnitudeBits negative 0
  else if 0 ≤ exponent then ofRatio negative (digits * Nat.pow 10 exponent.toNat) 1
  else ofRatio negative digits (Nat.pow 10 (-exponent).toNat)

/-- The integer that a double is, if it is one. -/
def toInt? (x : Binary64) : Option Int :=
  if !x.isFinite then none
  else
    let (m, e) := x.magnitude
    let size : Option Nat :=
      if 0 ≤ e then some (m * Nat.pow 2 e.toNat)
      else if m % Nat.pow 2 (-e).toNat ==
        0 then some (m / Nat.pow 2 (-e).toNat) else none
    size.map fun n => if x.isNegative then -(n : Int) else n

/-- Equality of numbers as it counts where a number is looked up: the two zeros are
equal, and what is not a number is found again by its pattern. -/
def same (x y : Binary64) : Bool :=
  x == y || (x.isZero && y.isZero)

end Binary64

end ApiWorkbench
