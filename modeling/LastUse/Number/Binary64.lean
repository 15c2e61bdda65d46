/-!
# Binary floating-point numbers

The numbers of the binary64 format, as exact values: a finite number is `mantissa · 2 ^ exponent`
with a sign. `ofDecimal` gives the number nearest to a decimal, `dyadic?` the exact value of a
finite one, and `add` the number nearest to a sum.
-/

namespace LastUse

/-- A number of the binary64 format. A finite one is `mantissa · 2 ^ exponent`, where either the
exponent is the least one, `-1074`, or the mantissa has all of its 53 bits. -/
inductive Binary64 where
  | nan
  | infinite (negative : Bool)
  | finite (negative : Bool) (mantissa : Nat) (exponent : Int)
deriving DecidableEq, Repr, Inhabited

namespace Binary64

/-- The number of bits of a full mantissa. -/
def mantissaBits : Nat := 53

/-- The exponent of the least positive number. -/
def leastExponent : Int := -1074

/-- The exponent of the greatest finite numbers. -/
def greatestExponent : Int := 971

/-- Zero, with a sign. -/
def zero (negative : Bool) : Binary64 := .finite negative 0 leastExponent

/-- The quotient rounded to the nearest whole number, a half to the even neighbour. -/
def roundDiv (num den : Nat) : Nat :=
  let q := num / den
  let r := num % den
  if 2 * r < den then q
  else if den < 2 * r then q + 1
  else if q % 2 = 0 then q else q + 1

/-- The fraction `num / den` divided by `2 ^ e`, as numerator and denominator. -/
def scaleDown (num den : Nat) (e : Int) : Nat × Nat :=
  if 0 ≤ e then (num, den * Nat.pow 2 e.toNat) else (num * Nat.pow 2 (-e).toNat, den)

/-- The number nearest to the positive fraction `num / den`. -/
def ofFraction (negative : Bool) (num den : Nat) : Binary64 :=
  let guess : Int := (num.log2 : Int) - den.log2 - mantissaBits
  let (a, b) := scaleDown num den guess
  let full := if Nat.pow 2 mantissaBits ≤ a / b then guess + 1 else guess
  let e := max full leastExponent
  let (c, d) := scaleDown num den e
  let m := roundDiv c d
  let (m, e) := if m = Nat.pow 2 mantissaBits then (m / 2, e + 1) else (m, e)
  if greatestExponent < e then .infinite negative else .finite negative m e

/-- The number of decimal digits, one for zero. -/
def decimalWidth (n : Nat) : Nat := (Nat.toDigits 10 n).length

/-- The number nearest to `digits · 10 ^ exponent`. Decimals beyond every finite number, or below
half of the least one, are settled by their width alone. -/
def ofDecimal (negative : Bool) (digits : Nat) (exponent : Int) : Binary64 :=
  if digits = 0 then zero negative
  else
    let top := exponent + decimalWidth digits
    if 310 < top then .infinite negative
    else if top < -330 then zero negative
    else if 0 ≤ exponent then ofFraction negative (digits * Nat.pow 10 exponent.toNat) 1
    else ofFraction negative digits (Nat.pow 10 (-exponent).toNat)

/-- The exact value of a finite number as a whole number over a power of two. -/
def dyadic? : Binary64 → Option (Int × Nat)
  | .finite negative m e =>
    let n : Int := if 0 ≤ e then m * Nat.pow 2 e.toNat else m
    some (if negative then -n else n, (-e).toNat)
  | _ => none

/-- The number nearest to a whole number, infinite if that is beyond every finite one. -/
def ofInt (n : Int) : Binary64 :=
  if n = 0 then zero false else ofFraction (n < 0) n.natAbs 1

/-- Whether the number is infinite. -/
def isInfinite : Binary64 → Bool
  | .infinite _ => true
  | _ => false

/-- `mantissa · 2 ^ exponent` with its sign, in units of `2 ^ unit`, where the unit is not above
the exponent. -/
def inUnits (unit : Int) (negative : Bool) (mantissa : Nat) (exponent : Int) : Int :=
  let n : Int := mantissa * Nat.pow 2 (exponent - unit).toNat
  if negative then -n else n

/-- The number nearest to the sum of two numbers. A sum of zero is negative only if both numbers
are; the sum of opposite infinities is no number. -/
def add : Binary64 → Binary64 → Binary64
  | .nan, _ | _, .nan => .nan
  | .infinite a, .infinite b => if a = b then .infinite a else .nan
  | .infinite a, .finite .. | .finite .., .infinite a => .infinite a
  | .finite a m e, .finite b n f =>
    let unit := min e f
    let sum := inUnits unit a m e + inUnits unit b n f
    if sum = 0 then zero (a && b)
    else
      let (num, den) := scaleDown sum.natAbs 1 (-unit)
      ofFraction (sum < 0) num den

end Binary64

end LastUse
