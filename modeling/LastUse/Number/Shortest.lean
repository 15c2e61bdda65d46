import LastUse.Number.Binary64

/-!
# Shortest decimals

The decimal with the fewest digits that reads back as a given binary64 number and, of those, the
nearest one; and its text in positional or scientific form.

The decimals that read back are those between the two midpoints to the neighbouring numbers, the
midpoints included when the mantissa is even. A grid of `k`-digit decimals has a point in that
interval only if one of the two grid points around the number lies in it, so those two are tried
for `k = 1, 2, …`.
-/

namespace LastUse.Binary64

/-- A positive decimal `0.d₁d₂…dₖ · 10 ^ point`, by its digits and the position of its point. -/
structure Decimal where
  digits : List Char
  point : Int
deriving DecidableEq, Repr, Inhabited

/-- The midpoints around `mantissa · 2 ^ exponent`, in units of `2 ^ (exponent - 2)`. Below a power
of two the numbers lie twice as close. -/
def midpoints (mantissa : Nat) (exponent : Int) : Nat × Nat :=
  let low := if mantissa = Nat.pow 2 (mantissaBits - 1) && leastExponent < exponent then 1 else 2
  (4 * mantissa - low, 4 * mantissa + 2)

/-- The power of ten `t` with `10 ^ (t - 1) ≤ num / den < 10 ^ t`, for a positive fraction. -/
def decimalPoint (num den : Nat) : Int :=
  if den ≤ num then decimalWidth (num / den)
  else 1 - (decimalWidth ((den + num - 1) / num - 1) : Int)

/-- The digits without the zeros at their end. -/
def stripZeros (digits : List Char) : List Char :=
  (digits.reverse.dropWhile (· = '0')).reverse

/-- The decimal `d · 10 ^ e`. -/
def Decimal.ofNat (d : Nat) (e : Int) : Decimal :=
  let digits := Nat.toDigits 10 d
  ⟨stripZeros digits, e + digits.length⟩

/-- Of the two grid points `d` and `d + 1` around `num / den`, the nearer one that lies in the
interval; a tie goes to the even one. `lies` tells whether a point lies in the interval. -/
def nearerPoint? (num den : Nat) (lies : Nat → Bool) : Option Nat :=
  let d := num / den
  let r := num % den
  match lies d, lies (d + 1) with
  | true, true =>
    if 2 * r < den || (2 * r = den && d % 2 = 0) then some d else some (d + 1)
  | true, false => some d
  | false, true => some (d + 1)
  | false, false => none

/-- The shortest decimal of `mantissa · 2 ^ exponent` with `k` digits or more; seventeen always
do. -/
def shortestFrom (mantissa : Nat) (exponent : Int) (point : Int) : (tries k : Nat) → Decimal
  | 0, k => gridPoint k
  | tries + 1, k =>
    let e := point - k
    let lies (d : Nat) : Bool :=
      let (low, high) := midpoints mantissa exponent
      let (num, den) := scale (4 * d) e
      let (lowNum, lowDen) := Binary64.scaleDown low 1 (-exponent)
      let (highNum, highDen) := Binary64.scaleDown high 1 (-exponent)
      if mantissa % 2 = 0 then
        lowNum * den ≤ num * lowDen && num * highDen ≤ highNum * den
      else
        lowNum * den < num * lowDen && num * highDen < highNum * den
    let (num, den) := gridFraction k
    match nearerPoint? num den lies with
    | some d => .ofNat d e
    | none => shortestFrom mantissa exponent point tries (k + 1)
where
  /-- `n · 10 ^ e` as numerator and denominator. -/
  scale (n : Nat) (e : Int) : Nat × Nat :=
    if 0 ≤ e then (n * Nat.pow 10 e.toNat, 1) else (n, Nat.pow 10 (-e).toNat)
  /-- The number in units of the grid of `k` digits. -/
  gridFraction (k : Nat) : Nat × Nat :=
    let (num, den) := Binary64.scaleDown mantissa 1 (-exponent)
    let e := (k : Int) - point
    if 0 ≤ e then (num * Nat.pow 10 e.toNat, den) else (num, den * Nat.pow 10 (-e).toNat)
  /-- The point of the grid of `k` digits nearest to the number. -/
  gridPoint (k : Nat) : Decimal :=
    let (num, den) := gridFraction k
    .ofNat (roundDiv num den) (point - k)

/-- The shortest decimal that reads back as the positive number `mantissa · 2 ^ exponent`. -/
def shortest (mantissa : Nat) (exponent : Int) : Decimal :=
  let (num, den) := scaleDown mantissa 1 (-exponent)
  shortestFrom mantissa exponent (decimalPoint num den) 17 1

/-- How a decimal is laid out. -/
structure DecimalLayout where
  /-- The least power of ten that is written positionally. -/
  least : Int
  /-- The greatest power of ten that is written positionally. -/
  greatest : Int
  /-- The least number of digits of a written exponent. -/
  exponentWidth : Nat

/-- The decimal in positional form, with at least one digit on each side of the point. -/
def Decimal.positional (d : Decimal) : String :=
  if d.point ≤ 0 then
    "0." ++ String.ofList (List.replicate (-d.point).toNat '0' ++ d.digits)
  else
    let n := d.point.toNat
    let whole := d.digits.take n ++ List.replicate (n - d.digits.length) '0'
    let rest := d.digits.drop n
    String.ofList whole ++ "." ++ (if rest.isEmpty then "0" else String.ofList rest)

/-- The decimal in scientific form, with a signed exponent. -/
def Decimal.scientific (exponentWidth : Nat) (d : Decimal) : String :=
  let e := d.point - 1
  let digits := Nat.toDigits 10 e.natAbs
  let power := String.ofList (List.replicate (exponentWidth - digits.length) '0' ++ digits)
  let head := String.ofList (d.digits.take 1)
  let rest := d.digits.drop 1
  head ++ (if rest.isEmpty then "" else "." ++ String.ofList rest)
    ++ "e" ++ (if e < 0 then "-" else "+") ++ power

/-- The decimal in the form that the layout gives for its size. -/
def Decimal.text (layout : DecimalLayout) (d : Decimal) : String :=
  if layout.least ≤ d.point - 1 && d.point - 1 ≤ layout.greatest then d.positional
  else d.scientific layout.exponentWidth

/-- The text of a number: its shortest decimal, or a word. -/
def text (layout : DecimalLayout) : Binary64 → String
  | .nan => "nan"
  | .infinite negative => (if negative then "-" else "") ++ "inf"
  | .finite negative m e =>
    (if negative then "-" else "") ++ (if m = 0 then "0.0" else (shortest m e).text layout)

end LastUse.Binary64
