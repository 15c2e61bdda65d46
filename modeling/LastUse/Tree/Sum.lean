import LastUse.Fault
import LastUse.Tree.Value

/-!
# Sums of values

Two texts or two lists are put together, two numbers are added; other values have no sum. A sum
with a floating-point number is one too, so the other number must not be beyond all of them.
-/

namespace LastUse

namespace Scalar

/-- The whole number that a scalar is; a truth value counts as zero or one. -/
def int? : Scalar → Option Int
  | .bool b => some (if b then 1 else 0)
  | .int n => some n
  | _ => none

/-- The floating-point number for a scalar that is a number. -/
def toFloat : Scalar → Except Fault Binary64
  | .float x => .ok x
  | s =>
    match s.int? with
    | none => .error .mistyped
    | some n => if (Binary64.ofInt n).isInfinite then .error .tooLarge else .ok (.ofInt n)

/-- Whether a scalar is a floating-point number. -/
def isFloat : Scalar → Bool
  | .float _ => true
  | _ => false

/-- Whether a scalar is a number; truth values are. -/
def isNumber (s : Scalar) : Bool := s.isFloat || s.int?.isSome

/-- The sum of two scalars. -/
def sum (a b : Scalar) : Except Fault Scalar :=
  match a, b with
  | .str s, .str t => .ok (.str (s ++ t))
  | a, b =>
    match a.int?, b.int? with
    | some m, some n => .ok (.int (m + n))
    | _, _ =>
      if a.isNumber && b.isNumber then do
        let x ← a.toFloat
        let y ← b.toFloat
        pure (.float (x.add y))
      else .error .mistyped

end Scalar

/-- The sum of two values. -/
def Value.sum : Value → Value → Except Fault Value
  | .scalar a, .scalar b => do
    let s ← a.sum b
    pure (.scalar s)
  | .list a, .list b => .ok (.list (a ++ b))
  | _, _ => .error .mistyped

end LastUse
