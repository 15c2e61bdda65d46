import LastUse.Text.Quoted
import LastUse.Number.Shortest

/-!
# Scalars

The values without parts that a document holds: null, truth values, whole and floating-point
numbers, texts. They have a spelling, a truth value and an equality that compares numbers by value,
whatever their form.
-/

namespace LastUse

/-- A value without parts. -/
inductive Scalar where
  | null
  | bool (b : Bool)
  | int (n : Int)
  | float (x : Binary64)
  | str (s : String)
deriving DecidableEq, Repr, Inhabited

/-- The greatest number of digits of a whole number that is read or spelled. -/
def digitLimit : Nat := 4300

namespace Scalar

/-- Whether the scalar can be spelled: a whole number is not if it has too many digits. -/
def spellable : Scalar → Bool
  | .int n => (Nat.toDigits 10 n.natAbs).length ≤ digitLimit
  | _ => true

/-- Floating-point numbers are written positionally from `10 ^ -4` up to below `10 ^ 16`, and their
exponents have two digits at least. -/
def floatLayout : Binary64.DecimalLayout := ⟨-4, 15, 2⟩

/-- The scalar as it is spelled in labels and messages, texts between quotation marks. It is meant
for scalars that are `spellable`, and a text that is read holds no others
(`Value.spellable_of_ofText`). -/
def spelling : Scalar → String
  | .null => "None"
  | .bool b => if b then "True" else "False"
  | .int n => toString n
  | .float x => x.text floatLayout
  | .str s => Text.quoted s

/-- The scalar as it stands in running text, where a text has no quotation marks. -/
def plain : Scalar → String
  | .str s => s
  | s => s.spelling

/-- The name of the scalar's type. -/
def typeName : Scalar → String
  | .null => "NoneType"
  | .bool _ => "bool"
  | .int _ => "int"
  | .float _ => "float"
  | .str _ => "str"

/-- Null, false, zeros and the empty text count as false. -/
def truthy : Scalar → Bool
  | .null => false
  | .bool b => b
  | .int n => n ≠ 0
  | .float (.finite _ m _) => m ≠ 0
  | .float _ => true
  | .str s => !s.isEmpty

/-- The exact value of a finite number, as a whole number over a power of two; a truth value counts
as zero or one. -/
def dyadic? : Scalar → Option (Int × Nat)
  | .bool b => some (if b then 1 else 0, 0)
  | .int n => some (n, 0)
  | .float x => x.dyadic?
  | _ => none

/-- Whether two scalars are equal: numbers by value, everything else by form. -/
def same (a b : Scalar) : Bool :=
  match a.dyadic?, b.dyadic? with
  | some (m, j), some (n, k) => m * Nat.pow 2 k = n * Nat.pow 2 j
  | none, none =>
    match a with
    | .float .nan => false
    | _ => a = b
  | _, _ => false

/-- Whether two scalars are one key: equal ones are, and there is only one key that is no
number. -/
def sameKey (a b : Scalar) : Bool := a.same b || a = b

/-- The ordinal that a scalar is equal to. -/
def ordinal? (s : Scalar) : Option Nat :=
  match s.dyadic? with
  | some (m, k) => if 0 ≤ m && m % Nat.pow 2 k = 0 then some (m / Nat.pow 2 k).toNat else none
  | none => none

end Scalar

end LastUse
