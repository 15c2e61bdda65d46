import LastUse.Binding
import LastUse.Flow.Graph

/-!
# Accesses

How the sites of a flow graph touch a binding: whether they access it, take its address, or move
it. The address of a member or an item of a binding is as good as its own.
-/

namespace LastUse

/-- How an expression touches a name. -/
structure Touch where
  /-- The name occurs. -/
  accesses : Bool
  /-- The address of something that the name is the root of is taken. -/
  addressOf : Bool
  /-- Something that the name is the root of is moved. -/
  resets : Bool
deriving DecidableEq, Repr, Inhabited

namespace Expr

/-- Whether the node is an occurrence of a name. -/
def isName (name : Value) : Expr → Bool
  | .name _ id => id.same name
  | _ => false

/-- Whether the node takes the address of something that a name is the root of. -/
def takesAddressOf (name : Value) : Expr → Bool
  | .addressOf _ e => e.root.same name
  | _ => false

/-- Whether the node moves something that a name is the root of. -/
def moves (name : Value) : Expr → Bool
  | .move _ e => e.root.same name
  | _ => false

/-- How an expression touches a name. -/
def touch (name : Value) (e : Expr) : Touch where
  accesses := e.preorder.any (isName name)
  addressOf := e.preorder.any (takesAddressOf name)
  resets := e.preorder.any (moves name)

end Expr

/-- How a site touches a binding. -/
structure Access where
  ordinal : Nat
  accesses : Bool
  /-- The site accesses the binding and belongs to a `return`. -/
  inReturn : Bool
  addressOf : Bool
  resets : Bool
deriving DecidableEq, Repr, Inhabited

namespace Access

/-- The access of a site that does not touch the binding. -/
def none (ordinal : Nat) : Access := ⟨ordinal, false, false, false, false⟩

/-- Whether the site touches the binding at all. -/
def touches (a : Access) : Bool := a.accesses || a.addressOf || a.resets

end Access

/-- How a site touches a name. -/
def Site.access (s : Site) (name : Value) : Access :=
  let touches := s.exprs.map (Expr.touch name)
  let accesses := touches.any (·.accesses)
  { ordinal := s.ordinal
    accesses := accesses
    inReturn := accesses && s.inReturn
    addressOf := touches.any (·.addressOf)
    resets := touches.any (·.resets) }

/-- How the sites of a flow graph touch a binding. -/
structure Scan where
  binding : Binding
  /-- The accesses of the sites that touch the binding, in order. -/
  records : List Access
deriving Repr, Inhabited

/-- How the sites of a flow graph touch a binding. -/
def FlowGraph.scan (g : FlowGraph) (b : Binding) : Scan where
  binding := b
  records := (g.sites.map fun s => s.access b.name).filter Access.touches

namespace Scan

/-- The access of a site. -/
def access (s : Scan) (ordinal : Nat) : Access :=
  (s.records.find? fun a => a.ordinal = ordinal).getD (.none ordinal)

/-- The ordinals of the records that have a property. -/
def ordinals (s : Scan) (p : Access → Bool) : List Nat := (s.records.filter p).map (·.ordinal)

/-- The sites that access the binding. -/
def accessing (s : Scan) : List Nat := s.ordinals (·.accesses)

/-- The sites of `return` statements that access the binding. -/
def returning (s : Scan) : List Nat := s.ordinals (·.inReturn)

/-- The sites that take the address of the binding. -/
def addressTaking (s : Scan) : List Nat := s.ordinals (·.addressOf)

/-- The sites that move the binding. -/
def resetting (s : Scan) : List Nat := s.ordinals (·.resets)

end Scan

end LastUse
