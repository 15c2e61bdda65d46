import LastUse.Access
import LastUse.Note

/-!
# Escapes

Once the address of a binding is taken, the binding is poisoned at that site and at every later
one, up to and including the next site that resets it. A move resets a binding; further sites may
be named that do.
-/

namespace LastUse

/-- Where a binding is poisoned. -/
structure Escape where
  /-- The sites that take the address. -/
  poisonPoints : List Nat
  /-- The sites that reset the binding. -/
  resetPoints : List Nat
  poisoned : List Nat
  notes : List Note
deriving DecidableEq, Repr, Inhabited

namespace Escape

/-- Whether the address is taken at all. -/
def isAddressTaken (e : Escape) : Bool := !e.poisonPoints.isEmpty

/-- Whether the binding is poisoned at a site. -/
def poisonedAt (e : Escape) (ordinal : Nat) : Bool := e.poisoned.contains ordinal

/-- The escape over a sequence of sites, from whether an address is outstanding before it. `takes`
and `resets` tell which sites take the address and which reset the binding. -/
def trace (takes resets : Nat → Bool) : (outstanding : Bool) → List Nat → Escape
  | _, [] => ⟨[], [], [], []⟩
  | outstanding, o :: rest =>
    let poisoned := outstanding || takes o
    let later := trace takes resets (poisoned && !resets o) rest
    { poisonPoints := if takes o then o :: later.poisonPoints else later.poisonPoints
      resetPoints := if resets o then o :: later.resetPoints else later.resetPoints
      poisoned := if poisoned then o :: later.poisoned else later.poisoned
      notes := if poisoned && resets o then .escapeReset o :: later.notes else later.notes }

end Escape

/-- The escape of the binding of a scan over the sites of a flow graph. -/
def FlowGraph.escape (g : FlowGraph) (s : Scan) (extraResets : List Nat) : Escape :=
  Escape.trace (fun o => (s.access o).addressOf)
    (fun o => (s.access o).resets || extraResets.contains o) false (g.sites.map (·.ordinal))

end LastUse
