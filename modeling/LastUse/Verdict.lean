import LastUse.Flow.Reach
import LastUse.Sweep

/-!
# Verdicts

A verdict says which accesses of a binding are the last ones: the candidate that a sweep over the
whole function ends with and the accesses that it freezes at `return` statements. Those from which
control can get to another access are left out, as jumps lead to places that the regions do not
show.
-/

namespace LastUse

/-- Which accesses of a binding are the last. -/
structure Verdict where
  binding : Binding
  /-- The last access outside of `return` statements. -/
  final : Option Nat
  /-- The last accesses in `return` statements. -/
  frozen : List Nat
  /-- The accesses that were candidates at some time. -/
  provisional : List Nat
  /-- The accesses that were none because they may run again. -/
  excluded : List Nat
  notes : List Note
deriving Repr, Inhabited

/-- The sites of the last accesses, in order. -/
def Verdict.sites (r : Verdict) : List Nat :=
  ((r.final.toList ++ r.frozen).mergeSort (· ≤ ·)).eraseDups

namespace FlowGraph

/-- What a sweep for the binding of a scan knows of the sites. Sites in loops may run again, and so
may those of `repeated`. -/
def ground (g : FlowGraph) (s : Scan) (repeated : List Nat) : Ground where
  access := s.access
  repeats o := repeated.contains o || (g.sites[o]?.map (·.inLoop)).getD false
  stmt? o := g.sites[o]?.map (·.stmt)

/-- The other accesses that control can get to from a site, in order. -/
def laterAccesses (g : FlowGraph) (s : Scan) (ordinal : Nat) : List Nat :=
  let ahead := g.descendants (.site ordinal)
  s.accessing.filter fun o => ahead.contains (.site o)

/-- The sites among some from which control can get to no other access. -/
def lastAmong (g : FlowGraph) (s : Scan) (ordinals : List Nat) : List Nat :=
  ordinals.filter fun o => (g.laterAccesses s o).isEmpty

/-- The notes on the sites among some from which control can get to another access. -/
def dropNotes (g : FlowGraph) (s : Scan) (ordinals : List Nat) : List Note :=
  ordinals.filterMap fun o =>
    match g.laterAccesses s o with
    | [] => none
    | later => some (.dropped o later)

/-- The verdict on the binding of a scan, where the sites of `repeated` may run again besides those
in loops. -/
def verdict (g : FlowGraph) (s : Scan) (repeated : List Nat) : Verdict :=
  let sweep := sweepAll (g.ground s repeated) g.region none
  { binding := s.binding
    final := (g.lastAmong s sweep.candidate.toList).head?
    frozen := g.lastAmong s sweep.frozen
    provisional := sweep.provisional
    excluded := sweep.excluded
    notes := sweep.notes ++ g.dropNotes s (sweep.candidate.toList ++ sweep.frozen) }

end FlowGraph

end LastUse
