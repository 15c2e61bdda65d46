import LastUse.Access
import LastUse.Note

/-!
# The sweep over regions

A sweep passes through the regions of a function in order and keeps one candidate for the last
access of a binding: the latest access so far, unless that may run again. An access in a `return`
is frozen where the `return` leaves the function, and the sweep goes on without it. Of the arms of
a branch only one is taken; if several access the binding, none of their accesses is the last one.
-/

namespace LastUse

/-- What a sweep knows of the sites. -/
structure Ground where
  access : Nat → Access
  /-- Whether a site may run more than once. -/
  repeats : Nat → Bool
  /-- The place of the statement that a site belongs to. -/
  stmt? : Nat → Option Path

/-- The outcome of a sweep over some regions. -/
structure Sweep where
  candidate : Option Nat
  /-- Whether the binding was accessed. -/
  touched : Bool
  /-- Whether the binding was accessed outside of a `return`. -/
  accessed : Bool
  /-- The accesses that were frozen. -/
  frozen : List Nat
  /-- The accesses that were candidates at some time. -/
  provisional : List Nat
  /-- The accesses that were none because they may run again. -/
  excluded : List Nat
  notes : List Note
deriving DecidableEq, Repr, Inhabited

namespace Sweep

/-- Nothing happens to the candidate. -/
def still (candidate : Option Nat) : Sweep := ⟨candidate, false, false, [], [], [], []⟩

/-- One sweep after another. -/
def andThen (a b : Sweep) : Sweep where
  candidate := b.candidate
  touched := a.touched || b.touched
  accessed := a.accessed || b.accessed
  frozen := a.frozen ++ b.frozen
  provisional := a.provisional ++ b.provisional
  excluded := a.excluded ++ b.excluded
  notes := a.notes ++ b.notes

/-- The sweep over a site. A `return` never runs twice, so its accesses are candidates wherever it
stands. -/
def site (gr : Ground) (o : Nat) (candidate : Option Nat) : Sweep :=
  let a := gr.access o
  if !a.accesses then still candidate
  else if a.inReturn then ⟨some o, true, false, [], [o], [], []⟩
  else if gr.repeats o then
    ⟨none, true, true, [], [], [o], candidate.toList.map fun c => .cleared c o⟩
  else ⟨some o, true, true, [], [o], [], []⟩

/-- The sweep over the point where a `return` leaves the function: a candidate of its own is
frozen. -/
def leave (gr : Ground) (stmt : Path) (candidate : Option Nat) : Sweep :=
  match candidate with
  | some c =>
    if gr.stmt? c = some stmt then ⟨none, false, false, [c], [], [], []⟩ else still candidate
  | none => still candidate

/-- The candidate behind a branch, from the sweeps over its arms and the candidate before it. -/
def survivor (incoming : Option Nat) (arms : List Sweep) : Option Nat :=
  if arms.any (·.touched) then
    match arms.filter (·.accessed) with
    | [arm] => arm.candidate
    | _ => none
  else incoming

/-- The sweep over a branch, from the sweeps over its arms and the candidate before it. -/
def ofArms (incoming : Option Nat) (arms : List Sweep) : Sweep where
  candidate := survivor incoming arms
  touched := arms.any (·.touched)
  accessed := arms.any (·.accessed)
  frozen := arms.flatMap (·.frozen)
  provisional := arms.flatMap (·.provisional)
  excluded := arms.flatMap (·.excluded)
  notes := arms.flatMap (·.notes)
    ++ if 1 < (arms.filter (·.accessed)).length then [.divergent] else []

end Sweep

mutual

/-- The sweep over a region. -/
def Region.sweep (gr : Ground) : Region → Option Nat → Sweep
  | .site o, candidate => .site gr o candidate
  | .branch _ arms, candidate => .ofArms candidate (sweepArms gr arms candidate)
  | .loop _ body, candidate => sweepAll gr body candidate
  | .ret stmt, candidate => .leave gr stmt candidate

/-- The sweep over a sequence of regions. -/
def sweepAll (gr : Ground) : List Region → Option Nat → Sweep
  | [], candidate => .still candidate
  | r :: rest, candidate =>
    let first := r.sweep gr candidate
    first.andThen (sweepAll gr rest first.candidate)

/-- The sweeps over the arms of a branch, each from the same candidate. -/
def sweepArms (gr : Ground) : List (List Region) → Option Nat → List Sweep
  | [], _ => []
  | arm :: rest, candidate => sweepAll gr arm candidate :: sweepArms gr rest candidate

end

end LastUse
