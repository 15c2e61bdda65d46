import LastUse.Main
import LastUse.Proofs.Flow.Expr
import LastUse.Proofs.Flow.Stmt
import LastUse.Proofs.Flow.Layout
import LastUse.Proofs.Flow.Reach
import LastUse.Proofs.Access
import LastUse.Proofs.Sweep
import LastUse.Proofs.Verdict
import LastUse.Proofs.Flow.Nesting
import LastUse.Proofs.Final
import LastUse.Proofs.Escape
import LastUse.Proofs.Run.Machine
import LastUse.Proofs.Run.Links
import LastUse.Proofs.Run.ExprJoins
import LastUse.Proofs.Run.StmtJoins
import LastUse.Proofs.Run.Follows
import LastUse.Proofs.Run.Entry
import LastUse.Proofs.Run.Advance
import LastUse.Proofs.Run.Progress
import LastUse.Proofs.Run.Paths
import LastUse.Proofs.Fences
import LastUse.Proofs.Candidate
import LastUse.Proofs.Tree.Evaluated
import LastUse.Proofs.Frozen
import LastUse.Proofs.Flow.Attached
import LastUse.Proofs.Tree.Typed
import LastUse.Proofs.Evaluation
import LastUse.Proofs.Arms
import LastUse.Proofs.Flow.Accepts
import LastUse.Proofs.Acceptance
import LastUse.Proofs.Flow.Owned
import LastUse.Proofs.Ownership
import LastUse.Proofs.Exclusion
import LastUse.Proofs.Flow.Embedded
import LastUse.Proofs.Tree.Loading
import LastUse.Proofs.Flow.Turns
import LastUse.Proofs.Condition
import LastUse.Proofs.Flow.Masked
import LastUse.Proofs.Noninterference
import LastUse.Proofs.Regions
import LastUse.Proofs.Exits
import LastUse.Proofs.Tree.Faults
import LastUse.Proofs.Flow.Distinct
import LastUse.Proofs.Poison
import LastUse.Proofs.Quoting
import LastUse.Proofs.Shown
import LastUse.Proofs.Flow.Stretches
import LastUse.Proofs.BackEdges
import LastUse.Proofs.Bindings
import LastUse.Proofs.Walk
import LastUse.Proofs.Multigraph
import LastUse.Proofs.Tree.Spelled
