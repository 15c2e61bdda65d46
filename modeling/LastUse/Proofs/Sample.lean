import LastUse.Binding
import LastUse.Flow.Graph

/-!
# Trees of small functions

The nodes that the sample functions of the other modules are put together from.
-/

namespace LastUse.Sample

/-- An occurrence of a name. -/
def name (id : String) : Value := .node .name [.str id]

/-- A statement that passes an expression to a function. -/
def pass (func : String) (arg : Value) : Value :=
  .node .exprStmt [.node .call [.str func, .list [arg]]]

/-- A statement that passes a name to a function. -/
def use (id : String) : Value := pass "use" (name id)

/-- A `return` of a name. -/
def ret (id : String) : Value := .node .ret [name id]

/-- A branch on a name. -/
def ifElse (cond : String) (thenArm elseArm : Value) : Value :=
  .node .ifElse [name cond, thenArm, elseArm]

/-- A loop on a name. -/
def whileLoop (cond : String) (body : List Value) : Value :=
  .node .whileLoop [name cond, .node .block [.list body]]

/-- A function with the parameter `x`. -/
def function (body : List Value) : Value :=
  .node .function [.str "f", .list [.str "x"], .node .block [.list body]]

/-- The place of a statement of such a function. -/
def place (i : Nat) : Path := ((Path.root.field "body").field "body").item i

/-- The parameter. -/
def x : Binding := { name := .str "x", isParameter := true }

/-- The flow graph of a function. -/
def graph (tree : Value) : FlowGraph := (FlowGraph.ofTree (.ok true) tree).toOption.getD default

/-- Where the flow graph of a function can be built, `graph` is it. -/
theorem ofTree_eq {tree : Value} (h : (FlowGraph.ofTree (.ok true) tree).isOk = true) :
    FlowGraph.ofTree (.ok true) tree = .ok (graph tree) := by
  rw [graph]
  cases hg : FlowGraph.ofTree (.ok true) tree with
  | ok g => rfl
  | error f =>
    rw [hg] at h
    cases h

end LastUse.Sample
