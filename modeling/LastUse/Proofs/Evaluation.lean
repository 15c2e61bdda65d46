import LastUse.Proofs.Flow.Attached
import LastUse.Proofs.Sample
import LastUse.Proofs.Tree.Reading

/-!
# Accesses in the order of evaluation

The expressions of a statement that is read from a well-typed tree touch names at the evaluated
nodes of the tree, in the same order (`Stmt.touchAlike`). Together with where the pieces of
expressions are attached this says that a flow graph loses, repeats and reorders no access
(`FlowGraph.touching_nodes`).
-/

namespace LastUse

open LastUse.Expr (nodesAll mayTouch)

/-- Names can be touched by the same nodes of some expressions and of some part of a tree, in the
same order. -/
def TouchAlike (es : List Expr) (nodes : List (Path × Value)) : Prop :=
  (nodesAll es).filter mayTouch = (nodes.map Value.read).filter mayTouch

namespace TouchAlike

variable {es es' : List Expr} {x y : List (Path × Value)} {p : Path} {v : Value}

/-- Without expressions and nodes there is nothing to touch. -/
theorem nil : TouchAlike [] [] := rfl

/-- Expressions and further ones are touched alike if both are. -/
theorem append (hx : TouchAlike es x) (hy : TouchAlike es' y) :
    TouchAlike (es ++ es') (x ++ y) := by
  unfold TouchAlike at *
  rw [Expr.nodesAll_append, List.map_append, List.filter_append, List.filter_append, hx, hy]

/-- An expression that may be missing. -/
theorem expr (h : v.IsExprOrNull) : TouchAlike [.ofValue p v] (v.evaluated p) := by
  unfold TouchAlike
  rw [nodesAll, nodesAll, List.append_nil]
  rcases h with rfl | h
  · rfl
  · rw [Value.nodes_ofValue v p h.1 h.2]

/-- A node of another kind cannot touch a name itself. -/
theorem node {k : Kind} {fields : List Value} (hk : k ∉ Kind.touching) (h : TouchAlike es x) :
    TouchAlike es ((p, .node k fields) :: x) := by
  have hn : (Value.read (p, .node k fields)).mayTouch = false := by
    rw [Value.read, Expr.ofValue]
    exact Expr.mayTouch_assemble hk
  unfold TouchAlike at *
  rw [List.map_cons, List.filter_cons_of_neg (by simp [hn]), h]

/-- Nothing comes behind what the last field holds. -/
theorem last (h : TouchAlike es x) : TouchAlike es (x ++ []) := by
  rwa [List.append_nil]

end TouchAlike

/-- The expressions that are read from a well-typed statement are those of the tree in the order of
evaluation. -/
theorem Stmt.touchAlike :
    Value.StmtInvariant (fun p v => TouchAlike (ofValue p v).exprs (v.evaluated p))
    (fun p i items => TouchAlike (exprsAll (ofItems p i items)) (Value.evaluatedItems p i items))
    (fun p i items => TouchAlike (exprsAll (ofItems p i items))
      (Value.evaluatedItems p i items)) where
  -- The evaluated nodes of a node with known fields compute to the node and those of its fields
  -- one after the other, so each form puts the fields together.
  absent := .nil
  block hb := .node (by decide) (.last hb)
  exprStmt he := .node (by decide) (.last (.expr (.inr he)))
  decl hi := .node (by decide) (.last (.expr hi))
  ifElse hc _ hy hn := .node (by decide) (.append (.expr (.inr hc)) (.append hy (.last hn)))
  whileLoop hc _ hb := .node (by decide) (.append (.expr (.inr hc)) (.last hb))
  doWhile _ hb hc := .node (by decide) (.append hb (.last (.expr (.inr hc))))
  forLoop hi hc hs _ hb := by
    rcases hi with hi | ⟨hi, hinit⟩
    · rw [ofValue_forLoop_of_isExpr hi, exprs, exprs, List.nil_append]
      exact .node (by decide)
        (.append (.expr hi) (.append (.expr hc) (.append hb (.last (.expr hs)))))
    · have habsent : TouchAlike [.absent] [] := rfl
      rw [ofValue_forLoop_of_isStmt hi]
      exact .node (by decide)
        (.append hinit (.append habsent (.append (.expr hc) (.append hb (.last (.expr hs))))))
  foreach hi _ hb := .node (by decide) (.append (.expr (.inr hi)) (.last hb))
  switch hs ha := .node (by decide) (.append (.expr (.inr hs)) (.last ha))
  caseArm hb := .node (by decide) (.last hb)
  labeled hb := .node (by decide) (.last hb)
  goto := .node (by decide) .nil
  ret hv := .node (by decide) (.last (.expr hv))
  brk := .node (by decide) .nil
  cont := .node (by decide) .nil
  nil := .nil
  cons _ hf hl := .append hf hl
  noArms := .nil
  arm hb ha := .append (.node (by decide) (.last hb)) ha

/-! ## Functions -/

namespace FlowGraph

variable {exitEdges : Except Fault Bool} {tree : Value} {g : FlowGraph}

/-- Names are touched only in the body of a function. -/
theorem touchAlike_bodyOf (h : ofTree exitEdges tree = .ok g) (ht : tree.wellTyped = true) :
    TouchAlike (bodyOf tree).exprs (tree.evaluated .root) := by
  obtain ⟨name, params, fields, rfl, hn, hp, hb⟩ := Value.exists_body ht (isOf_of_ofTree h)
  rw [Value.evaluated_function hn hp]
  exact .node (by decide) (Stmt.touchAlike.holds hb _)

/-- The sites of a function, in the order of their ordinals, hold every node of the tree by which a
name can be touched and that is evaluated, each once and in the order of evaluation, and they hold
no connective. -/
theorem touching_nodes (h : ofTree exitEdges tree = .ok g) (ht : tree.wellTyped = true) :
    g.sites.map (·.ordinal) = List.range g.sites.length ∧
    (g.sites.flatMap fun s => s.exprs.flatMap fun e => e.preorder.filter Expr.mayTouch) =
      ((tree.evaluated .root).filter fun n => n.2.isOf Kind.touching).map Value.read ∧
    ((tree.evaluated .root).map (·.1)).Nodup ∧
    (∀ n, n ∈ tree.evaluated .root ↔
      n ∈ tree.nodes .root ∧ ∀ m ∈ tree.nodes .root, ¬ Value.Omits m n.1) ∧
    ∀ s ∈ g.sites, ∀ e ∈ s.exprs, ∀ n ∈ e.preorder, n.isConnective = false := by
  obtain ⟨htouch, hplain⟩ := exprs_sites h
  refine ⟨(laid_of_ofTree h).sites, ?_, Value.nodup_evaluated _ _,
    fun n => Value.mem_evaluated, ?_⟩
  · have hsites : (g.sites.flatMap fun s => s.exprs.flatMap fun e => e.preorder.filter mayTouch) =
        (nodesAll (g.sites.flatMap (·.exprs))).filter mayTouch := by
      rw [Expr.nodesAll_eq_flatMap, List.flatMap_assoc, List.filter_flatMap]
      simp only [List.filter_flatMap, Expr.preorder_eq_nodes]
    have hread : ((tree.evaluated .root).map Value.read).filter mayTouch =
        ((tree.evaluated .root).filter fun n => n.2.isOf Kind.touching).map Value.read := by
      rw [List.filter_map]
      congr 1
      exact List.filter_congr fun n hn => Value.mayTouch_read (Value.wellTyped_evaluated ht hn)
    rw [hsites, htouch, touchAlike_bodyOf h ht, hread]
  · intro s hs e he n hn
    have hc := hplain e (List.mem_flatMap.2 ⟨s, hs, he⟩)
    rw [Expr.preorder_eq_nodes] at hn
    rw [Expr.connected_eq_any, List.any_eq_false] at hc
    exact Bool.eq_false_iff.2 (hc n hn)

end FlowGraph

namespace Sample

/-- Every kind of statement whose fields are evaluated in an order of their own, with connectives
in an argument and in a condition. -/
def inOrder : Value :=
  function [
    .node .forLoop [.node .decl [.str "i", .node .addressOf [name "x"]],
      .node .logicalAnd [name "i", .node .logicalOr [name "x", name "y"]],
      .node .assign [name "i", .node .move [name "x"], .str "="], use "x"],
    .node .doWhile [use "x", .node .unary [.str "!", name "y"]],
    .node .switch [name "x", .list [
      .node .caseArm [.list [name "k"], .list [use "x", .node .brk []]],
      .node .caseArm [.list [], .list [use "y"]]]],
    .node .ret [.node .call [.str "f", .list [
      .node .logicalOr [.node .literal [name "z"], name "x"], name "y"]]]]

/-- The step of the `for` loop is behind its body, and neither the value of the case nor that of
the literal is at a site. -/
theorem touching_inOrder :
    FlowGraph.ofTree (.ok true) inOrder = .ok (graph inOrder) ∧ inOrder.wellTyped = true ∧
      ((graph inOrder).sites.flatMap fun s => s.exprs.flatMap fun e =>
        e.preorder.filter Expr.mayTouch) =
        ((inOrder.evaluated .root).filter fun n => n.2.isOf Kind.touching).map Value.read ∧
      ((inOrder.evaluated .root).filter fun n => n.2.isOf Kind.touching).length = 16 := by
  have h : FlowGraph.ofTree (.ok true) inOrder = .ok (graph inOrder) :=
    ofTree_eq (by decide +kernel)
  have ht : inOrder.wellTyped = true := by decide +kernel
  obtain ⟨-, htouch, -⟩ := FlowGraph.touching_nodes h ht
  exact ⟨h, ht, htouch, by decide +kernel⟩

end Sample

end LastUse
