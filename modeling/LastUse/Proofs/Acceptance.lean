import LastUse.Proofs.Flow.Accepts
import LastUse.Proofs.Sample

/-!
# Which functions have a flow graph

A well-typed function has a flow graph unless it is ill-formed (`IllFormed`), and then it is
refused as malformed: `FlowGraph.accepts_iff`. What is ill-formed is said of the evaluated nodes of
the tree and their places alone; that it is what the drafting of the flow refuses is shown by
induction over the statements, each of which refuses what its own nodes say (`Reflects`), given
what encloses it (`Within`).
-/

namespace LastUse

/-! ## Ill-formed functions -/

/-- The kinds of loops. -/
def Kind.loops : List Kind := [.whileLoop, .doWhile, .forLoop, .foreach]

/-- The kinds of statements that a `break` leaves. -/
def Kind.breakables : List Kind := .switch :: loops

/-- The kinds of expressions that move an operand or take its address. -/
def Kind.takings : List Kind := [.addressOf, .move]

/-- The label of a node of a kind: the one that a labelled statement carries or that a jump
names. -/
def Value.labelOf? (kind : Kind) : Path × Value → Option String
  | (_, .node k (.scalar (.str label) :: _)) => if k = kind then some label else none
  | _ => none

/-- A place is inside of a node of one of some kinds. What a loop starts with is outside of it. -/
def Encloses (tree : Value) (kinds : List Kind) (q : Path) : Prop :=
  ∃ n ∈ tree.evaluated .root, n.2.isOf kinds = true ∧ ∃ field, field ≠ "init" ∧
    (n.1.field field).Under q

/-- A place is one of those where a switch has its cases. -/
def ArmPlace (tree : Value) (q : Path) : Prop :=
  ∃ n ∈ tree.evaluated .root, n.2.isOf [.switch] = true ∧ ∃ i, q = (n.1.field "cases").item i

/-- A node stands where nodes of its kind may not stand. -/
inductive Misplaced (tree : Value) (n : Path × Value) : Prop
  /-- A `break` leaves no loop and no switch. -/
  | brk : n.2.isOf [.brk] = true → ¬ Encloses tree Kind.breakables n.1 → Misplaced tree n
  /-- A `continue` goes on with no loop. -/
  | cont : n.2.isOf [.cont] = true → ¬ Encloses tree Kind.loops n.1 → Misplaced tree n
  /-- A case is no case of a switch. -/
  | caseArm : n.2.isOf [.caseArm] = true → ¬ ArmPlace tree n.1 → Misplaced tree n
  /-- A connective occurs in an operand that is moved or whose address is taken. -/
  | taking {m : Path × Value} : n.2.isOf Kind.takings = true → m ∈ tree.evaluated .root →
    m.2.isOf Kind.connectives = true → n.1.Under m.1 → Misplaced tree n

/-- A function is ill-formed. -/
inductive IllFormed (tree : Value) : Prop
  /-- Two statements carry the same label. -/
  | labelTwice {m n : Path × Value} {label : String} : m ∈ tree.evaluated .root →
    n ∈ tree.evaluated .root → m.1 ≠ n.1 → Value.labelOf? .labeled m = some label →
    Value.labelOf? .labeled n = some label → IllFormed tree
  /-- A jump names a label that no statement carries. -/
  | undefinedLabel {n : Path × Value} {label : String} : n ∈ tree.evaluated .root →
    Value.labelOf? .goto n = some label →
    (∀ m ∈ tree.evaluated .root, Value.labelOf? .labeled m ≠ some label) → IllFormed tree
  /-- A node is misplaced. -/
  | misplaced {n : Path × Value} : n ∈ tree.evaluated .root → Misplaced tree n → IllFormed tree

/-! ## What encloses a place -/

section

variable {tree : Value} {kinds : List Kind} {p q : Path} {k : Kind} {fields : List Value}
  {field : String} {i : Nat}

/-- Nothing encloses the root. -/
theorem not_encloses_root : ¬ Encloses tree kinds .root := by
  rintro ⟨n, -, -, f, -, hu⟩
  cases show n.1.field f = .root from hu

/-- What encloses a list encloses its items. -/
theorem encloses_item : Encloses tree kinds (q.item i) ↔ Encloses tree kinds q := by
  refine exists_congr fun n => and_congr_right fun _ => and_congr_right fun _ =>
    exists_congr fun f =>
    and_congr_right fun _ => ?_
  exact ⟨fun h => h.resolve_left Path.noConfusion, .inr⟩

/-- What encloses a field of a node is the node itself or encloses the node. -/
theorem encloses_field (hmem : (p, .node k fields) ∈ tree.evaluated .root) :
    Encloses tree kinds (p.field field) ↔ k ∈ kinds ∧ field ≠ "init" ∨ Encloses tree kinds p := by
  constructor
  · rintro ⟨⟨q, v⟩, hn, hk, f, hf, heq | hu⟩
    · cases heq
      cases List.inj_on_of_nodup_map (Value.nodup_evaluated tree .root) hn hmem rfl
      exact .inl ⟨List.contains_iff_mem.1 hk, hf⟩
    · exact .inr ⟨_, hn, hk, f, hf, hu⟩
  · rintro (⟨hk, hf⟩ | ⟨n, hn, hk, f, hf, hu⟩)
    · exact ⟨_, hmem, List.contains_iff_mem.2 hk, field, hf, .refl _⟩
    · exact ⟨n, hn, hk, f, hf, .inr hu⟩

/-- What is known of a place: whether a loop or a switch encloses it, and whether a loop does. -/
structure Within (tree : Value) (p : Path) (breakable inLoop : Bool) : Prop where
  breakable : breakable = true ↔ Encloses tree Kind.breakables p
  inLoop : inLoop = true ↔ Encloses tree Kind.loops p

namespace Within

variable {b l : Bool}

/-- Nothing is around the whole tree. -/
theorem root : Within tree .root false false :=
  ⟨iff_of_false Bool.false_ne_true not_encloses_root,
    iff_of_false Bool.false_ne_true not_encloses_root⟩

/-- What is around a list is around its items. -/
theorem item (h : Within tree p b l) : Within tree (p.item i) b l :=
  ⟨h.breakable.trans encloses_item.symm, h.inLoop.trans encloses_item.symm⟩

/-- A field of a statement that nothing leaves, or what a loop starts with. -/
theorem plain (h : Within tree p b l) (hmem : (p, .node k fields) ∈ tree.evaluated .root)
    (hk : k ∉ Kind.breakables ∨ field = "init") : Within tree (p.field field) b l := by
  have hloops : k ∈ Kind.loops → k ∈ Kind.breakables := List.mem_cons_of_mem _
  constructor
  · rw [h.breakable, encloses_field hmem]
    tauto
  · rw [h.inLoop, encloses_field hmem]
    tauto

/-- The body of a loop. -/
theorem body (hmem : (p, .node k fields) ∈ tree.evaluated .root)
    (hk : k ∈ Kind.loops := by decide) : Within tree (p.field "body") true true := by
  have hf : "body" ≠ "init" := by decide
  constructor
  · rw [encloses_field hmem]
    exact iff_of_true rfl (.inl ⟨List.mem_cons_of_mem _ hk, hf⟩)
  · rw [encloses_field hmem]
    exact iff_of_true rfl (.inl ⟨hk, hf⟩)

/-- A field of a switch. -/
theorem switch (h : Within tree p b l) (hmem : (p, .node .switch fields) ∈ tree.evaluated .root)
    (hf : field ≠ "init") : Within tree (p.field field) true l := by
  constructor
  · rw [encloses_field hmem]
    exact iff_of_true rfl (.inl ⟨List.mem_cons_self, hf⟩)
  · rw [h.inLoop, encloses_field hmem]
    exact ⟨.inr, fun h => h.resolve_left fun h => absurd h.1 (by decide)⟩

end Within

/-- A switch has its cases in a list, so no field is the place of one. -/
theorem not_armPlace_field : ¬ ArmPlace tree (p.field field) := by
  rintro ⟨n, -, -, i, h⟩
  cases h

/-- Only the list of a switch's cases holds places of cases. -/
theorem not_armPlace_item (hf : field ≠ "cases") : ¬ ArmPlace tree ((p.field field).item i) := by
  rintro ⟨n, -, -, j, h⟩
  cases h
  exact hf rfl

end

/-! ## Operands -/

namespace Expr

/-- Whether an expression moves an operand or takes its address. -/
def isTaking : Expr → Bool
  | .addressOf .. | .move .. => true
  | _ => false

mutual

/-- An expression fits if no connective occurs in one of its nodes that moves an operand or takes
its address. -/
theorem fits_iff_nodes : ∀ {e : Expr},
    e.fits = true ↔ ∀ x ∈ e.nodes, x.isTaking = true → x.connected = false
  | .absent | .stray _ | .unlisted | .name .. | .literal .. => by simp [fits, nodes, isTaking]
  | .foreign _ _ parts | .call _ _ parts => by simp [fits, nodes, isTaking, allFit_iff_nodes]
  | .unary _ _ e | .member _ e _ => by simp [fits, nodes, isTaking, fits_iff_nodes]
  | .binary _ _ l r | .assign _ _ l r | .index _ l r | .logic _ _ l r => by
    simp [fits, nodes, isTaking, fits_iff_nodes, or_imp, forall_and]
  | .addressOf p e | .move p e => by
    simp only [fits, nodes, List.forall_mem_cons, isTaking, connected, forall_const,
      Bool.not_eq_true']
    exact ⟨fun h => ⟨h, fits_iff_nodes.1 (fits_of_not_connected h)⟩, fun h => h.1⟩

/-- Several expressions fit if no node of them moves a connective or takes its address. -/
theorem allFit_iff_nodes : ∀ {es : List Expr},
    allFit es = true ↔ ∀ x ∈ nodesAll es, x.isTaking = true → x.connected = false
  | [] => by simp [allFit, nodesAll]
  | e :: rest => by
    simp [allFit, nodesAll, fits_iff_nodes, allFit_iff_nodes, or_imp, forall_and]

end

end Expr

namespace Value

variable {tree v : Value} {p : Path} {m n : Path × Value}

/-- A node of another kind has no label of this one. -/
theorem labelOf?_eq_none {kind : Kind} (h : ¬ n.2.isOf [kind] = true) :
    labelOf? kind n = none := by
  unfold labelOf?
  split
  · next k label rest =>
    refine if_neg ?_
    rintro rfl
    exact h (List.contains_iff_mem.2 List.mem_cons_self)
  · rfl

/-- A node of another kind has no label of this one, whatever its fields are. -/
theorem labelOf?_of_ne {k kind : Kind} {fields : List Value} (h : k ≠ kind) :
    labelOf? kind (p, .node k fields) = none :=
  labelOf?_eq_none fun hof => h (List.mem_singleton.1 (List.contains_iff_mem.1 hof))

/-- An expression moves its operand or takes its address if its kind says so. -/
theorem isTaking_read (h : n.2.IsExpr) : (read n).isTaking = n.2.isOf Kind.takings := by
  refine test_read (fun e hp => ?_) h
  cases e with
  | logic _ c => cases c <;> rfl
  | absent | stray | unlisted | foreign => cases hp
  | _ => rfl

/-- No connective occurs in a node of a tree if none of the tree is below its place. -/
theorem connected_read (h : n.2.IsExpr) (hn : n ∈ tree.evaluated .root) :
    (read n).connected = false ↔
      ∀ m ∈ tree.evaluated .root, n.1.Under m.1 → ¬ m.2.isOf Kind.connectives = true := by
  rw [Expr.connected_eq_any, read, nodes_ofValue n.2 n.1 h.1 h.2, List.any_eq_false]
  simp only [List.forall_mem_map]
  constructor
  · intro hall m hm hu
    have hm := (mem_evaluated_node hn).2 ⟨hm, hu⟩
    rw [← isConnective_read (isExpr_evaluated h hm)]
    exact hall m hm
  · intro hall m hm
    rw [isConnective_read (isExpr_evaluated h hm)]
    obtain ⟨hm, hu⟩ := (mem_evaluated_node hn).1 hm
    exact hall m hm hu

/-- An expression of a tree fits if none of its nodes is misplaced. -/
theorem fits_ofValue (h : v.IsExpr) (hsub : ∀ n ∈ v.evaluated p, n ∈ tree.evaluated .root) :
    (Expr.ofValue p v).fits = true ↔ ∀ n ∈ v.evaluated p, ¬ Misplaced tree n := by
  rw [Expr.fits_iff_nodes, nodes_ofValue v p h.1 h.2]
  simp only [List.forall_mem_map]
  refine forall₂_congr fun n hn => ?_
  have he := isExpr_evaluated h hn
  rw [isTaking_read he, connected_read he (hsub n hn)]
  constructor
  · rintro hall (hk | hk | hk | ⟨hk, hm, hc, hu⟩)
    · exact not_isOf (by decide) he.1 hk
    · exact not_isOf (by decide) he.1 hk
    · exact not_isOf (by decide) he.1 hk
    · exact hall hk _ hm hu hc
  · intro hok hk m hm hu hc
    exact hok (.taking hk hm hc hu)

end Value

/-! ## Statements -/

/-- The kinds of nodes that may not stand everywhere. -/
def Kind.placed : List Kind := [.brk, .cont, .caseArm] ++ takings

section

variable {tree : Value} {p : Path} {k : Kind} {fields : List Value}

/-- A node of another kind is never misplaced. -/
theorem not_misplaced (hk : k ∉ Kind.placed) : ¬ Misplaced tree (p, .node k fields) := by
  have hof : ∀ {kinds : List Kind}, (∀ k ∈ kinds, k ∈ Kind.placed) →
      ¬ (Value.node k fields).isOf kinds = true :=
    fun hsub h => hk (hsub k (List.contains_iff_mem.1 h))
  rintro (h | h | h | ⟨h, -⟩)
  all_goals exact hof (by decide) h

/-- A `break` is misplaced if no loop and no switch encloses it. -/
theorem misplaced_brk :
    Misplaced tree (p, .node .brk fields) ↔ ¬ Encloses tree Kind.breakables p := by
  constructor
  · rintro (⟨-, h⟩ | h | h | h)
    · exact h
    all_goals cases h
  · intro h
    exact .brk rfl h

/-- A `continue` is misplaced if no loop encloses it. -/
theorem misplaced_cont :
    Misplaced tree (p, .node .cont fields) ↔ ¬ Encloses tree Kind.loops p := by
  constructor
  · rintro (h | ⟨-, h⟩ | h | h)
    · cases h
    · exact h
    all_goals cases h
  · intro h
    exact .cont rfl h

/-- A case is misplaced if it is no case of a switch. -/
theorem misplaced_caseArm : Misplaced tree (p, .node .caseArm fields) ↔ ¬ ArmPlace tree p := by
  constructor
  · rintro (h | h | ⟨-, h⟩ | h)
    · cases h
    · cases h
    · exact h
    · cases h
  · intro h
    exact .caseArm rfl h

end

/-- Some labels, the labels that some jumps name and whether some statements fit are what a part of
the nodes of a tree says. -/
def Reflects (tree : Value) (labels gotos : List String) (fits : Prop)
    (nodes : List (Path × Value)) : Prop :=
  (∀ n ∈ nodes, n ∈ tree.evaluated .root) →
    labels = nodes.filterMap (Value.labelOf? .labeled) ∧
      gotos = nodes.filterMap (Value.labelOf? .goto) ∧ (fits ↔ ∀ n ∈ nodes, ¬ Misplaced tree n)

namespace Reflects

variable {tree v : Value} {ls ls' gs gs' : List String} {P Q : Prop} {x y : List (Path × Value)}
  {p : Path} {k : Kind} {fields : List Value}

/-- No nodes say nothing. -/
theorem nil : Reflects tree [] [] True [] := fun _ => ⟨rfl, rfl, by simp⟩

/-- What some nodes and further ones say is said by all of them. -/
theorem append (hx : Reflects tree ls gs P x) (hy : Reflects tree ls' gs' Q y) :
    Reflects tree (ls ++ ls') (gs ++ gs') (P ∧ Q) (x ++ y) := by
  intro hsub
  rw [List.forall_mem_append] at hsub
  obtain ⟨hxl, hxg, hxp⟩ := hx hsub.1
  obtain ⟨hyl, hyg, hyp⟩ := hy hsub.2
  rw [List.filterMap_append, List.filterMap_append, List.forall_mem_append, hxl, hxg, hyl, hyg,
    hxp, hyp]
  exact ⟨rfl, rfl, .rfl⟩

/-- Nothing comes behind what the last field holds. -/
theorem last (h : Reflects tree ls gs P x) : Reflects tree ls gs P (x ++ []) := by
  rwa [List.append_nil]

/-- The labels, the jumps and the condition may be given in another form. -/
theorem congr (h : Reflects tree ls gs P x) (hl : ls' = ls) (hg : gs' = gs) (hp : Q ↔ P) :
    Reflects tree ls' gs' Q x := by
  rwa [hl, hg, Reflects, hp]

/-- A node in front of others. -/
theorem node {n : Path × Value} (h : n ∈ tree.evaluated .root → Reflects tree ls gs P x) :
    Reflects tree ((Value.labelOf? .labeled n).toList ++ ls)
      ((Value.labelOf? .goto n).toList ++ gs) (¬ Misplaced tree n ∧ P) (n :: x) := by
  intro hsub
  rw [List.forall_mem_cons] at hsub
  obtain ⟨hl, hg, hp⟩ := h hsub.1 hsub.2
  rw [List.filterMap_cons, List.filterMap_cons, List.forall_mem_cons, hp, hl, hg]
  refine ⟨?_, ?_, .rfl⟩
  · cases Value.labelOf? .labeled n <;> rfl
  · cases Value.labelOf? .goto n <;> rfl

/-- A node that has no label and may stand everywhere. -/
theorem plain (h : (p, .node k fields) ∈ tree.evaluated .root → Reflects tree ls gs P x)
    (hk : k ∉ .labeled :: .goto :: Kind.placed := by decide) :
    Reflects tree ls gs P ((p, .node k fields) :: x) := by
  simp only [List.mem_cons, not_or] at hk
  refine (node h).congr ?_ ?_ ?_
  · rw [Value.labelOf?_of_ne hk.1, Option.toList_none, List.nil_append]
  · rw [Value.labelOf?_of_ne hk.2.1, Option.toList_none, List.nil_append]
  · rw [and_iff_right (not_misplaced hk.2.2)]

/-- An expression has no labels and no jumps, and it fits if none of its nodes is misplaced. -/
theorem expr (h : v.IsExpr) (p : Path) :
    Reflects tree [] [] ((Expr.ofValue p v).fits = true) (v.evaluated p) := by
  have hnone : ∀ {kind : Kind}, kind ∉ Kind.exprs →
      [] = (v.evaluated p).filterMap (Value.labelOf? kind) := by
    intro kind hkind
    refine (List.filterMap_eq_nil_iff.2 fun n hn => Value.labelOf?_eq_none ?_).symm
    refine Value.not_isOf ?_ (Value.isExpr_evaluated h hn).1
    rintro k hk hmem
    exact hkind (List.mem_singleton.1 hmem ▸ hk)
  exact fun hsub => ⟨hnone (by decide), hnone (by decide), Value.fits_ofValue h hsub⟩

/-- A missing expression says nothing, and any other one what its nodes say. -/
theorem exprOrNull (h : v.IsExprOrNull) (p : Path) :
    Reflects tree [] [] ((Expr.ofValue p v).fits = true) (v.evaluated p) := by
  rcases h with rfl | h
  · exact nil.congr rfl rfl (iff_of_true rfl trivial)
  · exact expr h p

end Reflects

namespace Stmt

/-- What is read from a statement says what the nodes of the statement say. -/
theorem reflects_reading (tree : Value) : Value.StmtInvariant
    (fun p v => ∀ b l, Within tree p b l → ¬ ArmPlace tree p →
      Reflects tree (ofValue p v).carried (ofValue p v).gotos
        ((ofValue p v).fits b l = true) (v.evaluated p))
    (fun p i items => ∀ b l, Within tree p b l → (∀ j, ¬ ArmPlace tree (p.item j)) →
      Reflects tree (carriedAll (ofItems p i items)) (gotosAll (ofItems p i items))
        (allFit b l (ofItems p i items) = true) (Value.evaluatedItems p i items))
    (fun p i items => ∀ b l, Within tree p b l → (∀ j, ArmPlace tree (p.item j)) →
      Reflects tree (carriedAll (ofItems p i items)) (gotosAll (ofItems p i items))
        (armsFit b l (ofItems p i items) = true) (Value.evaluatedItems p i items)) where
  absent _ _ _ _ := Reflects.nil.congr rfl rfl (iff_of_true rfl trivial)
  block := by
    intro p body ih b l hctx _
    refine .plain fun hmem => .last ?_
    refine (ih b l (hctx.plain hmem (.inl (by decide))) fun _ =>
      not_armPlace_item (by decide)).congr ?_ ?_ ?_
    all_goals simp [ofValue, ofList, carried, gotos, fits]
  exprStmt he _ _ _ _ := .plain fun _ => .last (.expr he _)
  decl he _ _ _ _ := .plain fun _ => .last (.exprOrNull he _)
  ifElse := by
    intro p cond thenArm elseArm hc _ hy hn b l hctx _
    refine .plain fun hmem => ?_
    have harm : ∀ f, Within tree (p.field f) b l := fun f => hctx.plain hmem (.inl (by decide))
    refine Reflects.congr (.append (.expr hc (p.field "cond"))
      (.append (hy b l (harm _) not_armPlace_field)
      (.last (hn b l (harm _) not_armPlace_field)))) ?_ ?_ ?_
    all_goals simp [ofValue, carried, gotos, fits, and_assoc]
  whileLoop := by
    intro p cond body hc _ ih b l hctx _
    refine .plain fun hmem => ?_
    refine Reflects.congr (.append (.expr hc (p.field "cond"))
      (.last (ih true true (.body hmem) not_armPlace_field))) ?_ ?_ ?_
    all_goals simp [ofValue, carried, gotos, fits]
  doWhile := by
    intro p body cond _ ih hc b l hctx _
    refine .plain fun hmem => ?_
    refine Reflects.congr (.append (ih true true (.body hmem) not_armPlace_field)
      (.last (.expr hc (p.field "cond")))) ?_ ?_ ?_
    all_goals simp [ofValue, carried, gotos, fits, and_comm]
  forLoop := by
    intro p init cond step body hi hc hs _ ih b l hctx _
    refine .plain fun hmem => ?_
    have hrest := Reflects.append (.exprOrNull hc (p.field "cond"))
      (.append (ih true true (.body hmem) not_armPlace_field)
        (.last (.exprOrNull hs (p.field "step"))))
    rcases hi with hi | ⟨hi, hbefore⟩
    · refine Reflects.congr (.append (.exprOrNull hi (p.field "init")) hrest) ?_ ?_ ?_
      all_goals rw [ofValue_forLoop_of_isExpr hi]
      all_goals simp [carried, gotos, fits]
      tauto
    · have hinit : Within tree (p.field "init") b l := hctx.plain hmem (.inr rfl)
      refine Reflects.congr (.append (hbefore b l hinit not_armPlace_field) hrest) ?_ ?_ ?_
      all_goals rw [ofValue_forLoop_of_isStmt hi]
      all_goals simp [carried, gotos, fits, Expr.fits]
      tauto
  foreach := by
    intro p var iterable body hi _ ih b l hctx _
    refine .plain fun hmem => ?_
    refine Reflects.congr (.append .nil (.append (.expr hi (p.field "iterable"))
      (.last (ih true true (.body hmem) not_armPlace_field)))) ?_ ?_ ?_
    all_goals simp [ofValue, named, carried, gotos, fits]
  switch := by
    intro p subject cases hs ih b l hctx _
    refine .plain fun hmem => ?_
    have harms : Within tree (p.field "cases") true l := hctx.switch hmem (by decide)
    refine Reflects.congr (.append (.expr hs (p.field "subject"))
      (.last (ih true l harms fun j => ⟨_, hmem, rfl, j, rfl⟩))) ?_ ?_ ?_
    all_goals simp [ofValue, ofList, carried, gotos, fits]
  caseArm := by
    intro p values body ih b l hctx harm
    refine (Reflects.node fun hmem => .append .nil
      (.last (ih b l (hctx.plain hmem (.inl (by decide)))
      fun _ => not_armPlace_item (by decide)))).congr ?_ ?_ ?_
    · simp [ofValue, ofList, carried, Value.labelOf?_of_ne]
    · simp [ofValue, ofList, gotos, Value.labelOf?_of_ne]
    · simp [ofValue, fits, misplaced_caseArm, harm]
  labeled := by
    intro p label body ih b l hctx _
    refine (Reflects.node fun hmem => .append .nil
      (.last (ih b l (hctx.plain hmem (.inl (by decide))) not_armPlace_field))).congr ?_ ?_ ?_
    · simp [ofValue, named, carried, Value.labelOf?]
    · simp [ofValue, named, gotos, Value.labelOf?]
    · simp [ofValue, named, fits, not_misplaced (k := .labeled) (by decide)]
  goto := by
    intro p label b l hctx _
    refine (Reflects.node fun _ => .append .nil .nil).congr ?_ ?_ ?_
    · simp [ofValue, named, carried, Value.labelOf?]
    · simp [ofValue, named, gotos, Value.labelOf?]
    · simp [ofValue, named, fits, not_misplaced (k := .goto) (by decide)]
  ret he _ _ _ _ := .plain fun _ => .last (.exprOrNull he _)
  brk := by
    intro p b l hctx _
    refine (Reflects.node fun _ => .nil).congr rfl rfl ?_
    rw [misplaced_brk, not_not, ← hctx.breakable, and_true]
    rfl
  cont := by
    intro p b l hctx _
    refine (Reflects.node fun _ => .nil).congr rfl rfl ?_
    rw [misplaced_cont, not_not, ← hctx.inLoop, and_true]
    rfl
  nil _ _ _ _ := Reflects.nil.congr rfl rfl (iff_of_true rfl trivial)
  cons := by
    intro p i s rest _ hf hl b l hctx harm
    refine ((hf b l hctx.item (harm i)).append (hl b l hctx harm)).congr rfl rfl ?_
    rw [ofItems, allFit, Bool.and_eq_true]
  noArms _ _ _ _ := Reflects.nil.congr rfl rfl (iff_of_true rfl trivial)
  arm := by
    intro p i values body rest hb hl b l hctx harm
    have hcase : ¬ Misplaced tree (p.item i, .node .caseArm [values, .list body]) := by
      rw [misplaced_caseArm, not_not]
      exact harm i
    refine Reflects.congr (.append (.node fun hmem => .append .nil (.last (hb b l
      (hctx.item.plain hmem (.inl (by decide))) fun _ => not_armPlace_item (by decide))))
      (hl b l hctx harm)) ?_ ?_ ?_
    · simp [ofItems, ofValue, ofList, carriedAll, carried, Value.labelOf?_of_ne]
    · simp [ofItems, ofValue, ofList, gotosAll, gotos, Value.labelOf?_of_ne]
    · simp [ofItems, ofValue, ofList, armsFit, hcase]

end Stmt

namespace FlowGraph

/-- What the body of a function says is what all nodes of the function say. -/
theorem reflects_function {name params body : Value} (hn : name.isText = true)
    (hp : params.isListOf Value.isText = true) (hb : body.IsStmt) :
    Reflects (.node .function [name, params, body])
      (Stmt.ofValue (Path.root.field "body") body).carried
      (Stmt.ofValue (Path.root.field "body") body).gotos
      ((Stmt.ofValue (Path.root.field "body") body).fits false false = true)
      ((Value.node .function [name, params, body]).evaluated .root) := by
  show Reflects _ _ _ _ ((.root, _) :: (name.evaluated (Path.root.field "name") ++
    (params.evaluated (Path.root.field "params") ++
      (body.evaluated (Path.root.field "body") ++ []))))
  rw [Value.evaluated_of_isText hn, Value.evaluated_of_isTexts hp]
  refine .plain fun hmem => .last ?_
  exact (Stmt.reflects_reading _).holds hb _ false false
    (Within.root.plain hmem (.inl (by decide))) not_armPlace_field

end FlowGraph

section

variable {tree : Value}

/-- The labels are distinct if no two statements carry the same. -/
theorem nodup_labels : ((tree.evaluated .root).filterMap (Value.labelOf? .labeled)).Nodup ↔
    ∀ m ∈ tree.evaluated .root, ∀ n ∈ tree.evaluated .root, m.1 ≠ n.1 → ∀ label,
      Value.labelOf? .labeled m = some label → Value.labelOf? .labeled n ≠ some label := by
  rw [List.Nodup, List.pairwise_filterMap]
  constructor
  · intro hpair m hm n hn hne label hml hnl
    have hsymm : Std.Symm fun (x y : Path × Value) => ∀ b, Value.labelOf? .labeled x = some b →
        ∀ b', Value.labelOf? .labeled y = some b' → b ≠ b' :=
      ⟨fun x y h b hb b' hb' heq => h b' hb' b hb heq.symm⟩
    exact hpair.forall hm hn (fun h => hne (congrArg _ h)) label hml label hnl rfl
  · intro h
    refine (List.pairwise_map.1 (Value.nodup_evaluated tree .root)).imp_of_mem fun hm hn hne => ?_
    rintro label hml _ hnl rfl
    exact h _ hm _ hn hne label hml hnl

/-- A function is ill-formed if its nodes, its labels and its jumps are not all as they have to
be. -/
theorem illFormed_iff : IllFormed tree ↔
    ¬ (((∀ n ∈ tree.evaluated .root, ¬ Misplaced tree n) ∧
      ((tree.evaluated .root).filterMap (Value.labelOf? .labeled)).Nodup) ∧
      ∀ label ∈ (tree.evaluated .root).filterMap (Value.labelOf? .goto),
        label ∈ (tree.evaluated .root).filterMap (Value.labelOf? .labeled)) := by
  rw [nodup_labels]
  constructor
  · rintro h ⟨⟨hplaced, honce⟩, hgotos⟩
    cases h with
    | labelTwice hm hn hne hml hnl => exact honce _ hm _ hn hne _ hml hnl
    | undefinedLabel hn hl hnone =>
      obtain ⟨m, hm, hml⟩ := List.mem_filterMap.1 (hgotos _ (List.mem_filterMap.2 ⟨_, hn, hl⟩))
      exact hnone m hm hml
    | misplaced hn h => exact hplaced _ hn h
  · intro h
    by_contra hill
    refine h ⟨⟨fun n hn hm => hill (.misplaced hn hm), fun m hm n hn hne label hml hnl =>
      hill (.labelTwice hm hn hne hml hnl)⟩, fun label hl => ?_⟩
    obtain ⟨n, hn, hnl⟩ := List.mem_filterMap.1 hl
    by_contra hnone
    refine hill (.undefinedLabel hn hnl fun m hm hml => hnone ?_)
    exact List.mem_filterMap.2 ⟨m, hm, hml⟩

end

/-- A well-typed function has a flow graph or is refused as malformed, and it is refused exactly if
it is ill-formed. -/
theorem FlowGraph.accepts_iff {tree : Value} (ht : tree.wellTyped = true)
    (hf : tree.isOf [.function] = true) (exits : Bool) :
    ((∃ g, ofTree (.ok exits) tree = .ok g) ∨ ∃ m, ofTree (.ok exits) tree =
      .error (.malformed m)) ∧
      ((∃ m, ofTree (.ok exits) tree = .error (.malformed m)) ↔ IllFormed tree) := by
  obtain ⟨name, params, fields, rfl, hn, hp, hb⟩ := Value.exists_body ht hf
  have hdecides := decides_ofBody (Stmt.proper_ofValue hb (Path.root.field "body")) exits
  obtain ⟨hlabels, hgotos, hfits⟩ := reflects_function hn hp hb fun _ h => h
  rw [hlabels, hgotos, hfits] at hdecides
  rw [illFormed_iff]
  exact ⟨hdecides.total, hdecides.refused_iff⟩

namespace Sample

/-- A `for` loop that starts with a `break`. -/
def breaksAhead : Value :=
  function [.node .forLoop [.node .brk [], .null, .null, .node .block [.list []]]]

/-- What a `for` loop starts with cannot leave it, so the `break` is outside of all loops; those of
a loop and of a switch are not. -/
theorem breaksAhead_refused :
    breaksAhead.wellTyped = true ∧ breaksAhead.isOf [.function] = true ∧
      FlowGraph.ofTree (.ok true) breaksAhead = .error (.malformed .breakOutside) ∧
      IllFormed breaksAhead ∧ fallsThrough.wellTyped = true ∧
        fallsThrough.isOf [.function] = true ∧
      FlowGraph.ofTree (.ok true) fallsThrough = .ok (graph fallsThrough) ∧
        ¬ IllFormed fallsThrough := by
  have ht : breaksAhead.wellTyped = true := by decide +kernel
  have ht' : fallsThrough.wellTyped = true := by decide +kernel
  have hbad : FlowGraph.ofTree (.ok true) breaksAhead = .error (.malformed .breakOutside) := by rfl
  have hok : FlowGraph.ofTree (.ok true) fallsThrough = .ok (graph fallsThrough) :=
    ofTree_eq (by decide +kernel)
  refine ⟨ht, rfl, hbad, ?_, ht', rfl, hok, ?_⟩
  · exact (FlowGraph.accepts_iff ht rfl true).2.1 ⟨_, hbad⟩
  · intro hill
    obtain ⟨m, hm⟩ := (FlowGraph.accepts_iff ht' rfl true).2.2 hill
    rw [hok] at hm
    cases hm

end Sample

end LastUse
