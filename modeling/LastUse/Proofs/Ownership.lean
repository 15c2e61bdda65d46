import LastUse.Proofs.Escape
import LastUse.Proofs.Flow.Owned
import LastUse.Proofs.Tree.Reading

/-!
# Which sites belong to a node

Every statement but blocks and cases has sites of its own, and each site belongs to one statement.
Every evaluated node of an expression that is no connective is owned by one site, which belongs to
the innermost statement around the node: `FlowGraph.sites_of_nodes`. So a binding that may be moved
at an expression may be moved at the statement around it.
-/

namespace LastUse

/-- The kinds of statements that have sites. -/
def Kind.sited : List Kind := stmts.filter fun k => !([.block, .caseArm].contains k)

/-- The kinds of expressions that a site owns. -/
def Kind.owned : List Kind := exprs.filter fun k => !(connectives.contains k)

/-- The innermost statement around a place of a tree. -/
structure Innermost (tree : Value) (q : Path) (s : Path × Value) : Prop where
  mem : s ∈ tree.nodes .root
  stmt : s.2.isOf Kind.stmts = true
  under : s.1.Under q
  innermost : ∀ t ∈ tree.nodes .root, t.2.isOf Kind.stmts = true → t.1.Under q → t.1.Under s.1

/-- Of two places above a third, one is above the other. -/
theorem Path.Under.total {p p' q : Path} (h : p.Under q) (h' : p'.Under q) :
    p.Under p' ∨ p'.Under p := by
  induction q with
  | root =>
    cases show p = .root from h
    exact .inr h'
  | field q _ ih | item q _ ih =>
    rcases h with rfl | h
    · exact .inr h'
    · rcases h' with rfl | h'
      · exact .inl (.inr h)
      · exact ih h h'

namespace Innermost

variable {tree : Value} {n s t : Path × Value}

/-- There is one innermost statement around an evaluated node. -/
theorem unique (hn : n ∈ tree.evaluated .root) (hs : Innermost tree n.1 s)
    (ht : Innermost tree n.1 t) : s = t := by
  have hst := (ht.innermost s hs.mem hs.stmt hs.under).depth_le
  have hts := (hs.innermost t ht.mem ht.stmt ht.under).depth_le
  have hplace : s.1 = t.1 := hs.under.eq_of_depth ht.under (Nat.le_antisymm hst hts)
  exact Value.eq_of_place hs.mem (Value.mem_evaluated_of_under ht.mem hn ht.under) hplace

/-- A statement is the innermost one around the nodes of its own expressions. -/
theorem of_expr {e : Value} {field : String} (hs : s ∈ tree.evaluated .root)
    (hstmt : s.2.isOf Kind.stmts = true) (he : e.IsExpr)
    (hsub : ∀ n ∈ e.evaluated (s.1.field field), n ∈ tree.evaluated .root)
    (hn : n ∈ e.evaluated (s.1.field field)) : Innermost tree n.1 s := by
  have hroot : (s.1.field field, e) ∈ e.evaluated (s.1.field field) := by
    cases e with
    | node k fields => exact List.mem_cons_self
    | scalar | list => cases he.1
  have hunder := Value.under_evaluated hn
  refine ⟨(Value.mem_evaluated.1 hs).1, hstmt, hunder.of_field, ?_⟩
  intro t ht hk hu
  have ht := Value.mem_evaluated_of_under ht (hsub n hn) hu
  have hout : ¬ (s.1.field field).Under t.1 := by
    -- A statement there would be one of the nodes of the expression.
    intro hin
    have hnode := (Value.mem_evaluated_node (hsub _ hroot)).2 ⟨ht, hin⟩
    exact Value.not_isOf (by decide) (Value.isExpr_evaluated he hnode).1 hk
  rcases hunder.total hu with hin | heq | habove
  · exact absurd hin hout
  · exact absurd (heq ▸ .refl _) hout
  · exact habove

end Innermost

/-! ## What is read from a tree -/

/-- There is a statement at a place of a tree. -/
def StmtAt (tree : Value) (p : Path) : Prop :=
  ∃ v, (p, v) ∈ tree.evaluated .root ∧ v.isOf Kind.stmts = true

/-- Some statements that have sites and some places of nodes that have owners are those of a part
of the nodes of a tree, each place with the innermost statement around it. -/
def Accounts (tree : Value) (hosts : List (Path × Bool)) (pairs : List (Path × Path))
    (nodes : List (Path × Value)) : Prop :=
  (∀ n ∈ nodes, n ∈ tree.evaluated .root) →
    hosts.map (·.1) = (nodes.filter (·.2.isOf Kind.sited)).map (·.1) ∧
      pairs.map (·.1) = (nodes.filter (·.2.isOf Kind.owned)).map (·.1) ∧
      ∀ w ∈ pairs, ∃ s, s.1 = w.2 ∧ Innermost tree w.1 s

namespace Accounts

variable {tree v : Value} {hs hs' : List (Path × Bool)} {ps ps' : List (Path × Path)}
  {x y : List (Path × Value)} {p : Path} {k : Kind} {fields : List Value}

/-- No nodes account for nothing. -/
theorem nil : Accounts tree [] [] [] := fun _ => ⟨rfl, rfl, by simp⟩

/-- What some nodes and further ones account for is what all of them do. -/
theorem append (hx : Accounts tree hs ps x) (hy : Accounts tree hs' ps' y) :
    Accounts tree (hs ++ hs') (ps ++ ps') (x ++ y) := by
  intro hsub
  rw [List.forall_mem_append] at hsub
  obtain ⟨hxh, hxp, hxi⟩ := hx hsub.1
  obtain ⟨hyh, hyp, hyi⟩ := hy hsub.2
  simp only [List.map_append, List.filter_append, hxh, hxp, hyh, hyp, List.forall_mem_append]
  exact ⟨trivial, trivial, hxi, hyi⟩

/-- What has no statements, in front of others. -/
theorem before (hx : Accounts tree [] ps x) (hy : Accounts tree hs ps' y) :
    Accounts tree hs (ps ++ ps') (x ++ y) :=
  append hx hy

/-- What has no statements, behind others. -/
theorem behind (hx : Accounts tree hs ps x) (hy : Accounts tree [] ps' y) :
    Accounts tree hs (ps ++ ps') (x ++ y) := by
  simpa only [List.append_nil] using append hx hy

/-- Nothing comes behind what the last field holds. -/
theorem last (h : Accounts tree hs ps x) : Accounts tree hs ps (x ++ []) := by
  rwa [List.append_nil]

/-- A statement that has sites, in front of its parts. -/
theorem sited {ret : Bool} (h : StmtAt tree p → Accounts tree hs ps x)
    (hk : k ∈ Kind.sited := by decide) :
    Accounts tree ((p, ret) :: hs) ps ((p, .node k fields) :: x) := by
  intro hsub
  rw [List.forall_mem_cons] at hsub
  have hsited : (Value.node k fields).isOf Kind.sited = true := List.contains_iff_mem.2 hk
  obtain ⟨hh, hp, hi⟩ := h ⟨_, hsub.1, Value.isOf_mono (by decide) hsited⟩ hsub.2
  have howned := Value.not_isOf (by decide : ∀ k ∈ Kind.sited, k ∉ Kind.owned) hsited
  rw [List.filter_cons, if_pos hsited, List.filter_cons, if_neg howned]
  exact ⟨by rw [List.map_cons, List.map_cons, hh], hp, hi⟩

/-- A node that has neither sites nor an owner, in front of its parts. -/
theorem plain (h : Accounts tree hs ps x) (hk : k ∉ Kind.sited ++ Kind.owned := by decide) :
    Accounts tree hs ps ((p, .node k fields) :: x) := by
  intro hsub
  rw [List.forall_mem_cons] at hsub
  rw [List.mem_append, not_or] at hk
  have hsited : ¬ (Value.node k fields).isOf Kind.sited = true :=
    fun h => hk.1 (List.contains_iff_mem.1 h)
  have howned : ¬ (Value.node k fields).isOf Kind.owned = true :=
    fun h => hk.2 (List.contains_iff_mem.1 h)
  rw [List.filter_cons, if_neg hsited, List.filter_cons, if_neg howned]
  exact h hsub.2

end Accounts

namespace Value

variable {v : Value} {p : Path} {n : Path × Value}

/-- An expression is read with its place. -/
theorem place?_read (h : n.2.isOf Kind.exprs = true) : (read n).place? = some n.1 := by
  obtain ⟨p, v⟩ := n
  cases v with
  | node k fields => exact Expr.place?_ofValue p k fields
  | scalar | list => cases h

/-- A site owns the expressions that are no connectives. -/
theorem isOf_owned (h : n.2.isOf Kind.exprs = true) :
    n.2.isOf Kind.owned = !n.2.isOf Kind.connectives := by
  obtain ⟨p, v⟩ := n
  cases v with
  | node k fields =>
    have hkinds : ∀ k ∈ Kind.exprs, Kind.owned.contains k = !Kind.connectives.contains k := by
      decide
    exact hkinds k (List.contains_iff_mem.1 h)
  | scalar | list => cases h

/-- The nodes of an expression that have owners, in the order of evaluation. -/
theorem ownable_ofValue (h : v.IsExpr) :
    Expr.ownable [.ofValue p v] = ((v.evaluated p).filter (·.2.isOf Kind.owned)).map (·.1) := by
  have hfilter : (v.evaluated p).filter (fun n => !(read n).isConnective) =
      (v.evaluated p).filter (·.2.isOf Kind.owned) := by
    refine List.filter_congr fun n hn => ?_
    have he := isExpr_evaluated h hn
    rw [isConnective_read he, isOf_owned he.1]
  rw [Expr.ownable, Expr.nodesAll, Expr.nodesAll, List.append_nil, nodes_ofValue v p h.1 h.2,
    List.filter_map, List.filterMap_map, Function.comp_def, Function.comp_def, hfilter,
    ← List.filterMap_eq_map]
  refine List.filterMap_congr fun n hn => ?_
  exact place?_read (isExpr_evaluated h (List.mem_filter.1 hn).1).1

end Value

namespace Accounts

variable {tree e : Value} {p : Path}

/-- An expression of a statement. -/
theorem expr (hp : StmtAt tree p) (he : e.IsExpr) (field : String) :
    Accounts tree [] (Expr.held p [.ofValue (p.field field) e]) (e.evaluated (p.field field)) := by
  intro hsub
  refine ⟨?_, ?_, ?_⟩
  · rw [List.filter_eq_nil_iff.2 fun n hn => ?_]
    · rfl
    · exact Value.not_isOf (by decide) (Value.isExpr_evaluated he hn).1
  · rw [Expr.held, List.map_map, Value.ownable_ofValue he, Function.comp_def, List.map_id']
  · intro w hw
    obtain ⟨q, hq, rfl⟩ := List.mem_map.1 hw
    rw [Value.ownable_ofValue he] at hq
    obtain ⟨n, hn, rfl⟩ := List.mem_map.1 hq
    obtain ⟨v, hmem, hstmt⟩ := hp
    exact ⟨(p, v), rfl, .of_expr hmem hstmt he hsub (List.mem_filter.1 hn).1⟩

/-- An expression of a statement accounts for its own nodes, and a missing one for none. -/
theorem exprOrNull (hp : StmtAt tree p) (he : e.IsExprOrNull) (field : String) :
    Accounts tree [] (Expr.held p [.ofValue (p.field field) e]) (e.evaluated (p.field field)) := by
  rcases he with rfl | he
  · exact nil
  · exact expr hp he field

end Accounts

namespace Stmt

/-- The statements and expressions that are read from a statement are those of its nodes. -/
theorem accounts (tree : Value) : Value.StmtInvariant
    (fun p v => Accounts tree (ofValue p v).hosts (ofValue p v).holdings (v.evaluated p))
    (fun p i items => Accounts tree (hostsAll (ofItems p i items))
      (holdingsAll (ofItems p i items)) (Value.evaluatedItems p i items))
    (fun p i items => Accounts tree (hostsAll (ofItems p i items))
      (holdingsAll (ofItems p i items)) (Value.evaluatedItems p i items)) where
  absent := .nil
  block h := .plain (.last h)
  exprStmt he := .sited fun hp => .last (.expr hp he "expr")
  decl he := .sited fun hp => .last (.exprOrNull hp he "init")
  ifElse hc _ hy hn := .sited fun hp => .before (.expr hp hc "cond") (.append hy (.last hn))
  whileLoop hc _ hb := .sited fun hp => .before (.expr hp hc "cond") (.last hb)
  doWhile _ hb hc := .sited fun hp => .behind hb (.last (.expr hp hc "cond"))
  forLoop := by
    intro p init cond step body hi hc hs _ hb
    have hrest (hp : StmtAt tree p) := Accounts.before (.exprOrNull hp hc "cond")
      (.behind hb (.last (.exprOrNull hp hs "step")))
    -- The loop starts with an expression of its own or with another statement.
    rcases hi with hi | ⟨hi, hbefore⟩
    · rw [ofValue_forLoop_of_isExpr hi]
      exact .sited fun hp => (Accounts.before (.exprOrNull hp hi "init") (hrest hp) :)
    · rw [ofValue_forLoop_of_isStmt hi]
      exact .sited fun hp => .append hbefore (hrest hp)
  foreach hi _ hb := .sited fun hp => (Accounts.before (.expr hp hi "iterable") (.last hb) :)
  switch hs ha := .sited fun hp => .before (.expr hp hs "subject") (.last ha)
  caseArm h := .plain (.last h)
  labeled hb := .sited fun _ => .last hb
  goto := .sited fun _ => .nil
  ret he := .sited fun hp => .last (.exprOrNull hp he "value")
  brk := .sited fun _ => .nil
  cont := .sited fun _ => .nil
  nil := .nil
  cons _ hf hl := .append hf hl
  noArms := .nil
  arm hb ha := .append (.plain (.last hb)) ha

end Stmt

namespace FlowGraph

variable {exitEdges : Except Fault Bool} {tree : Value} {g : FlowGraph}
  {n : Path × Value} {o : Nat} {p : Path}

/-- The statements and expressions that are read from a function are those of all its nodes. -/
theorem accounts_bodyOf (ht : tree.wellTyped = true) (h : ofTree exitEdges tree = .ok g) :
    Accounts tree (bodyOf tree).hosts (bodyOf tree).holdings (tree.evaluated .root) := by
  obtain ⟨name, params, fields, rfl, hn, hp, hb⟩ := Value.exists_body ht (isOf_of_ofTree h)
  rw [Value.evaluated_function hn hp]
  exact .plain ((Stmt.accounts _).holds hb _)

/-! ## The sites of a flow graph -/

/-- The sites of a flow graph belong to statements of a tree, and they own the expressions of the
tree: each site belongs to a statement and each statement has one, and each node that has an owner
has one that belongs to the innermost statement around it. -/
structure Attributed (tree : Value) (g : FlowGraph) : Prop where
  stmts : ∀ s ∈ g.sites, ∃ n ∈ tree.evaluated .root, n.2.isOf Kind.sited = true ∧ n.1 = s.stmt
  sites : ∀ n ∈ tree.evaluated .root, n.2.isOf Kind.sited = true → ∃ s ∈ g.sites, s.stmt = n.1
  places : ∀ q, q ∈ g.owned.map (·.1) ↔ ∃ n ∈ tree.evaluated .root,
    n.2.isOf Kind.owned = true ∧ n.1 = q
  owners : ∀ w ∈ g.owned, ∃ s ∈ g.sites, s.ordinal = w.2 ∧ ∃ t, t.1 = s.stmt ∧ Innermost tree w.1 t

/-- The sites of a function belong to its statements. -/
theorem attributed_of_ofTree (ht : tree.wellTyped = true) (h : ofTree exitEdges tree = .ok g) :
    g.Attributed tree := by
  obtain ⟨whole, hg⟩ := exists_drafted (ofBody_of_ofTree h)
  obtain ⟨hhosts, hplaces, hinner⟩ := accounts_bodyOf ht h fun _ hn => hn
  have hnests := (Stmt.nests.flow hg.flow).hosts
  have howns := Stmt.owns.flow hg.flow
  have hmem : ∀ {kinds : List Kind} {q : Path},
      q ∈ ((tree.evaluated .root).filter (·.2.isOf kinds)).map (·.1) ↔
        ∃ n ∈ tree.evaluated .root, n.2.isOf kinds = true ∧ n.1 = q := by
    intro kinds q
    simp only [List.mem_map, List.mem_filter, and_assoc]
  have hsite :
      ∀ s ∈ whole.draft.sites, ∃ s' ∈ g.sites, s'.ordinal = s.ordinal ∧ s'.stmt = s.stmt := by
    intro s hs
    rw [hg.sites]
    exact ⟨_, List.mem_map.2 ⟨s, hs, rfl⟩, rfl, rfl⟩
  refine ⟨fun s hs => ?_, fun n hn hk => ?_, fun q => ?_, fun w hw => ?_⟩
  · rw [hg.sites] at hs
    obtain ⟨s', hs', rfl⟩ := List.mem_map.1 hs
    rw [← hmem, ← hhosts]
    exact List.mem_map.2 ⟨_, hnests s' hs', rfl⟩
  · have hhost := hmem.2 ⟨n, hn, hk, rfl⟩
    rw [← hhosts] at hhost
    obtain ⟨x, hx, hxn⟩ := List.mem_map.1 hhost
    obtain ⟨s, hs, hstmt⟩ := howns.hosts x hx
    obtain ⟨s', hs', -, hstmt'⟩ := hsite s hs
    exact ⟨s', hs', by rw [hstmt', hstmt, hxn]⟩
  · rw [hg.owned, howns.places.mem_iff, hplaces, hmem]
  · obtain ⟨s, hs, hord, hpair⟩ := howns.owners w (hg.owned ▸ hw)
    obtain ⟨s', hs', hord', hstmt'⟩ := hsite s hs
    obtain ⟨t, htp, hin⟩ := hinner _ hpair
    exact ⟨s', hs', hord'.trans hord, t, htp.trans hstmt'.symm, hin⟩

/-- The sites of a statement are those that have its place. -/
theorem mem_stmtSites : o ∈ g.stmtSites p ↔ ∃ s ∈ g.sites, s.ordinal = o ∧ s.stmt = p := by
  simp only [stmtSites, List.mem_map, List.mem_filter, decide_eq_true_eq]
  constructor
  · rintro ⟨s, ⟨hs, hp⟩, ho⟩
    exact ⟨s, hs, ho, hp⟩
  · rintro ⟨s, hs, ho, hp⟩
    exact ⟨s, ⟨hs, hp⟩, ho⟩

/-- The sites of a statement are in order. -/
theorem Laid.pairwise_stmtSites (h : g.Laid) (p : Path) : (g.stmtSites p).Pairwise (· < ·) :=
  h.pairwise_ordinals.sublist (List.filter_sublist.map _)

/-- The sites of a statement are sites of the function. -/
theorem Laid.lt_of_mem_stmtSites (h : g.Laid) (ho : o ∈ g.stmtSites p) : o < g.sites.length := by
  obtain ⟨s, hs, rfl, -⟩ := mem_stmtSites.1 ho
  rw [← List.mem_range, ← h.sites]
  exact List.mem_map.2 ⟨s, hs, rfl⟩

/-- A site belongs to one statement. -/
theorem Laid.stmt_unique (h : g.Laid) {q : Path} (hp : o ∈ g.stmtSites p)
    (hq : o ∈ g.stmtSites q) : p = q := by
  obtain ⟨s, hs, rfl, rfl⟩ := mem_stmtSites.1 hp
  obtain ⟨s', hs', ho, rfl⟩ := mem_stmtSites.1 hq
  have heq := getElem?_ordinal h.sites hs
  rw [← ho, getElem?_ordinal h.sites hs'] at heq
  cases heq
  rfl

/-- The sites of a statement are those of the node at its place. -/
theorem mem_sitesAt_of_stmtSites (ho : o ∈ g.stmtSites p) : o ∈ g.sitesAt p := by
  unfold sitesAt
  split
  · next h =>
    rw [h] at ho
    cases ho
  · exact ho

/-- A node that is no statement with sites has the site that owns it, if there is one. -/
theorem sitesAt_of_eq_nil (h : g.stmtSites p = []) : g.sitesAt p = (g.owned.lookup p).toList := by
  rw [sitesAt, h]

namespace Attributed

/-- No site belongs to a node of another kind than those that have sites. -/
theorem stmtSites_eq_nil (ha : g.Attributed tree) (hn : n ∈ tree.nodes .root)
    (hk : ¬ n.2.isOf Kind.sited = true) : g.stmtSites n.1 = [] := by
  refine List.eq_nil_iff_forall_not_mem.2 fun o ho => hk ?_
  obtain ⟨s, hs, -, hstmt⟩ := mem_stmtSites.1 ho
  obtain ⟨m, hm, hkm, hmp⟩ := ha.stmts s hs
  rwa [Value.eq_of_place hn hm (hstmt.symm.trans hmp.symm)]

/-- No site owns a node of another kind than those that have owners. -/
theorem sitesAt_of_not_owned (ha : g.Attributed tree) (hn : n ∈ tree.nodes .root)
    (hk : ¬ n.2.isOf Kind.owned = true) : g.sitesAt n.1 = g.stmtSites n.1 := by
  cases hs : g.stmtSites n.1 with
  | cons o rest => rw [sitesAt, hs]
  | nil =>
    have hnone : g.owned.lookup n.1 = none := by
      refine List.lookup_eq_none_iff.2 fun w hw => bne_iff_ne.2 fun heq => hk ?_
      obtain ⟨m, hm, hkm, hmp⟩ := (ha.places w.1).1 (List.mem_map.2 ⟨w, hw, rfl⟩)
      rwa [Value.eq_of_place hn hm (heq.trans hmp.symm)]
    rw [sitesAt_of_eq_nil hs, hnone, Option.toList_none]

/-- The sites of a statement are those that belong to it. -/
theorem sitesAt_of_sited (ha : g.Attributed tree) (hn : n ∈ tree.nodes .root)
    (hk : n.2.isOf Kind.sited = true) : g.sitesAt n.1 = g.stmtSites n.1 :=
  ha.sitesAt_of_not_owned hn (Value.not_isOf (by decide) hk)

/-- Blocks, cases and connectives have no sites. -/
theorem sitesAt_eq_nil (ha : g.Attributed tree) (hn : n ∈ tree.nodes .root)
    (hk : ¬ n.2.isOf (Kind.sited ++ Kind.owned) = true) : g.sitesAt n.1 = [] := by
  have hkinds : ∀ {kinds : List Kind}, (∀ k ∈ kinds, k ∈ Kind.sited ++ Kind.owned) →
      ¬ n.2.isOf kinds = true :=
    fun hsub h => hk (Value.isOf_mono hsub h)
  rw [ha.sitesAt_of_not_owned hn (hkinds (by decide)), ha.stmtSites_eq_nil hn (hkinds (by decide))]

/-- One site owns an expression that is no connective, and it belongs to the innermost statement
around the expression. -/
theorem sitesAt_of_owned (ha : g.Attributed tree) (hn : n ∈ tree.evaluated .root)
    (hk : n.2.isOf Kind.owned = true) :
    ∃ t, Innermost tree n.1 t ∧ ∃ o ∈ g.sitesAt t.1, g.sitesAt n.1 = [o] := by
  have hnil := ha.stmtSites_eq_nil (Value.mem_evaluated.1 hn).1 (Value.not_isOf (by decide) hk)
  have hkey := (ha.places n.1).2 ⟨n, hn, hk, rfl⟩
  obtain ⟨o, ho⟩ : ∃ o, g.owned.lookup n.1 = some o := by
    cases hl : g.owned.lookup n.1 with
    | some o => exact ⟨o, rfl⟩
    | none =>
      obtain ⟨w, hw, hwn⟩ := List.mem_map.1 hkey
      exact absurd hwn.symm (bne_iff_ne.1 (List.lookup_eq_none_iff.1 hl w hw))
  obtain ⟨before, after, heq, -⟩ := List.lookup_eq_some_iff.1 ho
  have hw : (n.1, o) ∈ g.owned := by simp [heq]
  obtain ⟨s, hs, hord, t, htp, hin⟩ := ha.owners _ hw
  refine ⟨t, hin, o, mem_sitesAt_of_stmtSites (mem_stmtSites.2 ⟨s, hs, hord, htp.symm⟩), ?_⟩
  rw [sitesAt_of_eq_nil hnil, ho, Option.toList_some]

/-- Every site belongs to one statement. -/
theorem lt_length_iff (ha : g.Attributed tree) (hg : g.Laid) : o < g.sites.length ↔
    ∃! n, n ∈ tree.nodes .root ∧ n.2.isOf Kind.sited = true ∧ o ∈ g.sitesAt n.1 := by
  constructor
  · intro ho
    obtain ⟨s, hs, hso⟩ :=
      List.mem_map.1 (hg.sites ▸ List.mem_range.2 ho : o ∈ g.sites.map (·.ordinal))
    obtain ⟨n, hn, hk, hp⟩ := ha.stmts s hs
    have hon : o ∈ g.stmtSites n.1 := mem_stmtSites.2 ⟨s, hs, hso, hp.symm⟩
    refine ⟨n, ⟨(Value.mem_evaluated.1 hn).1, hk, mem_sitesAt_of_stmtSites hon⟩, ?_⟩
    rintro m ⟨hm, hkm, hom⟩
    rw [ha.sitesAt_of_sited hm hkm] at hom
    exact Value.eq_of_place hm hn (hg.stmt_unique hom hon)
  · rintro ⟨n, ⟨hn, hk, ho⟩, -⟩
    rw [ha.sitesAt_of_sited hn hk] at ho
    exact hg.lt_of_mem_stmtSites ho

end Attributed

end FlowGraph

/-! ## Where a binding may be moved -/

namespace Session

variable {s : Session} {p q : Path}

/-- Whether a binding may be moved at a target is asked of the sites that the target names. -/
theorem run_isMovableAt (s : Session) (b : Binding) {target : Target} {ordinals : List Nat}
    (h : s.locate target = .ok ordinals) (m : Memory) :
    (s.isMovableAt b target).run.run m =
      match (s.movableSites b).run.run m with
      | (.ok eligible, m') => (.ok (ordinals.any eligible.contains), m')
      | (.error f, m') => (.error f, m') := by
  rw [isMovableAt, h, run_bind]
  show ((s.movableSites b >>= fun eligible => pure (ordinals.any eligible.contains)) :
    Query Bool).run.run m = _
  rw [run_bind]
  rcases (s.movableSites b).run.run m with ⟨_ | _, m'⟩ <;> rfl

/-- A node that has sites names them. -/
theorem locate_node (hp : s.graph.sitesAt p ≠ []) (v : Value) :
    s.locate (.node p v) = .ok (s.graph.sitesAt p) := by
  rw [locate]
  split
  · next h => exact absurd h hp
  · rfl

/-- A binding that may be moved at a node may be moved at every node that has all sites of it. -/
theorem isMovableAt_of_subset {b : Binding} {m m' : Memory} {v w : Value}
    (hp : s.graph.sitesAt p ≠ []) (hsub : ∀ o ∈ s.graph.sitesAt p, o ∈ s.graph.sitesAt q)
    (h : (s.isMovableAt b (.node p v)).run.run m = (.ok true, m')) :
    (s.isMovableAt b (.node q w)).run.run m = (.ok true, m') := by
  have hq : s.graph.sitesAt q ≠ [] := by
    obtain ⟨o, ho⟩ := List.exists_mem_of_ne_nil _ hp
    exact List.ne_nil_of_mem (hsub o ho)
  rw [run_isMovableAt s b (locate_node hp v)] at h
  rw [run_isMovableAt s b (locate_node hq w)]
  rcases hrun : (s.movableSites b).run.run m with ⟨f | eligible, m''⟩
  · rw [hrun] at h
    cases h
  · rw [hrun] at h
    obtain ⟨hok, rfl⟩ := Prod.mk.inj h
    obtain ⟨o, ho, hin⟩ := List.any_eq_true.1 (Except.ok.inj hok)
    have hany : (s.graph.sitesAt q).any eligible.contains = true :=
      List.any_eq_true.2 ⟨o, hsub o ho, hin⟩
    show (Except.ok _, m'') = (Except.ok true, m'')
    rw [hany]

end Session

/-- A place is in nothing that a literal of a tree holds. -/
def OutsideLiterals (tree : Value) (q : Path) : Prop :=
  ∀ m ∈ tree.nodes .root, m.2.isOf [.literal] = true → ¬ (m.1.field "value").Under q

/-- Every statement but blocks and cases has sites, in order, and each site belongs to one of them.
Every evaluated node of an expression has one site, which belongs to the innermost statement around
it, but for the connectives, which have none. So a binding that may be moved at a node of an
expression may be moved at this statement. What a literal holds is no part of a function, so
statements there do not count. -/
theorem FlowGraph.sites_of_nodes {exitEdges : Except Fault Bool} {tree : Value} {g : FlowGraph}
    (ht : tree.wellTyped = true) (h : ofTree exitEdges tree = .ok g) :
    (∀ n ∈ tree.nodes .root, n.2.isOf Kind.sited = true → OutsideLiterals tree n.1 →
      g.sitesAt n.1 ≠ [] ∧ (g.sitesAt n.1).Pairwise (· < ·)) ∧
    (∀ o, o < g.sites.length ↔
      ∃! n, n ∈ tree.nodes .root ∧ n.2.isOf Kind.sited = true ∧ o ∈ g.sitesAt n.1) ∧
    (∀ n ∈ tree.nodes .root, n.2.isOf [.block, .caseArm] = true → g.sitesAt n.1 = []) ∧
    (∀ n ∈ tree.evaluated .root, n.2.isOf Kind.owned = true →
      ∃ t, Innermost tree n.1 t ∧ ∃ o ∈ g.sitesAt t.1, g.sitesAt n.1 = [o]) ∧
    (∀ n ∈ tree.nodes .root, n.2.isOf Kind.connectives = true → g.sitesAt n.1 = []) ∧
    ∀ n ∈ tree.evaluated .root, n.2.isOf Kind.owned = true → ∀ t, Innermost tree n.1 t →
      ∀ (s : Session) (b : Binding) (m m' : Memory), s.graph = g →
        (s.isMovableAt b (.node n.1 n.2)).run.run m = (.ok true, m') →
        (s.isMovableAt b (.node t.1 t.2)).run.run m = (.ok true, m') := by
  have ha := attributed_of_ofTree ht h
  have hg := laid_of_ofTree h
  have hnone : ∀ {kinds : List Kind}, (∀ k ∈ kinds, k ∉ Kind.sited ++ Kind.owned) →
      ∀ n ∈ tree.nodes .root, n.2.isOf kinds = true → g.sitesAt n.1 = [] :=
    fun hkinds n hn hk => ha.sitesAt_eq_nil hn (Value.not_isOf hkinds hk)
  refine ⟨fun n hn hk hlit => ?_, fun o => ha.lt_length_iff hg, hnone (by decide),
    fun n hn hk => ha.sitesAt_of_owned hn hk, hnone (by decide), ?_⟩
  · have hn' := (Value.evaluated_of_isStmt ht hn (Value.isOf_mono (by decide) hk) hlit).1
    obtain ⟨s, hs, hstmt⟩ := ha.sites n hn' hk
    rw [ha.sitesAt_of_sited hn hk]
    exact ⟨List.ne_nil_of_mem (mem_stmtSites.2 ⟨s, hs, rfl, hstmt⟩), hg.pairwise_stmtSites n.1⟩
  · rintro n hn hk t hin s b m m' rfl hrun
    obtain ⟨t', hin', o, ho, heq⟩ := ha.sitesAt_of_owned hn hk
    cases hin.unique hn hin'
    refine s.isMovableAt_of_subset (by simp [heq]) ?_ hrun
    rintro o' ho'
    rw [heq, List.mem_singleton] at ho'
    rwa [ho']

namespace Sample

/-- A test of the parameter. -/
def test : Value := .node .exprStmt [.node .logicalAnd [name "n", name "x"]]

/-- A `for` loop with a start and a step, and a test of the parameter behind it. -/
def counts : Value :=
  function [.node .forLoop [.node .assign [name "i", .node .literal [.scalar (.int 0)], .str "="],
    .node .logicalAnd [name "i", name "n"], .node .call [.str "next", .list [name "i"]],
    .node .block [.list [use "i"]]], test]

/-- The parameter in the test. -/
def tested : Path × Value := (((place 1).field "expr").field "right", name "x")

/-- The sites of the loop are around that of its body, and the parameter may be moved where the
test has it and so at the test. -/
theorem sites_of_counts :
    counts.wellTyped = true ∧ Session.ofTree .null counts = .ok (session counts) ∧
      (session counts).graph.sitesAt (place 0) = [0, 1, 2, 3, 5] ∧
      ((session counts).graph.sitesAt (place 0)).Pairwise (· < ·) ∧
      (∃! n, n ∈ counts.nodes .root ∧ n.2.isOf Kind.sited = true ∧
        5 ∈ (session counts).graph.sitesAt n.1) ∧
      (session counts).graph.sitesAt (Path.root.field "body") = [] ∧
      (session counts).graph.sitesAt ((place 1).field "expr") = [] ∧
      (∃ t, Innermost counts tested.1 t ∧
        ∃ o ∈ (session counts).graph.sitesAt t.1, (session counts).graph.sitesAt tested.1 = [o]) ∧
      ∃ m, ((session counts).isMovableAt x (.node tested.1 tested.2)).run.run .empty =
        (.ok true, m) ∧
        ((session counts).isMovableAt x (.node (place 1) test)).run.run .empty =
          (.ok true, m) := by
  have ht : counts.wellTyped = true := by decide +kernel
  have hs : Session.ofTree .null counts = .ok (session counts) := session_eq (by decide +kernel)
  obtain ⟨exitEdges, hg⟩ := Session.graph_of_ofTree hs
  obtain ⟨hstmts, hsites, hnone, howned, hlogic, hmoves⟩ := FlowGraph.sites_of_nodes ht hg
  have hblock : (Path.root.field "body", _) ∈ counts.nodes .root :=
    List.mem_of_getElem? (i := 1) rfl
  have hloop : (place 0, _) ∈ counts.nodes .root := List.mem_of_getElem? (i := 2) rfl
  have hoperands : ((place 1).field "expr", _) ∈ counts.nodes .root :=
    List.mem_of_getElem? (i := 16) rfl
  have htested : tested ∈ counts.evaluated .root := List.mem_of_getElem? (i := 18) rfl
  have houtside : OutsideLiterals counts (place 0) := by
    unfold OutsideLiterals
    decide +kernel
  have htest : Innermost counts tested.1 (place 1, test) :=
    ⟨List.mem_of_getElem? (i := 15) rfl, rfl, by decide +kernel, by decide +kernel⟩
  obtain ⟨m, hm⟩ : ∃ m, ((session counts).isMovableAt x (.node tested.1 tested.2)).run.run .empty =
      (.ok true, m) := ⟨_, Prod.ext (by decide +kernel) rfl⟩
  exact ⟨ht, hs, by decide +kernel, (hstmts _ hloop rfl houtside).2,
    (hsites 5).1 (by decide +kernel), hnone _ hblock rfl, hlogic _ hoperands rfl,
    howned _ htested rfl, m, hm,
    hmoves _ htested rfl _ htest _ x _ _ rfl hm⟩

end Sample

end LastUse
