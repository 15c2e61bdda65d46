import LastUse.Proofs.Exclusion
import LastUse.Proofs.Flow.Masked

/-!
# Noninterference

What is found out about a binding depends on the shape of a function, on its labels, and on where
the name of the binding occurs. Functions with one mask for the name are accepted or refused
together, their flow graphs agree in all but the labels and the expressions of the sites, and every
question about the binding has one answer (`Session.noninterference`).
-/

namespace LastUse

/-! ## What a mask keeps of a flow graph -/

/-- A site without its label and its expressions. -/
def Site.outline (s : Site) : Site := { s with label := "", exprs := [] }

/-- A site accesses the name as it does behind the mask. -/
theorem Site.access_masked (x : Value) (s : Site) : (s.masked x).access x = s.access x := by
  have htouches : (s.masked x).exprs.map (Expr.touch x) = s.exprs.map (Expr.touch x) := by
    simp only [Site.masked, List.map_map, Function.comp_def, Expr.touch_masked]
  simp only [access, htouches]
  rfl

namespace FlowGraph

variable {x : Value} {b : Binding}

/-- Behind the mask the sites differ in their labels and expressions alone. -/
theorem outlines_masked (g : FlowGraph) :
    (g.masked x).sites.map Site.outline = g.sites.map Site.outline := by
  simp only [masked, List.map_map]
  rfl

/-- A mask touches the binding at the same sites. -/
theorem scan_masked (g : FlowGraph) (b : Binding) : (g.masked b.name).scan b = g.scan b := by
  simp only [scan, masked, List.map_map, Function.comp_def, Site.access_masked]

/-- The mask does not change where a binding is poisoned. -/
theorem escape_masked (g : FlowGraph) (s : Scan) (resets : List Nat) :
    (g.masked x).escape s resets = g.escape s resets := by
  simp only [escape, masked, List.map_map]
  rfl

/-- The mask does not change what a sweep goes by. -/
theorem ground_masked (g : FlowGraph) (s : Scan) (repeated : List Nat) :
    (g.masked x).ground s repeated = g.ground s repeated := by
  simp only [ground, masked, List.getElem?_map, Option.map_map]
  rfl

/-- The mask does not change the verdict. -/
theorem verdict_masked (g : FlowGraph) (s : Scan) (repeated : List Nat) :
    (g.masked x).verdict s repeated = g.verdict s repeated := by
  simp only [verdict, ground_masked]
  rfl

/-- The mask does not change which sites jumps can run again. -/
theorem repeated_masked (g : FlowGraph) (precise : Bool) :
    (g.masked x).repeated precise = g.repeated precise := by
  simp only [repeated, masked, List.length_map]
  rfl

/-- Flow graphs that agree in all but the labels and the expressions of their sites, and in which a
binding is touched, poisoned and last accessed at the same sites. -/
structure AgreeOn (b : Binding) (g g' : FlowGraph) : Prop where
  sites : g.sites.map Site.outline = g'.sites.map Site.outline
  edges : g.edges = g'.edges
  labels : g.labels = g'.labels
  jumps : g.jumps = g'.jumps
  region : g.region = g'.region
  owned : g.owned = g'.owned
  scan : g.scan b = g'.scan b
  escape : ∀ resets, g.escape (g.scan b) resets = g'.escape (g'.scan b) resets
  repeated : ∀ precise, g.repeated precise = g'.repeated precise
  verdict : ∀ repeated, g.verdict (g.scan b) repeated = g'.verdict (g'.scan b) repeated

/-- Flow graphs with one mask for the name of a binding agree on the binding. -/
theorem AgreeOn.of_masked {g g' : FlowGraph} (h : g.masked b.name = g'.masked b.name) :
    AgreeOn b g g' := by
  have hscan : g.scan b = g'.scan b := by rw [← scan_masked, h, scan_masked]
  exact {
    sites := by rw [← outlines_masked, h, outlines_masked]
    edges := (congrArg FlowGraph.edges h :)
    labels := (congrArg FlowGraph.labels h :)
    jumps := (congrArg FlowGraph.jumps h :)
    region := (congrArg FlowGraph.region h :)
    owned := (congrArg FlowGraph.owned h :)
    scan := hscan
    escape resets := by rw [hscan, ← escape_masked, h, escape_masked]
    repeated precise := by rw [← repeated_masked, h, repeated_masked]
    verdict repeated := by rw [hscan, ← verdict_masked, h, verdict_masked] }

/-! ## Trees with one mask -/

/-- The flow graph of the mask of a tree is the mask of the flow graph of the tree. -/
theorem ofTree_masked {tree : Value} (ht : tree.wellTyped = true) (exitEdges : Except Fault Bool) :
    viewed (masked x) (ofTree exitEdges tree) =
      viewed (masked x) (ofTree exitEdges (Value.masked x tree)) := by
  by_cases hf : tree.isOf [.function] = true
  · obtain ⟨name, params, fields, rfl, -, -, hb⟩ := Value.exists_body ht hf
    have hbody :=
      ofBody_masked (x := x) (Stmt.proper_ofValue hb (Path.root.field "body")) exitEdges
    rw [Stmt.masked_ofValue hb] at hbody
    exact hbody
  · cases tree with
    | scalar | list => rfl
    | node k fields =>
      cases k
      case function => exact absurd rfl hf
      all_goals rfl

end FlowGraph

/-! ## Sessions -/

namespace Session

variable {b : Binding} {s s' : Session}

/-- An analysis depends on what the flow graphs agree on. -/
theorem analysisWith_eq (hg : s.graph.AgreeOn b s'.graph) (hs : s.settings = s'.settings)
    (repeated : List Nat) : s.analysisWith repeated b = s'.analysisWith repeated b := by
  simp only [analysisWith, hs, hg.escape, hg.verdict]
  rw [hg.scan]

/-- The sites that jumps can run again are the same. -/
theorem repeated_eq (hg : s.graph.AgreeOn b s'.graph) (hs : s.settings = s'.settings) :
    s.repeated = s'.repeated := by
  rw [repeated, repeated, hg.repeated, hs]

/-- The binding has the same analysis and the same notes. -/
theorem analysisOf_congr (hg : s.graph.AgreeOn b s'.graph) (hs : s.settings = s'.settings) :
    s.analysisOf b = s'.analysisOf b := by
  rw [analysisOf, analysisOf, repeated_eq hg hs, analysisWith_eq hg hs]

/-- The query for its analysis is the same. -/
theorem analysis_congr (hg : s.graph.AgreeOn b s'.graph) (hs : s.settings = s'.settings) :
    s.analysis b = s'.analysis b := by
  simp only [analysis, repeated_eq hg hs, analysisWith_eq hg hs]

/-- The binding may be moved at the same sites. -/
theorem plainSites_congr (hg : s.graph.AgreeOn b s'.graph) (hs : s.settings = s'.settings) :
    s.plainSites b = s'.plainSites b := by
  rw [plainSites, freshly, analysisOf_congr hg hs, plainSites, freshly]

/-- Whatever was asked before, a session says where a binding may be moved as it does without a
memory. -/
theorem answer_movableSites (s : Session) (asked : List Question) (b : Binding) :
    s.answer (s.memoryAfter asked) (.movableSites b) = (s.plainSites b).map .sites := by
  obtain ⟨m, hrun, -⟩ := s.answers_ask (.movableSites b) _ _ (s.remembers_memoryAfter asked)
  rw [answer, hrun, plainly]
  cases s.plainSites b <;> rfl

end Session

/-- Two well-typed trees with one mask for the name of a binding are accepted or refused together.
If they are accepted, their flow graphs agree in all but the labels and the expressions of the
sites, and the binding is accessed, poisoned and last accessed at the same sites. So a question
about the binding is one query to both, and where the binding may be moved is the same whatever
else the two sessions were asked before. -/
theorem Session.noninterference {b : Binding} {tree tree' : Value} (ht : tree.wellTyped = true)
    (ht' : tree'.wellTyped = true) (hm : Value.masked b.name tree = Value.masked b.name tree') :
    (∀ exitEdges, (FlowGraph.ofTree exitEdges tree).isOk =
      (FlowGraph.ofTree exitEdges tree').isOk ∧
      ∀ g g', FlowGraph.ofTree exitEdges tree = .ok g → FlowGraph.ofTree exitEdges tree' = .ok g' →
        g.AgreeOn b g') ∧
      ∀ settings s s', Session.ofTree settings tree = .ok s →
        Session.ofTree settings tree' = .ok s' → s.analysisOf b = s'.analysisOf b ∧
        (∀ q ∈ [.analyze b, .scan b, .escape b, .movableSites b], s.ask q = s'.ask q) ∧
        ∀ asked asked', s.answer (s.memoryAfter asked) (.movableSites b) =
          s'.answer (s'.memoryAfter asked') (.movableSites b) := by
  -- Each tree is compared with the mask that they have in common, never with the other tree.
  have hview (exitEdges : Except Fault Bool) :
      viewed (FlowGraph.masked b.name) (FlowGraph.ofTree exitEdges tree) =
      viewed (FlowGraph.masked b.name) (FlowGraph.ofTree exitEdges tree') := by
    rw [FlowGraph.ofTree_masked ht, hm, ← FlowGraph.ofTree_masked ht']
  have hagree {exitEdges : Except Fault Bool} {g g' : FlowGraph}
      (hg : FlowGraph.ofTree exitEdges tree = .ok g)
      (hg' : FlowGraph.ofTree exitEdges tree' = .ok g') : g.AgreeOn b g' :=
    .of_masked (eq_of_viewed (hview exitEdges) hg hg')
  refine ⟨fun exitEdges => ⟨isOk_of_viewed (hview exitEdges), fun g g' => hagree⟩,
    fun settings s s' hs hs' => ?_⟩
  have hsettings : s.settings = s'.settings :=
    Except.ok.inj ((settings_eq hs).symm.trans (settings_eq hs'))
  have hgraphs : s.graph.AgreeOn b s'.graph := by
    have hg := graph_eq hs
    rw [hsettings] at hg
    exact hagree hg (graph_eq hs')
  refine ⟨analysisOf_congr hgraphs hsettings, fun q hq => ?_, fun asked asked' => ?_⟩
  · simp only [List.mem_cons, List.not_mem_nil, or_false] at hq
    rcases hq with rfl | rfl | rfl | rfl <;>
      simp only [ask, movableSites, analysis_congr hgraphs hsettings]
  · rw [answer_movableSites, plainSites_congr hgraphs hsettings, answer_movableSites]

namespace Sample

/-- A function that takes the address of a member of `x`, with names, a literal and an operator to
choose. -/
def veiled (title param other func field op : String) (literal : Scalar) : Value :=
  .node .function [.str title, .list [.str param], .node .block [.list [
    .node .decl [.str other, .node .literal [.scalar literal]],
    .node .labeled [.str "again", use "x"],
    .node .ifElse [.node .logicalAnd [name "x", name other], .node .goto [.str "again"], .null],
    ifElse other (.node .ret [.node .binary [.str op, name "x", name other]]) .null,
    pass func (.node .addressOf [.node .member [name "x", .str field]])]]]

/-- The function with some choices. -/
def plus : Value := veiled "f" "x" "y" "keep" "left" "+" (.int 1)

/-- The function with other choices. -/
def times : Value := veiled "g" "p" "z" "send" "right" "*" (.str "one")

/-- Nothing but the occurrences of `x` is the same in both functions. The `return` is a last access
of `x` in both, and so is the last statement, where `x` is poisoned. -/
theorem agreeOn_veiled :
    plus.wellTyped = true ∧ times.wellTyped = true ∧ plus ≠ times ∧
      Value.masked x.name plus = Value.masked x.name times ∧
      FlowGraph.ofTree (.ok true) plus = .ok (graph plus) ∧
      FlowGraph.ofTree (.ok true) times = .ok (graph times) ∧
      ((graph plus).scan x).accessing = [2, 4, 8, 9] ∧
      ((graph plus).verdict ((graph plus).scan x) []).frozen = [8] ∧
      ((graph plus).verdict ((graph plus).scan x) []).final = some 9 ∧
      ((graph plus).escape ((graph plus).scan x) []).poisoned = [9] ∧
        (graph plus).AgreeOn x (graph times) ∧
      Session.ofTree .null plus = .ok (session plus) ∧
        Session.ofTree .null times = .ok (session times) ∧
      (session plus).answer ((session plus).memoryAfter []) (.movableSites x) =
        (session times).answer ((session times).memoryAfter [.report none]) (.movableSites x) := by
  have ht : plus.wellTyped = true := by decide +kernel
  have ht' : times.wellTyped = true := by decide +kernel
  have hm : Value.masked x.name plus = Value.masked x.name times := by rfl
  have hg : FlowGraph.ofTree (.ok true) plus = .ok (graph plus) := ofTree_eq (by decide +kernel)
  have hg' : FlowGraph.ofTree (.ok true) times = .ok (graph times) := ofTree_eq (by decide +kernel)
  have hs : Session.ofTree .null plus = .ok (session plus) := session_eq (by decide +kernel)
  have hs' : Session.ofTree .null times = .ok (session times) := session_eq (by decide +kernel)
  obtain ⟨hgraphs, hsessions⟩ := Session.noninterference ht ht' hm
  obtain ⟨-, -, hanswers⟩ := hsessions .null _ _ hs hs'
  exact ⟨ht, ht', by simp [plus, times, veiled], hm, hg, hg', by decide +kernel, by decide +kernel,
    by decide +kernel, by decide +kernel, (hgraphs _).2 _ _ hg hg', hs, hs',
    hanswers [] [.report none]⟩

end Sample

end LastUse
