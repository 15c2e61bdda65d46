import LastUse.Proofs.Final
import LastUse.Proofs.Memory

/-!
# Moves behind an address that is taken

Poisoning goes by the order of the sites: between a site that takes the address of a binding and
one behind it that is not poisoned stands a site that resets the binding (`Escape.exists_reset`).
Control may pass by that site, and it may come back to a `return` that stands before the address is
taken; apart from this, a binding is reset on every path from where its address is taken to where
it may be moved (`Session.reset_before_move`).
-/

namespace LastUse

open Relation (TransGen)

/-! ## Poisoning in the order of the sites -/

namespace Escape

variable {takes resets : Nat → Bool} {outstanding : Bool} {sites : List Nat} {o p : Nat}

/-- One step of the sweep: a site is recorded with the truth value that it sets, and the sites
behind it are swept with the truth value that it leaves. -/
theorem mem_poisoned_cons {x : Nat} : o ∈ (trace takes resets outstanding (x :: sites)).poisoned ↔
    (o = x ∧ (outstanding || takes x) = true) ∨
      o ∈ (trace takes resets ((outstanding || takes x) && !resets x) sites).poisoned := by
  rw [trace]
  dsimp only
  split
  · next h => simp [h]
  · next h => simp [h]

/-- A site that is not poisoned though an address was outstanding stands behind a reset. -/
theorem exists_reset_of_outstanding (hs : sites.Pairwise (· < ·)) (ho : o ∈ sites)
    (hn : o ∉ (trace takes resets true sites).poisoned) :
    ∃ r ∈ sites, r < o ∧ resets r = true := by
  induction sites with
  | nil => simp at ho
  | cons x rest ih =>
    obtain ⟨hx, hs⟩ := List.pairwise_cons.1 hs
    simp only [mem_poisoned_cons, Bool.true_or, and_true, not_or, Bool.true_and] at hn
    have ho : o ∈ rest := (List.mem_cons.1 ho).resolve_left hn.1
    cases hr : resets x with
    | true => exact ⟨x, List.mem_cons_self, hx o ho, hr⟩
    | false =>
      obtain ⟨r, hm, hro, hreset⟩ := ih hs ho (by simpa [hr] using hn.2)
      exact ⟨r, List.mem_cons_of_mem _ hm, hro, hreset⟩

/-- Between a site that takes the address and one behind it that is not poisoned stands a reset. -/
theorem exists_reset (hs : sites.Pairwise (· < ·)) (hp : p ∈ sites) (ho : o ∈ sites) (hpo : p ≤ o)
    (ht : takes p = true) (hn : o ∉ (trace takes resets outstanding sites).poisoned) :
    ∃ r ∈ sites, p ≤ r ∧ r < o ∧ resets r = true := by
  induction sites generalizing outstanding with
  | nil => simp at ho
  | cons x rest ih =>
    obtain ⟨hx, hrest⟩ := List.pairwise_cons.1 hs
    rcases List.mem_cons.1 hp with rfl | hp
    · simp only [mem_poisoned_cons, ht, Bool.or_true, and_true, not_or, Bool.true_and] at hn
      have ho : o ∈ rest := (List.mem_cons.1 ho).resolve_left hn.1
      cases hr : resets p with
      | true => exact ⟨p, List.mem_cons_self, Nat.le_refl p, hx o ho, hr⟩
      | false =>
        obtain ⟨r, hm, hro, hreset⟩ :=
          exists_reset_of_outstanding hrest ho (by simpa [hr] using hn.2)
        exact ⟨r, List.mem_cons_of_mem _ hm, Nat.le_of_lt (hx r hm), hro, hreset⟩
    · have ho : o ∈ rest := by
        refine (List.mem_cons.1 ho).resolve_left fun hox => ?_
        have := hx p hp
        omega
      obtain ⟨r, hm, h⟩ := ih hrest hp ho fun hm => hn (mem_poisoned_cons.2 (.inr hm))
      exact ⟨r, List.mem_cons_of_mem _ hm, h⟩

end Escape

namespace FlowGraph

variable {g : FlowGraph} {b : Binding} {o p : Nat}

/-- Between a site that takes the address of a binding and one behind it that is not poisoned
stands a site that moves the binding. -/
theorem Laid.exists_reset (h : g.Laid) (hp : g.TakesAddress b p) (ho : g.Accesses b o)
    (hpo : p ≤ o) (hn : (g.escape (g.scan b) []).poisonedAt o = false) :
    ∃ r, g.Resets b r ∧ p ≤ r ∧ r < o := by
  have hmem : ∀ {q : Expr → Bool} {o}, g.Evaluates q o → o ∈ g.sites.map (·.ordinal) :=
    fun he => h.mem_ordinals.2 (h.lt_of_evaluates he)
  obtain ⟨r, -, hpr, hro, hr⟩ := Escape.exists_reset h.pairwise_ordinals (hmem hp) (hmem ho) hpo
    (h.scan_addressOf.2 hp) (by simpa [Escape.poisonedAt, escape] using hn)
  exact ⟨r, h.scan_resets.1 (by simpa using hr), hpr, hro⟩

/-! ## Paths that pass by a reset -/

/-- The sites that a path visits. -/
def sitesOf (vs : List Vertex) : List Nat := vs.filterMap Vertex.ordinal?

/-- The sites of a path are the vertices of it that are sites. -/
theorem mem_sitesOf {vs : List Vertex} {r : Nat} : r ∈ sitesOf vs ↔ .site r ∈ vs := by
  simp only [sitesOf, List.mem_filterMap]
  constructor
  · rintro ⟨v, hv, hr⟩
    cases v with
    | start | exit => cases hr
    | site o =>
      cases hr
      exact hv
  · exact fun h => ⟨_, h, rfl⟩

/-- A path passes by a site: it steps from before it to behind it. -/
def PassesBy (vs : List Vertex) (r : Nat) : Prop :=
  ∃ u v, [.site u, .site v] <:+: vs ∧ u < r ∧ r < v

/-- A path from before a site to behind it visits the site on its way or passes by it. -/
theorem Laid.visits_or_passesBy (h : g.Laid) {a r : Nat} {vs : List Vertex}
    (hc : g.IsPath (.site a :: vs)) (hlast : (Vertex.site a :: vs).getLast? = some (.site o))
    (har : a < r) (hro : r < o) :
    r ∈ sitesOf (Vertex.site a :: vs).dropLast ∨ PassesBy (.site a :: vs) r := by
  rw [mem_sitesOf]
  induction vs generalizing a with
  | nil =>
    simp only [List.getLast?_singleton, Option.some.injEq, Vertex.site.injEq] at hlast
    omega
  | cons v rest ih =>
    obtain ⟨hl, hc⟩ := List.isChain_cons_cons.1 hc
    rw [List.getLast?_cons_cons] at hlast
    cases v with
    | start => exact absurd hl h.not_leads_start
    | exit =>
      -- Nothing follows the exit, so it would be the last vertex.
      cases rest with
      | nil => simp at hlast
      | cons w rest => exact absurd (List.isChain_cons_cons.1 hc).1 h.not_leads_exit
    | site c =>
      rcases Nat.lt_trichotomy c r with hcr | rfl | hrc
      · refine (ih hc hlast hcr).imp (fun hv => ?_) ?_
        · rw [List.dropLast_cons_cons]
          exact List.mem_cons_of_mem _ hv
        · rintro ⟨u, w, hin, huw⟩
          exact ⟨u, w, hin.trans (List.suffix_cons _ _).isInfix, huw⟩
      · cases rest with
        | nil =>
          simp only [List.getLast?_singleton, Option.some.injEq, Vertex.site.injEq] at hlast
          omega
        | cons w rest => exact .inl (by simp)
      · exact .inr ⟨a, c, ⟨[], rest, rfl⟩, har, hrc⟩

end FlowGraph

/-! ## Where a binding may be moved -/

namespace Session

variable {settings : Json} {tree : Value} {s : Session} {b : Binding}
  {sites : List Nat} {o p : Nat}

/-- What a session is made of. -/
theorem parts_of_ofTree (h : ofTree settings tree = .ok s) : s.tree = tree ∧
    Settings.ofJson settings = .ok s.settings ∧
      FlowGraph.ofTree (.ok s.settings.exitEdges) tree = .ok s.graph := by
  obtain ⟨settings, hread, h⟩ := ok_of_bind h
  obtain ⟨graph, hg, h⟩ := ok_of_bind h
  cases h
  exact ⟨rfl, hread, hg⟩

/-- A session is about the tree it was made for. -/
theorem tree_eq (h : ofTree settings tree = .ok s) : s.tree = tree := (parts_of_ofTree h).1

/-- A session has the settings that the document gives. -/
theorem settings_eq (h : ofTree settings tree = .ok s) :
    Settings.ofJson settings = .ok s.settings :=
  (parts_of_ofTree h).2.1

/-- A session has the flow graph of its tree. -/
theorem graph_eq (h : ofTree settings tree = .ok s) :
    FlowGraph.ofTree (.ok s.settings.exitEdges) tree = .ok s.graph := (parts_of_ofTree h).2.2

/-- The flow graph of a session is one that was built from its tree. -/
theorem graph_of_ofTree (h : ofTree settings tree = .ok s) :
    ∃ exitEdges, FlowGraph.ofTree exitEdges tree = .ok s.graph := ⟨_, graph_eq h⟩

/-- The analysis of a binding that nothing but moves resets. -/
theorem analysisOf_eq (hr : s.settings.extraResets b.name = .ok []) :
    ∃ notes, s.analysisOf b = .ok (⟨s.graph.scan b, s.graph.escape (s.graph.scan b) [],
      s.graph.verdict (s.graph.scan b) s.repeated⟩, notes) := by
  rw [analysisOf, analysisWith, hr]
  exact ⟨_, rfl⟩

/-- What the first query for the sites where a binding may be moved answers. -/
theorem movableSites_eq (hk : b.name.isKey = true) (hr : s.settings.extraResets b.name = .ok []) :
    ((s.movableSites b).run.run Memory.empty).1 =
      .ok ((s.graph.verdict (s.graph.scan b) s.repeated).sites.filter fun o =>
        !(s.graph.escape (s.graph.scan b) []).poisonedAt o) := by
  obtain ⟨notes, ha⟩ := analysisOf_eq hr
  obtain ⟨_, hrun, -⟩ := Answers.movableSites s b [] .empty .empty
  rw [hrun, plainSites, freshly, if_pos hk, ha]
  rfl

/-- The sites where a binding may be moved are those of its verdict that are not poisoned. -/
theorem mem_movableSites (hr : s.settings.extraResets b.name = .ok [])
    (hm : ((s.movableSites b).run.run Memory.empty).1 = .ok sites) (ho : o ∈ sites) :
    o ∈ (s.graph.verdict (s.graph.scan b) s.repeated).sites ∧
      (s.graph.escape (s.graph.scan b) []).poisonedAt o = false := by
  cases hk : b.name.isKey with
  | false => simp [movableSites, analysis, hk] at hm
  | true =>
    rw [movableSites_eq hk hr] at hm
    cases hm
    simpa using ho

/-- On a path from where the address of a binding is taken to where the binding may be moved, the
binding is reset, or the path passes by a site that resets it, unless it goes back to a `return`
before the address is taken.

Where the address is taken before the move in the order of the sites, this rests on that order
alone: a site that resets the binding stands between the two (`FlowGraph.Laid.exists_reset`), and
every path from the one to the other visits it or passes by it
(`FlowGraph.Laid.visits_or_passesBy`). So in that order the second case says no more of the path
than that it leads over such a site, which it need not visit. -/
theorem reset_before_move (h : ofTree settings tree = .ok s) (hb : b.name ≠ .null)
    (hr : s.settings.extraResets b.name = .ok [])
    (hm : ((s.movableSites b).run.run Memory.empty).1 = .ok sites) (ho : o ∈ sites)
    {before behind : List Vertex}
    (hpath : s.graph.IsPath (.start :: (before ++ .site p :: behind)))
    (hlast : (Vertex.site p :: behind).getLast? = some (.site o)) (hp : s.graph.TakesAddress b p) :
    (∃ r ∈ FlowGraph.sitesOf (Vertex.site p :: behind).dropLast, s.graph.Resets b r) ∨
      (∃ r, s.graph.Resets b r ∧ p < r ∧ r < o ∧ FlowGraph.PassesBy (.site p :: behind) r) ∨
      (s.graph.marks.inReturn o = true ∧ o < p) := by
  obtain ⟨exitEdges, hg⟩ := graph_of_ofTree h
  have hl := FlowGraph.laid_of_ofTree hg
  obtain ⟨hsite, hclean⟩ := mem_movableSites hr hm ho
  have hwalk : s.graph.IsPath (.site p :: behind) :=
    hpath.suffix ((List.suffix_append _ _).trans (List.suffix_cons _ _))
  by_cases hpo : p ≤ o
  · obtain ⟨r, hreset, hpr, hro⟩ := hl.exists_reset hp (hl.lasts_of_mem_sites hsite).1 hpo hclean
    rcases Nat.eq_or_lt_of_le hpr with rfl | hpr
    · refine .inl ⟨p, FlowGraph.mem_sitesOf.2 ?_, hreset⟩
      cases behind with
      | nil =>
        simp only [List.getLast?_singleton, Option.some.injEq, Vertex.site.injEq] at hlast
        omega
      | cons v rest => simp
    · rcases hl.visits_or_passesBy hwalk hlast hpr hro with hv | hv
      · exact .inl ⟨r, hv, hreset⟩
      · exact .inr (.inl ⟨r, hreset, hpr, hro, hv⟩)
  · have hop : o < p := Nat.lt_of_not_le hpo
    refine .inr (.inr ⟨?_, hop⟩)
    rcases Verdict.mem_sites.1 hsite with hfinal | hfrozen
    · -- The final access is the last one outside of a `return`, and a `return` does not lead back
      -- to it.
      have hf := (FlowGraph.final_eq_some_iff_isFinal hg).1 hfinal
      have hplain : s.graph.marks.inReturn p = false := by
        rw [← Bool.not_eq_true]
        intro hret
        have hreach := List.relationReflTransGen_of_exists_isChain_cons behind hwalk
          (List.getLast_eq_iff_getLast?_eq_some (List.cons_ne_nil _ _) |>.2 hlast)
        rcases Relation.reflTransGen_iff_eq_or_transGen.1 hreach with heq | hreach
        · cases heq
          exact Nat.lt_irrefl _ hop
        · rcases hl.ahead_of_inReturn hret hreach with he | ⟨t, ht, hpt, -⟩
          · cases he
          · cases ht
            exact Nat.lt_asymm hop hpt
      have := hf.greatest p (hp.accesses hb) hplain
      omega
    · exact FlowGraph.inReturn_of_frozen hg hfrozen

/-- On every path to a site where a binding may be moved, the binding is reset behind the last
point at which its address is taken. This does not hold of every function. -/
def ResetsBeforeMoves (s : Session) (b : Binding) : Prop :=
  ∀ sites, ((s.movableSites b).run.run Memory.empty).1 = .ok sites → ∀ o ∈ sites,
    ∀ before p behind, s.graph.IsPath (.start :: (before ++ .site p :: behind)) →
      (Vertex.site p :: behind).getLast? = some (.site o) → s.graph.TakesAddress b p →
      (∀ q ∈ FlowGraph.sitesOf behind, ¬ s.graph.TakesAddress b q) →
      ∃ r ∈ FlowGraph.sitesOf (Vertex.site p :: behind).dropLast, s.graph.Resets b r

end Session

namespace Sample

/-- The address of the parameter is taken, and the parameter is moved only in a branch. -/
def movesInBranch : Value :=
  function [.node .exprStmt [.node .assign [name "p", .node .addressOf [name "x"], .str "="]],
    ifElse "c" (.node .exprStmt [.node .move [name "x"]]) .null, use "x"]

/-- The address of the parameter is taken in a loop, behind a `return` of the parameter. -/
def returnsInLoop : Value :=
  function [whileLoop "c" [ifElse "d" (ret "x") .null,
    .node .exprStmt [.node .assign [name "p", .node .addressOf [name "x"], .str "="]]]]

/-- A session about a function, with the settings as they are by default. -/
def session (tree : Value) : Session := (Session.ofTree .null tree).toOption.getD default

/-- Where the session can be made, `session` is it. -/
theorem session_eq {tree : Value} (h : (Session.ofTree .null tree).isOk = true) :
    Session.ofTree .null tree = .ok (session tree) := by
  rw [session]
  cases hs : Session.ofTree .null tree with
  | ok s => rfl
  | error f =>
    rw [hs] at h
    cases h

/-- The sites where the parameter of a sample function may be moved. -/
theorem mem_movable {tree : Value} {o : Nat}
    (h : (session tree).settings.extraResets x.name = .ok [])
    (hv : ((session tree).graph.verdict ((session tree).graph.scan x)
      (session tree).repeated).final
        = some o ∨
      o ∈ ((session tree).graph.verdict ((session tree).graph.scan x)
        (session tree).repeated).frozen)
    (hc : ((session tree).graph.escape ((session tree).graph.scan x) []).poisonedAt o = false) :
    ∃ sites, (((session tree).movableSites x).run.run Memory.empty).1 = .ok sites ∧ o ∈ sites := by
  refine ⟨_, Session.movableSites_eq rfl h, List.mem_filter.2 ⟨Verdict.mem_sites.2 hv, ?_⟩⟩
  rw [hc]
  rfl

/-- A path may pass by the move of a binding, and it may come back to a `return`. -/
theorem not_resetsBeforeMoves :
    (Session.ofTree .null movesInBranch = .ok (session movesInBranch) ∧
      (session movesInBranch).settings.extraResets x.name = .ok [] ∧
      ¬ (session movesInBranch).ResetsBeforeMoves x) ∧
    (Session.ofTree .null returnsInLoop = .ok (session returnsInLoop) ∧
      (session returnsInLoop).settings.extraResets x.name = .ok [] ∧
      ¬ (session returnsInLoop).ResetsBeforeMoves x) := by
  refine ⟨⟨session_eq (by decide +kernel), rfl, fun h => ?_⟩,
    ⟨session_eq (by decide +kernel), rfl, fun h => ?_⟩⟩
  · obtain ⟨sites, hs, ho⟩ : ∃ sites, (((session movesInBranch).movableSites x).run.run
        Memory.empty).1 = .ok sites ∧ 3 ∈ sites :=
      mem_movable rfl (by decide +kernel) (by decide +kernel)
    refine absurd (h sites hs 3 ho [] 0 [.site 1, .site 3] ?_ rfl ?_ ?_) ?_ <;> decide +kernel
  · obtain ⟨sites, hs, ho⟩ : ∃ sites, (((session returnsInLoop).movableSites x).run.run
        Memory.empty).1 = .ok sites ∧ 2 ∈ sites :=
      mem_movable rfl (by decide +kernel) (by decide +kernel)
    refine absurd (h sites hs 2 ho [.site 0, .site 1] 3 [.site 0, .site 1, .site 2] ?_ rfl ?_ ?_)
      ?_ <;> decide +kernel

/-- On the path that does not take the branch, the move is passed by. -/
theorem passesBy_move_in_branch :
    Session.ofTree .null movesInBranch = .ok (session movesInBranch) ∧
    ∃ sites, (((session movesInBranch).movableSites x).run.run Memory.empty).1 = .ok sites ∧
      3 ∈ sites ∧
      ((∃ r ∈ FlowGraph.sitesOf [.site 0, .site 1], (session movesInBranch).graph.Resets x r) ∨
        (∃ r, (session movesInBranch).graph.Resets x r ∧ 0 < r ∧ r < 3 ∧
          FlowGraph.PassesBy [.site 0, .site 1, .site 3] r) ∨
        ((session movesInBranch).graph.marks.inReturn 3 = true ∧ 3 < 0)) := by
  have h : Session.ofTree .null movesInBranch = .ok (session movesInBranch) :=
    session_eq (by decide +kernel)
  obtain ⟨sites, hs, ho⟩ : ∃ sites, (((session movesInBranch).movableSites x).run.run
      Memory.empty).1 = .ok sites ∧ 3 ∈ sites :=
        mem_movable rfl (by decide +kernel) (by decide +kernel)
  have hpath : (session movesInBranch).graph.IsPath
      (.start :: ([] ++ .site 0 :: [.site 1, .site 3])) := by decide +kernel
  have hp : (session movesInBranch).graph.TakesAddress x 0 := by decide +kernel
  exact ⟨h, sites, hs, ho, Session.reset_before_move h (by simp [x]) rfl hs ho hpath rfl hp⟩

end Sample

end LastUse
