import LastUse.Proofs.Fences
import LastUse.Proofs.Run.Progress

/-!
# The sweep without jumps

A function without a `goto` needs no check of the paths: control gets from the candidate that a
sweep over the whole function ends with to no other access
(`FlowGraph.no_access_behind_candidate`). An access before it would be on a cycle with it, and the
others stand in other arms of branches, into which control does not get from it
(`FlowGraph.not_apart_of_path`).
-/

namespace LastUse

open Relation (TransGen)

/-! ## Statements without jumps -/

mutual

/-- The labels that the `goto` statements of a statement name, in order. -/
def Stmt.gotos : Stmt → List String
  | .goto _ label => [label]
  | .block _ body | .caseArm _ _ body => gotosAll body
  | .switch _ _ arms => gotosAll arms
  | .ifElse _ _ thenArm elseArm => thenArm.gotos ++ elseArm.gotos
  | .whileLoop _ _ body | .doWhile _ body _ | .foreach _ _ _ body | .labeled _ _ body => body.gotos
  | .forLoop _ before _ _ _ body => before.gotos ++ body.gotos
  | .absent | .stray _ | .unlisted | .misnamed _ | .exprStmt .. | .decl .. | .ret .. | .brk _
  | .cont _ => []

/-- The labels that the `goto` statements of several statements name, in order. -/
def Stmt.gotosAll : List Stmt → List String
  | [] => []
  | s :: rest => s.gotos ++ gotosAll rest

end

namespace Stmt

/-- The jumps that the flow through a statement drafts are those of its `goto` statements. -/
theorem gotos_flow : FlowInvariant (fun _ s _ _ r => r.draft.gotos.map (·.2) = s.gotos)
    (fun _ ss _ _ r => r.draft.gotos.map (·.2) = gotosAll ss)
    (fun _ arms _ _ _ r => r.draft.gotos.map (·.2) = gotosAll arms) where
  absent := rfl
  block h := h
  exprStmt hh := by simp [(Head.Laid.optional hh).hosted.gotos, gotos]
  decl hh := by simp [(Head.Laid.optional hh).hosted.gotos, gotos]
  ifElse hh hy hn := by
    simp [(Head.Laid.evaluating hh).hosted.gotos, Draft.asBranch, hy, hn, gotos]
  whileLoop hh hb := by simp [gotos_closeLoop, (Head.Laid.loop hh).hosted.gotos, hb, gotos]
  forLoop hf hi _ hh hb hs := by
    simp [gotos_closeLoop, (Passage.Evaluates.init hi).hosted.gotos,
      (Head.Laid.loop hh).hosted.gotos, (Passage.Evaluates.step hs).hosted.gotos, hf, hb, gotos]
  foreach hh hb := by simp [gotos_closeLoop, (Head.Laid.evaluating hh).hosted.gotos, hb, gotos]
  doWhile hb hh := by
    simp [closeDoWhile, Draft.asLoop, Draft.withoutBreaks, Draft.withoutContinues, Draft.ofEdges,
      (Head.Laid.loop hh).hosted.gotos, hb, gotos]
  switch hh ha := by
    simp [closeSwitch, Draft.asBranch, Draft.withoutBreaks, (Head.Laid.evaluating hh).hosted.gotos,
      ha, gotos]
  labeled _ hb := by simp [labelDraft, Draft.ofSite, hb, gotos]
  goto := rfl
  ret hh _ := by simp [closeReturn, (Head.Laid.optional hh).hosted.gotos, gotos]
  brk _ := rfl
  cont _ := rfl
  nil := rfl
  cons hf hl := by simp [hf, hl, gotosAll]
  noArms := rfl
  arm hf hl := by simp [Arms.cons, hf, hl, gotosAll, gotos]

end Stmt

namespace FlowGraph

variable {exitEdges : Except Fault Bool} {tree : Value} {g : FlowGraph} {m k : Nat}

/-- A function without a `goto` has no jumps. -/
theorem jumps_eq_nil (h : ofTree exitEdges tree = .ok g) (hgotos : (bodyOf tree).gotos = []) :
    g.jumps = [] := by
  obtain ⟨whole, hg⟩ := exists_drafted (ofBody_of_ofTree h)
  have hnone : whole.draft.gotos = [] := by
    rw [← List.map_eq_nil_iff, Stmt.gotos_flow.flow hg.flow, hgotos]
  rw [List.eq_nil_iff_forall_not_mem]
  intro j hj
  have hmem := (mem_of_jumpsOf hg.jumps hj).1
  rw [hnone] at hmem
  cases hmem

/-! ## Where control gets to without jumps -/

/-- Without jumps, control only gets ahead from a site outside of loops. -/
theorem Laid.lt_of_leads (h : g.Laid) (hj : g.jumps = []) (hl : g.marks.inLoop m = false)
    (hp : TransGen g.Leads (.site m) (.site k)) : m < k := by
  by_contra hkm
  obtain ⟨a, b, -, hab, hbm, hma⟩ := h.exists_back_over hp (Nat.le_of_not_lt hkm)
  rcases h.inLoop_or_jump hab hbm hma with hin | ⟨j, hmem, -⟩
  · rw [hl] at hin
    cases hin
  · rw [hj] at hmem
    cases hmem

/-- Without jumps, no edge from a site that is not before `m` and not apart from it enters another
arm of a branch. -/
theorem not_apart_of_leads (h : ofTree exitEdges tree = .ok g) (hj : g.jumps = [])
    {arms : List (List Region)} (ha : arms ∈ branchesAll g.region) {a : Nat} (hma : m ≤ a)
    (hna : ¬ Apart arms m a) (hl : g.Leads (.site a) (.site k)) : ¬ Apart arms m k := by
  rintro ⟨before, arm, behind, rfl, hm, hk⟩
  obtain ⟨other, hother, hk⟩ := mem_armOrdinals.1 hk
  have harms : other ∈ before ++ arm :: behind := by
    rw [List.mem_append] at hother
    exact List.mem_append.2 (hother.imp_right (List.mem_cons_of_mem _))
  obtain ⟨e, he, hsrc, htgt⟩ := hl
  rcases fair_of_ofTree h he ha with hf | ⟨j, hmem, -⟩
  · rcases hf a k hsrc htgt other harms hk with hin | hbefore
    · exact hna ⟨before, arm, behind, rfl, hm, mem_armOrdinals.2 ⟨other, hother, hin⟩⟩
    · have hlt := hbefore m (mem_armOrdinals.2 ⟨arm, by simp, hm⟩)
      omega
  · rw [hj] at hmem
    cases hmem

/-- Without jumps, control does not get from a site outside of loops into another arm of a
branch. -/
theorem not_apart_of_path (h : ofTree exitEdges tree = .ok g) (hj : g.jumps = [])
    (hloop : g.marks.inLoop m = false) {arms : List (List Region)}
    (ha : arms ∈ branchesAll g.region)
    (hp : TransGen g.Leads (.site m) (.site k)) : ¬ Apart arms m k := by
  have hg := laid_of_ofTree h
  generalize hv : Vertex.site k = v at hp
  induction hp generalizing k with
  | single hl =>
    subst hv
    refine not_apart_of_leads h hj ha (Nat.le_refl m) ?_ hl
    intro hmm
    have hnodup : (armOrdinals arms).Nodup := by
      refine (sublist_of_branchesAll ha).nodup ?_
      rw [hg.region]
      exact List.nodup_range
    obtain ⟨arm, harm, hm⟩ := mem_armOrdinals.1 hmm.mem.1
    exact Apart.not_of_mem hnodup harm hm hm hmm
  | tail hp hl ih =>
    subst hv
    obtain ⟨a, rfl⟩ := hg.exists_ordinal hp hl
    exact not_apart_of_leads h hj ha (Nat.le_of_lt (hg.lt_of_leads hj hloop hp)) (ih rfl) hl

/-! ## The candidate of a sweep -/

/-- In a function without a `goto`, control gets from the candidate that a sweep over the whole
function ends with to no other access, so it is the final site of the verdict. -/
theorem no_access_behind_candidate (h : ofTree exitEdges tree = .ok g)
    (hgotos : (bodyOf tree).gotos = []) (b : Binding) (repeated : List Nat) :
    (∀ m, (sweepAll (g.ground (g.scan b) repeated) g.region none).candidate = some m →
      ∀ o, g.Accesses b o → .site o ∉ g.descendants (.site m)) ∧
    (g.verdict (g.scan b) repeated).final =
      (sweepAll (g.ground (g.scan b) repeated) g.region none).candidate := by
  have hg := laid_of_ofTree h
  have hj := jumps_eq_nil h hgotos
  have hlast : ∀ m, (sweepAll (g.ground (g.scan b) repeated) g.region none).candidate = some m →
      ∀ o, g.Accesses b o → ¬ TransGen g.Leads (.site m) (.site o) := by
    intro m hc o ho hp
    have hf := (candidate_eq_some h).1 hc
    have hloop : g.marks.inLoop m = false := (ground_repeats.1 hf.once).2
    obtain ⟨arms, ha, hapart⟩ :=
      hf.behind o (hg.mem_region ho) (hg.scan_accesses.2 ho) (hg.lt_of_leads hj hloop hp)
    exact not_apart_of_path h hj hloop ha hp hapart
  constructor
  · intro m hc o ho hd
    exact hlast m hc o ho (mem_descendants.1 hd).2
  · refine Option.ext fun m => ?_
    rw [final_eq_some, hg.mem_lastAmong, Option.mem_toList]
    constructor
    · rintro ⟨hc, -⟩
      exact hc
    · intro hc
      exact ⟨hc, fun o ho _ => hlast m hc o ho⟩

end FlowGraph

namespace Sample

/-- A case of a switch. -/
def caseArm (values body : List Value) : Value := .node .caseArm [.list values, .list body]

/-- A loop and a switch of which one case falls through to the next unless it breaks, and another
returns and has a `return` that control does not get to. -/
def fallsThrough : Value :=
  function [whileLoop "c" [ifElse "d" (.node .brk []) .null, use "x", .node .cont []],
    .node .switch [name "c", .list [
      caseArm [name "one"] [use "y", ifElse "d" (.node .brk []) .null],
      caseArm [name "two"] [use "x", .node .brk []],
      caseArm [] [ret "x", ret "x"]]]]

/-- The candidate is the use in the second case, with accesses before it in the loop and behind it
in another arm. -/
theorem candidate_fallsThrough :
    FlowGraph.ofTree (.ok true) fallsThrough = .ok (graph fallsThrough) ∧
      (FlowGraph.bodyOf fallsThrough).gotos = [] ∧
      (sweepAll ((graph fallsThrough).ground ((graph fallsThrough).scan x) [])
        (graph fallsThrough).region none).candidate = some 9 ∧
      (∀ o, (graph fallsThrough).Accesses x o →
        .site o ∉ (graph fallsThrough).descendants (.site 9)) ∧
      ((graph fallsThrough).verdict ((graph fallsThrough).scan x) []).final = some 9 := by
  have h : FlowGraph.ofTree (.ok true) fallsThrough = .ok (graph fallsThrough) :=
    ofTree_eq (by decide +kernel)
  have hgotos : (FlowGraph.bodyOf fallsThrough).gotos = [] := by decide +kernel
  have hc : (sweepAll ((graph fallsThrough).ground ((graph fallsThrough).scan x) [])
      (graph fallsThrough).region none).candidate = some 9 := by
    decide +kernel
  obtain ⟨hlast, hfinal⟩ := FlowGraph.no_access_behind_candidate h hgotos x []
  exact ⟨h, hgotos, hc, hlast 9 hc, hfinal.trans hc⟩

end Sample

end LastUse
