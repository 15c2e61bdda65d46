import LastUse.Verdict
import LastUse.Proofs.Access
import LastUse.Proofs.Flow.Reach
import LastUse.Proofs.Sample
import LastUse.Proofs.Sweep

/-!
# What a verdict says

The sites of a verdict access the binding, and no path leads from them to an access, not even back
to themselves (`FlowGraph.no_access_behind_last`).
-/

namespace LastUse

open Relation (TransGen)

/-- The sites of a verdict are the final one and the frozen ones. -/
theorem Verdict.mem_sites {r : Verdict} {o : Nat} :
    o ∈ r.sites ↔ r.final = some o ∨ o ∈ r.frozen := by
  simp [Verdict.sites, List.mem_eraseDups]

namespace FlowGraph

variable {g : FlowGraph} {b : Binding} {o : Nat} {repeated : List Nat}

/-- A site may run again if it is named as such or stands in a loop. -/
theorem ground_repeats {s : Scan} :
    (g.ground s repeated).repeats o = false ↔ o ∉ repeated ∧ g.marks.inLoop o = false := by
  simp [ground, marks]

/-- The sites that a verdict does not drop are those from which no path leads to another access. -/
theorem Laid.mem_lastAmong (h : g.Laid) {ordinals : List Nat} :
    o ∈ g.lastAmong (g.scan b) ordinals ↔ o ∈ ordinals ∧
      ∀ t, g.Accesses b t → t ≠ o → ¬ TransGen g.Leads (.site o) (.site t) := by
  simp only [lastAmong, laterAccesses, List.mem_filter, List.isEmpty_iff, List.filter_eq_nil_iff,
    List.contains_iff_mem, h.mem_accessing, mem_descendants, ne_eq, Vertex.site.injEq, not_and]

/-- The final site of a verdict is the candidate of its sweep, unless that is dropped. -/
theorem final_eq_some {s : Scan} : (g.verdict s repeated).final = some o ↔
    o ∈ g.lastAmong s (sweepAll (g.ground s repeated) g.region none).candidate.toList := by
  simp only [verdict]
  cases (sweepAll (g.ground s repeated) g.region none).candidate with
  | none => simp [lastAmong]
  | some c => by_cases hc : (g.laterAccesses s c).isEmpty <;> simp [lastAmong, hc, eq_comm]

/-- The sites of a verdict are what its sweep ends with, where no path leads to another access. -/
theorem Laid.mem_verdict_sites (h : g.Laid) : o ∈ (g.verdict (g.scan b) repeated).sites ↔
    ((sweepAll (g.ground (g.scan b) repeated) g.region none).candidate = some o ∨
      o ∈ (sweepAll (g.ground (g.scan b) repeated) g.region none).frozen) ∧
      ∀ t, g.Accesses b t → t ≠ o → ¬ TransGen g.Leads (.site o) (.site t) := by
  rw [Verdict.mem_sites, final_eq_some, h.mem_lastAmong, or_and_right, Option.mem_toList]
  exact or_congr_right h.mem_lastAmong

/-- Every site of a verdict is one that its sweep can end with. -/
theorem Laid.ground_lasts (h : g.Laid) (ho : o ∈ (g.verdict (g.scan b) repeated).sites) :
    (g.ground (g.scan b) repeated).Lasts o := by
  obtain ⟨ho, -⟩ := h.mem_verdict_sites.1 ho
  have hl : (sweepAll (g.ground (g.scan b) repeated) g.region none).Lasts _ :=
    sweepAll_lasts _ _ (by simp)
  rcases ho with ho | ho
  · exact hl.candidate o ho
  · exact hl.frozen o ho

/-- Every site of a verdict accesses the binding, and belongs to a `return` or does not run
again. -/
theorem Laid.lasts_of_mem_sites (h : g.Laid) (ho : o ∈ (g.verdict (g.scan b) repeated).sites) :
    g.Accesses b o ∧ (g.marks.inReturn o = true ∨ o ∉ repeated ∧ g.marks.inLoop o = false) := by
  obtain ⟨hacc, hrep⟩ := h.ground_lasts ho
  have hacc : g.Accesses b o := h.scan_accesses.1 hacc
  exact ⟨hacc, hrep.imp (fun hr => h.scan_inReturn hacc ▸ hr) ground_repeats.1⟩

/-- No path leads from a last access to an access, not even back to itself. -/
theorem no_access_behind_last {exitEdges : Except Fault Bool} {tree : Value} {g : FlowGraph}
    (h : ofTree exitEdges tree = .ok g) (b : Binding) (precise : Bool) {o : Nat}
    (ho : o ∈ (g.verdict (g.scan b) (g.repeated precise)).sites) :
    g.Accesses b o ∧ ∀ t, g.Accesses b t → ¬ TransGen g.Leads (.site o) (.site t) := by
  have hg := laid_of_ofTree h
  obtain ⟨hacc, hrep⟩ := hg.lasts_of_mem_sites ho
  refine ⟨hacc, fun t ht hp => ?_⟩
  by_cases hto : t = o
  · subst hto
    obtain ⟨s, hs, rfl, -⟩ := hacc
    obtain ⟨hcycle, hret⟩ := hg.repeats_of_cycle precise (hg.ordinal_lt hs) hp
    rcases hrep with hr | ⟨hr, hl⟩
    · rw [hret] at hr
      cases hr
    · rcases hcycle with hc | hc
      · rw [hl] at hc
        cases hc
      · exact hr hc
  · exact (hg.mem_verdict_sites.1 ho).2 t ht hto hp

end FlowGraph

namespace Sample

/-- A loop that uses the parameter and may return it, then a branch that uses or returns it. -/
def returnsEarly : Value :=
  function [whileLoop "c" [use "x", ifElse "d" (ret "x") .null], ifElse "c" (use "x") (ret "x")]

/-- The function has a flow graph. -/
theorem ofTree_returnsEarly :
    FlowGraph.ofTree (.ok true) returnsEarly = .ok (graph returnsEarly) :=
  ofTree_eq (by decide +kernel)

/-- The `return` in the loop is a last access, though the loop accesses the parameter in every
round. -/
theorem no_access_behind_return_in_loop :
    FlowGraph.ofTree (.ok true) returnsEarly = .ok (graph returnsEarly) ∧
    3 ∈ ((graph returnsEarly).verdict ((graph returnsEarly).scan x)
      ((graph returnsEarly).repeated true)).sites ∧
    (graph returnsEarly).Accesses x 3 ∧ ∀ t, (graph returnsEarly).Accesses x t →
      ¬ TransGen (graph returnsEarly).Leads (.site 3) (.site t) := by
  have h : 3 ∈ ((graph returnsEarly).verdict ((graph returnsEarly).scan x)
      ((graph returnsEarly).repeated true)).sites := by
    rw [Verdict.mem_sites]
    decide +kernel
  exact ⟨ofTree_returnsEarly, h, FlowGraph.no_access_behind_last ofTree_returnsEarly x true h⟩

end Sample

end LastUse
