import LastUse.Proofs.Escape

/-!
# Where a binding is poisoned

The sweep over the sites keeps one truth value, which tells whether an address is outstanding. At a
site it is set before the site is recorded and cleared after it, so a site that both takes the
address and resets the binding is poisoned itself and ends the poisoning.
`Escape.origin_of_poisoned` relates the truth value to the sites passed so far; with
`Escape.exists_reset` it gives the poisoned sites without a sweep
(`FlowGraph.poisoned_iff_outstanding`).
-/

namespace LastUse

/-! ## The sweep -/

namespace Escape

variable {takes resets : Nat → Bool} {outstanding : Bool} {sites : List Nat} {o : Nat}

/-- The sites that take the address, in the order of the sweep. -/
theorem poisonPoints_trace :
    (trace takes resets outstanding sites).poisonPoints = sites.filter takes := by
  induction sites generalizing outstanding with
  | nil => rfl
  | cons x rest ih => rw [trace, List.filter_cons, ih]

/-- The sites that reset the binding, in the order of the sweep. -/
theorem resetPoints_trace :
    (trace takes resets outstanding sites).resetPoints = sites.filter resets := by
  induction sites generalizing outstanding with
  | nil => rfl
  | cons x rest ih => rw [trace, List.filter_cons, ih]

/-- A poisoned site is one of those swept. Either an address was outstanding before the sweep, and
no site on the way resets the binding, or some site on the way takes the address and none from
there on resets the binding. -/
theorem origin_of_poisoned (hs : sites.Pairwise (· < ·))
    (ho : o ∈ (trace takes resets outstanding sites).poisoned) :
    o ∈ sites ∧ ((outstanding = true ∧ ∀ r ∈ sites, r < o → resets r = false) ∨
      ∃ p ∈ sites, p ≤ o ∧ takes p = true ∧ ∀ r ∈ sites, p ≤ r → r < o → resets r = false) := by
  induction sites generalizing outstanding with
  | nil => cases ho
  | cons x rest ih =>
    obtain ⟨hx, hrest⟩ := List.pairwise_cons.1 hs
    rcases mem_poisoned_cons.1 ho with ⟨rfl, hflag⟩ | ho
    · -- The site is the first one, so nothing stands before it.
      have hfirst : ∀ r ∈ o :: rest, r < o → resets r = false := by
        intro r hr hlt
        rcases List.mem_cons.1 hr with rfl | hr
        · exact absurd hlt (Nat.lt_irrefl r)
        · exact absurd hlt (Nat.lt_asymm (hx r hr))
      refine ⟨List.mem_cons_self, ?_⟩
      rcases Bool.or_eq_true_iff.1 hflag with hout | htakes
      · exact .inl ⟨hout, hfirst⟩
      · exact .inr ⟨o, List.mem_cons_self, Nat.le_refl o, htakes, fun r hr _ => hfirst r hr⟩
    · obtain ⟨hmem, horigin⟩ := ih hrest ho
      have hxo : x < o := hx o hmem
      refine ⟨List.mem_cons_of_mem _ hmem, ?_⟩
      rcases horigin with ⟨hflag, hclear⟩ | ⟨p, hp, hpo, htakes, hclear⟩
      · -- The truth value came through the first site, which therefore resets nothing.
        simp only [Bool.and_eq_true, Bool.or_eq_true, Bool.not_eq_true'] at hflag
        obtain ⟨hflag, hkeeps⟩ := hflag
        have hclear : ∀ r ∈ x :: rest, r < o → resets r = false := by
          intro r hr hlt
          rcases List.mem_cons.1 hr with rfl | hr
          · exact hkeeps
          · exact hclear r hr hlt
        rcases hflag with hout | htakes
        · exact .inl ⟨hout, hclear⟩
        · exact .inr ⟨x, List.mem_cons_self, Nat.le_of_lt hxo, htakes, fun r hr _ => hclear r hr⟩
      · refine .inr ⟨p, List.mem_cons_of_mem _ hp, hpo, htakes, fun r hr hpr hlt => ?_⟩
        rcases List.mem_cons.1 hr with rfl | hr
        · exact absurd hpr (Nat.not_le_of_lt (hx p hp))
        · exact hclear r hr hpr hlt

end Escape

/-! ## Flow graphs -/

namespace FlowGraph

variable {exitEdges : Except Fault Bool} {tree : Value} {g : FlowGraph}
  {b : Binding} {extra : List Nat} {o : Nat}

/-- A site counts as resetting in the sweep if it moves the binding or is one of the further
ones. -/
theorem Laid.resets_iff (h : g.Laid) :
    (((g.scan b).access o).resets || extra.contains o) = true ↔ g.Resets b o ∨ o ∈ extra := by
  rw [Bool.or_eq_true, h.scan_resets, List.contains_iff_mem]

/-- The poison points are the sites that take the address. -/
theorem Laid.mem_poisonPoints (h : g.Laid) :
    o ∈ (g.escape (g.scan b) extra).poisonPoints ↔ g.TakesAddress b o := by
  rw [escape, Escape.poisonPoints_trace, List.mem_filter, h.mem_ordinals, h.scan_addressOf]
  exact ⟨And.right, fun ht => ⟨h.lt_of_evaluates ht, ht⟩⟩

/-- The reset points are the sites that move the binding and the further ones. -/
theorem Laid.mem_resetPoints (h : g.Laid) :
    o ∈ (g.escape (g.scan b) extra).resetPoints ↔
      o < g.sites.length ∧ (g.Resets b o ∨ o ∈ extra) := by
  rw [escape, Escape.resetPoints_trace, List.mem_filter, h.mem_ordinals, h.resets_iff]

/-- A site is poisoned if an address that was taken there or before has not been reset since. -/
theorem Laid.mem_poisoned (h : g.Laid) : o ∈ (g.escape (g.scan b) extra).poisoned ↔
    o < g.sites.length ∧ ∃ p ≤ o, g.TakesAddress b p ∧
      ∀ r, p ≤ r → r < o → ¬ (g.Resets b r ∨ r ∈ extra) := by
  constructor
  · intro ho
    obtain ⟨hmem, ⟨hout, -⟩ | ⟨p, -, hpo, htakes, hclear⟩⟩ :=
      Escape.origin_of_poisoned h.pairwise_ordinals ho
    · cases hout
    · have hlt := h.mem_ordinals.1 hmem
      refine ⟨hlt, p, hpo, h.scan_addressOf.1 htakes, fun r hpr hro hreset => ?_⟩
      have hkeeps := hclear r (h.mem_ordinals.2 (Nat.lt_trans hro hlt)) hpr hro
      rw [h.resets_iff.2 hreset] at hkeeps
      cases hkeeps
  · rintro ⟨hlt, p, hpo, htakes, hclear⟩
    have hp := h.mem_ordinals.2 (h.lt_of_evaluates htakes)
    by_contra hn
    obtain ⟨r, -, hpr, hro, hreset⟩ := Escape.exists_reset h.pairwise_ordinals hp
      (h.mem_ordinals.2 hlt) hpo (h.scan_addressOf.2 htakes) hn
    exact hclear r hpr hro (h.resets_iff.1 hreset)

/-- A site is poisoned if and only if some site at or before it takes the address of the binding
and no site from there on and before it resets the binding, by a move or because it is one of the
further sites that do. The poison points are all sites that take the address and the reset points
all sites that reset the binding, each in order. -/
theorem poisoned_iff_outstanding (h : ofTree exitEdges tree = .ok g) (b : Binding)
    (extra : List Nat) :
    (∀ o, o ∈ (g.escape (g.scan b) extra).poisoned ↔
      o < g.sites.length ∧ ∃ p ≤ o, g.TakesAddress b p ∧
        ∀ r, p ≤ r → r < o → ¬ (g.Resets b r ∨ r ∈ extra)) ∧
    ((g.escape (g.scan b) extra).poisonPoints.Pairwise (· < ·) ∧
      ∀ o, o ∈ (g.escape (g.scan b) extra).poisonPoints ↔ g.TakesAddress b o) ∧
    ((g.escape (g.scan b) extra).resetPoints.Pairwise (· < ·) ∧
      ∀ o, o ∈ (g.escape (g.scan b) extra).resetPoints ↔
        o < g.sites.length ∧ (g.Resets b o ∨ o ∈ extra)) := by
  have hl := laid_of_ofTree h
  refine ⟨fun o => hl.mem_poisoned, ⟨?_, fun o => hl.mem_poisonPoints⟩,
    ⟨?_, fun o => hl.mem_resetPoints⟩⟩
  · rw [escape, Escape.poisonPoints_trace]
    exact hl.pairwise_ordinals.filter _
  · rw [escape, Escape.resetPoints_trace]
    exact hl.pairwise_ordinals.filter _

end FlowGraph

namespace Sample

/-- The address of the parameter is taken twice, the first time by a call that also moves it. -/
def takesTwice : Value :=
  function [.node .exprStmt [.node .call [.str "swap",
      .list [.node .addressOf [name "x"], .node .move [name "x"]]]],
    use "x", pass "keep" (.node .addressOf [.node .member [name "x", .str "f"]]), use "y", use "x"]

/-- The call that moves the parameter is poisoned itself and ends the poisoning; the second address
is outstanding up to the further site that resets the parameter. -/
theorem poisoned_takesTwice :
    FlowGraph.ofTree (.ok true) takesTwice = .ok (graph takesTwice) ∧
    ((graph takesTwice).escape ((graph takesTwice).scan x) [3]).poisoned = [0, 2, 3] ∧
    ((graph takesTwice).escape ((graph takesTwice).scan x) [3]).poisonPoints = [0, 2] ∧
    ((graph takesTwice).escape ((graph takesTwice).scan x) [3]).resetPoints = [0, 3] ∧
    (3 ∈ ((graph takesTwice).escape ((graph takesTwice).scan x) [3]).poisoned ↔
      3 < (graph takesTwice).sites.length ∧ ∃ p ≤ 3, (graph takesTwice).TakesAddress x p ∧
        ∀ r, p ≤ r → r < 3 → ¬ ((graph takesTwice).Resets x r ∨ r ∈ [3])) := by
  have h : FlowGraph.ofTree (.ok true) takesTwice = .ok (graph takesTwice) :=
    ofTree_eq (by decide +kernel)
  exact ⟨h, by decide +kernel, by decide +kernel, by decide +kernel,
    (FlowGraph.poisoned_iff_outstanding h x [3]).1 3⟩

end Sample

end LastUse
