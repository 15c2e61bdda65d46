import Mathlib.Data.List.Sort
import LastUse.Proofs.Escape
import LastUse.Proofs.Frozen

/-!
# More sites that run again

A verdict takes the sites that may run again from outside, and sorts the accesses of the binding by
them into candidates and excluded ones (`FlowGraph.accesses_partitioned`). The more of them there
are, the fewer last accesses it finds (`FlowGraph.verdict_of_subset`): none is lost that belongs to
a `return`, none is found that was not found before, and what is no candidate any more is excluded
instead. That no earlier candidate comes up in the place of an excluded one is read off what a
final access is (`Ground.Extends.final`). Which accesses are candidates at some time does not
depend on the candidate before them at all (`sweepAll_sorts`).
-/

namespace LastUse

/-! ## What a sweep keeps and what it excludes -/

/-- Whether an access at a site is a candidate when the sweep comes to it. -/
def Ground.keeps (gr : Ground) (o : Nat) : Bool :=
  (gr.access o).accesses && ((gr.access o).inReturn || !gr.repeats o)

/-- Whether an access at a site is excluded because it may run again. -/
def Ground.excludes (gr : Ground) (o : Nat) : Bool :=
  (gr.access o).accesses && !((gr.access o).inReturn || !gr.repeats o)

/-- A sweep sorts the accesses of some sites into candidates and excluded ones. -/
structure Sweep.Sorts (gr : Ground) (ordinals : List Nat) (s : Sweep) : Prop where
  provisional : s.provisional = ordinals.filter gr.keeps
  excluded : s.excluded = ordinals.filter gr.excludes

namespace Sweep.Sorts

variable {gr : Ground} {a b : List Nat} {s t : Sweep} {candidate : Option Nat}

/-- Where there are no sites, nothing is sorted. -/
theorem still : (Sweep.still candidate).Sorts gr [] := ⟨rfl, rfl⟩

/-- The access at a site, if there is one, is a candidate or excluded. -/
theorem site (o : Nat) : (Sweep.site gr o candidate).Sorts gr [o] := by
  rw [Sweep.site]
  split
  · next ha => constructor <;> simp_all [Sweep.still, Ground.keeps, Ground.excludes]
  · split
    · constructor <;> simp_all [Ground.keeps, Ground.excludes]
    · split <;> constructor <;> simp_all [Ground.keeps, Ground.excludes]

/-- The end of a `return` sorts nothing. -/
theorem leave (stmt : Path) : (Sweep.leave gr stmt candidate).Sorts gr [] := by
  unfold Sweep.leave
  split
  · split <;> exact ⟨rfl, rfl⟩
  · exact .still

/-- Two sweeps, one after the other, sort the accesses of all sites. -/
theorem andThen (hs : s.Sorts gr a) (ht : t.Sorts gr b) : (s.andThen t).Sorts gr (a ++ b) where
  provisional := by simp [Sweep.andThen, hs.provisional, ht.provisional]
  excluded := by simp [Sweep.andThen, hs.excluded, ht.excluded]

end Sweep.Sorts

mutual

/-- A sweep over a region sorts the accesses in it, whatever candidate it starts with. -/
theorem Region.sweep_sorts (gr : Ground) : ∀ (r : Region) (candidate : Option Nat),
    (r.sweep gr candidate).Sorts gr r.ordinals
  | .site o, _ => by
    rw [Region.sweep, Region.ordinals]
    exact .site o
  | .branch _ arms, candidate => by
    rw [Region.sweep, Region.ordinals]
    exact sweepArms_sorts gr arms candidate candidate
  | .loop _ body, candidate => by
    rw [Region.sweep, Region.ordinals]
    exact sweepAll_sorts gr body candidate
  | .ret stmt, _ => by
    rw [Region.sweep, Region.ordinals]
    exact .leave stmt

/-- A sweep over a sequence of regions sorts the accesses of its sites. -/
theorem sweepAll_sorts (gr : Ground) : ∀ (rs : List Region) (candidate : Option Nat),
    (sweepAll gr rs candidate).Sorts gr (ordinalsAll rs)
  | [], _ => by
    rw [sweepAll, ordinalsAll]
    exact .still
  | r :: rest, candidate => by
    rw [sweepAll, ordinalsAll]
    exact (Region.sweep_sorts gr r candidate).andThen (sweepAll_sorts gr rest _)

/-- The sweeps over the arms of a branch sort the accesses of its sites. -/
theorem sweepArms_sorts (gr : Ground) :
    ∀ (arms : List (List Region)) (candidate incoming : Option Nat),
    (Sweep.ofArms incoming (sweepArms gr arms candidate)).Sorts gr (armOrdinals arms)
  | [], _, _ => by
    rw [sweepArms, armOrdinals]
    exact ⟨rfl, rfl⟩
  | arm :: rest, candidate, incoming => by
    have harm := sweepAll_sorts gr arm candidate
    have hrest := sweepArms_sorts gr rest candidate incoming
    rw [sweepArms, armOrdinals]
    constructor
    · rw [List.filter_append, ← harm.provisional, ← hrest.provisional]
      rfl
    · rw [List.filter_append, ← harm.excluded, ← hrest.excluded]
      rfl

end

/-! ## What a verdict keeps and what it excludes -/

/-- An access is excluded if it is outside of a `return` and may run again. -/
theorem Ground.excludes_iff {gr : Ground} {o : Nat} :
    gr.excludes o = true ↔ gr.Plain o ∧ gr.repeats o = true := by
  simp [Ground.excludes, Ground.Plain, and_assoc]

/-- An access is kept unless it is excluded. -/
theorem Ground.keeps_iff {gr : Ground} {o : Nat} :
    gr.keeps o = true ↔ (gr.access o).accesses = true ∧ gr.excludes o = false := by
  unfold Ground.keeps Ground.excludes
  cases (gr.access o).accesses <;> cases (gr.access o).inReturn || !gr.repeats o <;> simp

/-- A site that a sweep can end with was a candidate. -/
theorem Ground.keeps_of_lasts {gr : Ground} {o : Nat} (h : gr.Lasts o) : gr.keeps o = true := by
  obtain ⟨ha, hr⟩ := h
  simpa [Ground.keeps, ha] using hr

namespace FlowGraph

variable {exitEdges : Except Fault Bool} {tree : Value} {g : FlowGraph}
  {b : Binding} {repeated : List Nat} {o : Nat}

/-- A site may run again if it is in a loop or named as one that does. -/
theorem Laid.ground_repeats_iff (h : g.Laid) {scan : Scan} {s : Site} (hs : s ∈ g.sites) :
    (g.ground scan repeated).repeats s.ordinal = true ↔ s.inLoop = true ∨
      s.ordinal ∈ repeated := by
  simp [ground, getElem?_ordinal h.sites hs, or_comm]

/-- An access is excluded if it is outside of a `return`, and in a loop or named as running
again. -/
theorem Laid.excludes_iff (h : g.Laid) : (g.ground (g.scan b) repeated).excludes o = true ↔
    ∃ s ∈ g.sites, s.ordinal = o ∧ g.Accesses b o ∧ s.inReturn = false ∧
      (s.inLoop = true ∨ o ∈ repeated) := by
  rw [Ground.excludes_iff, h.ground_plain]
  constructor
  · rintro ⟨⟨ha, hr⟩, hrep⟩
    obtain ⟨s, hs, rfl, -⟩ := id ha
    rw [(marks_of_sites h.sites s hs).2] at hr
    exact ⟨s, hs, rfl, ha, hr, (h.ground_repeats_iff hs).1 hrep⟩
  · rintro ⟨s, hs, rfl, ha, hr, hrep⟩
    rw [(marks_of_sites h.sites s hs).2]
    exact ⟨⟨ha, hr⟩, (h.ground_repeats_iff hs).2 hrep⟩

/-- The excluded sites of a verdict are the accesses that its ground excludes. -/
theorem Laid.mem_excluded (h : g.Laid) : o ∈ (g.verdict (g.scan b) repeated).excluded ↔
    (g.ground (g.scan b) repeated).excludes o = true := by
  show o ∈ (sweepAll _ g.region none).excluded ↔ _
  rw [(sweepAll_sorts _ _ _).excluded, List.mem_filter, and_iff_right_iff_imp]
  intro ho
  exact h.mem_region (h.scan_accesses.1 (Ground.excludes_iff.1 ho).1.1)

/-- The provisional sites of a verdict are the accesses that its ground keeps. -/
theorem Laid.mem_provisional (h : g.Laid) : o ∈ (g.verdict (g.scan b) repeated).provisional ↔
    (g.ground (g.scan b) repeated).keeps o = true := by
  show o ∈ (sweepAll _ g.region none).provisional ↔ _
  rw [(sweepAll_sorts _ _ _).provisional, List.mem_filter, and_iff_right_iff_imp]
  intro ho
  exact h.mem_region (h.scan_accesses.1 (Ground.keeps_iff.1 ho).1)

/-- Every access of a binding is a candidate of its verdict or excluded from it, and not both. The
excluded ones are those outside of `return` statements that stand in a loop or are named as running
again. Both are in order, each once, and every last access was a candidate. -/
theorem accesses_partitioned (h : ofTree exitEdges tree = .ok g) (b : Binding)
    (repeated : List Nat) :
    (∀ o, o ∈ (g.verdict (g.scan b) repeated).excluded ↔ ∃ s ∈ g.sites, s.ordinal = o ∧
      g.Accesses b o ∧ s.inReturn = false ∧ (s.inLoop = true ∨ o ∈ repeated)) ∧
    (∀ o, o ∈ (g.verdict (g.scan b) repeated).provisional ↔
      g.Accesses b o ∧ o ∉ (g.verdict (g.scan b) repeated).excluded) ∧
    (g.verdict (g.scan b) repeated).provisional.Pairwise (· < ·) ∧
    (g.verdict (g.scan b) repeated).excluded.Pairwise (· < ·) ∧
    ∀ o ∈ (g.verdict (g.scan b) repeated).sites,
      o ∈ (g.verdict (g.scan b) repeated).provisional := by
  have hg := laid_of_ofTree h
  have hsorted : (ordinalsAll g.region).Pairwise (· < ·) := hg.region ▸ List.pairwise_lt_range
  have hsweep := sweepAll_sorts (g.ground (g.scan b) repeated) g.region none
  refine ⟨fun o => hg.mem_excluded.trans hg.excludes_iff, fun o => ?_, ?_, ?_, fun o ho => ?_⟩
  · rw [hg.mem_provisional, hg.mem_excluded, Ground.keeps_iff, Bool.not_eq_true]
    exact and_congr_left' hg.scan_accesses
  · show (sweepAll _ g.region none).provisional.Pairwise (· < ·)
    rw [hsweep.provisional]
    exact hsorted.filter _
  · show (sweepAll _ g.region none).excluded.Pairwise (· < ·)
    rw [hsweep.excluded]
    exact hsorted.filter _
  · rw [hg.mem_provisional]
    exact Ground.keeps_of_lasts (hg.ground_lasts ho)

end FlowGraph

/-- One access is excluded for its loop and one because it is named. That the `return` in the loop
is named as well does not exclude it. -/
theorem Sample.partition_returnsEarly :
    FlowGraph.ofTree (.ok true) returnsEarly = .ok (graph returnsEarly) ∧
    ((graph returnsEarly).verdict ((graph returnsEarly).scan x) [3, 5]).excluded = [1, 5] ∧
    ((graph returnsEarly).verdict ((graph returnsEarly).scan x) [3, 5]).provisional = [3, 6] ∧
    (∀ o, o ∈ [1, 5] ↔ ∃ s ∈ (graph returnsEarly).sites, s.ordinal = o ∧
      (graph returnsEarly).Accesses x o ∧ s.inReturn = false ∧ (s.inLoop = true ∨ o ∈ [3, 5])) ∧
    ∀ o, o ∈ [3, 6] ↔ (graph returnsEarly).Accesses x o ∧ o ∉ [1, 5] := by
  have hexcluded :
      ((graph returnsEarly).verdict ((graph returnsEarly).scan x) [3, 5]).excluded = [1, 5] := by
    decide +kernel
  have hprovisional :
      ((graph returnsEarly).verdict ((graph returnsEarly).scan x) [3, 5]).provisional =
        [3, 6] := by
    decide +kernel
  obtain ⟨hmem, hkept, -⟩ := FlowGraph.accesses_partitioned ofTree_returnsEarly x [3, 5]
  rw [hexcluded] at hmem hkept
  rw [hprovisional] at hkept
  exact ⟨ofTree_returnsEarly, hexcluded, hprovisional, hmem, hkept⟩

/-! ## Two sweeps -/

/-- Two grounds know the same of the sites, but that more of them may run again on the second. -/
structure Ground.Extends (gr gr' : Ground) : Prop where
  access : gr'.access = gr.access
  stmt? : gr'.stmt? = gr.stmt?
  repeats : ∀ o, gr.repeats o = true → gr'.repeats o = true

namespace Ground.Extends

variable {gr gr' : Ground} {rs : List Region} {m : Nat} {frozen frozen' : List Nat}

/-- What does not run again on the second ground does not on the first. -/
theorem once (h : gr.Extends gr') (hm : gr'.repeats m = false) : gr.repeats m = false := by
  rw [← Bool.not_eq_true] at hm ⊢
  exact mt (h.repeats m) hm

/-- What is final although more sites may run again is final. -/
theorem final (h : gr.Extends gr') (hf : Final gr' rs m) : Final gr rs m := by
  obtain ⟨hmem, hplain, honce, hgreatest, halone, hbehind⟩ := hf
  simp only [Ground.Plain, h.access] at hplain hgreatest halone hbehind
  exact ⟨hmem, hplain, h.once honce, hgreatest, halone, hbehind⟩

/-- A `return` ends with the same access on both grounds. -/
theorem ends_iff (h : gr.Extends gr') {o : Nat} : gr'.Ends rs o ↔ gr.Ends rs o := by
  constructor
  · rintro ⟨hmem, hacc, hret, hgreatest⟩
    simp only [h.access, h.stmt?] at hacc hret hgreatest
    exact ⟨hmem, hacc, hret, hgreatest⟩
  · rintro ⟨hmem, hacc, hret, hgreatest⟩
    simp only [← h.access, ← h.stmt?] at hacc hret hgreatest
    exact ⟨hmem, hacc, hret, hgreatest⟩

/-- The accesses that are frozen do not depend on which sites may run again. -/
theorem frozen_eq (h : gr.Extends gr') (hs : (ordinalsAll rs).Pairwise (· < ·))
    (hf : gr.Freezes rs frozen) (hf' : gr'.Freezes rs frozen') : frozen' = frozen := by
  refine (hs.sublist hf'.sublist).eq_of_mem_iff (hs.sublist hf.sublist) fun o => ?_
  rw [hf'.mem, hf.mem, h.ends_iff]

/-- What the second ground keeps the first one keeps. -/
theorem keeps (h : gr.Extends gr') {o : Nat} (hk : gr'.keeps o = true) : gr.keeps o = true := by
  simp only [Ground.keeps, h.access, Bool.and_eq_true, Bool.or_eq_true, Bool.not_eq_true'] at hk ⊢
  exact hk.imp_right fun hk => hk.imp_right h.once

/-- What the first ground excludes the second one excludes. -/
theorem excludes (h : gr.Extends gr') {o : Nat} (hk : gr.excludes o = true) :
    gr'.excludes o = true := by
  simp only [Ground.excludes, h.access, Bool.and_eq_true, Bool.not_eq_true', Bool.or_eq_false_iff,
    Bool.not_eq_false'] at hk ⊢
  exact ⟨hk.1, hk.2.1, h.repeats o hk.2.2⟩

end Ground.Extends

namespace FlowGraph

variable {exitEdges : Except Fault Bool} {tree : Value} {g : FlowGraph} {b : Binding}
  {repeated repeated' : List Nat}

/-- With more sites that run again, a ground extends the one with fewer. -/
theorem extends_of_subset {s : Scan} (hsub : repeated ⊆ repeated') :
    (g.ground s repeated).Extends (g.ground s repeated') where
  access := rfl
  stmt? := rfl
  repeats o h := by
    simp only [ground, Bool.or_eq_true, List.contains_iff_mem] at h ⊢
    exact h.imp_left fun ho => hsub ho

/-- The sites from which control can get to a jump back are among all those that it goes over. -/
theorem repeated_subset (g : FlowGraph) : g.repeated true ⊆ g.repeated false := by
  intro o ho
  simp only [repeated, List.mem_filter, List.mem_range, List.contains_iff_mem,
    List.mem_flatMap] at ho ⊢
  obtain ⟨hlen, j, hj, ho⟩ := ho
  refine ⟨hlen, j, hj, ?_⟩
  unfold repeatedBy at ho ⊢
  split at ho
  · cases ho
  · next hback =>
    rw [if_neg hback]
    exact (List.mem_filter.1 ho).1

/-- The accesses of `return` statements stay last accesses. -/
theorem frozen_of_subset (h : ofTree exitEdges tree = .ok g) (hsub : repeated ⊆ repeated') :
    (g.verdict (g.scan b) repeated').frozen = (g.verdict (g.scan b) repeated).frozen := by
  have hord := (laid_of_ofTree h).pairwise_region
  exact congrArg (g.lastAmong (g.scan b))
    ((extends_of_subset hsub).frozen_eq hord (froze_of_ofTree h none (by simp))
      (froze_of_ofTree h none (by simp)))

/-- A final access that is found with more sites that run again is found with fewer. -/
theorem final_of_subset (h : ofTree exitEdges tree = .ok g) (hsub : repeated ⊆ repeated') {m : Nat}
    (hm : (g.verdict (g.scan b) repeated').final = some m) :
    (g.verdict (g.scan b) repeated).final = some m := by
  have hg := laid_of_ofTree h
  rw [final_eq_some, hg.mem_lastAmong, Option.mem_toList, candidate_eq_some h] at hm ⊢
  exact hm.imp_left (extends_of_subset hsub).final

/-- The fewer sites may run again, the more last accesses there are. -/
theorem sites_of_subset (h : ofTree exitEdges tree = .ok g) (hsub : repeated ⊆ repeated') :
    (g.verdict (g.scan b) repeated').sites ⊆ (g.verdict (g.scan b) repeated).sites := by
  intro o ho
  rw [Verdict.mem_sites, frozen_of_subset h hsub] at ho
  exact Verdict.mem_sites.2 (ho.imp_left (final_of_subset h hsub))

/-- With more sites that run again there are no further candidates. -/
theorem provisional_of_subset {s : Scan} (hsub : repeated ⊆ repeated') :
    (g.verdict s repeated').provisional.Sublist (g.verdict s repeated).provisional := by
  show (sweepAll _ g.region none).provisional.Sublist (sweepAll _ g.region none).provisional
  rw [(sweepAll_sorts _ _ _).provisional, (sweepAll_sorts _ _ _).provisional]
  exact List.monotone_filter_right _ fun o => (extends_of_subset hsub).keeps

/-- What is excluded stays excluded. -/
theorem excluded_of_subset {s : Scan} (hsub : repeated ⊆ repeated') :
    (g.verdict s repeated).excluded ⊆ (g.verdict s repeated').excluded := by
  show (sweepAll _ g.region none).excluded ⊆ (sweepAll _ g.region none).excluded
  rw [(sweepAll_sorts _ _ _).excluded, (sweepAll_sorts _ _ _).excluded]
  exact (List.monotone_filter_right _ fun o => (extends_of_subset hsub).excludes).subset

end FlowGraph

/-! ## Two sessions -/

/-- Settings that say the same of everything but of how jumps are treated. -/
structure Settings.AgreeButJumps (s t : Settings) : Prop where
  exitEdges : s.exitEdges = t.exitEdges
  extraResets : s.extraResets = t.extraResets

namespace Session

variable {tree : Value} {b : Binding} {s t : Session}

/-- Whatever was asked before, a session says of a target what it says without a memory. -/
theorem answer_isMovableAt (s : Session) (asked : List Question) (b : Binding) (target : Target) :
    s.answer (s.memoryAfter asked) (.isMovableAt b target) =
      s.plainly (.isMovableAt b target) := by
  obtain ⟨m, hrun, -⟩ := s.answers_ask (.isMovableAt b target) _ _ (s.remembers_memoryAfter asked)
  rw [answer, hrun, plainly]
  cases s.locate target >>= fun ordinals =>
    (s.plainSites b).map fun sites => ordinals.any sites.contains <;> rfl

/-- A binding may be moved at a target if it may be at one of its sites. -/
theorem plainly_isMovableAt {target : Target} :
    s.plainly (.isMovableAt b target) = .ok (.truth true) ↔
    ∃ ordinals sites, s.locate target = .ok ordinals ∧ s.plainSites b = .ok sites ∧
      ∃ o ∈ ordinals, o ∈ sites := by
  rw [plainly]
  cases s.locate target with
  | error f => simp [bind, Except.bind, Except.map]
  | ok ordinals =>
    cases s.plainSites b with
    | error f => simp [bind, Except.bind, Except.map]
    | ok sites => simp [bind, Except.bind, Except.map]

/-- The sites that a target names are a matter of the graph. -/
theorem locate_congr (h : t.graph = s.graph) (target : Target) :
    t.locate target = s.locate target := by
  unfold locate locateOrdinal
  rw [h]

/-- The sites where a binding may be moved are those of its verdict that are not poisoned. -/
theorem plainSites_eq_ok {sites : List Nat} : s.plainSites b = .ok sites ↔
    b.name.isKey = true ∧ ∃ resets, s.settings.extraResets b.name = .ok resets ∧
      sites = (s.graph.verdict (s.graph.scan b) s.repeated).sites.filter fun o =>
        !(s.graph.escape (s.graph.scan b) resets).poisonedAt o := by
  unfold plainSites freshly
  split
  · next hk =>
    rw [analysisOf, analysisWith, and_iff_right hk]
    cases s.settings.extraResets b.name with
    | error f =>
      constructor
      · intro h
        cases h
      · rintro ⟨resets, h, -⟩
        cases h
    | ok resets =>
      constructor
      · intro h
        cases h
        exact ⟨resets, rfl, rfl⟩
      · rintro ⟨_, hr, rfl⟩
        cases hr
        rfl
  · next hk =>
    constructor
    · intro h
      cases h
    · exact fun h => absurd h.1 hk

/-- A session that treats jumps with precision finds all sites that one without finds. -/
theorem plainSites_of_precise (hg : FlowGraph.ofTree (.ok s.settings.exitEdges) tree = .ok s.graph)
    (hgraph : t.graph = s.graph) (hresets : s.settings.extraResets = t.settings.extraResets)
    (hs : s.settings.precise = false) (ht : t.settings.precise = true) {sites : List Nat}
    (h : s.plainSites b = .ok sites) : ∃ sites', t.plainSites b = .ok sites' ∧ sites ⊆ sites' := by
  obtain ⟨hk, resets, hr, rfl⟩ := plainSites_eq_ok.1 h
  refine ⟨_, plainSites_eq_ok.2 ⟨hk, resets, hresets ▸ hr, rfl⟩, fun o ho => ?_⟩
  obtain ⟨ho, hp⟩ := List.mem_filter.1 ho
  have hsub : t.repeated ⊆ s.repeated := by
    rw [repeated, repeated, ht, hs, hgraph]
    exact s.graph.repeated_subset
  rw [hgraph]
  exact List.mem_filter.2 ⟨FlowGraph.sites_of_subset hg hsub ho, hp⟩

end Session

/-- The more sites may run again, the fewer last accesses a verdict has: the frozen ones stay the
same, the candidates are a part of those before, and what was excluded stays excluded. So a session
that treats jumps with precision says that a binding may be moved wherever one without says so. -/
theorem FlowGraph.verdict_of_subset {exitEdges : Except Fault Bool} {tree : Value} {g : FlowGraph}
    (h : ofTree exitEdges tree = .ok g) (b : Binding) :
    (∀ repeated repeated' : List Nat, repeated ⊆ repeated' →
      (g.verdict (g.scan b) repeated').frozen = (g.verdict (g.scan b) repeated).frozen ∧
      (g.verdict (g.scan b) repeated').sites ⊆ (g.verdict (g.scan b) repeated).sites ∧
      (g.verdict (g.scan b) repeated').provisional.Sublist
        (g.verdict (g.scan b) repeated).provisional ∧
      (g.verdict (g.scan b) repeated).excluded ⊆ (g.verdict (g.scan b) repeated').excluded) ∧
    ∀ (document document' : Json) (s t : Session), Session.ofTree document tree = .ok s →
      Session.ofTree document' tree = .ok t → s.settings.AgreeButJumps t.settings →
      s.settings.precise = false → t.settings.precise = true →
      ∀ (asked asked' : List Question) (target : Target),
        s.answer (s.memoryAfter asked) (.isMovableAt b target) = .ok (.truth true) →
        t.answer (t.memoryAfter asked') (.isMovableAt b target) = .ok (.truth true) := by
  refine ⟨fun repeated repeated' hsub => ⟨frozen_of_subset h hsub, sites_of_subset h hsub,
    provisional_of_subset hsub, excluded_of_subset hsub⟩, ?_⟩
  intro document document' s t hs ht hagree hps hpt asked asked' target hans
  have hg := Session.graph_eq hs
  have hgraph : t.graph = s.graph := by
    have hgt := Session.graph_eq ht
    rw [← hagree.exitEdges, hg] at hgt
    exact (Except.ok.inj hgt).symm
  rw [Session.answer_isMovableAt, Session.plainly_isMovableAt] at hans ⊢
  obtain ⟨ordinals, sites, hloc, hsites, o, hmem, ho⟩ := hans
  obtain ⟨sites', hsites', hsub⟩ :=
    Session.plainSites_of_precise hg hgraph hagree.extraResets hps hpt hsites
  exact ⟨ordinals, sites', Session.locate_congr hgraph target ▸ hloc, hsites', o, hmem, hsub ho⟩

namespace Sample

/-- A jump back over a use of the parameter that a `return` follows, so that the jump cannot run it
again. -/
def jumpsOver : Value :=
  function [.node .labeled [.str "again", .null],
    ifElse "c" (.node .block [.list [use "x", ret "y"]])
      (ifElse "d" (.node .goto [.str "again"]) (ret "x"))]

/-- Settings by which a jump back runs again all that it goes over. -/
def coarsely : Json :=
  .obj [(Settings.analysisSection, .obj [(Settings.reachabilityKey, .bool false)])]

/-- A session about a function, with settings laid over the defaults. -/
def sessionWith (document : Json) (tree : Value) : Session :=
  (Session.ofTree document tree).toOption.getD default

/-- Where the session can be made, `sessionWith` is it. -/
theorem sessionWith_eq {document : Json} {tree : Value}
    (h : (Session.ofTree document tree).isOk = true) :
    Session.ofTree document tree = .ok (sessionWith document tree) := by
  rw [sessionWith]
  cases hs : Session.ofTree document tree with
  | ok s => rfl
  | error f =>
    rw [hs] at h
    cases h

/-- Without precision the use of the parameter is excluded. The `return` of the parameter is a last
access all the same, and so it is with precision. -/
theorem verdict_jumpsOver :
    FlowGraph.ofTree (.ok true) jumpsOver = .ok (graph jumpsOver) ∧
      (graph jumpsOver).repeated true = [0, 1, 4, 5] ∧
        (graph jumpsOver).repeated false = [0, 1, 2, 3, 4, 5] ∧
      ((graph jumpsOver).verdict ((graph jumpsOver).scan x) [0, 1, 2, 3, 4, 5]).provisional = [6] ∧
      [6].Sublist ((graph jumpsOver).verdict ((graph jumpsOver).scan x) [0, 1, 4, 5]).provisional ∧
      ((sessionWith coarsely jumpsOver).answer
        ((sessionWith coarsely jumpsOver).memoryAfter [.report none])
        (.isMovableAt x (.site 6)) = .ok (.truth true)) ∧
      (session jumpsOver).answer ((session jumpsOver).memoryAfter []) (.isMovableAt x (.site 6)) =
        .ok (.truth true) := by
  have h : FlowGraph.ofTree (.ok true) jumpsOver = .ok (graph jumpsOver) :=
    ofTree_eq (by decide +kernel)
  have hs : Session.ofTree coarsely jumpsOver = .ok (sessionWith coarsely jumpsOver) :=
    sessionWith_eq (by decide +kernel)
  have ht : Session.ofTree .null jumpsOver = .ok (session jumpsOver) :=
    session_eq (by decide +kernel)
  have hread := Session.settings_eq hs
  have hagree :
      (sessionWith coarsely jumpsOver).settings.AgreeButJumps (session jumpsOver).settings := by
    have hread' := Session.settings_eq ht
    generalize (sessionWith coarsely jumpsOver).settings = settings at hread ⊢
    generalize (session jumpsOver).settings = settings' at hread' ⊢
    cases hread
    cases hread'
    exact ⟨rfl, rfl⟩
  have hprovisional : ((graph jumpsOver).verdict ((graph jumpsOver).scan x)
      [0, 1, 2, 3, 4, 5]).provisional = [6] := by
    decide +kernel
  have hcoarse : (sessionWith coarsely jumpsOver).answer
      ((sessionWith coarsely jumpsOver).memoryAfter [.report none]) (.isMovableAt x (.site 6)) =
        .ok (.truth true) := by
    have hresets : (sessionWith coarsely jumpsOver).settings.extraResets x.name = .ok [] := by
      generalize (sessionWith coarsely jumpsOver).settings = settings at hread ⊢
      cases hread
      rfl
    rw [Session.answer_isMovableAt, Session.plainly_isMovableAt]
    refine ⟨_, _, rfl, Session.plainSites_eq_ok.2 ⟨rfl, [], hresets, rfl⟩, 6,
      List.mem_singleton.2 rfl, ?_⟩
    refine List.mem_filter.2 ⟨Verdict.mem_sites.2 (.inr ?_), ?_⟩ <;> decide +kernel
  obtain ⟨hverdict, hsessions⟩ := FlowGraph.verdict_of_subset h x
  obtain ⟨-, -, hsub, -⟩ := hverdict [0, 1, 4, 5] [0, 1, 2, 3, 4, 5] (by decide)
  exact ⟨h, by decide +kernel, by decide +kernel, hprovisional, hprovisional ▸ hsub, hcoarse,
    hsessions coarsely .null _ _ hs ht hagree (by decide +kernel)
      (by decide +kernel) [.report none] [] _ hcoarse⟩

end Sample

end LastUse
