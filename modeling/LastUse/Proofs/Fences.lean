import LastUse.Proofs.Final

/-!
# What edges do not cross

The edges that a piece of a function drafts begin at the frontier that leads into it or at its own
sites, and end at its own sites or the exit (`Draft.Inside`). From this follows what no edge but
that of a jump crosses (`Passage.Fenced`): control enters an arm of a branch only from before the
branch (`FlowGraph.fair_of_ofTree`), and it goes from a `return` only to the same `return` or out
of the function (`FlowGraph.home_of_leads`).
-/

namespace LastUse

/-! ## Where edges begin and end -/

/-- One of the `k` sites from `n` on. -/
def Vertex.Within (n k : Nat) (v : Vertex) : Prop := ∃ o, v = .site o ∧ n ≤ o ∧ o < n + k

/-- A site of a range is one of every larger range. -/
theorem Vertex.Within.mono {n n' k k' : Nat} {v : Vertex} (h : v.Within n k) (hn : n' ≤ n)
    (hk : n + k ≤ n' + k') : v.Within n' k' := by
  obtain ⟨o, rfl, hl, hu⟩ := h
  exact ⟨o, rfl, by omega, by omega⟩

/-- Of two ranges of sites one behind the other, a vertex is in one at most. -/
theorem Vertex.Within.not_within {v : Vertex} {n k m k' : Nat} (h : v.Within m k')
    (hm : n + k ≤ m) : ¬ v.Within n k := by
  rintro ⟨o, rfl, -, hup⟩
  obtain ⟨_, ⟨⟩, hlo, -⟩ := h
  omega

/-- A marked site of a range is one of the range. -/
theorem Vertex.Among.within {m : Marks} {ret : Bool} {n k : Nat} {v : Vertex}
    (h : v.Among m ret n k) : v.Within n k := by
  obtain ⟨o, rfl, hl, hu, -⟩ := h
  exact ⟨o, rfl, hl, hu⟩

/-- Sites that are numbered have marks. -/
theorem Draft.Numbered.exists_marks {n : Nat} {d : Draft} (h : d.Numbered n) :
    ∃ m : Marks, m.Of d.sites := by
  refine ⟨⟨fun o => (d.sites[o - n]?.map (·.inLoop)).getD false,
    fun o => (d.sites[o - n]?.map (·.inReturn)).getD false⟩, fun s hs => ?_⟩
  obtain ⟨i, hi, rfl⟩ := List.mem_iff_getElem.1 hs
  have ho : (d.sites.map (·.ordinal))[i]? = (List.range' n d.sites.length)[i]? := by rw [h.sites]
  simp only [List.getElem?_map, List.getElem?_eq_getElem hi, Option.map_some,
    List.getElem?_range' hi, Option.some.injEq] at ho
  simp [ho, hi]

/-- The edges of a draft begin at a frontier or at its own sites, and end at its own sites or the
exit. -/
structure Draft.Inside (n : Nat) (fr : Frontier) (d : Draft) : Prop where
  source : ∀ e ∈ d.edges, e.source ∈ sources fr ∨ e.source.Within n d.sites.length
  target : ∀ e ∈ d.edges, e.target = .exit ∨ e.target.Within n d.sites.length

namespace Draft.Inside

variable {n : Nat} {fr fr' : Frontier} {a b d : Draft}

/-- A draft without edges has none that reach beyond it. -/
theorem of_no_edges (he : d.edges = []) : d.Inside n fr := ⟨by simp [he], by simp [he]⟩

/-- Only the sites and the edges of a draft matter. -/
theorem congr (h : a.Inside n fr) (hs : b.sites = a.sites) (he : b.edges = a.edges) :
    b.Inside n fr :=
  ⟨by rw [hs, he]; exact h.source, by rw [hs, he]; exact h.target⟩

/-- A frontier may hold more than what leads into a draft. -/
theorem weaken (h : d.Inside n fr) (hs : ∀ v ∈ sources fr, v ∈ sources fr') : d.Inside n fr' :=
  ⟨fun e he => (h.source e he).imp_left (hs _), h.target⟩

/-- A draft and the next one, which is entered from the same frontier or from the first draft. -/
theorem append (ha : a.Inside n fr) (hb : b.Inside (n + a.sites.length) fr')
    (hs : ∀ v ∈ sources fr', v ∈ sources fr ∨ v.Within n a.sites.length) :
    (a ++ b).Inside n fr := by
  have hleft : ∀ {v : Vertex}, v.Within n a.sites.length → v.Within n (a ++ b).sites.length :=
    fun hv => hv.mono (Nat.le_refl n) (by simp)
  have hright : ∀ {v : Vertex}, v.Within (n + a.sites.length) b.sites.length →
      v.Within n (a ++ b).sites.length := fun hv => hv.mono (by omega) (by simp; omega)
  constructor <;> intro e he <;> rw [edges_append, List.mem_append] at he <;>
    rcases he with he | he
  · exact (ha.source e he).imp_right hleft
  · rcases hb.source e he with hv | hv
    · exact (hs _ hv).imp_right hleft
    · exact .inr (hright hv)
  · exact (ha.target e he).imp_right hleft
  · exact (hb.target e he).imp_right hright

/-- Further edges between the sites of a draft or from them to the exit. -/
theorem withEdges (h : d.Inside n fr) (hb : b.sites = [])
    (hs : ∀ e ∈ b.edges, e.source.Within n d.sites.length)
    (ht : ∀ e ∈ b.edges, e.target = .exit ∨ e.target.Within n d.sites.length) :
    (d ++ b).Inside n fr := by
  have hlen : (d ++ b).sites = d.sites := by simp [hb]
  constructor <;> intro e he <;> rw [edges_append, List.mem_append] at he <;> rw [hlen]
  · exact he.elim (h.source e) fun he => .inr (hs e he)
  · exact he.elim (h.target e) (ht e)

/-- The edges to a site come from the frontier. -/
theorem ofSite {s : Site} (hs : s.ordinal = n) : (Draft.ofSite s fr).Inside n fr := by
  constructor <;> intro e he <;> obtain ⟨hsrc, htgt⟩ := source_mem_of_leadTo he
  · exact .inl hsrc
  · exact .inr ⟨n, by rw [htgt, hs], Nat.le_refl n, by simp [Draft.ofSite]⟩

end Draft.Inside

/-- What leaves a draft comes from the frontier or from its own sites. -/
theorem Draft.Carries.within {m : Marks} {ret : Bool} {n : Nat} {fr out : Frontier} {d : Draft}
    (h : d.Carries m ret n fr out) :
    ∀ v ∈ sources out, v ∈ sources fr ∨ v.Within n d.sites.length :=
  fun v hv => (h.out v hv).imp_right Vertex.Among.within

/-! ## Expressions and heads -/

/-- A flow through a statement's expression is laid out in order, and its edges do not reach beyond
it. -/
structure Flow.Inside (h : Host) (n : Nat) (fr : Frontier) (f : Flow) : Prop where
  laid : f.Laid h n fr
  edges : f.draft.Inside n fr

namespace Flow.Inside

variable {h : Host} {n : Nat} {fr : Frontier} {f : Flow}

/-- What leaves the flow through an expression comes from the frontier or from its own sites. -/
theorem out (hf : f.Inside h n fr) :
    ∀ v ∈ sources f.exits.out, v ∈ sources fr ∨ v.Within n f.draft.sites.length := by
  obtain ⟨m, hm⟩ := hf.laid.hosted.numbered.exists_marks
  exact (hf.laid.carries m hm).within

/-- An expression without connectives has at most the edges to its own site. -/
theorem atFragment {o : Option Nat} {evaluated : Nat → Draft}
    (he : ∀ o, (evaluated o).edges = []) :
    (Flow.atFragment h n o fr evaluated).draft.Inside n fr := by
  cases o with
  | some o => exact .of_no_edges (he o)
  | none =>
    have hs : (Draft.ofSite (h.fragment n) fr).Inside n fr := .ofSite rfl
    exact hs.append (.of_no_edges (he n) : (evaluated n).Inside _ fr) fun v hv => .inl hv

/-- The flow through an expression stands behind the site of its statement. -/
theorem behindSite {s : Site} (hs : s.ordinal = n) (hf : f.Inside h (n + 1) (onward n)) :
    (Draft.ofSite s fr ++ f.draft).Inside n fr := by
  refine (Draft.Inside.ofSite hs).append hf.edges fun v hv => .inr ?_
  rw [sources_onward, List.mem_singleton] at hv
  exact ⟨n, hv, Nat.le_refl n, by simp [Draft.ofSite]⟩

end Flow.Inside

/-- The edges of every flow through an expression stay inside. -/
theorem Expr.inside (h : Host) : Expr.FlowInvariant h (fun _ n _ fr f => f.Inside h n fr)
    (fun _ n _ fr f => f.Inside h n fr) (fun _ _ n fr f => f.Inside h n fr) where
  plain hc := ⟨(Expr.laid h).plain hc, Flow.Inside.atFragment fun _ => rfl⟩
  finish _ _ _ _ hq :=
    ⟨hq.laid.finish, hq.edges.append (Flow.Inside.atFragment fun _ => rfl) hq.out⟩
  logic {_ c _ _ _ _ _ left _} hl hr := by
    refine ⟨hl.laid.logic hr.laid, hl.edges.append hr.edges fun v hv => hl.out v ?_⟩
    cases c <;> simp only [Flow.entry, mem_sources_labelled] at hv <;> simp [hv]
  nil := ⟨(Expr.laid h).nil, .of_no_edges rfl⟩
  cons hf hl := ⟨hf.laid.andThen hl.laid, hf.edges.append hl.edges hf.out⟩
  nested _ hp := hp
  leaf _ hp := ⟨hp.laid.behindSite, hp.behindSite rfl⟩

namespace Stmt

variable {h : Host} {e : Expr} {n : Nat} {fr : Frontier} {r : Passage}

/-- The edges of a head do not reach beyond it. -/
theorem inside_head {d : Draft} (H : Headed h e n fr d) : d.Inside n fr := by
  cases H with
  | bare => exact .ofSite rfl
  | flow hf => exact ((Expr.inside h).flow hf).behindSite rfl

/-- The edges of what a loop evaluates beside its condition do not reach beyond it. -/
theorem inside_side (H : Side h e n fr r) : r.draft.Inside n fr := by
  cases H with
  | absent => exact .of_no_edges rfl
  | site _ hf => exact ((Expr.inside h).flow hf).behindSite rfl

end Stmt

/-! ## Fences -/

/-- An edge from a `return` stays in it or leaves the function; `home` tells the places of
statements. -/
def Edge.Stays (m : Marks) (home : Nat → Path) (e : Edge) : Prop :=
  ∀ u v, e.source = .site u → e.target = .site v → m.inReturn u = true → home v = home u

/-- An edge into an arm of a branch comes from the same arm or from before the branch. -/
def Edge.Fair (arms : List (List Region)) (e : Edge) : Prop :=
  ∀ u v, e.source = .site u → e.target = .site v → ∀ arm ∈ arms, v ∈ ordinalsAll arm →
    u ∈ ordinalsAll arm ∨ ∀ k ∈ armOrdinals arms, u < k

/-- An edge into an arm comes from a frontier or from the same arm. -/
def Edge.Enters (fr : Frontier) (arm : List Region) (e : Edge) : Prop :=
  ∀ v ∈ ordinalsAll arm, e.target = .site v →
    e.source ∈ sources fr ∨ ∃ u ∈ ordinalsAll arm, e.source = .site u

/-- The flow through a statement crosses no fences: its edges stay inside, those of a `return` stay
in it, and those into an arm of a branch come from before the branch, which is never the first
thing. -/
structure Passage.Fenced (sc : Scope) (n : Nat) (fr : Frontier) (r : Passage) : Prop where
  laid : r.Laid sc n fr
  inside : r.draft.Inside n fr
  stays (m : Marks) (home : Nat → Path) : m.Of r.draft.sites →
    (∀ s ∈ r.draft.sites, home s.ordinal = s.stmt) → (∀ v ∈ sources fr, v.Before m false n) →
    ∀ e ∈ r.draft.edges, e.Stays m home
  behind : ∀ arms ∈ branchesAll r.draft.region, ∀ k ∈ armOrdinals arms, n < k
  fair : ∀ arms ∈ branchesAll r.draft.region, ∀ e ∈ r.draft.edges, e.Fair arms

/-- A site from which control goes on to a statement belongs to no `return`. -/
theorem Vertex.Before.inReturn_eq_false {m : Marks} {n u : Nat}
    (h : (Vertex.site u).Before m false n) : m.inReturn u = false := by
  rcases h with h | ⟨o, h, -, hr⟩
  · cases h
  · cases h
    simpa using hr

/-- An edge that does not begin in a `return` has none to stay in. -/
theorem Edge.Stays.of_source {m : Marks} {home : Nat → Path} {e : Edge}
    (h : ∀ u, e.source = .site u → m.inReturn u = false) : e.Stays m home := by
  intro u v hu _ hr
  rw [h u hu] at hr
  cases hr

/-- An edge that ends outside of the arms is fair. -/
theorem Edge.Fair.of_target {arms : List (List Region)} {e : Edge}
    (h : ∀ v, e.target = .site v → v ∉ armOrdinals arms) : e.Fair arms :=
  fun _ v _ hv arm ha hm => absurd (mem_armOrdinals.2 ⟨arm, ha, hm⟩) (h v hv)

/-- The sites that a branch of a numbered draft holds are in its range. -/
theorem Draft.Numbered.bounds_of_branch {n : Nat} {d : Draft} (h : d.Numbered n)
    {arms : List (List Region)} (ha : arms ∈ branchesAll d.region) {k : Nat}
    (hk : k ∈ armOrdinals arms) : n ≤ k ∧ k < n + d.sites.length := by
  have hm := (sublist_of_branchesAll ha).subset hk
  rwa [h.region, List.mem_range'_1] at hm

/-- An edge that ends inside a draft is fair to the branches of other drafts. -/
theorem Draft.Inside.fair {n k : Nat} {fr : Frontier} {a b : Draft} (ha : a.Inside n fr)
    (hb : b.Numbered k) (hd : n + a.sites.length ≤ k ∨ k + b.sites.length ≤ n)
    {arms : List (List Region)} (harms : arms ∈ branchesAll b.region) {e : Edge}
    (he : e ∈ a.edges) : e.Fair arms := by
  refine .of_target fun v hv hm => ?_
  have hbounds := hb.bounds_of_branch harms hm
  rcases ha.target e he with hexit | ⟨o, ho, hl, hu⟩
  · rw [hv] at hexit
    cases hexit
  · rw [hv, Vertex.site.injEq] at ho
    omega

namespace Passage.Fenced

variable {sc : Scope} {n : Nat} {fr fr' out : Frontier} {a b r : Passage} {d : Draft} {p : Path}

/-- What leaves a passage comes from the frontier or from its own sites. -/
theorem out_within (h : r.Fenced sc n fr) :
    ∀ v ∈ sources r.out, v ∈ sources fr ∨ v.Within n r.draft.sites.length := by
  obtain ⟨m, hm⟩ := h.laid.numbered.exists_marks
  exact (h.laid.carries m hm).within

/-- The empty passage has nothing to cross. -/
theorem empty : (⟨{}, fr⟩ : Passage).Fenced sc n fr :=
  ⟨.empty, .of_no_edges rfl, by simp, by simp [branchesAll], by simp⟩

/-- A frontier may hold more than what leads into a passage. -/
theorem weaken (h : r.Fenced sc n fr) (hs : ∀ v ∈ sources fr, v ∈ sources fr') :
    r.Fenced sc n fr' :=
  { h with
    laid := h.laid.weaken hs
    inside := h.inside.weaken hs
    stays := fun m home hm hh hfr => h.stays m home hm hh fun v hv => hfr v (hs v hv) }

/-- Not all that leaves a passage need be led on. -/
theorem sub (h : r.Fenced sc n fr) (hs : ∀ v ∈ sources out, v ∈ sources r.out) :
    (⟨r.draft, out⟩ : Passage).Fenced sc n fr :=
  { h with laid := h.laid.sub hs }

/-- What breaks and continues may be led on with the rest. -/
theorem gather (h : r.Fenced sc n fr) :
    (⟨r.draft, r.out ++ r.draft.breaks ++ r.draft.continues⟩ : Passage).Fenced sc n fr :=
  { h with laid := h.laid.gather }

/-- A statement and the next one, which is entered from the same frontier or from the first one. -/
theorem append (ha : a.Fenced sc n fr) (hb : b.Fenced sc (n + a.draft.sites.length) fr')
    (hs : ∀ v ∈ sources fr', v ∈ sources fr ∨ v ∈ sources a.out) :
    (⟨a.draft ++ b.draft, a.out ++ b.out⟩ : Passage).Fenced sc n fr where
  laid := ha.laid.append hb.laid hs
  inside := ha.inside.append hb.inside fun v hv => (hs v hv).elim .inl (ha.out_within v)
  stays m home hm hh hfr e he := by
    obtain ⟨hma, hmb⟩ := Marks.of_append.1 hm
    rw [Draft.sites_append, List.forall_mem_append] at hh
    rw [Draft.edges_append, List.mem_append] at he
    rcases he with he | he
    · exact ha.stays m home hma hh.1 hfr e he
    · refine hb.stays m home hmb hh.2 (fun v hv => ?_) e he
      rcases hs v hv with hv | hv
      · exact (hfr v hv).mono (by omega)
      · exact (ha.laid.carries m hma).before hfr v hv
  behind arms harms k hk := by
    rw [Draft.region_append, Diverge.branchesAll_append, List.mem_append] at harms
    rcases harms with harms | harms
    · exact ha.behind arms harms k hk
    · have := hb.behind arms harms k hk
      omega
  fair arms harms e he := by
    rw [Draft.region_append, Diverge.branchesAll_append, List.mem_append] at harms
    rw [Draft.edges_append, List.mem_append] at he
    rcases harms with harms | harms <;> rcases he with he | he
    · exact ha.fair arms harms e he
    · exact hb.inside.fair ha.laid.numbered (.inr (Nat.le_refl _)) harms he
    · exact ha.inside.fair hb.laid.numbered (.inl (Nat.le_refl _)) harms he
    · exact hb.fair arms harms e he

/-- One statement after another. -/
theorem andThen (ha : a.Fenced sc n fr) (hb : b.Fenced sc (n + a.draft.sites.length) a.out) :
    (⟨a.draft ++ b.draft, b.out⟩ : Passage).Fenced sc n fr :=
  (ha.append hb fun _ hv => .inr hv).sub fun v hv => by
    rw [sources_append]
    exact List.mem_append_right _ hv

/-- The sites of a statement's own expressions stand in no branch. -/
theorem no_branches {h : Host} (hd : d.Hosted h n) : branchesAll d.region = [] := by
  rw [hd.region]
  generalize d.sites.map (·.ordinal) = ordinals
  induction ordinals with
  | nil => rfl
  | cons o rest ih => simpa [branchesAll, Region.branches] using ih

/-- Expressions that a statement evaluates outside of a `return`. -/
theorem of_evaluates {h : Host} (hr : r.Evaluates h n fr) (hi : r.draft.Inside n fr)
    (hl : h.inLoop = sc.inLoop) (hret : h.inReturn = false) : r.Fenced sc n fr where
  laid := .of_evaluates hr hl hret
  inside := hi
  stays m home hm _ hfr e he := by
    refine .of_source fun u hu => ?_
    rcases hi.source e he with hs | ⟨o, ho, hlo, hup⟩
    · exact (hu ▸ hfr _ hs).inReturn_eq_false
    · cases hu.symm.trans ho
      obtain ⟨s, hs, rfl⟩ := hr.hosted.numbered.exists_site hlo hup
      rw [(hm s hs).2, (hr.hosted.host s hs).2.2, hret]
  behind := by simp [no_branches hr.hosted]
  fair := by simp [no_branches hr.hosted]

/-- A statement with one site. -/
theorem ofSite {s : Site} (hl : (⟨d, out⟩ : Passage).Laid sc n fr) (hd : d.sites = [s])
    (hn : s.ordinal = n) (he : d.edges = leadTo fr (.site n)) (hreg : d.region = [.site n]) :
    (⟨d, out⟩ : Passage).Fenced sc n fr where
  laid := hl
  inside := (Draft.Inside.ofSite hn).congr hd (by rw [he, ← hn]; rfl)
  stays m home _ _ hfr e hm := by
    refine .of_source fun u hu => ?_
    rw [show d.edges = _ from he] at hm
    exact (hu ▸ hfr _ (source_mem_of_leadTo hm).1).inReturn_eq_false
  behind := by simp [hreg, branchesAll, Region.branches]
  fair := by simp [hreg, branchesAll, Region.branches]

/-- A `return` and the edges from it to the exit. -/
theorem ofReturn {label : String} {head : Head} {exits : Bool}
    (hh : head.Laid ⟨p, .ret, label, sc.inLoop, true⟩ n fr) (hi : head.draft.Inside n fr) :
    (Stmt.closeReturn p exits head).Fenced sc n fr := by
  have hs : (Stmt.closeReturn p exits head).draft.sites = head.draft.sites := by
    simp [Stmt.closeReturn]
  obtain ⟨m, hm⟩ := hh.hosted.numbered.exists_marks
  have hin : (Stmt.closeReturn p exits head).draft.Inside n fr := by
    refine hi.withEdges rfl (fun e he => ?_) fun e he => ?_ <;> simp only at he <;> split at he
    · exact (hh.among m hm _ (mem_sources_labelled.1 (source_mem_of_leadTo he).1)).within
    · simp at he
    · exact .inl (source_mem_of_leadTo he).2
    · simp at he
  have hnone : branchesAll (Stmt.closeReturn p exits head).draft.region = [] := by
    simp [Stmt.closeReturn, Diverge.branchesAll_append, no_branches hh.hosted, branchesAll,
      Region.branches]
  refine ⟨.ofReturn hh, hin, fun m home hm hhome hfr e he u v hu hv hr => ?_, by simp [hnone],
    by simp [hnone]⟩
  -- Every site here is one of the same `return`.
  have hplace : ∀ {o}, (Vertex.site o).Within n head.draft.sites.length → home o = p := by
    rintro _ ⟨o, ⟨⟩, hlo, hup⟩
    obtain ⟨s, hm, rfl⟩ := hh.hosted.numbered.exists_site hlo hup
    rw [hhome s (hs ▸ hm), (hh.hosted.host s hm).1]
  have hsrc : (Vertex.site u).Within n head.draft.sites.length := by
    refine (hs ▸ hu ▸ hin.source e he).resolve_left fun hs => ?_
    rw [(hfr _ hs).inReturn_eq_false] at hr
    cases hr
  have htgt : (Vertex.site v).Within n head.draft.sites.length := by
    refine (hs ▸ hv ▸ hin.target e he).resolve_left fun hexit => ?_
    cases hexit
  rw [hplace hsrc, hplace htgt]

/-- A loop, from its statements and the edges that lead back. -/
theorem close {back leave : Frontier} (hround : Laid.Round sc n fr d out)
    (h : (⟨d, out⟩ : Passage).Fenced sc.inLoopBody n fr) (hb : ∀ v ∈ sources back, v ∈ sources out)
    (hl : ∀ v ∈ sources leave, v ∈ sources out) :
    (⟨((d ++ Laid.Round.backEdges n back).asLoop p).withoutBreaks.withoutContinues, leave⟩ :
      Passage).Fenced sc n fr := by
  have hback : ∀ (m : Marks), m.Of d.sites → ∀ e ∈ (Laid.Round.backEdges n back).edges,
      e.source.Among m false n d.sites.length ∧ e.target = .site n := by
    intro m hm e he
    obtain ⟨hs, ht⟩ := source_mem_of_leadTo he
    exact ⟨hround.among m hm _ (hb _ (mem_sources_labelled.1 hs)), ht⟩
  have hreg : branchesAll
      ((d ++ Laid.Round.backEdges n back).asLoop p).withoutBreaks.withoutContinues.region
        = branchesAll d.region := by
    simp [Draft.asLoop, Draft.withoutBreaks, Draft.withoutContinues, Laid.Round.backEdges,
      Draft.ofEdges, branchesAll, Region.branches]
  refine ⟨hround.close hb hl, ?_, fun m home hm hh hfr e he => ?_, ?_, fun arms harms e he => ?_⟩
  · obtain ⟨m, hm⟩ := hround.laid.numbered.exists_marks
    refine Draft.Inside.congr (h.inside.withEdges rfl (fun e he => ?_) fun e he => ?_) rfl rfl
    · exact (hback m hm e he).1.within
    · obtain ⟨⟨o, -, hlo, hup, -⟩, ht⟩ := hback m hm e he
      exact .inr ⟨n, ht, Nat.le_refl n, Nat.lt_of_le_of_lt hlo hup⟩
  · have hm : m.Of d.sites := Laid.Round.sites_backEdges (n := n) (d := d) ▸ hm
    have hh : ∀ s ∈ d.sites, home s.ordinal = s.stmt :=
      Laid.Round.sites_backEdges (n := n) (d := d) ▸ hh
    rcases List.mem_append.1 he with he | he
    · exact h.stays m home hm hh hfr e he
    · obtain ⟨⟨o, ho, -, -, hro⟩, -⟩ := hback m hm e he
      refine .of_source fun u hu => ?_
      cases hu.symm.trans ho
      simpa using hro
  · rw [hreg]
    exact h.behind
  · rw [hreg] at harms
    obtain ⟨m, hm⟩ := hround.laid.numbered.exists_marks
    rcases List.mem_append.1 he with he | he
    · exact h.fair arms harms e he
    · -- The loop goes back to its first site, which no branch holds.
      refine .of_target fun v hv hmem => ?_
      cases hv.symm.trans (hback m hm e he).2
      exact Nat.lt_irrefl n (h.behind arms harms n hmem)

variable {label : String} {head : Head} {body step : Passage}

/-- A loop that is tested first, with the edges that lead back to its header. -/
theorem closeLoop (hh : head.Laid (Stmt.headerHost p label) n fr) (hi : head.draft.Inside n fr)
    (hb : body.Fenced sc.inLoopBody (n + head.draft.sites.length)
      (labelled head.exits.yes .posNext))
    (hs : step.Evaluates (Stmt.headerHost p label)
      (n + (head.draft.sites.length + body.draft.sites.length)) (Stmt.bodyEnd body))
    (hsi : step.draft.Inside (n + (head.draft.sites.length + body.draft.sites.length))
      (Stmt.bodyEnd body)) : (Stmt.closeLoop p n head body step).Fenced sc n fr := by
  have hn : (head.draft ++ body.draft).sites.length
      = head.draft.sites.length + body.draft.sites.length := by simp
  have hhead : (⟨head.draft, head.exits.out⟩ : Passage).Fenced sc.inLoopBody n fr :=
    .of_evaluates (.of_head hh) hi rfl rfl
  have hstep : step.Fenced sc.inLoopBody (n + (head.draft ++ body.draft).sites.length)
      (Stmt.bodyEnd body) := .of_evaluates (hn ▸ hs) (hn ▸ hsi) rfl rfl
  have hloop := (hhead.append hb.gather fun v hv => .inr ?_).append hstep fun v hv => .inr ?_
  · refine close (Laid.Round.preTested hh hb.laid hs) hloop (fun v hv => ?_) fun v hv => ?_
    · simp only [sources_append, List.mem_append]
      exact .inr hv
    · simp only [sources_append, List.mem_append, mem_sources_labelled] at hv
      simp only [sources_append, List.mem_append, Exits.mem_sources_out]
      grind
  · rw [mem_sources_labelled] at hv
    simp [hv]
  · rw [sources_append]
    exact List.mem_append_right _ (Laid.mem_sources_of_bodyEnd hv)

/-- A loop that is tested behind its body, with the edges that lead back to its first site. -/
theorem closeDoWhile (hb : body.Fenced sc.inLoopBody n fr)
    (hh : head.Laid (Stmt.headerHost p label) (n + body.draft.sites.length) (Stmt.bodyEnd body))
    (hi : head.draft.Inside (n + body.draft.sites.length) (Stmt.bodyEnd body)) :
    (Stmt.closeDoWhile p n body head).Fenced sc n fr := by
  have hhead : (⟨head.draft, head.exits.out⟩ : Passage).Fenced sc.inLoopBody
      (n + body.draft.sites.length) (Stmt.bodyEnd body) := .of_evaluates (.of_head hh) hi rfl rfl
  have hloop : (⟨body.draft ++ head.draft, body.draft.breaks ++ head.exits.out⟩ : Passage).Fenced
      sc.inLoopBody n fr :=
    (hb.gather.append hhead fun v hv => .inr (Laid.mem_sources_of_bodyEnd hv)).sub fun v hv => ?_
  · refine close (Laid.Round.postTested hb.laid hh) hloop (fun v hv => ?_) fun v hv => ?_
    · simp only [sources_append, List.mem_append, Exits.mem_sources_out]
      exact .inr (.inl hv)
    · simp only [sources_append, List.mem_append, mem_sources_labelled] at hv
      simp only [sources_append, List.mem_append, Exits.mem_sources_out]
      grind
  · simp only [sources_append, List.mem_append] at hv ⊢
    exact hv.imp_left fun hv => .inl (.inr hv)

/-- A branch behind a head: its arms are entered from the head. -/
theorem branch {sc' : Scope} {h : Host} {arms : List (List Region)}
    (hlaid : (⟨head.draft ++ d, out⟩ : Passage).Laid sc n fr) (hh : head.Laid h n fr)
    (hi : head.draft.Inside n fr) (hne : head.draft.sites ≠ [])
    (hr : r.Fenced sc' (n + head.draft.sites.length) head.exits.out) (hl : h.inLoop = sc'.inLoop)
    (hret : h.inReturn = false)
    (hs : d.sites = r.draft.sites) (he : d.edges = r.draft.edges)
    (hreg : d.region = [.branch p arms])
    (hord : armOrdinals arms = ordinalsAll r.draft.region)
    (hbr : armBranches arms = branchesAll r.draft.region)
    (hent : ∀ arm ∈ arms, ∀ e ∈ r.draft.edges, e.Enters head.exits.out arm) :
    (⟨head.draft ++ d, out⟩ : Passage).Fenced sc n fr := by
  have hpos : 0 < head.draft.sites.length := List.length_pos_iff.2 hne
  have hhead : (⟨head.draft, head.exits.out⟩ : Passage).Fenced sc' n fr :=
    .of_evaluates (.of_head hh) hi hl hret
  have hw := hhead.append hr fun _ hv => .inr hv
  have hwsites : (head.draft ++ d).sites = (head.draft ++ r.draft).sites := by simp [hs]
  have hwedges : (head.draft ++ d).edges = (head.draft ++ r.draft).edges := by simp [he]
  have hnone : branchesAll head.draft.region = [] := no_branches hh.hosted
  have hlow : ∀ k ∈ armOrdinals arms, n + head.draft.sites.length ≤ k := by
    intro k hk
    rw [hord, hr.laid.numbered.region, List.mem_range'_1] at hk
    exact hk.1
  have hbranches : ∀ {x}, x ∈ branchesAll (head.draft ++ d).region →
      x = arms ∨ x ∈ branchesAll (head.draft ++ r.draft).region := by
    intro x hx
    simpa [hreg, Diverge.branchesAll_append, hnone, branchesAll, Region.branches, hbr] using hx
  refine ⟨hlaid, hw.inside.congr hwsites hwedges, fun m home hm hhome hfr e hmem => ?_,
    fun x hx k hk => ?_, fun x hx e hmem => ?_⟩
  · exact hw.stays m home (hwsites ▸ hm) (hwsites ▸ hhome) hfr e (hwedges ▸ hmem)
  · rcases hbranches hx with rfl | hx
    · have := hlow k hk
      omega
    · exact hw.behind x hx k hk
  · rw [show (⟨head.draft ++ d, out⟩ : Passage).draft.edges = _ from hwedges] at hmem
    rcases hbranches hx with rfl | hx
    · rw [Draft.edges_append, List.mem_append] at hmem
      rcases hmem with hmem | hmem
      · refine .of_target fun v hv hm => ?_
        have hv' := hlow v hm
        rcases hi.target e hmem with ht | ⟨o, ho, -, hup⟩
        · cases hv.symm.trans ht
        · cases hv.symm.trans ho
          omega
      · intro u v hu hv arm harm hm
        rcases hent arm harm e hmem v hm hv with hsrc | ⟨o, hom, ho⟩
        · refine .inr fun k hk => ?_
          obtain ⟨m, hmarks⟩ := hh.hosted.numbered.exists_marks
          obtain ⟨o, ho, -, hup, -⟩ := hh.among m hmarks _ hsrc
          cases hu.symm.trans ho
          have := hlow k hk
          omega
        · cases hu.symm.trans ho
          exact .inl hom
    · exact hw.fair x hx e hmem

end Passage.Fenced

/-! ## Arms -/

namespace Edge.Enters

variable {fr fr' : Frontier} {arm : List Region} {e : Edge}

/-- The frontier may hold more. -/
theorem mono (h : e.Enters fr arm) (hs : ∀ v ∈ sources fr, v ∈ sources fr') : e.Enters fr' arm :=
  fun v hv ht => (h v hv ht).imp_left (hs _)

/-- An edge that ends elsewhere does not enter the arm. -/
theorem of_target (h : ∀ v, e.target = .site v → v ∉ ordinalsAll arm) : e.Enters fr arm :=
  fun v hv ht => absurd hv (h v ht)

/-- The edges of a draft enter its own regions from the frontier that leads into it. -/
theorem of_inside {n : Nat} {d : Draft} (hn : d.Numbered n) (hi : d.Inside n fr)
    (he : e ∈ d.edges) : e.Enters fr d.region := by
  intro v _ _
  refine (hi.source e he).imp_right fun ⟨u, hu, hlo, hup⟩ => ⟨u, ?_, hu⟩
  rw [hn.region, List.mem_range'_1]
  exact ⟨hlo, hup⟩

/-- The edges of a draft do not enter regions that have none of its sites. -/
theorem of_outside {n : Nat} {d : Draft} (hi : d.Inside n fr') (he : e ∈ d.edges)
    (ho : ∀ o ∈ ordinalsAll arm, o < n ∨ n + d.sites.length ≤ o) : e.Enters fr arm := by
  refine of_target fun v hv hm => ?_
  rcases hi.target e he with ht | ⟨o, hov, hlo, hup⟩
  · cases hv.symm.trans ht
  · cases hv.symm.trans hov
    have := ho v hm
    omega

end Edge.Enters

/-- The branches in two lists of arms are those of the first, then those of the second. -/
theorem armBranches_append (a b : List (List Region)) :
    armBranches (a ++ b) = armBranches a ++ armBranches b := by
  induction a with
  | nil => rfl
  | cons arm rest ih => simp [armBranches, ih]

/-- The arms of a switch are entered from its subject, the first one also by falling through. -/
structure Stmt.Arms.Fenced (sc : Scope) (n : Nat) (subject fallthrough : Frontier) (a : Arms) :
    Prop where
  passage : (⟨a.draft, a.out⟩ : Passage).Fenced sc n (subject ++ fallthrough)
  ordinals : armOrdinals a.arms = ordinalsAll a.draft.region
  branches : armBranches a.arms = branchesAll a.draft.region
  first : ∀ arm ∈ a.arms.head?, ∀ e ∈ a.draft.edges, e.Enters (subject ++ fallthrough) arm
  later : ∀ arm ∈ a.arms.tail, ∀ e ∈ a.draft.edges, e.Enters subject arm

namespace Stmt.Arms.Fenced

variable {sc : Scope} {n : Nat} {subject fallthrough : Frontier}
  {first : Passage} {isDefault : Bool} {later : Arms}

/-- A switch without cases has nothing to cross. -/
theorem nil : (⟨{}, [], fallthrough, false⟩ : Arms).Fenced sc n subject fallthrough :=
  ⟨Passage.Fenced.empty.weaken fun v hv => by simp [hv], rfl, rfl, by simp, by simp⟩

/-- The branches in the arms of a switch are those of its cases. -/
theorem branches_cons (h : armBranches later.arms = branchesAll later.draft.region) :
    armBranches (Arms.cons first isDefault later).arms
      = branchesAll (Arms.cons first isDefault later).draft.region := by
  simp only [Arms.cons]
  split <;> simp_all [armBranches, Diverge.branchesAll_append]

/-- The sites of the arms are those of their draft. -/
theorem bounds (h : later.Fenced sc n subject fallthrough) {arm : List Region}
    (ha : arm ∈ later.arms) {o : Nat} (ho : o ∈ ordinalsAll arm) :
    n ≤ o ∧ o < n + later.draft.sites.length := by
  have hm : o ∈ armOrdinals later.arms := mem_armOrdinals.2 ⟨arm, ha, ho⟩
  rwa [h.ordinals, h.passage.laid.numbered.region, List.mem_range'_1] at hm

/-- The edges into an arm of the cases that follow one come from these cases. -/
theorem enters_later {fr : Frontier} (hf : first.draft.Inside n fr)
    (hl : later.Fenced sc (n + first.draft.sites.length) subject fallthrough) {arm : List Region}
    (ha : arm ∈ later.arms) {enter : Frontier}
    (he : ∀ e ∈ later.draft.edges, e.Enters enter arm) :
    ∀ e ∈ (first.draft ++ later.draft).edges, e.Enters enter arm := by
  intro e hm
  rw [Draft.edges_append, List.mem_append] at hm
  rcases hm with hm | hm
  · exact .of_outside hf hm fun o ho => .inr (hl.bounds ha ho).1
  · exact he e hm

/-- A case and those that follow it. If the flow falls through, the arm goes on with the next
case. -/
theorem cons (hf : first.Fenced sc n
      (labelled subject .switchCase ++ labelled fallthrough .nextLine))
    (hl : later.Fenced sc (n + first.draft.sites.length) subject first.out) :
    (Arms.cons first isDefault later).Fenced sc n subject fallthrough := by
  have hsub : ∀ v ∈ sources (labelled subject .switchCase ++ labelled fallthrough .nextLine),
      v ∈ sources (subject ++ fallthrough) := fun v hv => by simpa using hv
  have hown : ∀ e ∈ (first.draft ++ later.draft).edges,
      e.Enters (subject ++ fallthrough) first.draft.region := by
    intro e he
    rw [Draft.edges_append, List.mem_append] at he
    rcases he with he | he
    · exact (Edge.Enters.of_inside hf.laid.numbered hf.inside he).mono hsub
    · refine .of_outside hl.passage.inside he fun o ho => .inl ?_
      rw [hf.laid.numbered.region, List.mem_range'_1] at ho
      exact ho.2
  have hlater : ∀ arm ∈ later.arms.tail, ∀ e ∈ (first.draft ++ later.draft).edges,
      e.Enters subject arm := fun arm ha =>
    enters_later hf.inside hl (List.mem_of_mem_tail ha) (hl.later arm ha)
  have hpassage : (⟨first.draft ++ later.draft, later.out⟩ : Passage).Fenced sc n
      (subject ++ fallthrough) := by
    refine ((hf.weaken hsub).append hl.passage fun v hv => ?_).sub fun v hv => ?_
    · simp only [sources_append, List.mem_append] at hv ⊢
      exact hv.imp_left .inl
    · rw [sources_append]
      exact List.mem_append_right _ hv
  refine ⟨hpassage, ordinals_cons hl.ordinals, branches_cons hl.branches, ?_, ?_⟩ <;>
    simp only [Arms.cons] <;> split
  · next next others _ hn =>
    intro arm ha e he v hv ht
    cases ha
    have hnext : e.Enters (subject ++ first.out) next :=
      enters_later hf.inside hl (by simp [hn]) (hl.first next (by simp [hn])) e he
    rw [ordinalsAll_append, List.mem_append] at hv
    rw [ordinalsAll_append]
    rcases hv with hv | hv
    · refine (hown e he v hv ht).imp_right ?_
      rintro ⟨u, hm, hu⟩
      exact ⟨u, List.mem_append_left _ hm, hu⟩
    · rcases hnext v hv ht with hs | ⟨u, hm, hu⟩
      · -- What falls into the next case comes from the subject or from the case before it.
        rw [sources_append, List.mem_append] at hs
        rcases hs with hs | hs
        · exact .inl (by simp [hs])
        · rcases hf.out_within _ hs with hs | ⟨u, hu, hlo, hup⟩
          · exact .inl (hsub _ hs)
          · refine .inr ⟨u, List.mem_append_left _ ?_, hu⟩
            rw [hf.laid.numbered.region, List.mem_range'_1]
            exact ⟨hlo, hup⟩
      · exact .inr ⟨u, List.mem_append_right _ hm, hu⟩
  · intro arm ha
    cases ha
    exact hown
  · next next others _ hn =>
    intro arm ha
    exact hlater arm (by rw [hn]; exact ha)
  · next hno =>
    intro arm ha
    cases hn : later.arms with
    | nil => simp [hn] at ha
    | cons next others =>
      have hout : first.out = [] := by
        cases hfirst : first.out with
        | nil => rfl
        | cons x xs => exact absurd hn (hno x xs next others hfirst)
      rw [hn, List.tail_cons, List.mem_cons] at ha
      rcases ha with rfl | ha
      · have hfirst := hl.first arm (by simp [hn])
        rw [hout, List.append_nil] at hfirst
        exact enters_later hf.inside hl (by simp [hn]) hfirst
      · exact hlater arm (by rw [hn]; exact ha)

end Stmt.Arms.Fenced

/-- Every flow through a statement crosses no fences. -/
theorem Stmt.fenced : Stmt.FlowInvariant (fun sc _ c fr r => r.Fenced sc c.next fr)
    (fun sc _ c fr r => r.Fenced sc c.next fr)
    (fun sc _ c subject fallthrough a => a.Fenced sc c.next subject fallthrough) where
  absent := .empty
  block hr := hr
  exprStmt hh :=
    .of_evaluates (.of_head (.optional hh)) (inside_head (headed_of_optional hh)) rfl rfl
  decl hh := .of_evaluates (.of_head (.optional hh)) (inside_head (headed_of_optional hh)) rfl rfl
  ifElse {sc p _ _ _ c fr _ head yes no} hh hy hn := by
    have hy' : yes.Fenced sc (c.next + head.draft.sites.length) head.exits.out :=
      hy.weaken fun v hv => by rw [mem_sources_labelled] at hv; simp [hv]
    have hn' : no.Fenced sc (c.next + head.draft.sites.length + yes.draft.sites.length)
        head.exits.out := hn.weaken fun v hv => by rw [mem_sources_labelled] at hv; simp [hv]
    refine .branch (.ifElse (.evaluating hh) rfl rfl hy.laid hn.laid) (Head.Laid.evaluating hh)
      (inside_head (headed_of_evaluating hh)) (headed_of_evaluating hh).sites_ne_nil
      (hy'.append hn' fun _ hv => .inl hv) rfl rfl rfl rfl rfl (by simp [armOrdinals])
      (by simp [armBranches, Diverge.branchesAll_append]) fun arm ha e he => ?_
    rw [Draft.edges_append, List.mem_append] at he
    simp only [List.mem_cons, List.not_mem_nil, or_false] at ha
    rcases ha with rfl | rfl <;> rcases he with he | he
    · exact .of_inside hy'.laid.numbered hy'.inside he
    · refine .of_outside hn'.inside he fun o ho => .inl ?_
      rw [hy'.laid.numbered.region, List.mem_range'_1] at ho
      exact ho.2
    · refine .of_outside hy'.inside he fun o ho => .inr ?_
      rw [hn'.laid.numbered.region, List.mem_range'_1] at ho
      exact ho.1
    · exact .of_inside hn'.laid.numbered hn'.inside he
  whileLoop hh hb :=
    .closeLoop (.loop hh) (inside_head (headed_of_loop hh)) hb .nothing (.of_no_edges rfl)
  forLoop {_ _ _ _ _ _ _ c d _ _ first start _ _ _} hf hst hd hh hb hs := by
    have hn : d.next = c.next + (first.draft ++ start.draft).sites.length :=
      hd ▸ Cursor.next_after_after
    have hinit := hf.andThen (.of_evaluates (.init hst) (inside_side (side_of_init hst)) rfl rfl)
    have hs' := by simpa [Cursor.after, Nat.add_assoc] using hs
    exact hinit.andThen
      (hn ▸ .closeLoop (.loop hh) (inside_head (headed_of_loop hh))
        hb (.step hs') (inside_side (side_of_step hs')))
  foreach hh hb :=
    have hl := (Head.Laid.evaluating hh).exits fun v hv => by simpa [Exits.out] using hv
    have hi := inside_head (headed_of_evaluating hh)
    .closeLoop hl hi hb .nothing (.of_no_edges rfl)
  doWhile hb hh := .closeDoWhile hb (.loop hh) (inside_head (headed_of_loop hh))
  switch {sc p _ _ c _ _ head arms} hh ha := by
    have hp : (⟨arms.draft, arms.out⟩ : Passage).Fenced sc.inSwitchArm
        (c.next + head.draft.sites.length) head.exits.out :=
      ha.passage.weaken fun v hv => by simpa using hv
    have henters : ∀ arm ∈ arms.arms, ∀ e ∈ arms.draft.edges, e.Enters head.exits.out arm := by
      intro arm hm e he
      cases harms : arms.arms with
      | nil => simp [harms] at hm
      | cons first later =>
        rw [harms, List.mem_cons] at hm
        rcases hm with rfl | hm
        · exact (ha.first arm (by simp [harms]) e he).mono fun v hv => by simpa using hv
        · exact ha.later arm (by simpa [harms] using hm) e he
    refine .branch (.closeSwitch (.evaluating hh) rfl rfl ha.passage.laid ha.ordinals)
      (Head.Laid.evaluating hh) (inside_head (headed_of_evaluating hh))
        (headed_of_evaluating hh).sites_ne_nil hp rfl rfl rfl
      rfl rfl ?_ ?_ fun arm hm => ?_
    · split <;> simp [armOrdinals_append, armOrdinals, ordinalsAll, ha.ordinals]
    · split <;> simp [armBranches_append, armBranches, branchesAll, ha.branches]
    · split at hm
      · exact henters arm hm
      · rcases List.mem_append.1 hm with hm | hm
        · exact henters arm hm
        · cases List.mem_singleton.1 hm
          exact fun e _ => .of_target (by simp [ordinalsAll])
  labeled _ hb := (Passage.Fenced.ofSite .labelDraft rfl rfl rfl rfl).andThen hb
  goto := .ofSite Stmt.laid.goto rfl rfl rfl rfl
  ret hh _ := .ofReturn (.optional hh) (inside_head (headed_of_optional hh))
  brk hb := .ofSite (Stmt.laid.brk hb) rfl rfl rfl rfl
  cont hc := .ofSite (Stmt.laid.cont hc) rfl rfl rfl rfl
  nil := .empty
  cons hf hl := hf.andThen hl
  noArms := .nil
  arm hf hl := .cons hf hl

/-! ## Flow graphs -/

namespace FlowGraph

variable {exitEdges : Except Fault Bool} {tree : Value} {g : FlowGraph}

/-- Control enters an arm of a branch from the same arm, from before the branch, or by a jump. -/
theorem fair_of_ofTree (h : ofTree exitEdges tree = .ok g) {e : Edge} (he : e ∈ g.edges)
    {arms : List (List Region)} (ha : arms ∈ branchesAll g.region) :
    e.Fair arms ∨ ∃ j ∈ g.jumps, e = j.edge := by
  obtain ⟨whole, hg⟩ := exists_drafted (ofBody_of_ofTree h)
  have hw := Stmt.fenced.flow hg.flow
  rcases hg.edge_cases he with he | ⟨he, -⟩ | he
  · exact .inl (hw.fair arms (hg.region ▸ ha) e he)
  · refine .inl (.of_target fun v hv => ?_)
    cases hv.symm.trans he
  · exact .inr he

/-- The place of the statement that a site belongs to. -/
def home (g : FlowGraph) (o : Nat) : Path := (g.sites[o]?.map (·.stmt)).getD .root

/-- A site is at home in its statement. -/
theorem Laid.home_eq (h : g.Laid) {s : Site} (hs : s ∈ g.sites) : g.home s.ordinal = s.stmt := by
  simp [home, getElem?_ordinal h.sites hs]

/-- From a `return` control goes to a site of the same `return` or leaves the function. -/
theorem home_of_leads (h : ofTree exitEdges tree = .ok g) {o : Nat}
    (ho : g.marks.inReturn o = true) {v : Vertex} (hl : g.Leads (.site o) v) :
    v = .exit ∨ ∃ t, v = .site t ∧ g.home t = g.home o := by
  have hlaid := laid_of_ofTree h
  rcases hlaid.leads_of_inReturn ho hl with hv | ⟨t, rfl, -, -⟩
  · exact .inl hv
  obtain ⟨whole, hg⟩ := exists_drafted (ofBody_of_ofTree h)
  have hhome : ∀ s ∈ whole.draft.sites, g.home s.ordinal = s.stmt := by
    intro s hs
    obtain ⟨t, ht, ho, hstmt⟩ : ∃ t ∈ g.sites, t.ordinal = s.ordinal ∧ t.stmt = s.stmt := by
      rw [hg.sites]
      exact ⟨_, List.mem_map_of_mem hs, rfl, rfl⟩
    rw [← ho, hlaid.home_eq ht, hstmt]
  obtain ⟨e, he, hsrc, htgt⟩ := hl
  rcases hg.edge_cases he with he | ⟨he, -⟩ | ⟨j, hj, rfl⟩
  · refine .inr ⟨t, rfl, (Stmt.fenced.flow hg.flow).stays g.marks
      g.home ?_ hhome ?_ e he o t hsrc htgt ho⟩
    · exact marks_filledSites (hg.sites ▸ marks_of_sites hlaid.sites)
    · intro v hv
      exact .inl (by simpa [sources] using hv)
  · exact .inl (htgt ▸ he)
  · cases hsrc
    rw [(hlaid.jumps j hj).2.2] at ho
    cases ho

end FlowGraph

end LastUse
