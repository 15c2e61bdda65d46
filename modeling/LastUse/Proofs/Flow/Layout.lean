import LastUse.Proofs.Flow.Order

/-!
# The layout of a function

The flow through a statement lies between the ordinal of its first site and that of its last one
(`Passage.Laid`), and so does the flow through a whole function (`FlowGraph.Laid`).
-/

namespace LastUse

/-- The flow through a statement: its sites are numbered from an ordinal on and stand in a loop if
the statement does, its edges are orderly, and it jumps from no `return`. -/
structure Passage.Laid (sc : Scope) (n : Nat) (fr : Frontier) (r : Passage) : Prop where
  numbered : r.draft.Numbered n
  inLoop : sc.inLoop = true → ∀ s ∈ r.draft.sites, s.inLoop = true
  labels : ∀ t ∈ r.draft.labels, n ≤ t.2 ∧ t.2 < n + r.draft.sites.length
  carries (m : Marks) : m.Of r.draft.sites → r.draft.Carries m false n fr r.out
  jumping (m : Marks) : m.Of r.draft.sites → ∀ v ∈ r.draft.jumping,
    v.Among m false n r.draft.sites.length

namespace Passage.Laid

variable {sc : Scope} {n : Nat} {fr fr' out : Frontier} {a b r : Passage} {d : Draft} {m : Marks}

/-- What breaks out of a statement comes from its own sites, from none of a `return`. -/
theorem breaks (h : r.Laid sc n fr) (hm : m.Of r.draft.sites) :
    ∀ v ∈ sources r.draft.breaks, v.Among m false n r.draft.sites.length :=
  fun v hv => h.jumping m hm v (by simp [Draft.jumping, hv])

/-- What goes on with the next round comes from the statement's own sites, from none of a
`return`. -/
theorem continues (h : r.Laid sc n fr) (hm : m.Of r.draft.sites) :
    ∀ v ∈ sources r.draft.continues, v.Among m false n r.draft.sites.length :=
  fun v hv => h.jumping m hm v (by simp [Draft.jumping, hv])

/-- Nothing is laid out anywhere. -/
theorem empty : (⟨{}, fr⟩ : Passage).Laid sc n fr :=
  ⟨.of_no_sites rfl rfl, by simp, by simp, fun _ _ => .of_no_edges rfl, by simp [Draft.jumping]⟩

/-- A frontier may hold more than what leads into a statement. -/
theorem weaken (h : r.Laid sc n fr) (hs : ∀ v ∈ sources fr, v ∈ sources fr') : r.Laid sc n fr' :=
  { h with carries := fun m hm => (h.carries m hm).weaken hs }

/-- What leaves a statement may be less. -/
theorem sub (h : r.Laid sc n fr) (hs : ∀ v ∈ sources out, v ∈ sources r.out) :
    (⟨r.draft, out⟩ : Passage).Laid sc n fr :=
  { h with carries := fun m hm => (h.carries m hm).sub hs }

/-- A statement and the next one, which is entered from the same frontier or from the first one. -/
theorem append (ha : a.Laid sc n fr) (hb : b.Laid sc (n + a.draft.sites.length) fr')
    (hs : ∀ v ∈ sources fr', v ∈ sources fr ∨ v ∈ sources a.out) :
    (⟨a.draft ++ b.draft, a.out ++ b.out⟩ : Passage).Laid sc n fr where
  numbered := ha.numbered.append hb.numbered
  inLoop hl s hm := by
    rw [Draft.sites_append, List.mem_append] at hm
    exact hm.elim (ha.inLoop hl s) (hb.inLoop hl s)
  labels t ht := by
    rw [Draft.labels_append, List.mem_append] at ht
    rw [Draft.sites_append, List.length_append]
    rcases ht with ht | ht
    · have := ha.labels t ht
      omega
    · have := hb.labels t ht
      omega
  carries m hm := by
    obtain ⟨hm, hm'⟩ := Marks.of_append.1 hm
    exact (ha.carries m hm).append (hb.carries m hm') hs
  jumping m hm v hv := by
    obtain ⟨hm, hm'⟩ := Marks.of_append.1 hm
    rw [Draft.sites_append, List.length_append]
    rcases Draft.mem_jumping_append.1 hv with hv | hv
    · exact (ha.jumping m hm v hv).mono (by omega) (by omega)
    · exact (hb.jumping m hm' v hv).mono (by omega) (by omega)

/-- One statement after another. -/
theorem andThen (ha : a.Laid sc n fr) (hb : b.Laid sc (n + a.draft.sites.length) a.out) :
    (⟨a.draft ++ b.draft, b.out⟩ : Passage).Laid sc n fr :=
  (ha.append hb fun _ hv => .inr hv).sub fun v hv => by
    rw [sources_append]
    exact List.mem_append_right _ hv

/-- A statement's flow with its regions nested in a branch. -/
theorem asBranch (h : r.Laid sc n fr) {p : Path} {arms : List (List Region)}
    (ha : armOrdinals arms = ordinalsAll r.draft.region) :
    (⟨r.draft.asBranch p arms, r.out⟩ : Passage).Laid sc n fr :=
  { h with
    numbered := h.numbered.congr rfl (by simp [Draft.asBranch, ordinalsAll, Region.ordinals, ha])
    carries := fun m hm => (h.carries m hm).congr rfl rfl }

/-- The flow through the arms of a switch with their regions nested in a branch and their breaks
led on. -/
theorem ofArms (h : r.Laid sc.inSwitchArm n fr) {p : Path} {arms : List (List Region)}
    (ha : armOrdinals arms = ordinalsAll r.draft.region) :
    (⟨(r.draft.asBranch p arms).withoutBreaks, r.out ++ r.draft.breaks⟩ : Passage).Laid
      sc n fr where
  numbered := h.numbered.congr rfl (by
    simp [Draft.withoutBreaks, Draft.asBranch, ordinalsAll, Region.ordinals, ha])
  inLoop := h.inLoop
  labels := h.labels
  carries m hm := ((h.carries m hm).more (h.breaks hm)).congr rfl rfl
  jumping m hm v hv := by
    refine h.jumping m hm v ?_
    simp only [Draft.jumping, Draft.withoutBreaks, Draft.asBranch, List.mem_append] at hv ⊢
    simp only [sources_nil, List.not_mem_nil, false_or] at hv
    exact hv.imp_left .inr

/-- Expressions that a statement evaluates outside of a `return`. -/
theorem of_evaluates {h : Host} (hr : r.Evaluates h n fr) (hl : h.inLoop = sc.inLoop)
    (hret : h.inReturn = false) : r.Laid sc n fr where
  numbered := hr.hosted.numbered
  inLoop hsc s hs := by rw [(hr.hosted.host s hs).2.1, hl, hsc]
  labels := by simp [hr.hosted.labels]
  carries m hm := hret ▸ hr.carries m hm
  jumping := by simp [hr.hosted.jumping]

/-- A statement with one site, which jumps from there if it jumps at all. -/
theorem ofSite {s : Site} (hd : d.sites = [s]) (hn : s.ordinal = n) (hl : s.inLoop = sc.inLoop)
    (hr : s.inReturn = false) (he : d.edges = leadTo fr (.site n)) (hreg : d.region = [.site n])
    (hlab : ∀ t ∈ d.labels, t.2 = n) (hj : ∀ v ∈ d.jumping, v = .site n)
    (ho : ∀ v ∈ sources out, v = .site n) : (⟨d, out⟩ : Passage).Laid sc n fr := by
  subst hn
  refine ⟨⟨by simp [hd], by simp [hreg, hd, ordinalsAll, Region.ordinals]⟩, ?_, ?_, fun m hm => ?_,
    fun m hm v hv => ?_⟩
  · intro hsc t ht
    have ht : t = s := by simpa [hd] using ht
    rw [ht, hl, hsc]
  · intro t ht
    simp [hlab t ht, hd]
  · have hs : (Draft.ofSite s fr).Carries m false s.ordinal fr (onward s.ordinal) :=
      .ofSite (hd ▸ hm) hr.symm
    exact (hs.congr hd he).sub fun v hv => by simp [ho v hv]
  · have hs := (hm s (hd ▸ List.mem_singleton_self s)).2
    exact ⟨s.ordinal, hj v hv, Nat.le_refl _, by simp [hd], fun h => by rw [← hr, ← hs, h]⟩

/-- A `return` and the edges from it to the exit. -/
theorem ofReturn {p : Path} {label : String} {head : Head} {exits : Bool}
    (hh : head.Laid ⟨p, .ret, label, sc.inLoop, true⟩ n fr) :
    (Stmt.closeReturn p exits head).Laid sc n fr := by
  have hs : (Stmt.closeReturn p exits head).draft.sites = head.draft.sites := by
    simp [Stmt.closeReturn]
  refine ⟨hh.hosted.numbered.congr hs ?_, ?_, ?_, fun m hm => ⟨by simp [Stmt.closeReturn], ?_⟩, ?_⟩
  · simp [Stmt.closeReturn, ordinalsAll, Region.ordinals]
  · intro hsc s hm
    rw [(hh.hosted.host s (hs ▸ hm)).2.1, hsc]
  · simp [Stmt.closeReturn, hh.hosted.labels]
  · intro hfr e he
    have hm : m.Of head.draft.sites := hs ▸ hm
    simp only [Stmt.closeReturn, Draft.edges_append, List.mem_append] at he
    rcases he with he | he
    · refine (hh.carries m hm).edges (fun v hv => (hfr v hv).imp_right ?_) e he
      rintro ⟨u, hv, hu, -⟩
      exact ⟨u, hv, hu, fun _ => rfl⟩
    · split at he
      · obtain ⟨hsrc, htgt⟩ := source_mem_of_leadTo he
        obtain ⟨o, ho, -⟩ := hh.among m hm e.source (mem_sources_labelled.1 hsrc)
        obtain ⟨s, t, l⟩ := e
        cases htgt
        refine .leave ?_
        rintro rfl
        cases ho
      · simp at he
  · intro m hm v hv
    rcases Draft.mem_jumping_append.1 hv with hv | hv
    · simp [hh.hosted.jumping] at hv
    · simp [Draft.jumping] at hv

/-- What leaves a statement together with its breaks and continues. -/
theorem gather (h : r.Laid sc n fr) :
    (⟨r.draft, r.out ++ r.draft.breaks ++ r.draft.continues⟩ : Passage).Laid sc n fr :=
  { h with carries := fun m hm => ((h.carries m hm).more (h.breaks hm)).more (h.continues hm) }

/-- What comes to the part of a loop behind its body leaves the body in one way or another. -/
theorem mem_sources_of_bodyEnd {body : Passage} {v : Vertex}
    (hv : v ∈ sources (Stmt.bodyEnd body)) :
    v ∈ sources (body.out ++ body.draft.breaks ++ body.draft.continues) := by
  simp only [Stmt.bodyEnd, sources_append, List.mem_append, mem_sources_labelled] at hv ⊢
  exact hv.imp_left .inl

/-- The statements of a loop, as they stand before its back edges are led to its first site:
nothing leaves the loop but from its sites. -/
structure Round (sc : Scope) (n : Nat) (fr : Frontier) (d : Draft) (out : Frontier) : Prop where
  laid : (⟨d, out⟩ : Passage).Laid sc.inLoopBody n fr
  among (m : Marks) : m.Of d.sites → ∀ v ∈ sources out, v.Among m false n d.sites.length

namespace Round

variable {back leave : Frontier}

/-- The draft of the edges that lead back to the first site. -/
def backEdges (n : Nat) (back : Frontier) : Draft :=
  .ofEdges (leadTo (labelled back .loopControl) (.site n))

/-- The edges that lead back bring in no sites. -/
theorem sites_backEdges : (d ++ backEdges n back).sites = d.sites := by
  simp [backEdges, Draft.ofEdges]

/-- The edges that lead back are orderly, since all that they span stands in the loop. -/
theorem carries_backEdges (h : Round sc n fr d out) (hb : ∀ v ∈ sources back, v ∈ sources out)
    (hl : ∀ v ∈ sources leave, v ∈ sources out) (hm : m.Of d.sites) :
    (d ++ backEdges n back).Carries m false n fr leave := by
  have hin : ∀ o, n ≤ o → o < n + d.sites.length → m.inLoop o = true := by
    intro o hno hon
    obtain ⟨s, hs, rfl⟩ := h.laid.numbered.exists_site hno hon
    rw [(hm s hs).1, h.laid.inLoop rfl s hs]
  have hc := h.laid.carries m hm
  constructor
  · intro v hv
    rw [sites_backEdges]
    exact hc.out v (hl v hv)
  · intro hfr e he
    rw [Draft.edges_append, List.mem_append] at he
    rcases he with he | he
    · exact hc.edges hfr e he
    · exact .of_loop (fun v hv => h.among m hm v (hb v hv)) hin he

/-- A loop, from its statements and the edges that lead back. -/
theorem close (h : Round sc n fr d out) (hb : ∀ v ∈ sources back, v ∈ sources out)
    (hl : ∀ v ∈ sources leave, v ∈ sources out) {p : Path} :
    (⟨((d ++ backEdges n back).asLoop p).withoutBreaks.withoutContinues, leave⟩ : Passage).Laid
      sc n fr
    where
  numbered := by
    refine h.laid.numbered.congr sites_backEdges ?_
    simp [Draft.asLoop, Draft.withoutBreaks, Draft.withoutContinues, backEdges, Draft.ofEdges,
      ordinalsAll, Region.ordinals]
  inLoop _ := sites_backEdges (n := n) (d := d) ▸ h.laid.inLoop rfl
  labels := by
    simpa [Draft.asLoop, Draft.withoutBreaks, Draft.withoutContinues, backEdges, Draft.ofEdges]
      using h.laid.labels
  carries m hm :=
    (h.carries_backEdges hb hl (sites_backEdges (n := n) (d := d) ▸ hm)).congr rfl rfl
  jumping m hm v hv := by
    have hm : m.Of d.sites := sites_backEdges (n := n) (d := d) ▸ hm
    change v.Among m false n (d ++ backEdges n back).sites.length
    rw [sites_backEdges]
    refine h.laid.jumping m hm v ?_
    simp only [Draft.jumping, Draft.asLoop, Draft.withoutBreaks, Draft.withoutContinues, backEdges,
      Draft.ofEdges, Draft.gotos_append, List.append_nil, sources_nil, List.nil_append] at hv
    exact List.mem_append_right _ hv

variable {p : Path} {label : String} {head : Head} {body step : Passage}

/-- A loop that is tested first: its header, its body and its step. -/
theorem preTested (hh : head.Laid (Stmt.headerHost p label) n fr)
    (hb : body.Laid sc.inLoopBody (n + head.draft.sites.length) (labelled head.exits.yes .posNext))
    (hs : step.Evaluates (Stmt.headerHost p label)
      (n + (head.draft.sites.length + body.draft.sites.length)) (Stmt.bodyEnd body)) :
    Round sc n fr (head.draft ++ body.draft ++ step.draft)
      (head.exits.out ++ (body.out ++ body.draft.breaks ++ body.draft.continues) ++ step.out) := by
  have hn : (head.draft ++ body.draft).sites.length
      = head.draft.sites.length + body.draft.sites.length := by simp
  have hin : ∀ v ∈ sources (labelled head.exits.yes .posNext), v ∈ sources head.exits.out := by
    intro v hv
    simp only [mem_sources_labelled] at hv
    simp [hv]
  constructor
  · have hh : (⟨head.draft, head.exits.out⟩ : Passage).Laid sc.inLoopBody n fr :=
      .of_evaluates (.of_head hh) rfl rfl
    have hs : step.Laid sc.inLoopBody (n + (head.draft ++ body.draft).sites.length)
        (Stmt.bodyEnd body) := .of_evaluates (hn ▸ hs) rfl rfl
    refine (hh.append hb.gather fun v hv => .inr (hin v hv)).append hs fun v hv => .inr ?_
    rw [sources_append]
    exact List.mem_append_right _ (mem_sources_of_bodyEnd hv)
  · intro m hm v hv
    obtain ⟨hm, hm₃⟩ := Marks.of_append.1 hm
    obtain ⟨hm₁, hm₂⟩ := Marks.of_append.1 hm
    -- Each part is entered from the one before it, so all that leaves one is among the sites so
    -- far.
    have h₁ := hh.among m hm₁
    have h₂ : ∀ v ∈ sources (body.out ++ body.draft.breaks ++ body.draft.continues),
        v.Among m false n (head.draft.sites.length + body.draft.sites.length) :=
      (hb.gather.carries m hm₂).among fun v hv => h₁ v (hin v hv)
    have h₃ := (hs.carries m hm₃).among fun v hv => h₂ v (mem_sources_of_bodyEnd hv)
    simp only [Draft.sites_append, List.length_append]
    rw [sources_append, sources_append, List.mem_append, List.mem_append] at hv
    rcases hv with (hv | hv) | hv
    · exact (h₁ v hv).mono (Nat.le_refl _) (by omega)
    · exact (h₂ v hv).mono (Nat.le_refl _) (by omega)
    · exact h₃ v hv

/-- A loop that is tested first, with the edges that lead back to its header. -/
theorem closeLoop (hh : head.Laid (Stmt.headerHost p label) n fr)
    (hb : body.Laid sc.inLoopBody (n + head.draft.sites.length) (labelled head.exits.yes .posNext))
    (hs : step.Evaluates (Stmt.headerHost p label)
      (n + (head.draft.sites.length + body.draft.sites.length)) (Stmt.bodyEnd body)) :
    (Stmt.closeLoop p n head body step).Laid sc n fr := by
  refine (preTested hh hb hs).close (fun v hv => ?_) fun v hv => ?_
  · simp only [sources_append, List.mem_append]
    exact .inr hv
  · simp only [sources_append, List.mem_append, mem_sources_labelled] at hv
    simp only [sources_append, List.mem_append, Exits.mem_sources_out]
    grind

/-- A loop that is tested behind its body: its body and its header. -/
theorem postTested (hb : body.Laid sc.inLoopBody n fr)
    (hh : head.Laid (Stmt.headerHost p label) (n + body.draft.sites.length) (Stmt.bodyEnd body)) :
    Round sc n fr (body.draft ++ head.draft) (body.draft.breaks ++ head.exits.out) := by
  constructor
  · have hh : (⟨head.draft, head.exits.out⟩ : Passage).Laid sc.inLoopBody
        (n + body.draft.sites.length) (Stmt.bodyEnd body) := .of_evaluates (.of_head hh) rfl rfl
    refine (hb.gather.append hh fun v hv => .inr (mem_sources_of_bodyEnd hv)).sub fun v hv => ?_
    simp only [sources_append, List.mem_append] at hv ⊢
    exact hv.imp_left fun hv => .inl (.inr hv)
  · intro m hm v hv
    obtain ⟨hm₁, hm₂⟩ := Marks.of_append.1 hm
    rw [Draft.sites_append, List.length_append]
    rw [sources_append, List.mem_append] at hv
    rcases hv with hv | hv
    · exact (hb.breaks hm₁ v hv).mono (by omega) (by omega)
    · exact (hh.among m hm₂ v hv).mono (by omega) (by omega)

end Round

end Passage.Laid

/-! ## Arms of a switch -/

/-- The arms of a switch hold the sites of their cases, in order. -/
theorem Stmt.Arms.ordinals_cons {first : Passage} {isDefault : Bool} {later : Arms}
    (h : armOrdinals later.arms = ordinalsAll later.draft.region) :
    armOrdinals (Arms.cons first isDefault later).arms
      = ordinalsAll (Arms.cons first isDefault later).draft.region := by
  simp only [Arms.cons]
  split <;> simp_all [armOrdinals]

namespace Passage.Laid

variable {sc : Scope} {n : Nat} {fr : Frontier} {h : Host} {head : Head} {p : Path}

/-- A branch with two arms behind its head. -/
theorem ifElse {yes no : Passage} (hh : head.Laid h n fr) (hl : h.inLoop = sc.inLoop)
    (hret : h.inReturn = false)
    (hy : yes.Laid sc (n + head.draft.sites.length) (labelled head.exits.yes .posNext))
    (hn : no.Laid sc (n + head.draft.sites.length + yes.draft.sites.length)
      (labelled head.exits.no .negNext)) :
    (⟨head.draft ++ (yes.draft ++ no.draft).asBranch p [yes.draft.region, no.draft.region],
      yes.out ++ no.out⟩ : Passage).Laid sc n fr := by
  have hy : yes.Laid sc (n + head.draft.sites.length) head.exits.out :=
    hy.weaken fun v hv => by simp only [mem_sources_labelled] at hv; simp [hv]
  have hn : no.Laid sc (n + head.draft.sites.length + yes.draft.sites.length) head.exits.out :=
    hn.weaken fun v hv => by simp only [mem_sources_labelled] at hv; simp [hv]
  have hr : armOrdinals [yes.draft.region, no.draft.region]
      = ordinalsAll (yes.draft ++ no.draft).region := by simp [armOrdinals]
  have hb := (hy.append hn fun _ hv => .inl hv).asBranch (p := p) hr
  exact (Passage.Laid.of_evaluates (.of_head hh) hl hret).andThen hb

/-- A switch, from its head and its arms. -/
theorem closeSwitch {arms : Stmt.Arms} (hh : head.Laid h n fr) (hl : h.inLoop = sc.inLoop)
    (hret : h.inReturn = false)
    (ha : (⟨arms.draft, arms.out⟩ : Passage).Laid sc.inSwitchArm (n + head.draft.sites.length)
      (head.exits.out ++ []))
    (ho : armOrdinals arms.arms = ordinalsAll arms.draft.region) :
    (Stmt.closeSwitch p head arms).Laid sc n fr := by
  have hr : armOrdinals (if arms.hasDefault then arms.arms else arms.arms ++ [[]])
      = ordinalsAll arms.draft.region := by
    split <;> simp [armOrdinals_append, armOrdinals, ordinalsAll, ho]
  refine ((Passage.Laid.of_evaluates (.of_head hh) hl hret).append (ha.ofArms hr) ?_).sub ?_
  · intro v hv
    exact .inr (by simpa using hv)
  · intro v hv
    simp only [sources_append, List.mem_append] at hv
    simp only [sources_append, List.mem_append]
    rcases hv with hv | hv
    · exact .inr hv
    · split at hv
      · simp at hv
      · exact .inl (mem_sources_labelled.1 hv)

/-- A label in front of a statement. -/
theorem labelDraft {label text : String} :
    (⟨Stmt.labelDraft sc p label text n fr, onward n⟩ : Passage).Laid sc n fr :=
  .ofSite rfl rfl rfl rfl rfl rfl (by simp [Stmt.labelDraft])
    (by simp [Stmt.labelDraft, Draft.jumping, Draft.ofSite]) (by simp)

end Passage.Laid

/-- Every flow through a statement is laid out in order. -/
theorem Stmt.laid : Stmt.FlowInvariant (fun sc _ c fr r => r.Laid sc c.next fr)
    (fun sc _ c fr r => r.Laid sc c.next fr)
    (fun sc _ c subject fallthrough a =>
      (⟨a.draft, a.out⟩ : Passage).Laid sc c.next (subject ++ fallthrough) ∧
        armOrdinals a.arms = ordinalsAll a.draft.region) where
  absent := .empty
  block hr := hr
  exprStmt hh := .of_evaluates (.of_head (.optional hh)) rfl rfl
  decl hh := .of_evaluates (.of_head (.optional hh)) rfl rfl
  ifElse hh hy hn := .ifElse (.evaluating hh) rfl rfl hy hn
  whileLoop hh hb := Passage.Laid.Round.closeLoop (.loop hh) hb .nothing
  forLoop {_ _ _ _ _ _ _ c d _ _ first start _ _ _} hf hst hd hh hb hs := by
    have hn : d.next = c.next + (first.draft ++ start.draft).sites.length :=
      hd ▸ Cursor.next_after_after
    have hinit := hf.andThen (.of_evaluates (.init hst) rfl rfl)
    refine hinit.andThen (hn ▸ Passage.Laid.Round.closeLoop (.loop hh) hb ?_)
    exact .step (by simpa [Cursor.after, Nat.add_assoc] using hs)
  foreach hh hb :=
    have hh := (Head.Laid.evaluating hh).exits fun v hv => by simpa [Exits.out] using hv
    Passage.Laid.Round.closeLoop hh hb .nothing
  doWhile hb hh := by
    refine (Passage.Laid.Round.postTested hb (.loop hh)).close (fun v hv => ?_) fun v hv => ?_
    · simp only [sources_append, List.mem_append, Exits.mem_sources_out]
      exact .inr (.inl hv)
    · simp only [sources_append, List.mem_append, mem_sources_labelled] at hv
      simp only [sources_append, List.mem_append, Exits.mem_sources_out]
      grind
  switch hh ha := .closeSwitch (.evaluating hh) rfl rfl ha.1 ha.2
  labeled _ hb := Passage.Laid.labelDraft.andThen hb
  goto := .ofSite rfl rfl rfl rfl rfl rfl (by simp [Draft.ofSite])
    (by simp [Draft.jumping, Draft.ofSite]) (by simp)
  ret hh _ := .ofReturn (.optional hh)
  brk _ := .ofSite rfl rfl rfl rfl rfl rfl (by simp [Draft.ofSite])
    (by simp [Draft.jumping, Draft.ofSite]) (by simp)
  cont _ := .ofSite rfl rfl rfl rfl rfl rfl (by simp [Draft.ofSite])
    (by simp [Draft.jumping, Draft.ofSite]) (by simp)
  nil := .empty
  cons hf hl := hf.andThen hl
  noArms := ⟨Passage.Laid.empty.weaken fun v hv => by simp [hv], rfl⟩
  arm {_ _ _ _ _ _ subject fallthrough _ _} hf hl := by
    refine ⟨((hf.weaken fun v hv => by simpa using hv).append hl.1 fun v hv => ?_).sub fun v hv =>
      ?_, Arms.ordinals_cons hl.2⟩
    · simp only [sources_append, List.mem_append] at hv ⊢
      exact hv.imp_left .inl
    · rw [sources_append]
      exact List.mem_append_right _ hv

/-! ## Flow graphs -/

namespace FlowGraph

/-- A flow graph as it is made of the flow through a function body. -/
structure Drafted (exitEdges : Except Fault Bool) (body : Stmt) (whole : Passage) (g : FlowGraph) :
    Prop where
  flow : body.flow (.outermost exitEdges) ⟨0, []⟩ [(.start, .next)] = .ok whole
  sites : g.sites = filledSites whole.draft
  edges : ∃ exits, exitEdges = .ok exits ∧ g.edges = whole.draft.edges
    ++ (if exits then leadTo whole.out .exit else [])
    ++ (if whole.draft.sites.isEmpty then [⟨.start, .exit, .next⟩] else [])
    ++ g.jumps.map Jump.edge
  jumps : jumpsOf whole.draft.labels whole.draft.gotos = .ok g.jumps
  region : g.region = whole.draft.region
  owned : g.owned = whole.draft.owned

variable {exitEdges : Except Fault Bool} {g : FlowGraph}

/-- A flow graph is made of the flow through its function body. -/
theorem exists_drafted {body : Stmt} (h : ofBody exitEdges body = .ok g) :
    ∃ whole, g.Drafted exitEdges body whole := by
  obtain ⟨whole, hw, h⟩ := ok_of_bind h
  obtain ⟨exits, he, h⟩ := ok_of_bind h
  obtain ⟨jumps, hj, h⟩ := ok_of_bind h
  cases h
  exact ⟨whole, hw, rfl, ⟨exits, he, rfl⟩, hj, rfl, rfl⟩

/-- The edges of a flow graph are those of the flow through the body, those of jumps, and some that
lead to the exit, from the start or from where control leaves the body. -/
theorem Drafted.edge_cases {body : Stmt} {whole : Passage} (hg : g.Drafted exitEdges body whole)
    {e : Edge} (he : e ∈ g.edges) :
    e ∈ whole.draft.edges ∨
      (e.target = .exit ∧ (e.source = .start ∨ e.source ∈ sources whole.out)) ∨
      ∃ j ∈ g.jumps, e = j.edge := by
  obtain ⟨exits, -, hedges⟩ := hg.edges
  simp only [hedges, List.mem_append] at he
  rcases he with ((he | he) | he) | he
  · exact .inl he
  · split at he
    · obtain ⟨hs, ht⟩ := source_mem_of_leadTo he
      exact .inr (.inl ⟨ht, .inr hs⟩)
    · simp at he
  · split at he
    · cases List.mem_singleton.1 he
      exact .inr (.inl ⟨rfl, .inl rfl⟩)
    · simp at he
  · obtain ⟨j, hj, rfl⟩ := List.mem_map.1 he
    exact .inr (.inr ⟨j, hj, rfl⟩)

/-- The body of the function that a tree holds. -/
def bodyOf : Value → Stmt
  | .node .function [_, _, body] => .ofValue (Path.root.field "body") body
  | _ => .absent

/-- The flow graph of a tree is that of the function body in it. -/
theorem ofBody_of_ofTree {tree : Value} (h : ofTree exitEdges tree = .ok g) :
    ofBody exitEdges (bodyOf tree) = .ok g := by
  unfold ofTree at h
  split at h
  · exact h
  · simp at h
  · simp at h

/-- Every jump is from a `goto` site to the site of the label that it names. -/
theorem mem_of_jumpsOf {labels : List (String × Nat)} {gotos : List (Nat × String)}
    {jumps : List Jump} (h : jumpsOf labels gotos = .ok jumps) {j : Jump} (hj : j ∈ jumps) :
    (j.source, j.label) ∈ gotos ∧ labels.lookup j.label = some j.target := by
  induction gotos generalizing jumps with
  | nil =>
    cases h
    simp at hj
  | cons first rest ih =>
    obtain ⟨source, label⟩ := first
    unfold jumpsOf at h
    split at h
    · simp at h
    · rename_i target hl
      obtain ⟨later, hlater, h⟩ := ok_of_bind h
      cases h
      rcases List.mem_cons.1 hj with rfl | hj
      · exact ⟨List.mem_cons_self, hl⟩
      · exact (ih hlater hj).imp_left (List.mem_cons_of_mem _)

/-- The marks of the sites. -/
def marks (g : FlowGraph) : Marks where
  inLoop o := (g.sites[o]?.map (·.inLoop)).getD false
  inReturn o := (g.sites[o]?.map (·.inReturn)).getD false

/-- A flow graph is numbered in order, each of its edges but those of jumps is orderly, and no jump
is from a `return`. -/
structure Laid (g : FlowGraph) : Prop where
  sites : g.sites.map (·.ordinal) = List.range g.sites.length
  region : ordinalsAll g.region = List.range g.sites.length
  edges : ∀ e ∈ g.edges, e.Orderly g.marks ∨ ∃ j ∈ g.jumps, e = j.edge
  jumps : ∀ j ∈ g.jumps, j.source < g.sites.length ∧ j.target < g.sites.length ∧
    g.marks.inReturn j.source = false

namespace Laid

/-- The ordinals of the sites are the numbers below their count. -/
theorem mem_ordinals (h : g.Laid) {o : Nat} :
    o ∈ g.sites.map (·.ordinal) ↔ o < g.sites.length := by
  rw [h.sites, List.mem_range]

/-- The sites are in the order of their ordinals. -/
theorem pairwise_ordinals (h : g.Laid) : (g.sites.map (·.ordinal)).Pairwise (· < ·) := by
  rw [h.sites]
  exact List.pairwise_lt_range

/-- The regions hold the sites in order. -/
theorem pairwise_region (h : g.Laid) : (ordinalsAll g.region).Pairwise (· < ·) := by
  rw [h.region]
  exact List.pairwise_lt_range

end Laid

/-- In a graph that is numbered in order, a site is found by its ordinal. -/
theorem getElem?_ordinal (h : g.sites.map (·.ordinal) = List.range g.sites.length) {s : Site}
    (hs : s ∈ g.sites) : g.sites[s.ordinal]? = some s := by
  obtain ⟨i, hi, rfl⟩ := List.mem_iff_getElem.1 hs
  have ho : (g.sites.map (·.ordinal))[i]? = (List.range g.sites.length)[i]? := by rw [h]
  simp only [List.getElem?_map, List.getElem?_eq_getElem hi, Option.map_some,
    List.getElem?_range hi, Option.some.injEq] at ho
  rw [ho, List.getElem?_eq_getElem hi]

/-- The marks of a graph that is numbered in order are those of its sites. -/
theorem marks_of_sites (h : g.sites.map (·.ordinal) = List.range g.sites.length) :
    g.marks.Of g.sites := by
  intro s hs
  simp [marks, getElem?_ordinal h hs]

/-- Filling in the expressions of the sites does not change their marks. -/
theorem marks_filledSites {m : Marks} {d : Draft} (h : m.Of (filledSites d)) : m.Of d.sites := by
  intro s hs
  have hf := h _ (List.mem_map.2 ⟨s, hs, rfl⟩)
  exact hf

/-- Every flow graph of a function is laid out in order. -/
theorem laid_of_ofTree {tree : Value} (h : ofTree exitEdges tree = .ok g) : g.Laid := by
  obtain ⟨whole, hg⟩ := exists_drafted (ofBody_of_ofTree h)
  have hw : whole.Laid (.outermost exitEdges) 0 [(.start, .next)] := Stmt.laid.flow hg.flow
  have hlen : g.sites.length = whole.draft.sites.length := by simp [hg.sites, filledSites]
  have hsites : g.sites.map (·.ordinal) = List.range g.sites.length := by
    rw [hlen, List.range_eq_range', ← hw.numbered.sites, hg.sites]
    simp [filledSites]
  have hm : g.marks.Of whole.draft.sites := marks_filledSites (hg.sites ▸ marks_of_sites hsites)
  refine ⟨hsites, ?_, ?_, ?_⟩
  · rw [hg.region, hw.numbered.region, hlen, List.range_eq_range']
  · intro e he
    have hc := hw.carries _ hm
    have hstart : ∀ v ∈ sources [(Vertex.start, EdgeLabel.next)], v = .start := by simp [sources]
    rcases hg.edge_cases he with he | ⟨ht, hs⟩ | he
    · exact .inl (hc.edges (fun v hv => .inl (hstart v hv)) e he)
    · have hne : e.source ≠ .exit := by
        rcases hs with hs | hs
        · simp [hs]
        · rcases hc.out e.source hs with hs | ⟨o, ho, -⟩
          · simp [hstart _ hs]
          · simp [ho]
      obtain ⟨s, t, l⟩ := e
      cases ht
      exact .inl (.leave hne)
    · exact .inr he
  · intro j hj
    obtain ⟨hsrc, htgt⟩ := mem_of_jumpsOf hg.jumps hj
    have hj : .site j.source ∈ whole.draft.jumping :=
      List.mem_append_right _ (List.mem_map.2 ⟨_, hsrc, rfl⟩)
    obtain ⟨o, ho, -, hlt, hr⟩ := hw.jumping _ hm _ hj
    cases ho
    obtain ⟨before, behind, hl, -⟩ := List.lookup_eq_some_iff.1 htgt
    have ht : 0 ≤ j.target ∧ j.target < 0 + whole.draft.sites.length :=
      hw.labels (j.label, j.target) (by simp [hl])
    exact ⟨by omega, by omega, by simpa using hr⟩

end FlowGraph

end LastUse
