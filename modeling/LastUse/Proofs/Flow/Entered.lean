import LastUse.Proofs.Fences

/-!
# How statements are entered

All edges that lead into a statement end at its first site, in the order of the frontier that holds
them, and no other edge of the statement begins where they do. A statement without sites lets them
pass (`Passage.Entered`). To show this along a flow, what is known of flows already is needed of
each part of a statement, so a flow is taken with all of it (`Stmt.Drawn`).
-/

namespace LastUse

/-! ## Flows with all that is known of them -/

namespace Stmt

/-- A passage has every property that flows through a statement keep. -/
def Drawn (sc : Scope) (s : Stmt) (c : Cursor) (fr : Frontier) (r : Passage) : Prop :=
  ∀ P Q R, FlowInvariant P Q R → P sc s c fr r

/-- A passage has every property that flows through several statements keep. -/
def DrawnAll (sc : Scope) (ss : List Stmt) (c : Cursor) (fr : Frontier) (r : Passage) : Prop :=
  ∀ P Q R, FlowInvariant P Q R → Q sc ss c fr r

/-- Arms have every property that flows through the arms of a switch keep. -/
def DrawnArms (sc : Scope) (arms : List Stmt) (c : Cursor) (subject fallthrough : Frontier)
    (a : Arms) : Prop :=
  ∀ P Q R, FlowInvariant P Q R → R sc arms c subject fallthrough a

/-- To have every property is a property that flows keep. -/
theorem drawn : FlowInvariant Drawn DrawnAll DrawnArms where
  absent _ _ _ I := I.absent
  block h _ _ _ I := I.block (h _ _ _ I)
  exprStmt hh _ _ _ I := I.exprStmt hh
  decl hh _ _ _ I := I.decl hh
  ifElse hh hy hn _ _ _ I := I.ifElse hh (hy _ _ _ I) (hn _ _ _ I)
  whileLoop hh hb _ _ _ I := I.whileLoop hh (hb _ _ _ I)
  forLoop hf hst hd hh hb hs _ _ _ I := I.forLoop (hf _ _ _ I) hst hd hh (hb _ _ _ I) hs
  foreach hh hb _ _ _ I := I.foreach hh (hb _ _ _ I)
  doWhile hb hh _ _ _ I := I.doWhile (hb _ _ _ I) hh
  switch hh ha _ _ _ I := I.switch hh (ha _ _ _ I)
  labeled hl hb _ _ _ I := I.labeled hl (hb _ _ _ I)
  goto _ _ _ I := I.goto
  ret hh he _ _ _ I := I.ret hh he
  brk hb _ _ _ I := I.brk hb
  cont hc _ _ _ I := I.cont hc
  nil _ _ _ I := I.nil
  cons hf hl _ _ _ I := I.cons (hf _ _ _ I) (hl _ _ _ I)
  noArms _ _ _ I := I.noArms
  arm hf hl _ _ _ I := I.arm (hf _ _ _ I) (hl _ _ _ I)

variable {sc : Scope} {s : Stmt} {ss : List Stmt} {c : Cursor} {fr subject fallthrough : Frontier}
  {r : Passage} {a : Arms}

/-- The flow through a statement keeps to its own sites. -/
theorem Drawn.fenced (h : Drawn sc s c fr r) : r.Fenced sc c.next fr := h _ _ _ Stmt.fenced

/-- The flow through several statements keeps to its own sites. -/
theorem DrawnAll.fenced (h : DrawnAll sc ss c fr r) : r.Fenced sc c.next fr := h _ _ _ Stmt.fenced

/-- The flow through the arms of a switch keeps to its own sites. -/
theorem DrawnArms.fenced (h : DrawnArms sc ss c subject fallthrough a) :
    a.Fenced sc c.next subject fallthrough := h _ _ _ Stmt.fenced

end Stmt

/-! ## Entering a statement -/

/-- What leaves a head comes from its own sites. -/
theorem Head.Laid.out_within {h : Host} {n : Nat} {fr : Frontier} {head : Head}
    (hh : head.Laid h n fr) :
    ∀ v ∈ sources head.exits.out, v.Within n head.draft.sites.length := by
  obtain ⟨m, hm⟩ := hh.hosted.numbered.exists_marks
  exact fun v hv => (hh.among m hm v hv).within

/-- What leaves a statement in one way or another comes from its sites if all that enters it comes
from the sites before it. -/
theorem Passage.Fenced.within {sc : Scope} {n k : Nat} {fr : Frontier} {r : Passage}
    (h : r.Fenced sc (n + k) fr) (hfr : ∀ v ∈ sources fr, v.Within n k) :
    (∀ e ∈ r.draft.edges, e.source.Within n (k + r.draft.sites.length)) ∧
      ∀ v ∈ sources (r.out ++ r.draft.breaks ++ r.draft.continues),
        v.Within n (k + r.draft.sites.length) := by
  have hwithin : ∀ v, v ∈ sources fr ∨ v.Within (n + k) r.draft.sites.length →
      v.Within n (k + r.draft.sites.length) := by
    rintro v (hv | hv)
    · exact (hfr v hv).mono (Nat.le_refl n) (by omega)
    · exact hv.mono (by omega) (by omega)
  exact ⟨fun e he => hwithin _ (h.inside.source e he), fun v hv =>
    hwithin v (h.gather.out_within v hv)⟩

/-- A statement with sites leads all that enters it to its first site, and what leaves it comes
from its sites. A statement without sites has no edges and lets all pass. -/
structure Passage.Entered (n : Nat) (fr : Frontier) (r : Passage) : Prop where
  passed : r.draft.sites = [] → r.draft.edges = [] ∧ r.out = fr
  led : r.draft.sites ≠ [] → ∃ own, r.draft.edges = leadTo fr (.site n) ++ own ∧
    (∀ e ∈ own, e.source.Within n r.draft.sites.length) ∧
    ∀ v ∈ sources r.out, v.Within n r.draft.sites.length

namespace Passage.Entered

variable {sc : Scope} {h : Host} {e : Expr} {n : Nat} {fr : Frontier} {a b r : Passage} {d : Draft}

/-- Nothing lets all pass. -/
theorem empty : (⟨{}, fr⟩ : Passage).Entered n fr :=
  ⟨fun _ => ⟨rfl, rfl⟩, fun hne => absurd rfl hne⟩

/-- A statement that begins with a site, from its other edges. -/
theorem of_led (own : List Edge) (hs : r.draft.sites ≠ [])
    (he : r.draft.edges = leadTo fr (.site n) ++ own)
    (hown : ∀ e ∈ own, e.source.Within n r.draft.sites.length)
    (hout : ∀ v ∈ sources r.out, v.Within n r.draft.sites.length) : r.Entered n fr :=
  ⟨fun hnil => absurd hnil hs, fun _ => ⟨own, he, hown, hout⟩⟩

/-- The edges of an expression that is evaluated from a site on. -/
theorem source_of_flow {s : Site} {f : Flow} (hf : e.flow h (n + 1) (some n) (onward n) = .ok f) :
    ∀ e ∈ f.draft.edges, e.source.Within n (Draft.ofSite s fr ++ f.draft).sites.length := by
  intro e he
  have hlen : (Draft.ofSite s fr ++ f.draft).sites.length = 1 + f.draft.sites.length := by
    simp [Draft.ofSite, Nat.add_comm]
  rw [hlen]
  rcases ((Expr.inside h).flow hf).edges.source e he with hs | hs
  · rw [sources_onward, List.mem_singleton] at hs
    exact ⟨n, hs, Nat.le_refl n, by omega⟩
  · exact hs.mono (by omega) (by omega)

/-- A head leads all that enters it to its first site. -/
theorem led_of_headed (H : Stmt.Headed h e n fr d) : ∃ own, d.edges = leadTo fr (.site n) ++ own ∧
    ∀ e ∈ own, e.source.Within n d.sites.length := by
  cases H with
  | bare => exact ⟨[], (List.append_nil _).symm, by simp⟩
  | @flow f hf => exact ⟨f.draft.edges, rfl, source_of_flow hf⟩

/-- A statement that begins with a head, from the edges behind it. -/
theorem of_headed (more : List Edge) (H : Stmt.Headed h e n fr d)
    (hs : d.sites.length ≤ r.draft.sites.length) (he : r.draft.edges = d.edges ++ more)
    (hmore : ∀ e ∈ more, e.source.Within n r.draft.sites.length)
    (hout : ∀ v ∈ sources r.out, v.Within n r.draft.sites.length) : r.Entered n fr := by
  obtain ⟨own, hd, hown⟩ := led_of_headed H
  refine of_led (own ++ more) ?_ (by rw [he, hd, List.append_assoc]) (fun e hm => ?_) hout
  · have := List.length_pos_iff.2 H.sites_ne_nil
    exact List.length_pos_iff.1 (by omega)
  · exact (List.mem_append.1 hm).elim (fun hm => (hown e hm).mono (Nat.le_refl n) (by omega))
      (hmore e)

/-- A statement that is no more than its head. -/
theorem of_head {head : Head} (H : Stmt.Headed h e n fr head.draft) (hh : head.Laid h n fr) :
    (⟨head.draft, head.exits.out⟩ : Passage).Entered n fr :=
  of_headed [] H (Nat.le_refl _) (List.append_nil _).symm (by simp) hh.out_within

/-- A statement with one site. -/
theorem ofSite {s : Site} {out : Frontier} (hd : d.sites = [s])
    (he : d.edges = leadTo fr (.site n)) (ho : ∀ v ∈ sources out, v = .site n) :
    (⟨d, out⟩ : Passage).Entered n fr :=
  of_led [] (by simp [hd]) (he.trans (List.append_nil _).symm) (by simp) fun v hv =>
    ⟨n, ho v hv, Nat.le_refl n, by simp [hd]⟩

/-- An expression that a loop evaluates beside its condition. -/
theorem of_side (H : Stmt.Side h e n fr r) : r.Entered n fr := by
  cases H with
  | absent => exact empty
  | @site kind label f _ hflow =>
    have hh : (⟨Draft.ofSite (h.site n kind label) fr ++ f.draft, f.exits⟩ : Head).Laid h n fr :=
      .of_flow ((Expr.laid h).flow hflow)
    exact of_led f.draft.edges (by simp [Draft.ofSite]) rfl (source_of_flow hflow) hh.out_within

/-- The edges of a statement begin at sites if all that enters it comes from sites before it. -/
theorem within {k : Nat} (h : r.Entered (n + k) fr) (hfr : ∀ v ∈ sources fr, v.Within n k) :
    (∀ e ∈ r.draft.edges, e.source.Within n (k + r.draft.sites.length)) ∧
      ∀ v ∈ sources r.out, v.Within n (k + r.draft.sites.length) := by
  by_cases hs : r.draft.sites = []
  · obtain ⟨he, ho⟩ := h.passed hs
    rw [he, ho]
    exact ⟨by simp, fun v hv => (hfr v hv).mono (Nat.le_refl n) (by omega)⟩
  · obtain ⟨own, he, hown, hout⟩ := h.led hs
    rw [he]
    refine ⟨fun e hm => ?_, fun v hv => (hout v hv).mono (by omega) (by omega)⟩
    rcases List.mem_append.1 hm with hm | hm
    · exact (hfr _ (source_mem_of_leadTo hm).1).mono (Nat.le_refl n) (by omega)
    · exact (hown e hm).mono (by omega) (by omega)

/-- One statement after another. -/
theorem andThen (ha : a.Entered n fr) (hb : b.Entered (n + a.draft.sites.length) a.out) :
    (⟨a.draft ++ b.draft, b.out⟩ : Passage).Entered n fr := by
  by_cases hnil : a.draft.sites = []
  · obtain ⟨he, ho⟩ := ha.passed hnil
    rw [ho, hnil, List.length_nil, Nat.add_zero] at hb
    refine ⟨fun hs => ?_, fun hs => ?_⟩
    · simpa [he] using hb.passed (by simpa [hnil] using hs)
    · simpa [he, hnil] using hb.led (by simpa [hnil] using hs)
  · obtain ⟨own, he, hown, hout⟩ := ha.led hnil
    have hw := hb.within hout
    refine of_led (own ++ b.draft.edges) (by simp [hnil]) (by simp [he])
      (fun e hm => ?_) fun v hv => ?_
    · rw [Draft.sites_append, List.length_append]
      rcases List.mem_append.1 hm with hm | hm
      · exact (hown e hm).mono (Nat.le_refl n) (by omega)
      · exact hw.1 e hm
    · rw [Draft.sites_append, List.length_append]
      exact hw.2 v hv

/-- A branch behind a head. -/
theorem ifElse {p : Path} {head : Head} {yes no : Passage} (H : Stmt.Headed h e n fr head.draft)
    (hh : head.Laid h n fr)
    (hy : yes.Fenced sc (n + head.draft.sites.length) (labelled head.exits.yes .posNext))
    (hn : no.Fenced sc (n + head.draft.sites.length + yes.draft.sites.length)
      (labelled head.exits.no .negNext)) :
    (⟨head.draft ++ (yes.draft ++ no.draft).asBranch p [yes.draft.region, no.draft.region],
      yes.out ++ no.out⟩ : Passage).Entered n fr := by
  have hin : ∀ {x : Frontier} {l : EdgeLabel}, (∀ v ∈ sources x, v ∈ sources head.exits.out) →
      ∀ {k}, head.draft.sites.length ≤ k → ∀ v ∈ sources (labelled x l), v.Within n k :=
    fun hx _ hk v hv =>
      (hh.out_within v (hx v (mem_sources_labelled.1 hv))).mono (Nat.le_refl n) (by omega)
  have hwy := hy.within (hin (fun v hv => by simp [hv]) (Nat.le_refl _))
  rw [Nat.add_assoc] at hn
  have hwn := hn.within (hin (fun v hv => by simp [hv]) (Nat.le_add_right _ _))
  refine of_headed (yes.draft.edges ++ no.draft.edges) H (by simp) rfl (fun e he => ?_) fun v hv =>
    ?_
  all_goals simp only [Draft.sites_append, Draft.asBranch, List.length_append]
  · rcases List.mem_append.1 he with he | he
    · exact (hwy.1 e he).mono (Nat.le_refl n) (by omega)
    · exact (hwn.1 e he).mono (Nat.le_refl n) (by omega)
  · rw [sources_append, List.mem_append] at hv
    rcases hv with hv | hv
    · exact (hwy.2 v (by simp [hv])).mono (Nat.le_refl n) (by omega)
    · exact (hwn.2 v (by simp [hv])).mono (Nat.le_refl n) (by omega)

/-- A loop that is tested first. -/
theorem closeLoop {p : Path} {label : String} {head : Head} {body step : Passage}
    (H : Stmt.Headed (Stmt.headerHost p label) e n fr head.draft)
    (hh : head.Laid (Stmt.headerHost p label) n fr)
    (hb : body.Fenced sc.inLoopBody (n + head.draft.sites.length)
      (labelled head.exits.yes .posNext))
    (hs : step.Fenced sc.inLoopBody (n + (head.draft.sites.length + body.draft.sites.length))
      (Stmt.bodyEnd body)) :
    (Stmt.closeLoop p n head body step).Entered n fr := by
  have hwb := hb.within fun v hv => hh.out_within v (by simp [mem_sources_labelled.1 hv])
  have hws := hs.within fun v hv => hwb.2 v (Laid.mem_sources_of_bodyEnd hv)
  have hlen : (Stmt.closeLoop p n head body step).draft.sites.length
      = head.draft.sites.length + body.draft.sites.length + step.draft.sites.length := by
    simp [Stmt.closeLoop, Draft.asLoop, Draft.withoutBreaks, Draft.withoutContinues, Draft.ofEdges]
    omega
  refine of_headed (body.draft.edges ++ step.draft.edges
    ++ leadTo (labelled step.out .loopControl) (.site n)) H (by omega)
      ?_ (fun e he => ?_) fun v hv => ?_
  · simp [Stmt.closeLoop, Draft.asLoop, Draft.withoutBreaks, Draft.withoutContinues, Draft.ofEdges]
  · rw [hlen]
    simp only [List.mem_append] at he
    rcases he with (he | he) | he
    · exact (hwb.1 e he).mono (Nat.le_refl n) (by omega)
    · exact hws.1 e he
    · exact hws.2 _ (by simp [mem_sources_labelled.1 (source_mem_of_leadTo he).1])
  · rw [hlen]
    simp only [Stmt.closeLoop, sources_append, List.mem_append, mem_sources_labelled] at hv
    rcases hv with hv | hv
    · exact (hh.out_within v (by simp [hv])).mono (Nat.le_refl n) (by omega)
    · exact (hwb.2 v (by simp [hv])).mono (Nat.le_refl n) (by omega)

/-- The body of a loop with what comes to the part behind it. -/
theorem bodyEnd {body : Passage} (hf : body.Fenced sc n fr) (hb : body.Entered n fr) :
    (⟨body.draft, Stmt.bodyEnd body⟩ : Passage).Entered n fr := by
  have hcont : ∀ v ∈ sources body.draft.continues, v.Within n body.draft.sites.length := by
    obtain ⟨m, hm⟩ := hf.laid.numbered.exists_marks
    exact fun v hv => (hf.laid.continues hm v hv).within
  refine ⟨fun hs => ?_, fun hs => ?_⟩
  · obtain ⟨he, ho⟩ := hb.passed hs
    have hnone : sources body.draft.continues = [] := by
      refine List.eq_nil_iff_forall_not_mem.2 fun v hv => ?_
      obtain ⟨o, -, hlo, hup⟩ := hcont v hv
      rw [show body.draft.sites = [] from hs, List.length_nil] at hup
      omega
    rw [sources, List.map_eq_nil_iff] at hnone
    exact ⟨he, by simp [Stmt.bodyEnd, ho, hnone, labelled]⟩
  · obtain ⟨own, he, hown, hout⟩ := hb.led hs
    refine ⟨own, he, hown, fun v hv => ?_⟩
    simp only [Stmt.bodyEnd, sources_append, List.mem_append, mem_sources_labelled] at hv
    exact hv.elim (hout v) (hcont v)

/-- A loop that is tested behind its body. -/
theorem closeDoWhile {p : Path} {label : String} {head : Head} {body : Passage}
    (hf : body.Fenced sc.inLoopBody n fr) (hb : body.Entered n fr)
    (H : Stmt.Headed (Stmt.headerHost p label) e (n + body.draft.sites.length)
      (Stmt.bodyEnd body) head.draft)
    (hh : head.Laid (Stmt.headerHost p label) (n + body.draft.sites.length) (Stmt.bodyEnd body)) :
    (Stmt.closeDoWhile p n body head).Entered n fr := by
  have hne : (body.draft ++ head.draft).sites ≠ [] := by simp [H.sites_ne_nil]
  have hlen :
      (Stmt.closeDoWhile p n body head).draft.sites = (body.draft ++ head.draft).sites := by
    simp [Stmt.closeDoWhile, Draft.asLoop, Draft.withoutBreaks, Draft.withoutContinues,
      Draft.ofEdges]
  obtain ⟨own, he, hown, hout⟩ := ((bodyEnd hf hb).andThen (.of_head H hh)).led hne
  refine of_led (own ++ leadTo (labelled head.exits.yes .loopControl) (.site n)) (hlen ▸ hne) ?_
    (fun e hm => ?_) fun v hv => ?_
  · rw [← List.append_assoc, ← he]
    rfl
  · rw [hlen]
    rcases List.mem_append.1 hm with hm | hm
    · exact hown e hm
    · exact hout _ (by simp [mem_sources_labelled.1 (source_mem_of_leadTo hm).1])
  · rw [hlen]
    simp only [Stmt.closeDoWhile, sources_append, List.mem_append, mem_sources_labelled] at hv
    rcases hv with hv | hv
    · exact hout v (by simp [hv])
    · obtain ⟨m, hm⟩ := hf.laid.numbered.exists_marks
      exact (hf.laid.breaks hm v hv).within.mono (Nat.le_refl n) (by simp)

/-- A switch, from its head and its arms. -/
theorem closeSwitch {p : Path} {head : Head} {arms : Stmt.Arms}
    (H : Stmt.Headed h e n fr head.draft) (hh : head.Laid h n fr)
    (ha : arms.Fenced sc.inSwitchArm (n + head.draft.sites.length) head.exits.out []) :
    (Stmt.closeSwitch p head arms).Entered n fr := by
  have hw := ha.passage.within fun v hv => hh.out_within v (by simpa using hv)
  refine of_headed arms.draft.edges H ?_ rfl (fun e he => ?_) fun v hv => ?_
  all_goals simp only [Stmt.closeSwitch, Draft.sites_append, Draft.asBranch, Draft.withoutBreaks,
    List.length_append]
  · omega
  · exact hw.1 e he
  · simp only [Stmt.closeSwitch, sources_append, List.mem_append] at hv
    rcases hv with hv | hv
    · exact hw.2 v (by simpa [or_assoc] using Or.inl hv)
    · split at hv
      · simp at hv
      · exact (hh.out_within v (mem_sources_labelled.1 hv)).mono (Nat.le_refl n) (by omega)

/-- A `return` and the edges from it to the exit. -/
theorem closeReturn {p : Path} {head : Head} {exits : Bool} (H : Stmt.Headed h e n fr head.draft)
    (hh : head.Laid h n fr) : (Stmt.closeReturn p exits head).Entered n fr := by
  have hlen : (Stmt.closeReturn p exits head).draft.sites = head.draft.sites := by
    simp [Stmt.closeReturn]
  refine of_headed _ H (by rw [hlen]) rfl (fun e he => ?_) (by simp [Stmt.closeReturn])
  rw [hlen]
  simp only at he
  split at he
  · exact hh.out_within _ (mem_sources_labelled.1 (source_mem_of_leadTo he).1)
  · simp at he

end Passage.Entered

namespace Stmt

/-- Every statement is entered at its first site. -/
theorem entered : FlowInvariant (fun sc s c fr r => Drawn sc s c fr r ∧ r.Entered c.next fr)
    (fun sc ss c fr r => DrawnAll sc ss c fr r ∧ r.Entered c.next fr) DrawnArms where
  absent := ⟨drawn.absent, .empty⟩
  block hr := ⟨drawn.block hr.1, hr.2⟩
  exprStmt hh := ⟨drawn.exprStmt hh, .of_head (headed_of_optional hh) (.optional hh)⟩
  decl hh := ⟨drawn.decl hh, .of_head (headed_of_optional hh) (.optional hh)⟩
  ifElse hh hy hn := ⟨drawn.ifElse hh hy.1 hn.1,
    .ifElse (headed_of_evaluating hh) (.evaluating hh) hy.1.fenced hn.1.fenced⟩
  whileLoop hh hb := ⟨drawn.whileLoop hh hb.1,
    .closeLoop (headed_of_loop hh) (.loop hh) hb.1.fenced .empty⟩
  forLoop {sc _ _ _ _ _ _ c d _ _ first start _ _ _} hf hst hd hh hb hs := by
    refine ⟨drawn.forLoop hf.1 hst hd hh hb.1 hs, ?_⟩
    have hn : d.next = c.next + (first.draft ++ start.draft).sites.length :=
      hd ▸ Cursor.next_after_after
    have hs' := by simpa [Cursor.after, Nat.add_assoc] using hs
    have hloop := Passage.Entered.closeLoop (headed_of_loop hh) (.loop hh) hb.1.fenced
      (.of_evaluates (.step hs') (inside_side (side_of_step hs')) rfl rfl)
    refine (hf.2.andThen (.of_side (side_of_init hst))).andThen ?_
    simpa only [← hn] using hloop
  foreach hh hb := by
    have H := headed_of_evaluating hh
    refine ⟨drawn.foreach hh hb.1, .closeLoop H ?_ hb.1.fenced .empty⟩
    exact (Head.Laid.evaluating hh).exits fun v hv => by simpa [Exits.out] using hv
  doWhile hb hh :=
    ⟨drawn.doWhile hb.1 hh, .closeDoWhile hb.1.fenced hb.2 (headed_of_loop hh) (.loop hh)⟩
  switch hh ha :=
    ⟨drawn.switch hh ha, .closeSwitch (headed_of_evaluating hh) (.evaluating hh) ha.fenced⟩
  labeled {sc p label text _ c fr _} hl hb := by
    have hsite :
        (⟨labelDraft sc p label text c.next fr, onward c.next⟩ : Passage).Entered c.next fr :=
      .ofSite rfl rfl (by simp)
    exact ⟨drawn.labeled hl hb.1, hsite.andThen hb.2⟩
  goto := ⟨drawn.goto, .ofSite rfl rfl (by simp)⟩
  ret hh he := ⟨drawn.ret hh he, .closeReturn (headed_of_optional hh) (.optional hh)⟩
  brk hb := ⟨drawn.brk hb, .ofSite rfl rfl (by simp)⟩
  cont hc := ⟨drawn.cont hc, .ofSite rfl rfl (by simp)⟩
  nil := ⟨drawn.nil, .empty⟩
  cons hf hl := ⟨drawn.cons hf.1 hl.1, hf.2.andThen hl.2⟩
  noArms := drawn.noArms
  arm hf hl := drawn.arm hf.1 hl

end Stmt

end LastUse
