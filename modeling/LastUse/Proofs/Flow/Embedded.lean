import LastUse.Proofs.Arms
import LastUse.Proofs.Flow.Entered

/-!
# Conditionals in a function

The flow through a conditional is part of the flow through every statement around it: its sites
stand together, its edges are kept, and no other edge begins at one of its sites unless it is one
of those from which control leaves it (`Passage.Encloses`). So the flow through a function has one
part for each of its conditionals (`Stmt.contains`).
-/

namespace LastUse

/-! ## Parts of a passage -/

/-- Of three drafts, two may be put together first. -/
theorem Draft.append_assoc (a b c : Draft) : a ++ b ++ c = a ++ (b ++ c) := by
  show Draft.append (Draft.append a b) c = Draft.append a (Draft.append b c)
  simp [Draft.append]

/-- The vertices from which control leaves a passage in one way or another. -/
def Passage.ends (r : Passage) : List Vertex := sources r.out ++ r.draft.jumping

/-- Control leaves a passage at its way out or by a jump. -/
theorem Passage.mem_ends {r : Passage} {v : Vertex} :
    v ∈ r.ends ↔ v ∈ sources r.out ∨ v ∈ r.draft.jumping :=
  List.mem_append

/-- What comes to the part of a loop behind its body leaves the body. -/
theorem Passage.mem_ends_of_bodyEnd {r : Passage} {v : Vertex}
    (hv : v ∈ sources (Stmt.bodyEnd r)) : v ∈ r.ends := by
  simp only [Stmt.bodyEnd, sources_append, List.mem_append, mem_sources_labelled] at hv
  simp only [mem_ends, Draft.jumping, List.mem_append]
  tauto

/-- A passage is another one with drafts before and behind it. Those have no sites at or below the
places at which `P` holds. Outside of the inner passage no edge begins at its sites but at those
where control leaves it. -/
structure Passage.Encloses (P : Path → Prop) (n : Nat) (before behind : Draft)
    (r inner : Passage) : Prop where
  sites : r.draft.sites = before.sites ++ inner.draft.sites ++ behind.sites
  edges : r.draft.edges = before.edges ++ inner.draft.edges ++ behind.edges
  owned : ∀ w ∈ inner.draft.owned, w ∈ r.draft.owned
  apart : ∀ s ∈ before.sites ++ behind.sites, ∀ q, P q → ¬ q.Under s.stmt
  closed : ∀ v, v ∈ r.ends ∨ (∃ e ∈ before.edges ++ behind.edges, e.source = v) →
    v.Within (n + before.sites.length) inner.draft.sites.length → v ∈ inner.ends

/-- The edges and ends of a passage are not at the `k` sites from `m` on, but for some vertices. -/
structure Passage.Spares (m k : Nat) (but : List Vertex) (r : Passage) : Prop where
  edges : ∀ e ∈ r.draft.edges, e.source.Within m k → e.source ∈ but
  ends : ∀ v ∈ r.ends, v.Within m k → v ∈ but

namespace Passage

/-- The jumps of a passage are from its own sites. -/
theorem Fenced.within_of_jumping {sc : Scope} {n : Nat} {fr : Frontier} {r : Passage}
    (h : r.Fenced sc n fr) {v : Vertex} (hv : v ∈ r.draft.jumping) :
    v.Within n r.draft.sites.length := by
  obtain ⟨marks, hm⟩ := h.laid.numbered.exists_marks
  exact (h.laid.jumping marks hm v hv).within

variable {sc : Scope} {P P' : Path → Prop} {n m k : Nat} {fr : Frontier} {but : List Vertex}
  {a b r inner : Passage} {before behind before' behind' : Draft}

namespace Spares

/-- A passage without edges spares all sites. -/
theorem empty : (⟨{}, []⟩ : Passage).Spares m k but :=
  ⟨fun _ he => (List.not_mem_nil he).elim, fun _ hv => (List.not_mem_nil hv).elim⟩

/-- Two passages, one behind the other, spare what both of them spare. -/
theorem append (ha : a.Spares m k but) (hb : b.Spares m k but) :
    (⟨a.draft ++ b.draft, b.out⟩ : Passage).Spares m k but := by
  refine ⟨fun e he => ?_, fun v hv => ?_⟩
  · exact (List.mem_append.1 he).elim (ha.edges e) (hb.edges e)
  · rw [mem_ends, Draft.mem_jumping_append] at hv
    rcases hv with hv | hv | hv
    · exact hb.ends v (mem_ends.2 (.inl hv))
    · exact ha.ends v (mem_ends.2 (.inr hv))
    · exact hb.ends v (mem_ends.2 (.inr hv))

/-- A passage has edges and ends at its own sites and where it is entered from. -/
theorem of_fenced (h : r.Fenced sc n fr) (hd : n + r.draft.sites.length ≤ m ∨ m + k ≤ n)
    (hfr : ∀ v ∈ sources fr, v.Within m k → v ∈ but) : r.Spares m k but := by
  have hown : ∀ v, v ∈ sources fr ∨ v.Within n r.draft.sites.length → v.Within m k → v ∈ but := by
    rintro v (hv | ⟨o, rfl, hlo, hup⟩) hw
    · exact hfr v hv hw
    · obtain ⟨_, ⟨⟩, hlo', hup'⟩ := hw
      omega
  refine ⟨fun e he => hown _ (h.inside.source e he), fun v hv => hown v ?_⟩
  rcases mem_ends.1 hv with hv | hv
  · exact h.out_within v hv
  · exact .inr (h.within_of_jumping hv)

end Spares

namespace Encloses

/-- A passage encloses itself. -/
theorem refl : r.Encloses P n {} {} r :=
  ⟨by simp, by simp, fun _ hw => hw, by simp, fun v hv _ => hv.resolve_right (by simp)⟩

/-- What a part of a passage encloses, the passage encloses. -/
theorem trans (h : r.Encloses P n before behind a)
    (h' : a.Encloses P' (n + before.sites.length) before' behind' inner) (hP : ∀ q, P' q → P q) :
    r.Encloses P' n (before ++ before') (behind' ++ behind) inner where
  sites := by simp [h.sites, h'.sites]
  edges := by simp [h.edges, h'.edges]
  owned w hw := h.owned w (h'.owned w hw)
  apart s hs q hq := by
    simp only [Draft.sites_append, List.mem_append] at hs
    rcases hs with (hs | hs) | hs | hs
    · exact h.apart s (List.mem_append_left _ hs) q (hP q hq)
    · exact h'.apart s (List.mem_append_left _ hs) q hq
    · exact h'.apart s (List.mem_append_right _ hs) q hq
    · exact h.apart s (List.mem_append_right _ hs) q (hP q hq)
  closed v hv hw := by
    rw [Draft.sites_append, List.length_append, ← Nat.add_assoc] at hw
    have houter :
        (v ∈ r.ends ∨ ∃ e ∈ before.edges ++ behind.edges, e.source = v) → v ∈ inner.ends := by
      intro hv
      refine h'.closed v (.inl (h.closed v hv (hw.mono (by omega) ?_))) hw
      rw [h'.sites, List.length_append, List.length_append]
      omega
    rcases hv with hv | ⟨e, he, rfl⟩
    · exact houter (.inl hv)
    · simp only [Draft.edges_append, List.mem_append] at he
      rcases he with (he | he) | he | he
      · exact houter (.inr ⟨e, List.mem_append_left _ he, rfl⟩)
      · exact h'.closed _ (.inr ⟨e, List.mem_append_left _ he, rfl⟩) hw
      · exact h'.closed _ (.inr ⟨e, List.mem_append_right _ he, rfl⟩) hw
      · exact houter (.inr ⟨e, List.mem_append_right _ he, rfl⟩)

/-- A passage that is put together of others encloses each of them which the others spare. -/
theorem of_spares {back : List Edge}
    (hs : r.draft.sites = a.draft.sites ++ inner.draft.sites ++ b.draft.sites)
    (he : r.draft.edges = a.draft.edges ++ inner.draft.edges ++ (b.draft.edges ++ back))
    (ho : ∀ w ∈ inner.draft.owned, w ∈ r.draft.owned)
    (ha : a.Spares (n + a.draft.sites.length) inner.draft.sites.length inner.ends)
    (hb : b.Spares (n + a.draft.sites.length) inner.draft.sites.length inner.ends)
    (hends : ∀ v ∈ r.ends ++ back.map (·.source), v ∈ a.ends ∨ v ∈ inner.ends ∨ v ∈ b.ends)
    (hap : ∀ s ∈ a.draft.sites, ∀ q, P q → ¬ q.Under s.stmt)
    (hbp : ∀ s ∈ b.draft.sites, ∀ q, P q → ¬ q.Under s.stmt) :
    r.Encloses P n a.draft (b.draft ++ .ofEdges back) inner where
  sites := by simp [hs, Draft.ofEdges]
  edges := by simp [he, Draft.ofEdges]
  owned := ho
  apart s hm := by
    simp only [Draft.sites_append, Draft.ofEdges, List.append_nil, List.mem_append] at hm
    exact hm.elim (hap s) (hbp s)
  closed v hv hw := by
    have hout : v ∈ r.ends ++ back.map (·.source) → v ∈ inner.ends := fun hv =>
      (hends v hv).elim (ha.ends v · hw) fun hv => hv.elim id (hb.ends v · hw)
    rcases hv with hv | ⟨e, he, rfl⟩
    · exact hout (List.mem_append_left _ hv)
    · simp only [Draft.edges_append, Draft.ofEdges, List.mem_append] at he
      rcases he with he | he | he
      · exact ha.edges e he hw
      · exact hb.edges e he hw
      · exact hout (List.mem_append_right _ (List.mem_map_of_mem he))

end Encloses

end Passage

/-! ## Conditionals -/

/-- The sources of a frontier come before a site. -/
def Frontier.Precedes (n : Nat) (fr : Frontier) : Prop := ∀ o, .site o ∈ sources fr → o < n

/-- What comes before a site comes before later ones. -/
theorem Frontier.Precedes.mono {n m : Nat} {fr : Frontier} (h : fr.Precedes n) (hm : n ≤ m) :
    fr.Precedes m :=
  fun o ho => Nat.lt_of_lt_of_le (h o ho) hm

/-- The flow through a conditional: its head, the edges that lead there, and a passage for each
arm. -/
structure Conditional where
  host : Host
  entry : Frontier
  head : Head
  yes : Passage
  no : Passage

/-- The passage through all of a conditional. -/
def Conditional.passage (x : Conditional) : Passage :=
  ⟨x.head.draft ++ (x.yes.draft ++ x.no.draft).asBranch x.host.stmt
    [x.yes.draft.region, x.no.draft.region], x.yes.out ++ x.no.out⟩

/-- The flow through the conditional at a place, from the site `n` on. The sites of each arm belong
to what stands in it. -/
structure Conditional.Drawn (sc : Scope) (p : Path) (cond : Expr) (n : Nat) (x : Conditional) :
    Prop where
  stmt : x.host.stmt = p
  entry : x.entry.Precedes n
  head : Stmt.evaluatingHead x.host cond n x.entry = .ok x.head
  yes : x.yes.Fenced sc (n + x.head.draft.sites.length) (labelled x.head.exits.yes .posNext)
  yesEntered : x.yes.Entered (n + x.head.draft.sites.length) (labelled x.head.exits.yes .posNext)
  yesUnder : ∀ s ∈ x.yes.draft.sites, (p.field "then").Under s.stmt
  no : x.no.Fenced sc (n + x.head.draft.sites.length + x.yes.draft.sites.length)
    (labelled x.head.exits.no .negNext)
  noEntered : x.no.Entered (n + x.head.draft.sites.length + x.yes.draft.sites.length)
    (labelled x.head.exits.no .negNext)
  noUnder : ∀ s ∈ x.no.draft.sites, (p.field "orelse").Under s.stmt

/-- A passage encloses the flows through some conditionals, at places at which `P` holds. -/
def Passage.Contains (P : Path → Prop) (conds : List (Path × Expr)) (n : Nat)
    (r : Passage) : Prop :=
  ∀ c ∈ conds, P c.1 ∧ ∃ sc before behind, ∃ x : Conditional,
    x.Drawn sc c.1 c.2 (n + before.sites.length) ∧ r.Encloses (· = c.1) n before behind x.passage

namespace Passage

variable {sc : Scope} {P P' : Path → Prop} {conds conds' : List (Path × Expr)}
  {n : Nat} {fr fr' : Frontier} {a b r : Passage} {before behind : Draft} {p : Path}

namespace Contains

/-- A passage encloses no conditionals at all. -/
theorem nil : r.Contains P [] n := fun _ hx => (List.not_mem_nil hx).elim

/-- What encloses some conditionals and encloses others encloses all of them. -/
theorem append (h : r.Contains P conds n) (h' : r.Contains P conds' n) :
    r.Contains P (conds ++ conds') n :=
  fun x hx => (List.mem_append.1 hx).elim (h x) (h' x)

/-- The places of the conditionals may be described more widely. -/
theorem mono (h : r.Contains P conds n) (hP : ∀ q, P q → P' q) : r.Contains P' conds n :=
  fun x hx => (h x hx).imp_left (hP _)

/-- A passage contains what is contained in a part of it. -/
theorem enclosed (h : a.Contains P conds (n + before.sites.length))
    (he : r.Encloses P n before behind a) : r.Contains P conds n := by
  intro c hc
  obtain ⟨hP, sc, before', behind', x, hx, hi⟩ := h c hc
  refine ⟨hP, sc, before ++ before', behind' ++ behind, x, ?_, he.trans hi fun q hq => hq ▸ hP⟩
  rwa [Draft.sites_append, List.length_append, ← Nat.add_assoc]

end Contains

/-- What leaves a passage comes before the sites behind it. -/
theorem Fenced.precedes (h : r.Fenced sc n fr) (hfr : fr.Precedes n) :
    Frontier.Precedes (n + r.draft.sites.length) r.out := by
  intro o ho
  rcases h.out_within _ ho with ho | ⟨_, ⟨⟩, -, hup⟩
  · have := hfr o ho
    omega
  · exact hup

/-- A passage spares the sites behind it. -/
theorem Fenced.spares (h : r.Fenced sc n fr) (hfr : fr.Precedes n) {m k : Nat} {but : List Vertex}
    (hm : n + r.draft.sites.length ≤ m) : r.Spares m k but := by
  refine .of_fenced h (.inl hm) fun v hv hw => ?_
  obtain ⟨o, rfl, hlo, -⟩ := hw
  have := hfr o hv
  omega

end Passage

section

variable {h : Host} {n : Nat} {fr : Frontier} {head : Head}

/-- A head is a passage of the statement that it belongs to. -/
theorem Head.Laid.fenced (hh : head.Laid h n fr) (sc : Scope) (hi : head.draft.Inside n fr)
    (hl : h.inLoop = sc.inLoop) (hret : h.inReturn = false) :
    (⟨head.draft, head.exits.out⟩ : Passage).Fenced sc n fr :=
  .of_evaluates (.of_head hh) hi hl hret

/-- What leaves a head comes before the sites behind it. -/
theorem Head.Laid.precedes (hh : head.Laid h n fr)
    {x : Frontier} (hx : ∀ v ∈ sources x, v ∈ sources head.exits.out) :
    Frontier.Precedes (n + head.draft.sites.length) x := by
  intro o ho
  obtain ⟨_, ⟨⟩, -, hup⟩ := hh.out_within _ (hx _ ho)
  exact hup

end

/-- The sites of a statement itself stand at no place in it. -/
theorem not_under_own {p : Path} {name : String} {sites : List Site}
    (hs : ∀ s ∈ sites, s.stmt = p) :
    ∀ s ∈ sites, ∀ q, (p.field name).Under q → ¬ q.Under s.stmt := by
  intro s hm q hq hu
  rw [hs s hm] at hu
  exact Path.not_field_under (hq.trans hu)

/-- The sites of what stands in one field of a statement stand at no place in another. -/
theorem not_under_other {p : Path} {x y : String} (hxy : x ≠ y) {sites : List Site}
    (hs : ∀ s ∈ sites, (p.field y).Under s.stmt) :
    ∀ s ∈ sites, ∀ q, (p.field x).Under q → ¬ q.Under s.stmt :=
  fun s hm _ hq hu => hxy ((hq.trans hu).field_inj (hs s hm))

/-- The sites of an item of a list stand at no place in a later one, and the other way round. -/
theorem not_under_later {p : Path} {i : Nat} {sites : List Site}
    (hs : ∀ s ∈ sites, p.From (i + 1) s.stmt) :
    ∀ s ∈ sites, ∀ q, (p.item i).Under q → ¬ q.Under s.stmt := by
  intro s hm q hq hu
  obtain ⟨j, hj, hstmt⟩ := hs s hm
  have := (hq.trans hu).item_inj hstmt
  omega

/-- Sites below an item of a list do not stand below later items. -/
theorem not_under_earlier {p : Path} {i : Nat} {sites : List Site}
    (hs : ∀ s ∈ sites, (p.item i).Under s.stmt) :
    ∀ s ∈ sites, ∀ q, p.From (i + 1) q → ¬ q.Under s.stmt := by
  rintro s hm q ⟨j, hj, hq⟩ hu
  have := (hq.trans hu).item_inj (hs s hm)
  omega

/-- The jumps of a draft stay the same if it is made a branch. -/
theorem Draft.jumping_asBranch (d : Draft) (p : Path) (arms : List (List Region)) :
    (d.asBranch p arms).jumping = d.jumping := rfl

/-- A loop leads its breaks and continues on. -/
theorem Draft.jumping_of_loop {d : Draft} {p : Path} {v : Vertex}
    (hv : v ∈ (d.asLoop p).withoutBreaks.withoutContinues.jumping) : v ∈ d.jumping := by
  simp only [jumping, asLoop, withoutBreaks, withoutContinues, sources_nil, List.nil_append] at hv
  exact List.mem_append_right _ hv

namespace Passage.Encloses

variable {sc : Scope} {P : Path → Prop} {h : Host} {n : Nat} {fr fr' : Frontier}
  {first later yes no body step : Passage} {head : Head} {arms : Stmt.Arms} {p : Path}

/-- The first of two passages. -/
theorem of_first (hl : later.Fenced sc (n + first.draft.sites.length) fr')
    (hfr : ∀ v ∈ sources fr', v.Within n first.draft.sites.length → v ∈ first.ends)
    (hp : ∀ s ∈ later.draft.sites, ∀ q, P q → ¬ q.Under s.stmt) :
    (⟨first.draft ++ later.draft, later.out⟩ : Passage).Encloses
      P n {} (later.draft ++ .ofEdges []) first := by
  refine of_spares (a := ⟨{}, []⟩) (by simp) (by simp) (fun w hw => List.mem_append_left _ hw)
    .empty (.of_fenced hl (.inr (by simp)) (by simpa using hfr)) (fun v hv => ?_) (by simp) hp
  simp only [List.map_nil, List.append_nil, mem_ends, Draft.mem_jumping_append] at hv ⊢
  tauto

/-- The second of two passages. -/
theorem of_second (hf : first.Fenced sc n fr) (hfr : fr.Precedes n)
    (hp : ∀ s ∈ first.draft.sites, ∀ q, P q → ¬ q.Under s.stmt) :
    (⟨first.draft ++ later.draft, later.out⟩ : Passage).Encloses
      P n first.draft ({} ++ .ofEdges []) later := by
  refine of_spares (b := ⟨{}, []⟩) (by simp) (by simp) (fun w hw => List.mem_append_right _ hw)
    (hf.spares hfr (Nat.le_refl _)) .empty (fun v hv => ?_) hp (by simp)
  simp only [List.map_nil, List.append_nil, mem_ends, Draft.mem_jumping_append] at hv ⊢
  tauto

/-- The first arm of a conditional. -/
theorem of_thenArm (hh : (⟨head.draft, head.exits.out⟩ : Passage).Fenced sc n fr)
    (hfr : fr.Precedes n) (hl : head.Laid h n fr)
    (hn : no.Fenced sc (n + head.draft.sites.length + yes.draft.sites.length)
      (labelled head.exits.no .negNext))
    (hp : ∀ s ∈ head.draft.sites, ∀ q, P q → ¬ q.Under s.stmt)
    (hnp : ∀ s ∈ no.draft.sites, ∀ q, P q → ¬ q.Under s.stmt) :
    (⟨head.draft ++ (yes.draft ++ no.draft).asBranch p [yes.draft.region, no.draft.region],
      yes.out ++ no.out⟩ : Passage).Encloses P n head.draft (no.draft ++ .ofEdges []) yes := by
  refine of_spares (a := ⟨head.draft, head.exits.out⟩) (by simp [Draft.asBranch])
    (by simp [Draft.asBranch]) (fun w hw => by simp [Draft.asBranch, hw])
    (hh.spares hfr (Nat.le_refl _))
    (.of_fenced hn (.inr (Nat.le_refl _)) fun v hv hw => ?_) (fun v hv => ?_) hp hnp
  · obtain ⟨o, rfl, hlo, -⟩ := hw
    have hno := hl.precedes (x := labelled head.exits.no .negNext) fun v hv => by
      simp [mem_sources_labelled.1 hv]
    exact absurd (hno o hv) (Nat.not_lt.2 hlo)
  · simp only [List.map_nil, List.append_nil, mem_ends, sources_append, List.mem_append,
      Draft.mem_jumping_append, Draft.jumping_asBranch] at hv ⊢
    tauto

/-- The second arm of a conditional. -/
theorem of_elseArm (hh : (⟨head.draft, head.exits.out⟩ : Passage).Fenced sc n fr)
    (hfr : fr.Precedes n) (hl : head.Laid h n fr)
    (hy : yes.Fenced sc (n + head.draft.sites.length) (labelled head.exits.yes .posNext))
    (hp : ∀ s ∈ head.draft.sites, ∀ q, P q → ¬ q.Under s.stmt)
    (hyp : ∀ s ∈ yes.draft.sites, ∀ q, P q → ¬ q.Under s.stmt) :
    (⟨head.draft ++ (yes.draft ++ no.draft).asBranch p [yes.draft.region, no.draft.region],
      yes.out ++ no.out⟩ : Passage).Encloses P n (head.draft ++ yes.draft)
        ({} ++ .ofEdges []) no := by
  refine of_spares (a := ⟨head.draft ++ yes.draft, yes.out⟩) (b := ⟨{}, []⟩)
    (by simp [Draft.asBranch]) (by simp [Draft.asBranch])
    (fun w hw => by simp [Draft.asBranch, hw]) ?_ .empty (fun v hv => ?_) (fun s hs => ?_)
    (by simp)
  · have hyes := hl.precedes (x := labelled head.exits.yes .posNext) fun v hv => by
      simp [mem_sources_labelled.1 hv]
    exact (hh.spares hfr (by simp)).append (hy.spares hyes (by simp [Nat.add_assoc]))
  · simp only [List.map_nil, List.append_nil, mem_ends, sources_append, List.mem_append,
      Draft.mem_jumping_append, Draft.jumping_asBranch] at hv ⊢
    tauto
  · exact (List.mem_append.1 hs).elim (hp s) (hyp s)

/-- The body of a loop that is tested first. -/
theorem of_closeLoop (hh : (⟨head.draft, head.exits.out⟩ : Passage).Fenced sc n fr)
    (hfr : fr.Precedes n)
    (hs : step.Fenced sc (n + (head.draft.sites.length + body.draft.sites.length))
      (Stmt.bodyEnd body))
    (hp : ∀ s ∈ head.draft.sites, ∀ q, P q → ¬ q.Under s.stmt)
    (hsp : ∀ s ∈ step.draft.sites, ∀ q, P q → ¬ q.Under s.stmt) :
    (Stmt.closeLoop p n head body step).Encloses P n head.draft
      (step.draft ++ .ofEdges (leadTo (labelled step.out .loopControl) (.site n))) body := by
  refine of_spares (a := ⟨head.draft, head.exits.out⟩)
    (by simp [Stmt.closeLoop, Draft.asLoop, Draft.withoutBreaks, Draft.withoutContinues,
      Draft.ofEdges])
    (by simp [Stmt.closeLoop, Draft.asLoop, Draft.withoutBreaks, Draft.withoutContinues,
      Draft.ofEdges])
    (fun w hw => by
      simp [Stmt.closeLoop, Draft.asLoop, Draft.withoutBreaks, Draft.withoutContinues, hw])
    (hh.spares hfr (Nat.le_refl _))
    (.of_fenced hs (.inr (by simp [Nat.add_assoc])) fun v hv _ => mem_ends_of_bodyEnd hv)
    (fun v hv => ?_) hp hsp
  rw [List.mem_append, mem_ends] at hv
  rcases hv with (hv | hv) | hv
  · simp only [Stmt.closeLoop, sources_append, List.mem_append, mem_sources_labelled] at hv
    simp only [mem_ends, Draft.jumping, List.mem_append, Exits.mem_sources_out]
    tauto
  · have hv := Draft.jumping_of_loop hv
    simp only [Draft.mem_jumping_append] at hv
    simp only [mem_ends]
    rcases hv with ((hv | hv) | hv) | hv
    · exact .inl (.inr hv)
    · exact .inr (.inl (.inr hv))
    · exact .inr (.inr (.inr hv))
    · simp [Draft.jumping, Draft.ofEdges] at hv
  · obtain ⟨e, he, rfl⟩ := List.mem_map.1 hv
    exact .inr (.inr (mem_ends.2 (.inl (mem_sources_labelled.1 (source_mem_of_leadTo he).1))))

/-- The body of a loop that is tested behind it. -/
theorem of_closeDoWhile
    (hh : (⟨head.draft, head.exits.out⟩ : Passage).Fenced sc
      (n + body.draft.sites.length) (Stmt.bodyEnd body))
    (hp : ∀ s ∈ head.draft.sites, ∀ q, P q → ¬ q.Under s.stmt) :
    (Stmt.closeDoWhile p n body head).Encloses P n {}
      (head.draft ++ .ofEdges (leadTo (labelled head.exits.yes .loopControl) (.site n))) body := by
  refine of_spares (a := ⟨{}, []⟩) (b := ⟨head.draft, head.exits.out⟩)
    (by simp [Stmt.closeDoWhile, Draft.asLoop, Draft.withoutBreaks, Draft.withoutContinues,
      Draft.ofEdges])
    (by simp [Stmt.closeDoWhile, Draft.asLoop, Draft.withoutBreaks, Draft.withoutContinues,
      Draft.ofEdges])
    (fun w hw => by
      simp [Stmt.closeDoWhile, Draft.asLoop, Draft.withoutBreaks, Draft.withoutContinues, hw])
    .empty (.of_fenced hh (.inr (by simp)) fun v hv _ => mem_ends_of_bodyEnd hv)
    (fun v hv => ?_) (by simp) hp
  rw [List.mem_append, mem_ends] at hv
  rcases hv with (hv | hv) | hv
  · simp only [Stmt.closeDoWhile, sources_append, List.mem_append, mem_sources_labelled] at hv
    simp only [mem_ends, Draft.jumping, List.mem_append, Exits.mem_sources_out]
    tauto
  · have hv := Draft.jumping_of_loop hv
    simp only [Draft.mem_jumping_append] at hv
    simp only [mem_ends]
    rcases hv with (hv | hv) | hv
    · exact .inr (.inl (.inr hv))
    · exact .inr (.inr (.inr hv))
    · simp [Draft.jumping, Draft.ofEdges] at hv
  · obtain ⟨e, he, rfl⟩ := List.mem_map.1 hv
    have he := mem_sources_labelled.1 (source_mem_of_leadTo he).1
    exact .inr (.inr (mem_ends.2 (.inl (by simp [he]))))

/-- The arms of a switch. -/
theorem of_closeSwitch (hh : (⟨head.draft, head.exits.out⟩ : Passage).Fenced sc n fr)
    (hfr : fr.Precedes n) (hp : ∀ s ∈ head.draft.sites, ∀ q, P q → ¬ q.Under s.stmt) :
    (Stmt.closeSwitch p head arms).Encloses P n head.draft ({} ++ .ofEdges [])
      ⟨arms.draft, arms.out⟩ := by
  refine of_spares (a := ⟨head.draft, head.exits.out⟩) (b := ⟨{}, []⟩)
    (by simp [Stmt.closeSwitch, Draft.asBranch, Draft.withoutBreaks])
    (by simp [Stmt.closeSwitch, Draft.asBranch, Draft.withoutBreaks])
    (fun w hw => by simp [Stmt.closeSwitch, Draft.asBranch, Draft.withoutBreaks, hw])
    (hh.spares hfr (Nat.le_refl _)) .empty (fun v hv => ?_) hp (by simp)
  simp only [List.map_nil, List.append_nil, mem_ends, Stmt.closeSwitch, sources_append,
    List.mem_append, Draft.mem_jumping_append] at hv
  simp only [mem_ends]
  rcases hv with ((hv | hv) | hv) | hv | hv
  · exact .inr (.inl (.inl hv))
  · exact .inr (.inl (.inr (by simp [Draft.jumping, hv])))
  · split at hv
    · simp at hv
    · exact .inl (.inl (mem_sources_labelled.1 hv))
  · exact .inl (.inr hv)
  · simp only [Draft.jumping, Draft.withoutBreaks, Draft.asBranch, sources_nil,
      List.nil_append] at hv
    refine .inr (.inl (.inr ?_))
    rw [Draft.jumping, List.append_assoc]
    exact List.mem_append_right _ hv

end Passage.Encloses

/-- A loop that is tested first contains what is in its body. -/
theorem Passage.Contains.closeLoop {sc : Scope} {n : Nat} {fr : Frontier} {head : Head}
    {body step : Passage} {p : Path} {conds : List (Path × Expr)}
    (hb : body.Contains (p.field "body").Under conds (n + head.draft.sites.length))
    (hh : (⟨head.draft, head.exits.out⟩ : Passage).Fenced sc n fr) (hfr : fr.Precedes n)
    (hs : step.Fenced sc (n + (head.draft.sites.length + body.draft.sites.length))
      (Stmt.bodyEnd body))
    (hp : ∀ s ∈ head.draft.sites, s.stmt = p) (hsp : ∀ s ∈ step.draft.sites, s.stmt = p) :
    (Stmt.closeLoop p n head body step).Contains (p.field "body").Under conds n :=
  hb.enclosed (.of_closeLoop hh hfr hs (not_under_own hp) (not_under_own hsp))

namespace Stmt

mutual

/-- The conditionals in a statement, each as its place and its condition. -/
def conditionals : Stmt → List (Path × Expr)
  | .absent | .stray _ | .unlisted | .misnamed _ | .exprStmt _ _ | .decl _ _ _ | .goto _ _
  | .ret _ _ | .brk _ | .cont _ => []
  | .block _ body | .caseArm _ _ body => conditionalsAll body
  | .ifElse p cond thenArm elseArm => (p, cond) :: (thenArm.conditionals ++ elseArm.conditionals)
  | .whileLoop _ _ body | .doWhile _ body _ | .foreach _ _ _ body | .labeled _ _ body =>
    body.conditionals
  | .forLoop _ before _ _ _ body => before.conditionals ++ body.conditionals
  | .switch _ _ arms => conditionalsAll arms

/-- The conditionals in several statements. -/
def conditionalsAll : List Stmt → List (Path × Expr)
  | [] => []
  | s :: rest => s.conditionals ++ conditionalsAll rest

end

variable {sc : Scope} {s : Stmt} {ss : List Stmt} {c : Cursor} {fr : Frontier} {r : Passage}

/-- A statement is entered at its first site. -/
theorem Drawn.entered (h : Drawn sc s c fr r) : r.Entered c.next fr := (h _ _ _ Stmt.entered).2

/-- The sites of a statement stand at or below its place. -/
theorem Drawn.under (h : Drawn sc s c fr r) {p : Path} (hp : s.At p) :
    ∀ s ∈ r.draft.sites, p.Under s.stmt := (h _ _ _ Stmt.sorts p hp).sites

/-- The sites of several statements stand at or below the items of their list. -/
theorem DrawnAll.under (h : DrawnAll sc ss c fr r) {p : Path} {i : Nat} (hp : AtAll p i ss) :
    ∀ s ∈ r.draft.sites, p.From i s.stmt := (h _ _ _ Stmt.sorts p i hp).sites

/-- The head of a statement that evaluates an expression is a passage where the statement
stands. -/
theorem fenced_evaluating {p : Path} {label : String} {e : Expr} {n : Nat} {head : Head}
    (hh : evaluatingHead (plainHost sc p label) e n fr = .ok head) :
    (⟨head.draft, head.exits.out⟩ : Passage).Fenced sc n fr :=
  (Head.Laid.evaluating hh).fenced sc (inside_head (headed_of_evaluating hh)) rfl rfl

/-- The head of a loop is a passage in the loop. -/
theorem fenced_loop (sc : Scope) {p : Path} {label : String} {e : Expr} {n : Nat} {head : Head}
    (hh : loopHead (headerHost p label) e n fr = .ok head) :
    (⟨head.draft, head.exits.out⟩ : Passage).Fenced sc.inLoopBody n fr :=
  (Head.Laid.loop hh).fenced sc.inLoopBody (inside_head (headed_of_loop hh)) rfl rfl

/-- The flow through a statement contains the flows through all conditionals in it. -/
theorem contains : FlowInvariant
    (fun sc s c fr r => Drawn sc s c fr r ∧
      ∀ p, s.At p → fr.Precedes c.next → r.Contains p.Under s.conditionals c.next)
    (fun sc ss c fr r => DrawnAll sc ss c fr r ∧
      ∀ p i, AtAll p i ss → fr.Precedes c.next → r.Contains (p.From i) (conditionalsAll ss) c.next)
    (fun sc arms c subject fallthrough a => DrawnArms sc arms c subject fallthrough a ∧
      ∀ p i, AtAll p i arms → subject.Precedes c.next → fallthrough.Precedes c.next →
        (⟨a.draft, a.out⟩ : Passage).Contains (p.From i) (conditionalsAll arms) c.next) where
  absent := ⟨drawn.absent, fun _ _ _ => .nil⟩
  block hr := by
    refine ⟨drawn.block hr.1, ?_⟩
    rintro p ⟨-, hp⟩ hfr
    exact (hr.2 _ 0 hp hfr).mono fun _ => Path.From.under
  exprStmt hh := ⟨drawn.exprStmt hh, fun _ _ _ => .nil⟩
  decl hh := ⟨drawn.decl hh, fun _ _ _ => .nil⟩
  ifElse {sc p _ _ _ c fr label head yes no} hh hy hn := by
    refine ⟨drawn.ifElse hh hy.1 hn.1, ?_⟩
    rintro _ ⟨rfl, hp, hp'⟩ hfr
    have hl := Head.Laid.evaluating hh
    have hown := hl.hosted.own.stmt
    have hyu := hy.1.under hp
    have hnu := hn.1.under hp'
    have hyes := hy.2 _ hp (hl.precedes fun v hv => by simp [mem_sources_labelled.1 hv])
    have hno := hn.2 _ hp' ((hl.precedes fun v hv => by simp [mem_sources_labelled.1 hv]).mono
      (Nat.le_add_right _ _))
    rw [Cursor.next_after_after] at hno
    rw [conditionals]
    refine List.forall_mem_cons.2 ⟨⟨.refl _, sc, {}, {}, ⟨plainHost sc p label, fr, head, yes, no⟩,
      ?_, .refl⟩, Passage.Contains.append ?_ ?_⟩
    · exact ⟨rfl, hfr, hh, hy.1.fenced, hy.1.entered, hyu, hn.1.fenced, hn.1.entered, hnu⟩
    · exact (hyes.enclosed (.of_thenArm (fenced_evaluating hh)
        hfr hl hn.1.fenced (not_under_own hown) (not_under_other (by decide) hnu))).mono fun _ =>
          .of_field
    · exact (hno.enclosed (.of_elseArm (fenced_evaluating hh)
        hfr hl hy.1.fenced (not_under_own hown) (not_under_other (by decide) hyu))).mono fun _ =>
          .of_field
  whileLoop {sc _ _ _ _ _ _ _ _} hh hb := by
    refine ⟨drawn.whileLoop hh hb.1, ?_⟩
    rintro p ⟨rfl, hp⟩ hfr
    have hl := Head.Laid.loop hh
    have hbody := hb.2 _ hp (hl.precedes fun v hv => by simp [mem_sources_labelled.1 hv])
    exact (hbody.closeLoop (fenced_loop sc hh) hfr .empty hl.hosted.own.stmt (by simp)).mono
      fun _ => .of_field
  forLoop {sc p _ s _ _ _ c d _ _ first start body step head} hf hst hd hh hb hs := by
    refine ⟨drawn.forLoop hf.1 hst hd hh hb.1 hs, ?_⟩
    rintro _ ⟨rfl, hp, hp'⟩ hfr
    have hn : d.next = c.next + (first.draft ++ start.draft).sites.length :=
      hd ▸ Cursor.next_after_after
    have hs' := by simpa [Cursor.after, Nat.add_assoc] using hs
    have hl := Head.Laid.loop hh
    have hbu := hb.1.under hp'
    have hstart : start.Fenced sc (c.next + first.draft.sites.length) first.out :=
      .of_evaluates (.init hst) (inside_side (side_of_init hst)) rfl rfl
    have hstep :
        step.Fenced sc.inLoopBody (d.next + (head.draft.sites.length + body.draft.sites.length))
        (bodyEnd body) := .of_evaluates (.step hs') (inside_side (side_of_step hs')) rfl rfl
    have hloop : (closeLoop p d.next head body step).Fenced sc
        (c.next + first.draft.sites.length + start.draft.sites.length) start.out := by
      rw [Draft.sites_append, List.length_append, ← Nat.add_assoc] at hn
      rw [← hn]
      exact .closeLoop hl (inside_head (headed_of_loop hh)) hb.1.fenced (.step hs')
        (inside_side (side_of_step hs'))
    have hprecedes := (hf.1.fenced.andThen hstart).precedes hfr
    have hstart' : ∀ s ∈ start.draft.sites, s.stmt = p :=
      (Passage.Evaluates.init hst).hosted.own.stmt
    have hstep' : ∀ s ∈ step.draft.sites, s.stmt = p :=
      (Passage.Evaluates.step hs').hosted.own.stmt
    rw [conditionals]
    refine .append ?_ ?_
    · have hinit := hf.2 _ hp hfr
      rw [Draft.append_assoc]
      refine (Passage.Contains.enclosed hinit (.of_first (hstart.andThen hloop)
        (fun v hv _ => List.mem_append_left _ hv) fun s hs => ?_)).mono fun _ => .of_field
      simp only [Draft.sites_append, List.mem_append, closeLoop, Draft.asLoop, Draft.withoutBreaks,
        Draft.withoutContinues, Draft.ofEdges, List.append_nil] at hs
      rcases hs with hs | (hs | hs) | hs
      · exact not_under_own hstart' s hs
      · exact not_under_own hl.hosted.own.stmt s hs
      · exact not_under_other (by decide) hbu s hs
      · exact not_under_own hstep' s hs
    · have hbody := hb.2 _ hp' (hl.precedes fun v hv => by simp [mem_sources_labelled.1 hv])
      have hin : (closeLoop p d.next head body step).Contains (p.field "body").Under s.conditionals
          (c.next + (first.draft ++ start.draft).sites.length) := by
        rw [← hn] at hprecedes ⊢
        exact hbody.closeLoop (fenced_loop sc hh) hprecedes hstep hl.hosted.own.stmt hstep'
      refine (hin.enclosed (.of_second (hf.1.fenced.andThen hstart) hfr fun s hs => ?_)).mono
        fun _ => .of_field
      exact (List.mem_append.1 hs).elim (not_under_other (by decide) (hf.1.under hp) s)
        (not_under_own hstart' s)
  foreach {sc p _ _ _ _ _ _ head _} hh hb := by
    refine ⟨drawn.foreach hh hb.1, ?_⟩
    rintro _ ⟨rfl, hp⟩ hfr
    have hl := (Head.Laid.evaluating hh).exits (x := .straight head.exits.out) fun v hv => by
      simpa [Exits.out] using hv
    have hi := inside_head (headed_of_evaluating hh)
    have hf := hl.fenced sc.inLoopBody hi rfl rfl
    have hbody := hb.2 _ hp (hl.precedes fun v hv => mem_sources_labelled.1 hv)
    exact .mono (P := (p.field "body").Under)
      (.closeLoop hbody hf hfr .empty hl.hosted.own.stmt (by simp)) fun _ => .of_field
  doWhile {sc _ _ _ _ _ _ _ _} hb hh := by
    refine ⟨drawn.doWhile hb.1 hh, ?_⟩
    rintro p ⟨rfl, hp⟩ hfr
    have hl := Head.Laid.loop hh
    have hbody := hb.2 _ hp hfr
    exact (Passage.Contains.enclosed hbody (.of_closeDoWhile (fenced_loop sc hh)
      (not_under_own hl.hosted.own.stmt))).mono fun _ => .of_field
  switch hh ha := by
    refine ⟨drawn.switch hh ha.1, ?_⟩
    rintro p ⟨rfl, hp⟩ hfr
    have hl := Head.Laid.evaluating hh
    have harms := ha.2 _ 0 hp (hl.precedes fun _ hv => hv) (by simp [Frontier.Precedes])
    have harms := harms.mono fun q hq => hq.elim fun _ hi => hi.2.of_item
    exact (harms.enclosed (.of_closeSwitch (fenced_evaluating hh)
      hfr (not_under_own hl.hosted.own.stmt))).mono fun _ => .of_field
  labeled {sc p label text _ c fr _} hl hb := by
    refine ⟨drawn.labeled hl hb.1, ?_⟩
    rintro p ⟨rfl, hp⟩ hfr
    have hsite :
        (⟨labelDraft sc p label text c.next fr, onward c.next⟩ : Passage).Fenced sc c.next fr :=
      .ofSite .labelDraft rfl rfl rfl rfl
    have hbody := hb.2 _ hp (by simp [Frontier.Precedes, Cursor.after, labelDraft, Draft.ofSite])
    exact (hbody.enclosed (.of_second hsite hfr (not_under_own (by simp [labelDraft, Draft.ofSite,
      Host.fragment, Host.site])))).mono fun _ => .of_field
  goto := ⟨drawn.goto, fun _ _ _ => .nil⟩
  ret hh he := ⟨drawn.ret hh he, fun _ _ _ => .nil⟩
  brk hb := ⟨drawn.brk hb, fun _ _ _ => .nil⟩
  cont hc := ⟨drawn.cont hc, fun _ _ _ => .nil⟩
  nil := ⟨drawn.nil, fun _ _ _ _ => .nil⟩
  cons hf hl := by
    refine ⟨drawn.cons hf.1 hl.1, ?_⟩
    rintro p i ⟨hp, hp'⟩ hfr
    have hlater := hl.2 _ _ hp' (hf.1.fenced.precedes hfr)
    refine .append ?_ ?_
    · have he := Passage.Encloses.of_first hl.1.fenced (fun v hv _ => List.mem_append_left _ hv)
        (not_under_later (hl.1.under hp'))
      exact (Passage.Contains.enclosed (hf.2 _ hp hfr) he).mono fun q hq => ⟨i, Nat.le_refl i, hq⟩
    · refine
        (hlater.enclosed (.of_second hf.1.fenced hfr (not_under_earlier (hf.1.under hp)))).mono ?_
      rintro q ⟨j, hj, hq⟩
      exact ⟨j, by omega, hq⟩
  noArms := ⟨drawn.noArms, fun _ _ _ _ _ => .nil⟩
  arm {_ _ _ _ _ c subject fallthrough first later} hf hl := by
    refine ⟨drawn.arm hf.1 hl.1, ?_⟩
    rintro p i ⟨⟨rfl, hp⟩, hp'⟩ hsubject hfall
    have hfr : Frontier.Precedes c.next
        (labelled subject .switchCase ++ labelled fallthrough .nextLine) := by
      intro o ho
      simp only [sources_append, List.mem_append, mem_sources_labelled] at ho
      exact ho.elim (hsubject o) (hfall o)
    have hfu : ∀ s ∈ first.draft.sites, (p.item i).Under s.stmt :=
      fun s hs => (hf.1.under hp s hs).under
    have hlu := (hl.1 _ _ _ Stmt.sorts p (i + 1) hp').draft.sites
    have hlater := hl.2 _ _ hp' (hsubject.mono (Nat.le_add_right _ _)) (hf.1.fenced.precedes hfr)
    refine .append ?_ ?_
    · have hfirst := (hf.2 _ 0 hp hfr).mono fun _ => Path.From.under
      have he :=
        Passage.Encloses.of_first hl.1.fenced.passage (fun v hv hw => ?_) (not_under_later hlu)
      · exact (Passage.Contains.enclosed hfirst he).mono fun q hq => ⟨i, Nat.le_refl i, hq⟩
      · rw [sources_append, List.mem_append] at hv
        -- The subject is evaluated before all arms, so only what falls through can be among the
        -- first one's sites.
        refine List.mem_append_left _ (hv.resolve_left fun hv => ?_)
        obtain ⟨o, rfl, hlo, -⟩ := hw
        exact absurd (hsubject o hv) (Nat.not_lt.2 hlo)
    · refine (hlater.enclosed (.of_second hf.1.fenced hfr (not_under_earlier hfu))).mono ?_
      rintro q ⟨j, hj, hq⟩
      exact ⟨j, by omega, hq⟩

end Stmt

end LastUse
