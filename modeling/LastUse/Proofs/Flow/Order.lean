import LastUse.Flow.Graph
import LastUse.Proofs.Flow.Stmt

/-!
# The order of sites

Sites are numbered in the order in which they are made, and so are the sites that the regions hold
(`Draft.Numbered`). Every edge of a draft is orderly (`Edge.Orderly`): it goes ahead, it leaves the
function, or it goes back to the head of a loop and spans only sites of that loop. No edge leads
from a `return` to anything but the same `return` and the exit.
-/

namespace LastUse

/-! ## Where the edges of a frontier come from -/

/-- The vertices that the edges of a frontier come from. -/
def sources (fr : Frontier) : List Vertex := fr.map (·.1)

@[simp] theorem sources_nil : sources [] = [] := rfl

@[simp] theorem sources_append (a b : Frontier) : sources (a ++ b) = sources a ++ sources b :=
  List.map_append

@[simp] theorem sources_onward (n : Nat) : sources (onward n) = [.site n] := rfl

/-- A vertex is a source of a frontier if the frontier has it with some label. -/
theorem mem_sources {fr : Frontier} {v : Vertex} : v ∈ sources fr ↔ ∃ l, (v, l) ∈ fr := by
  simp [sources]

@[simp] theorem mem_sources_labelled {fr : Frontier} {l : EdgeLabel} {v : Vertex} :
    v ∈ sources (labelled fr l) ↔ v ∈ sources fr := by
  simp [mem_sources, mem_labelled]

@[simp] theorem Exits.yes_straight (out : Frontier) : (straight out).yes = out := rfl

@[simp] theorem Exits.no_straight (out : Frontier) : (straight out).no = out := rfl

@[simp] theorem Exits.yes_forked (yes no : Frontier) : (forked yes no).yes = yes := rfl

@[simp] theorem Exits.no_forked (yes no : Frontier) : (forked yes no).no = no := rfl

@[simp] theorem Exits.mem_sources_out {x : Exits} {v : Vertex} :
    v ∈ sources x.out ↔ v ∈ sources x.yes ∨ v ∈ sources x.no := by
  cases x <;> simp [Exits.out]

/-- An edge of a frontier that is led to a target. -/
theorem source_mem_of_leadTo {fr : Frontier} {t : Vertex} {e : Edge} (h : e ∈ leadTo fr t) :
    e.source ∈ sources fr ∧ e.target = t := by
  obtain ⟨hs, ht⟩ := mem_leadTo.1 h
  exact ⟨mem_sources.2 ⟨_, hs⟩, ht⟩

/-! ## The sites of a region -/

mutual

/-- The sites of a region, in order. -/
def Region.ordinals : Region → List Nat
  | .site o => [o]
  | .branch _ arms => armOrdinals arms
  | .loop _ body => ordinalsAll body
  | .ret _ => []

/-- The sites of a sequence of regions, in order. -/
def ordinalsAll : List Region → List Nat
  | [] => []
  | r :: rest => r.ordinals ++ ordinalsAll rest

/-- The sites of the arms of a branch, in order. -/
def armOrdinals : List (List Region) → List Nat
  | [] => []
  | arm :: rest => ordinalsAll arm ++ armOrdinals rest

end

@[simp] theorem ordinalsAll_append (a b : List Region) :
    ordinalsAll (a ++ b) = ordinalsAll a ++ ordinalsAll b := by
  induction a with
  | nil => rfl
  | cons r rest ih => simp [ordinalsAll, ih]

/-- The sites of two lists of arms are those of the first, then those of the second. -/
theorem armOrdinals_append (a b : List (List Region)) :
    armOrdinals (a ++ b) = armOrdinals a ++ armOrdinals b := by
  induction a with
  | nil => rfl
  | cons arm rest ih => simp [armOrdinals, ih]

/-- The sites of a sequence of single sites. -/
theorem ordinalsAll_map_site (ordinals : List Nat) :
    ordinalsAll (ordinals.map .site) = ordinals := by
  induction ordinals with
  | nil => rfl
  | cons o rest ih => simp [ordinalsAll, Region.ordinals, ih]

/-! ## Numbering -/

/-- The sites of a draft and of its regions are numbered from an ordinal on. -/
structure Draft.Numbered (n : Nat) (d : Draft) : Prop where
  sites : d.sites.map (·.ordinal) = List.range' n d.sites.length
  region : ordinalsAll d.region = List.range' n d.sites.length

namespace Draft.Numbered

variable {n : Nat} {a b d : Draft}

/-- Every ordinal of a numbered draft is that of a site. -/
theorem exists_site (h : d.Numbered n) {o : Nat} (hl : n ≤ o) (hu : o < n + d.sites.length) :
    ∃ s ∈ d.sites, s.ordinal = o := by
  have ho : o ∈ d.sites.map (·.ordinal) := by
    rw [h.sites, List.mem_range'_1]
    exact ⟨hl, hu⟩
  simpa using ho

/-- A draft without sites is numbered from anywhere. -/
theorem of_no_sites (hs : d.sites = []) (hr : ordinalsAll d.region = []) : d.Numbered n :=
  ⟨by simp [hs], by simp [hs, hr]⟩

/-- A single site is numbered from its own ordinal on. -/
theorem ofSite {s : Site} {fr : Frontier} : (Draft.ofSite s fr).Numbered s.ordinal :=
  ⟨rfl, rfl⟩

/-- A draft that is numbered on from another makes one numbered draft with it. -/
theorem append (ha : a.Numbered n) (hb : b.Numbered (n + a.sites.length)) :
    (a ++ b).Numbered n := by
  constructor
  · rw [sites_append, List.map_append, ha.sites, hb.sites, List.length_append,
      List.range'_append_1]
  · rw [region_append, ordinalsAll_append, ha.region, hb.region, sites_append,
      List.length_append, List.range'_append_1]

/-- The sites of a draft do not change where its regions are nested anew. -/
theorem congr (h : d.Numbered n) (hs : b.sites = d.sites)
    (hr : ordinalsAll b.region = ordinalsAll d.region) : b.Numbered n :=
  ⟨by rw [hs, h.sites], by rw [hr, hs, h.region]⟩

end Draft.Numbered

/-! ## Orderly edges -/

/-- What is known of sites by their ordinals. -/
structure Marks where
  inLoop : Nat → Bool
  inReturn : Nat → Bool

/-- The marks agree with some sites. -/
def Marks.Of (m : Marks) (sites : List Site) : Prop :=
  ∀ s ∈ sites, m.inLoop s.ordinal = s.inLoop ∧ m.inReturn s.ordinal = s.inReturn

/-- Marks agree with two lists of sites if they agree with each. -/
theorem Marks.of_append {m : Marks} {a b : List Site} : m.Of (a ++ b) ↔ m.Of a ∧ m.Of b := by
  simp only [Marks.Of, List.forall_mem_append]

/-- An edge that goes ahead, leaves the function, or goes back to the head of a loop. -/
inductive Edge.Orderly (m : Marks) : Edge → Prop
  | enter {o : Nat} {l : EdgeLabel} : Orderly m ⟨.start, .site o, l⟩
  | leave {v : Vertex} {l : EdgeLabel} : v ≠ .exit → Orderly m ⟨v, .exit, l⟩
  | ahead {u v : Nat} {l : EdgeLabel} : u < v → (m.inReturn u = true → m.inReturn v = true) →
      Orderly m ⟨.site u, .site v, l⟩
  | back {u v : Nat} : v ≤ u → (∀ o, v ≤ o → o ≤ u → m.inLoop o = true) → m.inReturn u = false →
      Orderly m ⟨.site u, .site v, .loopControl⟩

/-- A vertex from which an edge may lead ahead to the site `n`. If `ret` is not set, it belongs to
no `return`. -/
def Vertex.Before (m : Marks) (ret : Bool) (n : Nat) (v : Vertex) : Prop :=
  v = .start ∨ ∃ u, v = .site u ∧ u < n ∧ (m.inReturn u = true → ret = true)

/-- One of the `k` sites from `n` on. If `ret` is not set, it belongs to no `return`. -/
def Vertex.Among (m : Marks) (ret : Bool) (n k : Nat) (v : Vertex) : Prop :=
  ∃ o, v = .site o ∧ n ≤ o ∧ o < n + k ∧ (m.inReturn o = true → ret = true)

namespace Vertex

variable {m : Marks} {ret : Bool} {n n' k k' : Nat} {v : Vertex}

/-- What comes before a site comes before later ones. -/
theorem Before.mono (h : v.Before m ret n) (hn : n ≤ n') : v.Before m ret n' := by
  rcases h with rfl | ⟨u, rfl, hu, hr⟩
  · exact .inl rfl
  · exact .inr ⟨u, rfl, by omega, hr⟩

/-- One of some sites is one of more. -/
theorem Among.mono (h : v.Among m ret n k) (hn : n' ≤ n) (hk : n + k ≤ n' + k') :
    v.Among m ret n' k' := by
  obtain ⟨o, rfl, hl, hu, hr⟩ := h
  exact ⟨o, rfl, by omega, by omega, hr⟩

/-- One of some sites comes before the sites behind them. -/
theorem Among.before (h : v.Among m ret n k) (hn : n + k ≤ n') : v.Before m ret n' := by
  obtain ⟨o, rfl, hl, hu, hr⟩ := h
  exact .inr ⟨o, rfl, by omega, hr⟩

end Vertex

/-- Edges that are led ahead to a site are orderly. -/
theorem Edge.Orderly.of_leadTo {m : Marks} {ret : Bool} {fr : Frontier} {n : Nat} {e : Edge}
    (hfr : ∀ v ∈ sources fr, v.Before m ret n) (hn : ret = true → m.inReturn n = true)
    (he : e ∈ leadTo fr (.site n)) : e.Orderly m := by
  obtain ⟨hs, ht⟩ := source_mem_of_leadTo he
  obtain ⟨s, t, l⟩ := e
  cases ht
  rcases hfr _ hs with h | ⟨u, h, hu, hr⟩
  · cases h
    exact .enter
  · cases h
    exact .ahead hu fun hu => hn (hr hu)

/-- Edges that are led back to the head of a loop are orderly. -/
theorem Edge.Orderly.of_loop {m : Marks} {fr : Frontier} {n k : Nat} {e : Edge}
    (hfr : ∀ v ∈ sources fr, v.Among m false n k)
    (hl : ∀ o, n ≤ o → o < n + k → m.inLoop o = true)
    (he : e ∈ leadTo (labelled fr .loopControl) (.site n)) : e.Orderly m := by
  obtain ⟨hs, ht⟩ := mem_leadTo.1 he
  obtain ⟨hs, hlabel⟩ := mem_labelled.1 hs
  obtain ⟨s, t, l⟩ := e
  cases ht
  cases hlabel
  obtain ⟨u, hu, hnu, huk, hr⟩ := hfr s (mem_sources.2 hs)
  cases hu
  exact .back hnu (fun o ho hou => hl o ho (by omega)) (by simpa using hr)

/-- The edges of a draft are orderly if the frontier that leads into it comes from before it, and
the edges that leave it come from that frontier or from its own sites. -/
structure Draft.Carries (m : Marks) (ret : Bool) (n : Nat) (fr : Frontier) (d : Draft)
    (out : Frontier) : Prop where
  out : ∀ v ∈ sources out, v ∈ sources fr ∨ v.Among m ret n d.sites.length
  edges : (∀ v ∈ sources fr, v.Before m ret n) → ∀ e ∈ d.edges, e.Orderly m

namespace Draft.Carries

variable {m : Marks} {ret : Bool} {n : Nat} {fr fr' mid out out' : Frontier} {a b d : Draft}

/-- A draft without edges lets all pass. -/
theorem of_no_edges (he : d.edges = []) : d.Carries m ret n fr fr :=
  ⟨fun _ hv => .inl hv, fun _ => by simp [he]⟩

/-- What leaves a draft may be less. -/
theorem sub (h : d.Carries m ret n fr out) (hs : ∀ v ∈ sources out', v ∈ sources out) :
    d.Carries m ret n fr out' :=
  ⟨fun v hv => h.out v (hs v hv), h.edges⟩

/-- Only the sites and the edges of a draft matter. -/
theorem congr (h : a.Carries m ret n fr out) (hs : b.sites = a.sites) (he : b.edges = a.edges) :
    b.Carries m ret n fr out :=
  ⟨by rw [hs]; exact h.out, by rw [he]; exact h.edges⟩

/-- What comes out of a draft comes from before what follows it. -/
theorem before (h : d.Carries m ret n fr out) (hfr : ∀ v ∈ sources fr, v.Before m ret n) :
    ∀ v ∈ sources out, v.Before m ret (n + d.sites.length) := by
  intro v hv
  rcases h.out v hv with hv | hv
  · exact (hfr v hv).mono (by omega)
  · exact hv.before (by omega)

/-- A draft and the next one, which is entered from the same frontier or from the first draft. -/
theorem append (ha : a.Carries m ret n fr mid)
    (hb : b.Carries m ret (n + a.sites.length) fr' out)
    (hs : ∀ v ∈ sources fr', v ∈ sources fr ∨ v ∈ sources mid) :
    (a ++ b).Carries m ret n fr (mid ++ out) := by
  have hmid : ∀ v ∈ sources mid, v ∈ sources fr ∨ v.Among m ret n (a ++ b).sites.length := by
    intro v hv
    rcases ha.out v hv with hv | hv
    · exact .inl hv
    · exact .inr (hv.mono (Nat.le_refl _) (by simp))
  constructor
  · intro v hv
    rw [sources_append, List.mem_append] at hv
    rcases hv with hv | hv
    · exact hmid v hv
    · rcases hb.out v hv with hv | hv
      · rcases hs v hv with hv | hv
        · exact .inl hv
        · exact hmid v hv
      · exact .inr (hv.mono (by omega) (by simp; omega))
  · intro hfr e he
    rw [edges_append, List.mem_append] at he
    rcases he with he | he
    · exact ha.edges hfr e he
    · refine hb.edges (fun v hv => ?_) e he
      rcases hs v hv with hv | hv
      · exact (hfr v hv).mono (by omega)
      · exact ha.before hfr v hv

/-- A frontier may hold more than what leads into a draft. -/
theorem weaken (h : d.Carries m ret n fr out) (hs : ∀ v ∈ sources fr, v ∈ sources fr') :
    d.Carries m ret n fr' out :=
  ⟨fun v hv => (h.out v hv).imp_left (hs v), fun hfr => h.edges fun v hv => hfr v (hs v hv)⟩

/-- More edges may leave a draft from its own sites. -/
theorem more (h : d.Carries m ret n fr out)
    (hs : ∀ v ∈ sources out', v.Among m ret n d.sites.length) :
    d.Carries m ret n fr (out ++ out') := by
  refine ⟨fun v hv => ?_, h.edges⟩
  rw [sources_append, List.mem_append] at hv
  exact hv.elim (h.out v) fun hv => .inr (hs v hv)

/-- What comes out of a draft that is entered from the `k` sites before it comes from these sites
or its own. -/
theorem among {k : Nat} (h : d.Carries m ret (n + k) fr out)
    (hfr : ∀ v ∈ sources fr, v.Among m ret n k) :
    ∀ v ∈ sources out, v.Among m ret n (k + d.sites.length) := by
  intro v hv
  rcases h.out v hv with hv | hv
  · exact (hfr v hv).mono (Nat.le_refl _) (by omega)
  · exact hv.mono (by omega) (by omega)

/-- A single site is entered from before it and left from itself. -/
theorem ofSite {s : Site} (hm : m.Of [s]) (hr : ret = s.inReturn) :
    (Draft.ofSite s fr).Carries m ret s.ordinal fr (onward s.ordinal) := by
  have hs := (hm s (List.mem_singleton_self s)).2
  constructor
  · intro v hv
    rw [sources_onward, List.mem_singleton] at hv
    exact .inr ⟨s.ordinal, hv, Nat.le_refl _, Nat.lt_succ_self _, fun h => by rw [hr, ← hs, h]⟩
  · intro hfr e he
    exact .of_leadTo hfr (fun h => by rw [hs, ← hr, h]) he

end Draft.Carries

/-! ## Expressions -/

/-- The sites from which control jumps to a place that the draft does not know. -/
def Draft.jumping (d : Draft) : List Vertex :=
  sources d.breaks ++ sources d.continues ++ d.gotos.map fun t => .site t.1

/-- Control jumps in two drafts where it jumps in one of them. -/
theorem Draft.mem_jumping_append {a b : Draft} {v : Vertex} :
    v ∈ (a ++ b).jumping ↔ v ∈ a.jumping ∨ v ∈ b.jumping := by
  simp only [jumping, breaks_append, continues_append, gotos_append, sources_append,
    List.map_append, List.mem_append]
  grind

/-- The draft of a statement's own expressions: its sites belong to the statement and stand one
after the other. -/
structure Draft.Hosted (h : Host) (n : Nat) (d : Draft) : Prop where
  numbered : d.Numbered n
  host : ∀ s ∈ d.sites, s.stmt = h.stmt ∧ s.inLoop = h.inLoop ∧ s.inReturn = h.inReturn
  region : d.region = (d.sites.map (·.ordinal)).map .site
  labels : d.labels = []
  gotos : d.gotos = []
  breaks : d.breaks = []
  continues : d.continues = []

namespace Draft.Hosted

variable {h : Host} {n : Nat} {fr : Frontier} {a b : Draft}

/-- An empty draft belongs to any statement. -/
theorem empty : Hosted h n {} :=
  ⟨.of_no_sites rfl rfl, by simp, rfl, rfl, rfl, rfl, rfl⟩

/-- A site that is made for a statement belongs to it. -/
theorem ofSite {kind : SiteKind} {label : String} :
    (Draft.ofSite (h.site n kind label) fr).Hosted h n :=
  ⟨Numbered.ofSite (s := h.site n kind label), by simp [Draft.ofSite, Host.site], rfl, rfl,
    rfl, rfl, rfl⟩

/-- A draft that attaches an expression to a site may belong to any statement. -/
theorem ofExpr {o : Nat} {e : Expr} : (Draft.ofExpr o e).Hosted h n :=
  ⟨.of_no_sites rfl rfl, by simp [Draft.ofExpr], rfl, rfl, rfl, rfl, rfl⟩

/-- A draft that gives a node its owner may belong to any statement. -/
theorem ofOwned {p : Path} {o : Nat} : (Draft.ofOwned p o).Hosted h n :=
  ⟨.of_no_sites rfl rfl, by simp [Draft.ofOwned], rfl, rfl, rfl, rfl, rfl⟩

/-- Two drafts of a statement, numbered on from each other, make one. -/
theorem append (ha : a.Hosted h n) (hb : b.Hosted h (n + a.sites.length)) :
    (a ++ b).Hosted h n where
  numbered := ha.numbered.append hb.numbered
  host s hs := by
    rw [sites_append, List.mem_append] at hs
    exact hs.elim (ha.host s) (hb.host s)
  region := by simp [ha.region, hb.region]
  labels := by simp [ha.labels, hb.labels]
  gotos := by simp [ha.gotos, hb.gotos]
  breaks := by simp [ha.breaks, hb.breaks]
  continues := by simp [ha.continues, hb.continues]

/-- No expression jumps. -/
theorem jumping (ha : a.Hosted h n) : a.jumping = [] := by
  simp [Draft.jumping, ha.breaks, ha.continues, ha.gotos]

end Draft.Hosted

/-- A flow through a statement's expression is hosted by the statement, and its edges are
orderly. -/
structure Flow.Laid (h : Host) (n : Nat) (fr : Frontier) (f : Flow) : Prop where
  hosted : f.draft.Hosted h n
  carries (m : Marks) : m.Of f.draft.sites → f.draft.Carries m h.inReturn n fr f.exits.out

namespace Flow.Laid

variable {h : Host} {n : Nat} {fr : Frontier}

/-- The flow through a fragment, at which something without sites is evaluated. -/
theorem atFragment {o : Option Nat} {evaluated : Nat → Draft}
    (hev : ∀ o n, (evaluated o).Hosted h n) (hs : ∀ o, (evaluated o).sites = [])
    (he : ∀ o, (evaluated o).edges = []) : (Flow.atFragment h n o fr evaluated).Laid h n fr := by
  cases o with
  | some o => exact ⟨hev o n, fun m _ => .of_no_edges (he o)⟩
  | none =>
    refine ⟨Draft.Hosted.ofSite.append (hev n _), fun m hm => ?_⟩
    have hm := (Marks.of_append.1 hm).1
    refine (Draft.Carries.ofSite (s := h.fragment n) hm rfl).congr ?_ ?_
    · simp [Flow.atFragment, hs]
    · simp [Flow.atFragment, he]

/-- The last step of the flow through an expression keeps the layout. -/
theorem finish {p : Path} {parts : Flow} (hp : parts.Laid h n fr) :
    (Flow.finish h p n parts).Laid h n fr := by
  have hl : (Flow.atFragment h (n + parts.draft.sites.length) parts.fragment parts.exits.out
      fun o => Draft.ofOwned p o).Laid h (n + parts.draft.sites.length) parts.exits.out :=
    atFragment (fun _ _ => .ofOwned) (fun _ => rfl) fun _ => rfl
  refine ⟨hp.hosted.append hl.hosted, fun m hm => ?_⟩
  obtain ⟨hm, hm'⟩ := Marks.of_append.1 hm
  exact ((hp.carries m hm).append (hl.carries m hm') fun _ hv => .inr hv).sub
    fun _ hv => by simp [Flow.finish] at hv ⊢; exact .inr hv

/-- The flow through a site, then through what is evaluated behind it. -/
theorem behindSite {kind : SiteKind} {label : String} {f : Flow}
    (hf : f.Laid h (n + 1) (onward n)) :
    ({ f with draft := Draft.ofSite (h.site n kind label) fr ++ f.draft } : Flow).Laid h n fr := by
  refine ⟨Draft.Hosted.ofSite.append hf.hosted, fun m hm => ?_⟩
  obtain ⟨hm, hm'⟩ := Marks.of_append.1 hm
  have hs : (Draft.ofSite (h.site n kind label) fr).Carries m h.inReturn n fr (onward n) :=
    .ofSite hm rfl
  exact (hs.append (hf.carries m hm') fun _ hv => .inr hv).sub fun v hv => by
    rw [sources_append]
    exact List.mem_append_right _ hv

/-- The two sides of a connective are laid out one behind the other. -/
theorem logic {c : Connective} {left right : Flow} (hl : left.Laid h n fr)
    (hr : right.Laid h (n + left.draft.sites.length) (Flow.entry c left.exits)) :
    (⟨left.draft ++ right.draft, none, Flow.combine c left.exits right.exits⟩ : Flow).Laid
      h n fr := by
  refine ⟨hl.hosted.append hr.hosted, fun m hm => ?_⟩
  obtain ⟨hm, hm'⟩ := Marks.of_append.1 hm
  refine ((hl.carries m hm).append (hr.carries m hm') fun v hv => .inr ?_).sub fun v hv => ?_
  · cases c <;> simp [Flow.entry] at hv <;> simp [hv]
  · cases c <;> simp [Flow.combine] at hv ⊢ <;> grind

/-- One flow after another. -/
theorem andThen {first later : Flow} (hf : first.Laid h n fr)
    (hl : later.Laid h (n + first.draft.sites.length) first.exits.out) :
    ({ later with draft := first.draft ++ later.draft } : Flow).Laid h n fr := by
  refine ⟨hf.hosted.append hl.hosted, fun m hm => ?_⟩
  obtain ⟨hm, hm'⟩ := Marks.of_append.1 hm
  exact ((hf.carries m hm).append (hl.carries m hm') fun _ hv => .inr hv).sub fun v hv => by
    rw [sources_append]
    exact List.mem_append_right _ hv

end Flow.Laid

/-- Every flow through an expression is laid out in order. -/
theorem Expr.laid (h : Host) : Expr.FlowInvariant h (fun _ n _ fr f => f.Laid h n fr)
    (fun _ n _ fr f => f.Laid h n fr) (fun _ _ n fr f => f.Laid h n fr) where
  plain _ := .atFragment (fun _ _ => .ofExpr) (fun _ => rfl) fun _ => rfl
  finish _ _ _ _ hq := hq.finish
  logic hl hr := hl.logic hr
  nil := ⟨.empty, fun _ _ => .of_no_edges rfl⟩
  cons hf hl := hf.andThen hl
  nested _ hp := hp
  leaf _ hp := hp.behindSite

/-! ## Heads of statements -/

/-- The head of a statement is hosted by the statement, and what leaves it comes from its sites. -/
structure Head.Laid (h : Host) (n : Nat) (fr : Frontier) (head : Head) : Prop where
  hosted : head.draft.Hosted h n
  carries (m : Marks) : m.Of head.draft.sites → head.draft.Carries m h.inReturn n fr head.exits.out
  among (m : Marks) : m.Of head.draft.sites → ∀ v ∈ sources head.exits.out,
    v.Among m h.inReturn n head.draft.sites.length

/-- The first site of a statement is one of its sites. -/
theorem Vertex.Among.head {m : Marks} {h : Host} {n k : Nat} {kind : SiteKind} {label : String}
    (hm : m.Of [h.site n kind label]) (hk : 0 < k) : (Vertex.site n).Among m h.inReturn n k := by
  have hs := (hm _ (List.mem_singleton_self _)).2
  exact ⟨n, rfl, Nat.le_refl _, by omega, fun hr => hs.symm.trans hr⟩

namespace Head.Laid

variable {h : Host} {e : Expr} {n : Nat} {fr : Frontier} {head : Head}

/-- A head that evaluates nothing is laid out. -/
theorem bare : (Stmt.bareHead h n fr).Laid h n fr := by
  refine ⟨.ofSite, fun m hm => .ofSite hm rfl, fun m hm v hv => ?_⟩
  simp only [Stmt.bareHead, Exits.out, sources_onward, List.mem_singleton] at hv
  exact hv ▸ .head hm Nat.zero_lt_one

/-- The flow through the first site of a statement and then through an expression. -/
theorem of_flow {kind : SiteKind} {label : String} {f : Flow} (hf : f.Laid h (n + 1) (onward n)) :
    (⟨Draft.ofSite (h.site n kind label) fr ++ f.draft, f.exits⟩ : Head).Laid h n fr := by
  have hb :
      ({ f with draft := Draft.ofSite (h.site n kind label) fr ++ f.draft } : Flow).Laid h n fr :=
    hf.behindSite
  refine ⟨hb.hosted, hb.carries, fun m hm v hv => ?_⟩
  obtain ⟨hm, hm'⟩ := Marks.of_append.1 hm
  rcases (hf.carries m hm').out v hv with hv | hv
  · rw [sources_onward, List.mem_singleton] at hv
    exact hv ▸ .head hm (by simp [Draft.ofSite])
  · exact hv.mono (by omega) (by simp [Draft.ofSite]; omega)

/-- A head that evaluates an expression is laid out. -/
theorem evaluating (H : Stmt.evaluatingHead h e n fr = .ok head) : head.Laid h n fr := by
  obtain ⟨f, hf, H⟩ := ok_of_bind H
  cases H
  exact of_flow ((Expr.laid h).flow hf)

/-- A head that may evaluate nothing is laid out. -/
theorem optional (H : Stmt.optionalHead h e n fr = .ok head) : head.Laid h n fr := by
  unfold Stmt.optionalHead at H
  split at H
  · cases H
    exact bare
  · exact evaluating H

/-- What leaves a head may be told apart in other ways. -/
theorem exits {x : Exits} (hh : head.Laid h n fr)
    (hx : ∀ v ∈ sources x.out, v ∈ sources head.exits.out) :
    (⟨head.draft, x⟩ : Head).Laid h n fr :=
  ⟨hh.hosted, fun m hm => (hh.carries m hm).sub hx, fun m hm v hv => hh.among m hm v (hx v hv)⟩

/-- The head of a loop is laid out. -/
theorem loop (H : Stmt.loopHead h e n fr = .ok head) : head.Laid h n fr := by
  unfold Stmt.loopHead at H
  split at H
  · cases H
    exact bare.exits fun v hv => by simpa [Exits.out] using hv
  · exact evaluating H

end Head.Laid

/-- The flow through a part of a statement that only evaluates expressions. -/
structure Passage.Evaluates (h : Host) (n : Nat) (fr : Frontier) (r : Passage) : Prop where
  hosted : r.draft.Hosted h n
  carries (m : Marks) : m.Of r.draft.sites → r.draft.Carries m h.inReturn n fr r.out

namespace Passage.Evaluates

variable {h : Host} {e : Expr} {n : Nat} {fr : Frontier} {r : Passage}

/-- Where nothing is evaluated all passes. -/
theorem nothing : (⟨{}, fr⟩ : Passage).Evaluates h n fr :=
  ⟨.empty, fun _ _ => .of_no_edges rfl⟩

/-- A head evaluates its expression. -/
theorem of_head {head : Head} (hh : head.Laid h n fr) :
    (⟨head.draft, head.exits.out⟩ : Passage).Evaluates h n fr :=
  ⟨hh.hosted, hh.carries⟩

/-- The start or the step of a loop evaluates its expression. -/
theorem side (H : Stmt.Side h e n fr r) : r.Evaluates h n fr := by
  cases H with
  | absent => exact nothing
  | site _ hf => exact of_head (.of_flow ((Expr.laid h).flow hf))

/-- The start of a loop evaluates its expression. -/
theorem init (H : Stmt.initFlow h e n fr = .ok r) : r.Evaluates h n fr :=
  side (Stmt.side_of_init H)

/-- The step of a loop evaluates its expression. -/
theorem step (H : Stmt.stepFlow h e n fr = .ok r) : r.Evaluates h n fr :=
  side (Stmt.side_of_step H)

end Passage.Evaluates

end LastUse
