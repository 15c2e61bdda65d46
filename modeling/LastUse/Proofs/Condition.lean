import LastUse.Proofs.Flow.Embedded
import LastUse.Proofs.Flow.Turns
import LastUse.Proofs.Ownership
import LastUse.Proofs.Sample

/-!
# Conditions of conditionals

The condition of a conditional is evaluated operand by operand, each at a site of its own. Whatever
the truth values of the operands, the edges with the labels of these values lead through the sites
of those operands that are evaluated, and on to the arm that is taken
(`FlowGraph.condition_steers`).
-/

namespace LastUse

/-! ## Following truth values -/

namespace FlowGraph

/-- Control goes through sites, each with a truth value, along the only edge that there is for the
value. -/
inductive Steers (g : FlowGraph) : Vertex → List (Nat × Bool) → Vertex → Prop
  | arrive {v : Vertex} : Steers g v [] v
  | turn {n : Nat} {value : Bool} {v w : Vertex} {steps : List (Nat × Bool)} :
    g.edges.filter (Edge.isTurn n value) = [⟨.site n, v, .ofTruth value⟩] → Steers g v steps w →
    Steers g (.site n) ((n, value) :: steps) w

/-- The edges of a graph make a turn. -/
def Makes (g : FlowGraph) (t : Turn) : Prop :=
  ∀ value, g.edges.filter (Edge.isTurn t.site value) = [t.edge value]

variable {g : FlowGraph}

/-- Control that goes to a vertex and from there to another goes through the sites of both ways. -/
theorem Steers.append {u v w : Vertex} {steps steps' : List (Nat × Bool)} (h : g.Steers u steps v)
    (h' : g.Steers v steps' w) : g.Steers u (steps ++ steps') w := by
  induction h with
  | arrive => exact h'
  | turn he _ ih => exact .turn he (ih h')

/-- Where the turns of a condition are made, control goes through the operands that are
evaluated. -/
theorem steers_of_makes (value : Expr → Bool) (site : Expr → Nat) {e : Expr} {n : Nat}
    {yes no : Vertex} (hsite : e.operands.map site = List.range' n e.operands.length)
    (hm : ∀ t ∈ e.turns n yes no, g.Makes t) :
    g.Steers (.site n) ((e.tested value).map fun x => (site x, value x))
      (if e.holds value then yes else no) := by
  induction e using Expr.inductionOnConnectives generalizing n yes no with
  | operand e he =>
    rw [Expr.operands_of_operand he] at hsite
    obtain rfl : site e = n := by simpa using hsite
    rw [Expr.turns_of_operand he] at hm
    rw [Expr.tested_of_operand he, Expr.holds_of_operand he]
    exact .turn (hm _ (List.mem_singleton_self _) (value e)) .arrive
  | logic p c l r ihl ihr =>
    rw [Expr.operands, List.map_append, List.length_append, ← List.range'_append_1] at hsite
    obtain ⟨hsl, hsr⟩ := List.append_inj hsite (by simp)
    cases c with
    | and =>
      rw [Expr.turns, List.forall_mem_append] at hm
      have hleft := ihl hsl hm.1
      rw [Expr.tested, Expr.holds]
      cases hl : l.holds value with
      | true =>
        rw [hl] at hleft
        simpa using hleft.append (ihr hsr hm.2)
      | false =>
        rw [hl] at hleft
        simpa using hleft
    | or =>
      rw [Expr.turns, List.forall_mem_append] at hm
      have hleft := ihl hsl hm.1
      rw [Expr.tested, Expr.holds]
      cases hl : l.holds value with
      | true =>
        rw [hl] at hleft
        simpa using hleft
      | false =>
        rw [hl] at hleft
        simpa using hleft.append (ihr hsr hm.2)

end FlowGraph

/-! ## The flow through a conditional -/

/-- The first of some sites that stands at a place or below it. -/
def entrySite (q : Path) (sites : List Site) : Option Nat :=
  (sites.find? fun s => q.Under s.stmt).map (·.ordinal)

section

variable {q : Path} {sites rest : List Site}

/-- Sites that stand elsewhere may follow. -/
theorem entrySite_append_left (h : ∀ s ∈ rest, ¬ q.Under s.stmt) :
    entrySite q (sites ++ rest) = entrySite q sites := by
  have hnone : rest.find? (fun s => q.Under s.stmt) = none := by simpa using h
  rw [entrySite, List.find?_append, hnone, Option.or_none, entrySite]

/-- Sites that stand elsewhere may come before. -/
theorem entrySite_append_right (h : ∀ s ∈ sites, ¬ q.Under s.stmt) :
    entrySite q (sites ++ rest) = entrySite q rest := by
  have hnone : sites.find? (fun s => q.Under s.stmt) = none := by simpa using h
  rw [entrySite, List.find?_append, hnone, Option.none_or, entrySite]

/-- Sites that are numbered from `n` on begin with `n`. -/
theorem entrySite_of_numbered {n : Nat} (hu : ∀ s ∈ sites, q.Under s.stmt)
    (hn : sites.map (·.ordinal) = List.range' n sites.length) :
    entrySite q sites = if sites = [] then none else some n := by
  cases sites with
  | nil => rfl
  | cons s later =>
    rw [List.map_cons, List.length_cons, List.range'_succ, List.cons.injEq] at hn
    simp [entrySite, hu s List.mem_cons_self, hn.1]

end

/-- The conditional at a place is among some sites with their edges and owners, and its arms begin
at the sites `a` and `b`: its head is the site `n`, the operands of its condition have the sites
behind it, and control leaves these sites by one edge from the head and by edges that make the
turns of the condition. -/
structure Routes (p : Path) (e : Expr) (n a b : Nat) (sites : List Site) (edges : List Edge)
    (owned : List (Path × Nat)) : Prop where
  ordinals : (sites.filter (·.stmt = p)).map (·.ordinal) = List.range' n (e.operands.length + 1)
  thenSite : entrySite (p.field "then") sites = some a
  elseSite : entrySite (p.field "orelse") sites = some b
  owned : List.Forall₂ (fun x o => ∀ q ∈ x.place?, (q, o) ∈ owned) e.operands
    (List.range' (n + 1) e.operands.length)
  edges :
    ∃ tests : List Edge, tests.Perm ((e.turns (n + 1) (.site a) (.site b)).flatMap Turn.edges) ∧
    ∀ P : Edge → Bool, (∀ d, P d = true → d.source.Within n (e.operands.length + 1)) →
      edges.filter P = (⟨.site n, .site (n + 1), .nextLine⟩ :: tests).filter P

/-- Behind the first site of a head stands the flow through its condition, which makes the turns of
the condition. -/
theorem Stmt.turns_of_evaluating {h : Host} {e : Expr} {n : Nat} {fr : Frontier} {head : Head}
    (hh : evaluatingHead h e n fr = .ok head) (hc : e.isConnective = true) (hs : e.splits = true) :
    ∃ f : Flow, f.Turns e (n + 1) (onward n) ∧
      head = ⟨Draft.ofSite (h.fragment n) fr ++ f.draft, f.exits⟩ := by
  obtain ⟨f, hf, hh⟩ := ok_of_bind hh
  cases hh
  exact ⟨f, ((Expr.flow_turns h).flow hf).2 hc hs, rfl⟩

/-- The edges of a conditional: those by which it is entered and those in its arms begin neither at
its head nor at an operand of its condition. -/
theorem Flow.Turns.filter_edges {e : Expr} {n a i b j : Nat} {fr : Frontier} {f : Flow}
    {own own' : List Edge} (hf : f.Turns e (n + 1) (onward n)) (hfr : fr.Precedes n)
    (ha : n + (e.operands.length + 1) ≤ a)
    (hb : n + (e.operands.length + 1) ≤ b) (hyes : ∀ d ∈ own, d.source.Within a i)
    (hno : ∀ d ∈ own', d.source.Within b j) :
    ∃ tests : List Edge, tests.Perm ((e.turns (n + 1) (.site a) (.site b)).flatMap Turn.edges) ∧
      ∀ P : Edge → Bool, (∀ d, P d = true → d.source.Within n (e.operands.length + 1)) →
        (leadTo fr (.site n) ++ f.draft.edges ++
          ((leadTo (labelled f.exits.yes .posNext) (.site a) ++ own) ++
          (leadTo (labelled f.exits.no .negNext) (.site b) ++ own'))).filter P =
        (⟨.site n, .site (n + 1), .nextLine⟩ :: tests).filter P := by
  obtain ⟨tests, hedges, hperm⟩ := hf.edges
  refine ⟨_, hperm (.site a) (.site b), fun P hP => ?_⟩
  have hentry : (leadTo fr (.site n)).filter P = [] := by
    refine List.filter_eq_nil_iff.2 fun d hd hp => ?_
    obtain ⟨o, ho, hlo, -⟩ := hP d hp
    have := hfr o (ho ▸ (source_mem_of_leadTo hd).1)
    omega
  have hyes : own.filter P = [] :=
    List.filter_eq_nil_iff.2 fun d hd hp => (hyes d hd).not_within ha (hP d hp)
  have hno : own'.filter P = [] :=
    List.filter_eq_nil_iff.2 fun d hd hp => (hno d hd).not_within hb (hP d hp)
  have hfirst : leadTo (onward n) (.site (n + 1)) = [⟨.site n, .site (n + 1), .nextLine⟩] := rfl
  rw [hedges, hfirst]
  simp [List.filter_cons, hentry, hyes, hno]

namespace Conditional

/-- The sites of a conditional are those of its head, then those of its arms. -/
theorem sites_passage (x : Conditional) :
    x.passage.draft.sites = x.head.draft.sites ++ (x.yes.draft.sites ++ x.no.draft.sites) := rfl

/-- The edges of a conditional are those of its head and of its arms. -/
theorem edges_passage (x : Conditional) :
    x.passage.draft.edges = x.head.draft.edges ++ (x.yes.draft.edges ++ x.no.draft.edges) := rfl

namespace Drawn

variable {sc : Scope} {p : Path} {e : Expr} {n : Nat} {x : Conditional}

/-- The head of a conditional is laid out in order. -/
theorem laid (h : x.Drawn sc p e n) : x.head.Laid x.host n x.entry := .evaluating h.head

/-- The sites of the head belong to the conditional itself. -/
theorem stmt_of_head (h : x.Drawn sc p e n) : ∀ s ∈ x.head.draft.sites, s.stmt = p :=
  h.stmt ▸ h.laid.hosted.own.stmt

/-- None of them stands in an arm. -/
theorem not_under_of_head (h : x.Drawn sc p e n) (name : String) :
    ∀ s ∈ x.head.draft.sites, ¬ (p.field name).Under s.stmt :=
  fun s hs => not_under_own h.stmt_of_head s hs _ (.refl _)

/-- Control enters the first arm behind the head, unless the arm has no sites. -/
theorem thenSite (h : x.Drawn sc p e n) : entrySite (p.field "then") x.passage.draft.sites =
    if x.yes.draft.sites = [] then none else some (n + x.head.draft.sites.length) := by
  have hno : ∀ s ∈ x.no.draft.sites, ¬ (p.field "then").Under s.stmt :=
    fun s hs => not_under_other (by decide) h.noUnder s hs _ (.refl _)
  rw [sites_passage, entrySite_append_right (h.not_under_of_head _), entrySite_append_left hno,
    entrySite_of_numbered h.yesUnder h.yes.laid.numbered.sites]

/-- Control enters the second arm behind the first one, unless the second has no sites. -/
theorem elseSite (h : x.Drawn sc p e n) : entrySite (p.field "orelse") x.passage.draft.sites =
    if x.no.draft.sites = [] then none
    else some (n + x.head.draft.sites.length + x.yes.draft.sites.length) := by
  have hyes : ∀ s ∈ x.yes.draft.sites, ¬ (p.field "orelse").Under s.stmt :=
    fun s hs => not_under_other (by decide) h.yesUnder s hs _ (.refl _)
  rw [sites_passage, entrySite_append_right (h.not_under_of_head _), entrySite_append_right hyes,
    entrySite_of_numbered h.noUnder h.no.laid.numbered.sites]

/-- The sites of a conditional itself are those of its head. -/
theorem ordinals (h : x.Drawn sc p e n) :
    (x.passage.draft.sites.filter (·.stmt = p)).map (·.ordinal) =
      List.range' n x.head.draft.sites.length := by
  have harms : (x.yes.draft.sites ++ x.no.draft.sites).filter (·.stmt = p) = [] := by
    refine List.filter_eq_nil_iff.2 fun s hs hp => ?_
    obtain rfl := of_decide_eq_true hp
    exact (List.mem_append.1 hs).elim (fun hs => Path.not_field_under (h.yesUnder s hs))
      fun hs => Path.not_field_under (h.noUnder s hs)
  have hhead : x.head.draft.sites.filter (·.stmt = p) = x.head.draft.sites :=
    List.filter_eq_self.2 fun s hs => decide_eq_true (h.stmt_of_head s hs)
  rw [sites_passage, List.filter_append, harms, hhead, List.append_nil]
  exact h.laid.hosted.numbered.sites

/-- Control leaves a conditional with sites in both arms from there. -/
theorem ends (h : x.Drawn sc p e n) (hy : x.yes.draft.sites ≠ []) (hn : x.no.draft.sites ≠ []) :
    ∀ v ∈ x.passage.ends, ¬ v.Within n x.head.draft.sites.length := by
  obtain ⟨-, -, -, hyes⟩ := h.yesEntered.led hy
  obtain ⟨-, -, -, hno⟩ := h.noEntered.led hn
  have hjump : x.head.draft.jumping = [] := by
    simp [Draft.jumping, h.laid.hosted.breaks, h.laid.hosted.continues, h.laid.hosted.gotos]
  intro v hv
  rw [Passage.mem_ends, passage, sources_append, List.mem_append, Draft.mem_jumping_append,
    Draft.jumping_asBranch, Draft.mem_jumping_append, hjump] at hv
  rcases hv with (hv | hv) | hv | hv | hv
  · exact (hyes v hv).not_within (Nat.le_refl _)
  · exact (hno v hv).not_within (Nat.le_add_right _ _)
  · cases hv
  · exact (h.yes.within_of_jumping hv).not_within (Nat.le_refl _)
  · exact (h.no.within_of_jumping hv).not_within (Nat.le_add_right _ _)

/-- A head has a site for each operand of its condition, and one in front of them. -/
theorem length_head (h : x.Drawn sc p e n) (hc : e.isConnective = true) (hs : e.splits = true) :
    x.head.draft.sites.length = e.operands.length + 1 := by
  obtain ⟨f, hf, hhead⟩ := Stmt.turns_of_evaluating h.head hc hs
  simp [hhead, Draft.ofSite, hf.sites]

/-- The flow through a conditional with sites in both arms. -/
theorem routes (h : x.Drawn sc p e n) (hc : e.isConnective = true) (hs : e.splits = true)
    (hy : x.yes.draft.sites ≠ []) (hn : x.no.draft.sites ≠ []) :
    ∃ a b, Routes p e n a b x.passage.draft.sites x.passage.draft.edges x.passage.draft.owned := by
  obtain ⟨f, hf, hhead⟩ := Stmt.turns_of_evaluating h.head hc hs
  have hlen := h.length_head hc hs
  obtain ⟨own, hyes, hown, -⟩ := h.yesEntered.led hy
  obtain ⟨own', hno, hown', -⟩ := h.noEntered.led hn
  refine ⟨_, _, hlen ▸ h.ordinals, h.thenSite.trans (if_neg hy),
    h.elseSite.trans (if_neg hn), ?_, ?_⟩
  · refine hf.owned.imp fun y o hy q hq => ?_
    simp [passage, hhead, hy q hq]
  · obtain ⟨tests, hperm, hfilter⟩ := hf.filter_edges h.entry (by rw [hlen]) (by omega) hown hown'
    refine ⟨tests, hperm, fun P hP => ?_⟩
    rw [← hfilter P hP, edges_passage, hyes, hno, hhead]
    rfl

end Drawn

end Conditional

/-- A conditional that is drawn in a larger part has its arms begin at the same sites there. -/
theorem Passage.Encloses.entrySite_eq {r inner : Passage} {p : Path} {m : Nat}
    {before behind : Draft} (h : r.Encloses (· = p) m before behind inner) (name : String) :
    entrySite (p.field name) r.draft.sites = entrySite (p.field name) inner.draft.sites := by
  have hunder : ∀ s ∈ before.sites ++ behind.sites, ¬ (p.field name).Under s.stmt :=
    fun s hs hu => h.apart s hs p rfl hu.of_field
  rw [List.forall_mem_append] at hunder
  rw [h.sites, entrySite_append_left hunder.2, entrySite_append_right hunder.1]

/-- The sites of a flow graph stand at the places where they were drafted. -/
theorem FlowGraph.Drafted.entrySite_eq {g : FlowGraph} {exitEdges : Except Fault Bool}
    {body : Stmt} {whole : Passage} (hg : g.Drafted exitEdges body whole) (q : Path) :
    entrySite q g.sites = entrySite q whole.draft.sites := by
  rw [hg.sites, filledSites, entrySite, List.find?_map, Option.map_map]
  rfl

namespace Routes

variable {p : Path} {e : Expr} {n a b : Nat}

/-- A passage that encloses a conditional. -/
theorem enclosed {r inner : Passage} {m : Nat} {before behind : Draft}
    (h : Routes p e n a b inner.draft.sites inner.draft.edges inner.draft.owned)
    (he : r.Encloses (· = p) m before behind inner) (hn : n = m + before.sites.length)
    (hk : e.operands.length + 1 ≤ inner.draft.sites.length)
    (hends : ∀ v ∈ inner.ends, ¬ v.Within n (e.operands.length + 1)) :
    Routes p e n a b r.draft.sites r.draft.edges r.draft.owned ∧
      ∀ v ∈ r.ends, ¬ v.Within n (e.operands.length + 1) := by
  subst hn
  have hwithin : ∀ {v : Vertex}, v.Within (m + before.sites.length) (e.operands.length + 1) →
      v.Within (m + before.sites.length) inner.draft.sites.length :=
    fun hv => hv.mono (Nat.le_refl _) (by omega)
  refine ⟨⟨?_, (he.entrySite_eq _).trans h.thenSite, (he.entrySite_eq _).trans h.elseSite, ?_, ?_⟩,
    fun v hv hw => ?_⟩
  · have hother : (before.sites ++ behind.sites).filter (·.stmt = p) = [] :=
      List.filter_eq_nil_iff.2 fun s hs hp => he.apart s hs p rfl (of_decide_eq_true hp ▸ .refl _)
    rw [List.filter_append, List.append_eq_nil_iff] at hother
    rw [he.sites, List.filter_append, List.filter_append, hother.1, hother.2, List.nil_append,
      List.append_nil]
    exact h.ordinals
  · exact h.owned.imp fun x o hx q hq => he.owned _ (hx q hq)
  · obtain ⟨tests, hperm, hfilter⟩ := h.edges
    refine ⟨tests, hperm, fun P hP => ?_⟩
    -- Edges around the conditional begin at its arms, where control leaves it, but not at its own
    -- sites.
    have hother : (before.edges ++ behind.edges).filter P = [] := by
      refine List.filter_eq_nil_iff.2 fun d hd hp => ?_
      exact hends _ (he.closed _ (.inr ⟨d, hd, rfl⟩) (hwithin (hP d hp))) (hP d hp)
    rw [List.filter_append, List.append_eq_nil_iff] at hother
    rw [he.edges, List.filter_append, List.filter_append, hother.1, hother.2, List.nil_append,
      List.append_nil]
    exact hfilter P hP
  · exact hends v (he.closed v (.inl hv) (hwithin hw)) hw

/-- The flow graph of a function whose body has a conditional. -/
theorem drafted {g : FlowGraph} {exitEdges : Except Fault Bool} {body : Stmt} {whole : Passage}
    (h : Routes p e n a b whole.draft.sites whole.draft.edges whole.draft.owned)
    (hg : g.Drafted exitEdges body whole)
    (hends : ∀ v ∈ whole.ends, ¬ v.Within n (e.operands.length + 1)) :
    Routes p e n a b g.sites g.edges g.owned := by
  refine ⟨?_, (hg.entrySite_eq _).trans h.thenSite, (hg.entrySite_eq _).trans h.elseSite,
    hg.owned ▸ h.owned, ?_⟩
  · rw [← h.ordinals, hg.sites, FlowGraph.filledSites, List.filter_map, List.map_map]
    rfl
  · obtain ⟨tests, hperm, hfilter⟩ := h.edges
    refine ⟨tests, hperm, fun P hP => ?_⟩
    obtain ⟨exits, -, hedges⟩ := hg.edges
    have hleave : (if exits then leadTo whole.out .exit else []).filter P = [] := by
      refine List.filter_eq_nil_iff.2 fun d hd hp => ?_
      split at hd
      · exact hends _ (List.mem_append_left _ (source_mem_of_leadTo hd).1) (hP d hp)
      · cases hd
    have hskip :
        (if whole.draft.sites.isEmpty then [⟨.start, .exit, .next⟩] else []).filter P = [] := by
      refine List.filter_eq_nil_iff.2 fun d hd hp => ?_
      split at hd
      · obtain rfl := List.mem_singleton.1 hd
        obtain ⟨_, ⟨⟩, -⟩ := hP _ hp
      · cases hd
    have hjumps : (g.jumps.map Jump.edge).filter P = [] := by
      refine List.filter_eq_nil_iff.2 fun d hd hp => ?_
      obtain ⟨j, hj, rfl⟩ := List.mem_map.1 hd
      have hm : .site j.source ∈ whole.draft.jumping :=
        List.mem_append_right _ (List.mem_map.2 ⟨_, (FlowGraph.mem_of_jumpsOf hg.jumps hj).1, rfl⟩)
      exact hends _ (List.mem_append_right _ hm) (hP _ hp)
    rw [hedges, List.filter_append, List.filter_append, List.filter_append, hleave, hskip, hjumps,
      List.append_nil, List.append_nil, List.append_nil]
    exact hfilter P hP

/-- From the head control goes on to the first operand. -/
theorem head {sites : List Site} {edges : List Edge} {owned : List (Path × Nat)}
    (h : Routes p e n a b sites edges owned) :
    edges.filter (·.source = .site n) = [⟨.site n, .site (n + 1), .nextLine⟩] := by
  obtain ⟨tests, hperm, hfilter⟩ := h.edges
  have htests : tests.filter (·.source = .site n) = [] := by
    refine List.filter_eq_nil_iff.2 fun d hd hp => ?_
    refine (Expr.source_of_turns hperm hd).not_within (Nat.le_refl (n + 1)) ?_
    exact ⟨n, of_decide_eq_true hp, Nat.le_refl n, Nat.lt_succ_self n⟩
  rw [hfilter _ fun d hd => ⟨n, of_decide_eq_true hd, Nat.le_refl n, by omega⟩,
    List.filter_cons, htests]
  simp

/-- From each operand control goes on by its truth value. -/
theorem makes {g : FlowGraph} (h : Routes p e n a b g.sites g.edges g.owned) :
    ∀ t ∈ e.turns (n + 1) (.site a) (.site b), g.Makes t := by
  intro t ht value
  obtain ⟨tests, hperm, hfilter⟩ := h.edges
  have hs : t.site ∈ List.range' (n + 1) e.operands.length :=
    Expr.map_site_turns .. ▸ List.mem_map_of_mem ht
  rw [List.mem_range'_1] at hs
  rw [hfilter _ fun d hd => ⟨t.site, (of_decide_eq_true hd).1, by omega, by omega⟩,
    List.filter_cons, Expr.filter_turns hperm ht, if_neg]
  intro hd
  obtain ⟨hsrc, -⟩ := of_decide_eq_true hd
  cases hsrc
  omega

end Routes

/-! ## The conditionals of a tree -/

/-- Some conditionals are those that stand at nodes of a tree, with the conditions that are read
there. -/
def Gathers (conds : List (Path × Expr)) (nodes : List (Path × Value)) : Prop :=
  ∀ p cond yes no, (p, .node .ifElse [cond, yes, no]) ∈ nodes →
    cond.IsExpr ∧ (p, .ofValue (p.field "cond") cond) ∈ conds

namespace Gathers

variable {conds conds' : List (Path × Expr)} {x y : List (Path × Value)}
  {p : Path} {k : Kind} {fields : List Value}

/-- Where there are no nodes, all conditionals are gathered. -/
theorem nil : Gathers conds [] := fun _ _ _ _ hm => (List.not_mem_nil hm).elim

/-- The conditionals at some nodes and at further ones are those at all of them. -/
theorem append (hx : Gathers conds x) (hy : Gathers conds' y) :
    Gathers (conds ++ conds') (x ++ y) := by
  intro p cond yes no hm
  rcases List.mem_append.1 hm with hm | hm
  · exact (hx p cond yes no hm).imp_right (List.mem_append_left _)
  · exact (hy p cond yes no hm).imp_right (List.mem_append_right _)

/-- Nothing comes behind what the last field holds. -/
theorem last (h : Gathers conds x) : Gathers conds (x ++ []) := by rwa [List.append_nil]

/-- What has no conditionals, behind others. -/
theorem behind (hx : Gathers conds x) (hy : Gathers [] y) : Gathers conds (x ++ y) := by
  have h := hx.append hy
  rwa [List.append_nil] at h

/-- A node that is no conditional, in front of its parts. -/
theorem node (h : Gathers conds x) (hk : k ≠ .ifElse := by decide) :
    Gathers conds ((p, .node k fields) :: x) := by
  intro q cond yes no hm
  rcases List.mem_cons.1 hm with hm | hm
  · cases hm
    exact absurd rfl hk
  · exact h q cond yes no hm

/-- There are no conditionals in expressions. -/
theorem expr {e : Value} (he : e.IsExpr) (p : Path) : Gathers [] (e.evaluated p) := by
  intro q cond yes no hm
  have hk := (Value.isExpr_evaluated he hm).1
  cases hk

/-- There is no conditional in an expression, nor in a missing one. -/
theorem exprOrNull {e : Value} (he : e.IsExprOrNull) (p : Path) : Gathers [] (e.evaluated p) := by
  rcases he with rfl | he
  · exact nil
  · exact expr he p

end Gathers

/-- The conditionals of a statement are read from its nodes. -/
theorem Stmt.gathers : Value.StmtInvariant
    (fun p v => Gathers (ofValue p v).conditionals (v.evaluated p))
    (fun p i items => Gathers (conditionalsAll (ofItems p i items))
      (Value.evaluatedItems p i items))
    (fun p i items => Gathers (conditionalsAll (ofItems p i items))
      (Value.evaluatedItems p i items)) where
  absent := .nil
  block h := .node (.last h)
  exprStmt he := .node (.last (.expr he _))
  decl he := .node (.last (.exprOrNull he _))
  ifElse {p cond yes no} hc _ hy hn := by
    have hrest := Gathers.append (.expr hc (p.field "cond")) (.append hy (.last hn))
    intro q cond' yes' no' hm
    rcases List.mem_cons.1 hm with hm | hm
    · cases hm
      exact ⟨hc, List.mem_cons_self⟩
    · exact (hrest q cond' yes' no' hm).imp_right (List.mem_cons_of_mem _)
  whileLoop hc _ hb := .node (.append (.expr hc _) (.last hb))
  doWhile _ hb hc := .node (.behind hb (.last (.expr hc _)))
  forLoop := by
    intro p init cond step body hi hc hs _ hb
    have hrest := Gathers.append (.exprOrNull hc (p.field "cond"))
      (.behind hb (.last (.exprOrNull hs (p.field "step"))))
    rcases hi with hi | ⟨hi, hbefore⟩
    · rw [ofValue_forLoop_of_isExpr hi]
      exact .node (.append (.exprOrNull hi (p.field "init")) hrest)
    · rw [ofValue_forLoop_of_isStmt hi]
      exact .node (.append hbefore hrest)
  foreach hi _ hb := .node (.append (.expr hi _) (.last hb))
  switch hs ha := .node (.append (.expr hs _) (.last ha))
  caseArm h := .node (.last h)
  labeled hb := .node (.last hb)
  goto := .node .nil
  ret he := .node (.last (.exprOrNull he _))
  brk := .node .nil
  cont := .node .nil
  nil := .nil
  cons _ hf hl := .append hf hl
  noArms := .nil
  arm hb ha := .append (.node (.last hb)) ha

namespace FlowGraph

variable {exitEdges : Except Fault Bool} {tree : Value} {g : FlowGraph}

/-- The conditionals of a function are read from its nodes. -/
theorem gathers_bodyOf (ht : tree.wellTyped = true) (h : ofTree exitEdges tree = .ok g) :
    Gathers (bodyOf tree).conditionals (tree.evaluated .root) := by
  obtain ⟨name, params, fields, rfl, hn, hp, hb⟩ := Value.exists_body ht (isOf_of_ofTree h)
  rw [Value.evaluated_function hn hp]
  exact .node (Stmt.gathers.holds hb _)

/-- The flow graph of a function has the routes of each conditional whose arms have sites. -/
theorem exists_routes (h : ofTree exitEdges tree = .ok g) {p : Path} {e : Expr}
    (hm : (p, e) ∈ (bodyOf tree).conditionals) (hc : e.isConnective = true) (hs : e.splits = true)
    {a b : Nat}
    (ha : entrySite (p.field "then") g.sites = some a)
    (hb : entrySite (p.field "orelse") g.sites = some b) :
    ∃ n, Routes p e n a b g.sites g.edges g.owned := by
  obtain ⟨whole, hg⟩ := exists_drafted (ofBody_of_ofTree h)
  have hstart : Frontier.Precedes 0 [(.start, .next)] := by simp [Frontier.Precedes, sources]
  obtain ⟨-, sc, before, behind, x, hx, he⟩ :=
    (Stmt.contains.flow hg.flow).2 _ (at_bodyOf tree) hstart _ hm
  have hlen := hx.length_head hc hs
  have hthen := hx.thenSite
  have helse := hx.elseSite
  rw [← he.entrySite_eq, ← hg.entrySite_eq, ha] at hthen
  rw [← he.entrySite_eq, ← hg.entrySite_eq, hb] at helse
  have hy : x.yes.draft.sites ≠ [] := fun hnil => by simp [hnil] at hthen
  have hn : x.no.draft.sites ≠ [] := fun hnil => by simp [hnil] at helse
  obtain ⟨a', b', hr⟩ := hx.routes hc hs hy hn
  obtain ⟨hwhole, hends⟩ :=
    hr.enclosed he rfl (by simp [Conditional.sites_passage, hlen]) (hlen ▸ hx.ends hy hn)
  have hroutes := hwhole.drafted hg hends
  cases ha.symm.trans hroutes.thenSite
  cases hb.symm.trans hroutes.elseSite
  exact ⟨_, hroutes⟩

/-! ## Owners -/

/-- A place has one owner. -/
theorem nodup_owned (ht : tree.wellTyped = true) (h : ofTree exitEdges tree = .ok g) :
    (g.owned.map (·.1)).Nodup := by
  obtain ⟨whole, hg⟩ := exists_drafted (ofBody_of_ofTree h)
  obtain ⟨-, hplaces, -⟩ := accounts_bodyOf ht h fun _ hn => hn
  rw [hg.owned, (Stmt.owns.flow hg.flow).places.nodup_iff, hplaces]
  exact (Value.nodup_evaluated tree .root).sublist (List.filter_sublist.map _)

/-- A node that a site owns has this site. -/
theorem sitesAt_of_mem_owned (ht : tree.wellTyped = true) (h : ofTree exitEdges tree = .ok g)
    {q : Path} {o : Nat} (hw : (q, o) ∈ g.owned) : g.sitesAt q = [o] := by
  have ha := attributed_of_ofTree ht h
  obtain ⟨m, hm, hk, rfl⟩ := (ha.places q).1 (List.mem_map_of_mem hw)
  obtain ⟨before, behind, heq⟩ := List.append_of_mem hw
  have hn := nodup_owned ht h
  rw [heq, List.map_append, List.map_cons, List.nodup_middle, List.nodup_cons, List.mem_append,
    not_or] at hn
  have hlookup : g.owned.lookup m.1 = some o := by
    refine List.lookup_eq_some_iff.2 ⟨before, behind, heq, fun w hw => bne_iff_ne.2 fun hwm =>
      hn.1.1 ?_⟩
    exact List.mem_map.2 ⟨w, hw, hwm.symm⟩
  rw [sitesAt_of_eq_nil (ha.stmtSites_eq_nil (Value.mem_evaluated.1 hm).1
    (Value.not_isOf (by decide) hk)), hlookup, Option.toList_some]

/-- The site of an expression. -/
def siteOf (g : FlowGraph) (x : Expr) : Nat := (x.place?.bind fun q => (g.sitesAt q).head?).getD 0

end FlowGraph

/-- The operands of a condition that has all of its parts are nodes. -/
theorem Expr.place?_of_operand {e x : Expr} (he : e.proper = true) (hx : x ∈ e.operands) :
    ∃ q, x.place? = some q := by
  induction e using inductionOnConnectives with
  | operand e hc =>
    rw [operands_of_operand hc, List.mem_singleton] at hx
    subst hx
    cases x with
    | absent | stray | unlisted => cases he
    | _ => exact ⟨_, rfl⟩
  | logic p c l r ihl ihr =>
    rw [proper, Bool.and_eq_true] at he
    exact (List.mem_append.1 hx).elim (ihl he.1) (ihr he.2)

/-- The operands of a condition have the sites behind the head of the conditional. -/
theorem Routes.sites_of_operands {g : FlowGraph} {p : Path} {e : Expr} {n a b : Nat}
    (h : Routes p e n a b g.sites g.edges g.owned) (he : e.proper = true)
    (howned : ∀ {q : Path} {o : Nat}, (q, o) ∈ g.owned → g.sitesAt q = [o]) :
    (∀ x ∈ e.operands, ∃ q, x.place? = some q ∧ g.sitesAt q = [g.siteOf x]) ∧
      e.operands.map g.siteOf = List.range' (n + 1) e.operands.length := by
  have hplaced := (List.forall₂_and_left _ _).2 ⟨fun x hx => Expr.place?_of_operand he hx, h.owned⟩
  have hall : List.Forall₂ (fun x o => (∃ q, x.place? = some q ∧ g.sitesAt q = [g.siteOf x]) ∧
      g.siteOf x = o) e.operands (List.range' (n + 1) e.operands.length) := by
    refine hplaced.imp fun x o ⟨⟨q, hq⟩, ho⟩ => ?_
    have hsites := howned (ho q hq)
    have hsite : g.siteOf x = o := by simp [FlowGraph.siteOf, hq, hsites]
    exact ⟨⟨q, hq, hsite ▸ hsites⟩, hsite⟩
  obtain ⟨hplaces, hsites⟩ := (List.forall₂_and_left _ _).1 hall
  rw [← List.forall₂_map_left_iff (f := g.siteOf) (R := Eq), List.forall₂_eq_eq_eq] at hsites
  exact ⟨hplaces, hsites⟩

/-! ## Evaluation of a condition -/

/-- Let a conditional have a condition of connectives over operands in which none occurs, and sites
in both arms. Its sites are its head and one for each operand, in order, which owns the operand.
One edge leads from the head to the first operand. For all truth values of the operands, the edges
that are labelled with them, of which there is one at each operand, lead through the operands that
are evaluated, in order, and on to the first site of the arm that is taken. -/
theorem FlowGraph.condition_steers {exitEdges : Except Fault Bool} {tree : Value} {g : FlowGraph}
    (ht : tree.wellTyped = true) (h : ofTree exitEdges tree = .ok g) {p : Path}
    {cond thenArm elseArm : Value}
    (hm : (p, .node .ifElse [cond, thenArm, elseArm]) ∈ tree.evaluated .root) {e : Expr}
    (he : e = .ofValue (p.field "cond") cond) (hc : e.isConnective = true) (hs : e.splits = true)
    {a b : Nat}
    (ha : entrySite (p.field "then") g.sites = some a)
    (hb : entrySite (p.field "orelse") g.sites = some b) :
    ∃ head first, g.stmtSites p = head :: e.operands.map g.siteOf ∧
      (∀ x ∈ e.operands, ∃ q, x.place? = some q ∧ g.sitesAt q = [g.siteOf x]) ∧
      g.edges.filter (·.source = .site head) = [⟨.site head, .site first, .nextLine⟩] ∧
      ∀ value : Expr → Bool, g.Steers (.site first)
        ((e.tested value).map fun x => (g.siteOf x, value x))
        (.site (if e.holds value then a else b)) := by
  subst he
  obtain ⟨hcond, hmem⟩ := gathers_bodyOf ht h p cond thenArm elseArm hm
  obtain ⟨n, hr⟩ := exists_routes h hmem hc hs ha hb
  obtain ⟨hplaces, hsites⟩ := hr.sites_of_operands (Expr.proper_ofValue cond _ hcond.1 hcond.2)
    fun hw => sitesAt_of_mem_owned ht h hw
  refine ⟨n, n + 1, ?_, hplaces, hr.head, fun value => ?_⟩
  · rw [stmtSites, hr.ordinals, List.range'_succ, hsites]
  · rw [apply_ite Vertex.site]
    exact steers_of_makes value g.siteOf hsites hr.makes

namespace Sample

/-- The condition `n && x || m`. -/
def choice : Value := .node .logicalOr [.node .logicalAnd [name "n", name "x"], name "m"]

/-- A function that passes on one of two names by a condition, in a loop. -/
def chooses : Value :=
  function [whileLoop "go" [.node .ifElse [choice, use "x", use "y"]], use "z"]

/-- The place of the conditional. -/
def choicePlace : Path := (((place 0).field "body").field "body").item 0

/-- What is read from the condition. -/
def choiceExpr : Expr := .ofValue (choicePlace.field "cond") choice

/-- The second operand does not hold and the others do. -/
def truth (e : Expr) : Bool :=
  e.place? ≠ some (((choicePlace.field "cond").field "left").field "right")

/-- If only the second operand does not hold, all three are evaluated and the first arm is
taken. -/
theorem steers_chooses :
    chooses.wellTyped = true ∧ FlowGraph.ofTree (.ok true) chooses = .ok (graph chooses) ∧
      choiceExpr.isConnective = true ∧ choiceExpr.splits = true ∧
      entrySite (choicePlace.field "then") (graph chooses).sites = some 5 ∧
      entrySite (choicePlace.field "orelse") (graph chooses).sites = some 6 ∧
      ∃ head first, (graph chooses).stmtSites choicePlace = [head, 2, 3, 4] ∧
        (graph chooses).edges.filter (·.source = .site head) =
          [⟨.site head, .site first, .nextLine⟩] ∧
        (graph chooses).Steers (.site first) [(2, true), (3, false), (4, true)] (.site 5) := by
  have ht : chooses.wellTyped = true := by decide +kernel
  have hg : FlowGraph.ofTree (.ok true) chooses = .ok (graph chooses) :=
    ofTree_eq (by decide +kernel)
  have hm : (choicePlace, .node .ifElse [choice, use "x", use "y"]) ∈ chooses.evaluated .root :=
    List.mem_of_getElem? (i := 5) rfl
  have hc : choiceExpr.isConnective = true := by decide +kernel
  have hs : choiceExpr.splits = true := by decide +kernel
  have ha : entrySite (choicePlace.field "then") (graph chooses).sites = some 5 := by
    decide +kernel
  have hb : entrySite (choicePlace.field "orelse") (graph chooses).sites = some 6 := by
    decide +kernel
  obtain ⟨head, first, hsites, -, hedge, hsteers⟩ :=
    FlowGraph.condition_steers (e := choiceExpr) ht hg hm rfl hc hs ha hb
  have hoperands : choiceExpr.operands.map (graph chooses).siteOf = [2, 3, 4] := by decide +kernel
  have htested : ((choiceExpr.tested truth).map fun x => ((graph chooses).siteOf x, truth x)) =
      [(2, true), (3, false), (4, true)] := by decide +kernel
  have hholds : choiceExpr.holds truth = true := by decide +kernel
  have hwalk := hsteers truth
  rw [htested, hholds, if_pos rfl] at hwalk
  exact ⟨ht, hg, hc, hs, ha, hb, head, first, hoperands ▸ hsites, hedge, hwalk⟩

end Sample

end LastUse
