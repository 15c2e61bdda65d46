import LastUse.Proofs.Flow.Order
import LastUse.Proofs.Run.Links

/-!
# Drafts of expressions have their links

A draft has edges, and open ends: the edges that leave it, its breaks, its continues and its jumps.
Once the open ends are led on (`Draft.joins`), the draft of an expression has the links of the
expression, and edges into its first site (`Expr.Joined`).
-/

namespace LastUse

/-! ## First sites -/

section
variable {k m n : Nat} {next : Vertex → Prop} {v : Vertex}

@[simp] theorem first_zero : first 0 n next v ↔ next v := by simp [first]

/-- What has sites begins at the first of them. -/
theorem first_of_pos (h : 0 < k) : first k n next v ↔ v = .site n := by
  simp [first, Nat.ne_of_gt h]

/-- What is visited first by a piece that a site follows. -/
theorem first_site : first k n (· = .site (n + k)) v ↔ v = .site n := by
  by_cases hk : k = 0
  · simp [hk]
  · simp [first, hk]

/-- What is visited first by two pieces that follow each other. -/
theorem first_add : first k n (first m (n + k) next) v ↔ first (k + m) n next v := by
  by_cases hk : k = 0
  · simp [hk]
  · simp [first, hk]

end

/-! ## Expressions without connectives -/

namespace Shape

mutual

/-- Whether a connective occurs. -/
def hasFork : Shape → Bool
  | .node parts => anyFork parts
  | .fork .. => true

/-- Whether a connective occurs in one of several expressions. -/
def anyFork : List Shape → Bool
  | [] => false
  | e :: rest => e.hasFork || anyFork rest

end

/-- Where no connective occurs there is none at the root. -/
theorem not_isFork_of_not_hasFork : ∀ {e : Shape}, e.hasFork = false → e.isFork = false
  | .node _, _ => rfl

/-- Behind expressions without connectives a fragment is open, if there is any expression. -/
theorem staysOpen_of_not_anyFork : ∀ {es : List Shape} {opened : Bool}, anyFork es = false →
    staysOpen es opened = (opened || !es.isEmpty)
  | [], opened, _ => by simp [staysOpen]
  | e :: rest, _, h => by
    simp only [anyFork, Bool.or_eq_false_iff] at h
    rw [staysOpen, not_isFork_of_not_hasFork h.1, staysOpen_of_not_anyFork h.2]
    simp

mutual

/-- An expression without connectives has at most one site. -/
theorem count_of_not_hasFork : ∀ {e : Shape} {opened : Bool}, e.hasFork = false →
    e.count opened = if opened then 0 else 1
  | .node parts, opened, h => by
    rw [hasFork] at h
    rw [count, countAll_of_not_anyFork h, staysOpen_of_not_anyFork h]
    cases opened <;> cases parts <;> simp

/-- Several expressions without connectives have at most one site. -/
theorem countAll_of_not_anyFork : ∀ {es : List Shape} {opened : Bool}, anyFork es = false →
    countAll es opened = if opened || es.isEmpty then 0 else 1
  | [], opened, _ => by simp [countAll]
  | e :: rest, opened, h => by
    simp only [anyFork, Bool.or_eq_false_iff] at h
    rw [countAll, count_of_not_hasFork h.1, not_isFork_of_not_hasFork h.1,
      countAll_of_not_anyFork h.2]
    simp

end

mutual

/-- The links of an expression without connectives are those of its one site, if it has one. -/
theorem links_of_not_hasFork : ∀ {e : Shape} {n : Nat} {opened : Bool} {yes no : Vertex → Prop}
    {u v : Vertex}, e.hasFork = false → (e.links n opened yes no u v ↔
      opened = false ∧ siteLinks n (fun v => yes v ∨ no v) u v)
  | .node parts, n, opened, yes, no, u, v, h => by
    rw [hasFork] at h
    simp only [links, linksAll_of_not_anyFork h, countAll_of_not_anyFork h,
      staysOpen_of_not_anyFork h]
    cases opened <;> cases parts <;> simp

/-- The links of several expressions without connectives. -/
theorem linksAll_of_not_anyFork : ∀ {es : List Shape} {n : Nat} {opened : Bool}
    {next : Vertex → Prop} {u v : Vertex}, anyFork es = false → (linksAll es n opened next u v ↔
      opened = false ∧ es.isEmpty = false ∧ siteLinks n next u v)
  | [], _, _, _, _, _, _ => by simp [linksAll]
  | e :: rest, n, opened, next, u, v, h => by
    simp only [anyFork, Bool.or_eq_false_iff] at h
    simp only [linksAll, links_of_not_hasFork h.1, linksAll_of_not_anyFork h.2,
      not_isFork_of_not_hasFork h.1, countAll_of_not_anyFork h.2]
    simp [siteLinks]

end

/-- A connective has sites. -/
theorem operandCount_pos : ∀ (e : Shape), 0 < e.operandCount
  | .node _ => by
    rw [operandCount_of_not_isFork rfl]
    omega
  | .fork c l r => by
    have := operandCount_pos l
    rw [operandCount_of_isFork rfl, count_fork]
    omega

end Shape

namespace Expr

mutual

/-- A connective occurs in the shape of an expression if one occurs in the expression. -/
theorem hasFork_shape : ∀ (e : Expr), e.shape.hasFork = e.connected
  | .absent | .stray _ | .unlisted | .name .. | .literal .. | .logic .. => by
    simp [shape, Shape.hasFork, Shape.anyFork, connected]
  | .foreign _ _ es | .call _ _ es => by
    simp [shape, Shape.hasFork, connected, anyFork_shapes es]
  | .unary _ _ e | .addressOf _ e | .move _ e | .member _ e _ => by
    simp [shape, Shape.hasFork, Shape.anyFork, connected, hasFork_shape e]
  | .binary _ _ l r | .assign _ _ l r | .index _ l r => by
    simp [shape, Shape.hasFork, Shape.anyFork, connected, hasFork_shape l, hasFork_shape r]

/-- A connective occurs in the shapes of several expressions if one occurs in them. -/
theorem anyFork_shapes : ∀ (es : List Expr), Shape.anyFork (shapes es) = anyConnected es
  | [] => rfl
  | e :: rest => by
    simp [shapes, Shape.anyFork, anyConnected, hasFork_shape e, anyFork_shapes rest]

end

/-- An expression that is evaluated from a site of its own on has a site. -/
theorem headCount_pos (e : Expr) : 0 < e.headCount :=
  Nat.lt_of_lt_of_le Nat.one_pos (Nat.le_add_right _ _)

/-- The shape of an expression is a fork if the expression is a connective. -/
theorem isFork_shape (e : Expr) : e.shape.isFork = e.isConnective := by
  cases e <;> simp [shape, Shape.isFork, isConnective]

/-- The shape of any other expression is a node with the shapes of its parts. -/
theorem shape_of_not_isConnective {e : Expr} (h : e.isConnective = false) :
    e.shape = .node (shapes e.parts) := by
  cases e <;> simp_all [shape, shapes, parts, isConnective]

end Expr

/-! ## Drafts -/

/-- No targets at all. -/
def Targets.none : Targets := ⟨fun _ => False, fun _ => False, fun _ => False⟩

/-- The edges of a frontier, led on to some vertices. -/
def Frontier.joins (fr : Frontier) (next : Vertex → Prop) : Links :=
  fun u v => u ∈ sources fr ∧ next v

namespace Draft

variable (gotos : String → Vertex → Prop)

/-- The links of a draft whose breaks, continues and jumps are led on. -/
def joins (d : Draft) (t : Targets) : Links := fun u v =>
  (∃ e ∈ d.edges, e.source = u ∧ e.target = v) ∨ Frontier.joins d.breaks t.brk u v
    ∨ Frontier.joins d.continues t.cont u v ∨ ∃ g ∈ d.gotos, siteLinks g.1 (gotos g.2) u v

variable {gotos} {a b d : Draft} {t : Targets} {u v w : Vertex} {fr : Frontier}

/-- Edges that are led to a vertex connect their sources with it. -/
theorem connects_leadTo :
    (∃ e ∈ leadTo fr w, e.source = u ∧ e.target = v) ↔ u ∈ sources fr ∧ v = w := by
  simp only [mem_leadTo, mem_sources]
  constructor
  · rintro ⟨e, ⟨hs, ht⟩, rfl, rfl⟩
    exact ⟨⟨e.label, hs⟩, ht⟩
  · rintro ⟨⟨l, hl⟩, rfl⟩
    exact ⟨⟨u, v, l⟩, ⟨hl, rfl⟩, rfl, rfl⟩

@[simp] theorem joins_append :
    (a ++ b).joins gotos t u v ↔ a.joins gotos t u v ∨ b.joins gotos t u v := by
  simp only [joins, Frontier.joins, edges_append, breaks_append, continues_append, gotos_append,
    sources_append, List.mem_append, or_and_right, exists_or]
  grind

@[simp] theorem joins_empty : ({} : Draft).joins gotos t u v ↔ False := by
  simp [joins, Frontier.joins]

@[simp] theorem joins_ofSite {s : Site} :
    (ofSite s fr).joins gotos t u v ↔ u ∈ sources fr ∧ v = .site s.ordinal := by
  simp [joins, ofSite, connects_leadTo, Frontier.joins]

@[simp] theorem joins_ofEdges :
    (ofEdges (leadTo fr w)).joins gotos t u v ↔ u ∈ sources fr ∧ v = w := by
  simp [joins, ofEdges, connects_leadTo, Frontier.joins]

@[simp] theorem joins_ofExpr {n : Nat} {e : Expr} : (ofExpr n e).joins gotos t u v ↔ False := by
  simp [joins, ofExpr, Frontier.joins]

@[simp] theorem joins_ofOwned {p : Path} {n : Nat} : (ofOwned p n).joins gotos t u v ↔ False := by
  simp [joins, ofOwned, Frontier.joins]

/-- The places of a site and of more sites of its statement. -/
theorem places_ofSite_append {s : Site} {p : Path} {k : Nat} (hs : s.stmt = p)
    (hd : d.sites.map (·.stmt) = List.replicate k p) :
    (ofSite s fr ++ d).sites.map (·.stmt) = List.replicate (1 + k) p := by
  simp [ofSite, hd, hs, Nat.add_comm 1, List.replicate_succ]

@[simp] theorem joins_asBranch {p : Path} {arms : List (List Region)} :
    (d.asBranch p arms).joins gotos t u v ↔ d.joins gotos t u v := Iff.rfl

@[simp] theorem joins_asLoop {p : Path} :
    (d.asLoop p).joins gotos t u v ↔ d.joins gotos t u v := Iff.rfl

/-- A draft whose breaks and continues lead nowhere. -/
theorem joins_closed :
    d.withoutBreaks.withoutContinues.joins gotos t u v ↔ d.joins gotos .none u v := by
  simp [joins, withoutBreaks, withoutContinues, Targets.none, Frontier.joins]

/-- The draft of the body of a loop that goes on at some vertices. -/
theorem joins_round {next : Vertex → Prop} : d.joins gotos (t.breakable.round next) u v ↔
    d.joins gotos .none u v ∨ u ∈ sources d.breaks ∧ t.next v ∨
      u ∈ sources d.continues ∧ next v := by
  simp only [joins, Targets.round, Targets.breakable, Targets.none, Frontier.joins]
  grind

/-- The draft of the arms of a switch. -/
theorem joins_breakable : d.joins gotos t.breakable u v ↔
    d.withoutBreaks.joins gotos t u v ∨ u ∈ sources d.breaks ∧ t.next v := by
  simp only [joins, Targets.breakable, withoutBreaks, Frontier.joins, sources_nil,
    List.not_mem_nil]
  grind

end Draft

/-! ## The flow through an expression -/

namespace Expr

variable (gotos : String → Vertex → Prop) (h : Host)

/-- The flow through an expression has its sites and its links. -/
structure Joined (e : Expr) (n : Nat) (o : Option Nat) (fr : Frontier) (f : Flow) : Prop where
  places : f.draft.sites.map (·.stmt) = List.replicate (e.shape.count o.isSome) h.stmt
  fragment : f.fragment.isSome = !e.shape.isFork
  labels : f.draft.labels = []
  joins (t : Targets) (yes no : Vertex → Prop) (u v : Vertex) :
    f.draft.joins gotos t u v ∨ u ∈ sources f.exits.yes ∧ yes v ∨ u ∈ sources f.exits.no ∧ no v ↔
      u ∈ sources fr ∧ first (e.shape.count o.isSome) n (fun v => yes v ∨ no v) v
        ∨ e.shape.links n o.isSome yes no u v

/-- The flow through several expressions has their sites and their links. -/
structure AllJoined (es : List Expr) (n : Nat) (o : Option Nat) (fr : Frontier) (f : Flow) :
    Prop where
  places : f.draft.sites.map (·.stmt)
    = List.replicate (Shape.countAll (shapes es) o.isSome) h.stmt
  fragment : f.fragment.isSome = Shape.staysOpen (shapes es) o.isSome
  labels : f.draft.labels = []
  joins (t : Targets) (next : Vertex → Prop) (u v : Vertex) :
    f.draft.joins gotos t u v ∨ u ∈ sources f.exits.out ∧ next v ↔
      u ∈ sources fr ∧ first (Shape.countAll (shapes es) o.isSome) n next v
        ∨ Shape.linksAll (shapes es) n o.isSome next u v

/-- The flow through an operand has its sites and its links. -/
structure OperandJoined (e : Expr) (n : Nat) (fr : Frontier) (f : Flow) : Prop where
  places : f.draft.sites.map (·.stmt) = List.replicate e.shape.operandCount h.stmt
  labels : f.draft.labels = []
  joins (t : Targets) (yes no : Vertex → Prop) (u v : Vertex) :
    f.draft.joins gotos t u v ∨ u ∈ sources f.exits.yes ∧ yes v ∨ u ∈ sources f.exits.no ∧ no v ↔
      u ∈ sources fr ∧ v = .site n ∨ e.shape.operandLinks n yes no u v

variable {gotos h} {e : Expr} {es : List Expr} {n : Nat} {o : Option Nat}
  {fr : Frontier} {f : Flow}

/-- The flow through an expression has as many sites as the expression. -/
theorem Joined.count (hf : e.Joined gotos h n o fr f) :
    f.draft.sites.length = e.shape.count o.isSome := by
  simpa using congrArg List.length hf.places

/-- The flow through several expressions has as many sites as they have. -/
theorem AllJoined.count (hf : AllJoined gotos h es n o fr f) :
    f.draft.sites.length = Shape.countAll (shapes es) o.isSome := by
  simpa using congrArg List.length hf.places

/-- The flow through an operand has as many sites as the operand. -/
theorem OperandJoined.count (hf : e.OperandJoined gotos h n fr f) :
    f.draft.sites.length = e.shape.operandCount := by
  simpa using congrArg List.length hf.places

/-- An expression without connectives has its links. -/
theorem joined_plain (hc : e.connected = false) : e.Joined gotos h n o fr (.plain h e n o fr) := by
  have hs : e.shape.hasFork = false := by rw [hasFork_shape, hc]
  have hf := Shape.not_isFork_of_not_hasFork hs
  have hcount (opened) : e.shape.count opened = _ := Shape.count_of_not_hasFork hs
  cases o with
  | some o =>
    refine ⟨?_, ?_, rfl, fun t yes no u v => ?_⟩
    · simp [Flow.plain, Flow.atFragment, Draft.ofExpr, hcount]
    · simp [Flow.plain, Flow.atFragment, hf]
    · simp only [Flow.plain, Flow.atFragment, Draft.joins_ofExpr, Exits.yes_straight,
        Exits.no_straight, Option.isSome_some, hcount, if_true, first_zero,
        Shape.links_of_not_hasFork hs]
      grind
  | none =>
    refine ⟨?_, ?_, ?_, fun t yes no u v => ?_⟩
    · simp [Flow.plain, Flow.atFragment, Draft.ofExpr, Draft.ofSite, Host.fragment,
        Host.site, hcount]
    · simp [Flow.plain, Flow.atFragment, hf]
    · simp [Flow.plain, Flow.atFragment, Draft.ofExpr, Draft.ofSite]
    · simp only [Flow.plain, Flow.atFragment, Draft.joins_append, Draft.joins_ofSite,
        Draft.joins_ofExpr, Exits.yes_straight, Exits.no_straight, Option.isSome_none, hcount,
        sources_onward, Shape.links_of_not_hasFork hs, siteLinks, Host.fragment, Host.site,
        List.mem_singleton, Bool.false_eq_true, if_false, first_of_pos Nat.one_pos]
      grind

/-- An expression has its links if its parts have theirs. -/
theorem joined_finish {p : Path} (hc : e.isConnective = false)
    (hf : AllJoined gotos h e.parts n o fr f) : e.Joined gotos h n o fr (.finish h p n f) := by
  have hs := shape_of_not_isConnective hc
  have ho := hf.fragment
  cases hfr : f.fragment with
  | some k =>
    rw [hfr, Option.isSome_some] at ho
    refine ⟨?_, ?_, ?_, fun t yes no u v => ?_⟩
    · simp [Flow.finish, Flow.atFragment, hfr, Draft.ofOwned, hf.places, hs, Shape.count, ← ho]
    · simp [Flow.finish, Flow.atFragment, hfr, hs, Shape.isFork]
    · simp [Flow.finish, Flow.atFragment, hfr, Draft.ofOwned, hf.labels]
    · have hj := hf.joins t (fun v => yes v ∨ no v) u v
      simp only [Flow.finish, Flow.atFragment, hfr, Draft.joins_append, Draft.joins_ofOwned,
        Exits.yes_straight, Exits.no_straight, hs, Shape.count, Shape.links, ← ho, if_true,
        Nat.add_zero]
      grind
  | none =>
    rw [hfr, Option.isSome_none] at ho
    refine ⟨?_, ?_, ?_, fun t yes no u v => ?_⟩
    · simp [Flow.finish, Flow.atFragment, hfr, Draft.ofOwned, Draft.ofSite, Host.fragment,
        Host.site, hf.places, hs, Shape.count, ← ho, List.replicate_succ']
    · simp [Flow.finish, Flow.atFragment, hfr, hs, Shape.isFork]
    · simp [Flow.finish, Flow.atFragment, hfr, Draft.ofOwned, Draft.ofSite, hf.labels]
    · have hj := hf.joins t (· = .site (n + f.draft.sites.length)) u v
      rw [hf.count, first_site] at hj
      simp only [Flow.finish, Flow.atFragment, hfr, Draft.joins_append, Draft.joins_ofSite,
        Draft.joins_ofOwned, Exits.yes_straight, Exits.no_straight, hs, Shape.count,
        Shape.links, ← ho,
        sources_onward, List.mem_singleton, Host.fragment, Host.site, hf.count, siteLinks,
        Bool.false_eq_true, if_false, first_of_pos (Nat.succ_pos _)]
      grind

/-- A connective has its links if its operands have theirs. -/
theorem joined_logic {p : Path} {c : Connective} {l r : Expr} {left right : Flow}
    (hl : l.OperandJoined gotos h n fr left)
    (hr : r.OperandJoined gotos h (n + left.draft.sites.length) (Flow.entry c left.exits) right) :
    (Expr.logic p c l r).Joined gotos h n o fr
      ⟨left.draft ++ right.draft, none, Flow.combine c left.exits right.exits⟩ := by
  rw [hl.count] at hr
  have hpos : 0 < l.shape.operandCount + r.shape.operandCount :=
    Nat.lt_of_lt_of_le (Shape.operandCount_pos _) (Nat.le_add_right _ _)
  refine ⟨?_, rfl, ?_, fun t yes no u v => ?_⟩
  · simp [shape, Shape.count_fork, hl.places, hr.places]
  · simp [hl.labels, hr.labels]
  · have hj := hr.joins t yes no u v
    simp only [shape, Shape.count_fork, Shape.links_fork, first_of_pos hpos, Draft.joins_append]
    cases c with
    | and =>
      have hi := hl.joins t (· = .site (n + l.shape.operandCount)) no u v
      simp only [Flow.entry, Flow.combine, mem_sources_labelled, Exits.yes_forked, Exits.no_forked,
        sources_append, List.mem_append] at hj ⊢
      grind
    | or =>
      have hi := hl.joins t yes (· = .site (n + l.shape.operandCount)) u v
      simp only [Flow.entry, Flow.combine, mem_sources_labelled, Exits.yes_forked, Exits.no_forked,
        sources_append, List.mem_append] at hj ⊢
      grind

/-- No expressions have no links. -/
theorem allJoined_nil : AllJoined gotos h [] n o fr ⟨{}, o, .straight fr⟩ where
  places := rfl
  fragment := rfl
  labels := rfl
  joins _ next u v := by simp [shapes, Shape.countAll, Shape.linksAll, Exits.out]

/-- Several expressions have their links if the first one has and the others have. -/
theorem allJoined_cons {start later : Flow} (hf : e.Joined gotos h n o fr start)
    (hl : AllJoined gotos h es (n + start.draft.sites.length)
      start.fragment start.exits.out later) :
    AllJoined gotos h (e :: es) n o fr { later with draft := start.draft ++ later.draft } := by
  rw [hf.count] at hl
  have hs := hf.fragment
  refine ⟨?_, ?_, ?_, fun t next u v => ?_⟩
  · simp [shapes, Shape.countAll, hf.places, hl.places, hs]
  · simp [shapes, Shape.staysOpen, hl.fragment, hs]
  · simp [hf.labels, hl.labels]
  · have hj := hl.joins t next u v
    have hi := hf.joins t (first (Shape.countAll (shapes es) start.fragment.isSome)
      (n + e.shape.count o.isSome) next) (first (Shape.countAll (shapes es) start.fragment.isSome)
      (n + e.shape.count o.isSome) next) u v
    simp only [or_self, first_add] at hi
    simp only [shapes, Shape.countAll, Shape.linksAll, ← hs, Draft.joins_append]
    simp only [Exits.mem_sources_out] at hj ⊢
    grind

/-- A connective that is an operand has its links. -/
theorem operandJoined_nested (hc : e.isConnective = true) (hf : e.Joined gotos h n none fr f) :
    e.OperandJoined gotos h n fr f := by
  cases e with
  | logic p c l r =>
    have hk : (Expr.logic p c l r).shape.isFork = true := rfl
    have hcount :
        (Expr.logic p c l r).shape.operandCount = l.shape.operandCount + r.shape.operandCount := by
      rw [Shape.operandCount_of_isFork hk, shape, Shape.count_fork]
    refine ⟨?_, hf.labels, fun t yes no u v => ?_⟩
    · rw [hf.places, hcount, shape, Shape.count_fork]
    · have hpos : 0 < l.shape.operandCount + r.shape.operandCount :=
        hcount ▸ Shape.operandCount_pos _
      rw [hf.joins, Shape.operandLinks, hk, if_pos rfl, shape, Shape.count_fork, first_of_pos hpos,
        Shape.links_fork, Shape.links_fork]
  | _ => cases hc

/-- An expression that is evaluated from a site of its own on. -/
theorem Joined.joins_ofSite {s : Site} (hf : e.Joined gotos h (s.ordinal + 1) (some s.ordinal)
    (onward s.ordinal) f) (t : Targets) (yes no : Vertex → Prop) (u v : Vertex) :
    (Draft.ofSite s fr ++ f.draft).joins gotos t u v ∨ u ∈ sources f.exits.yes ∧ yes v
        ∨ u ∈ sources f.exits.no ∧ no v ↔
      u ∈ sources fr ∧ v = .site s.ordinal ∨ e.shape.headLinks s.ordinal yes no u v := by
  have hj := hf.joins t yes no u v
  simp only [sources_onward, List.mem_singleton, Option.isSome_some] at hj
  simp only [Draft.joins_append, Draft.joins_ofSite, Shape.headLinks, siteLinks]
  grind

/-- Any other operand has its links, and a site of its own. -/
theorem operandJoined_leaf {s : Site} (hs : s.stmt = h.stmt) (hc : e.isConnective = false)
    (hf : e.Joined gotos h (s.ordinal + 1) (some s.ordinal) (onward s.ordinal) f) :
    e.OperandJoined gotos h s.ordinal fr { f with draft := Draft.ofSite s fr ++ f.draft } := by
  have hk : e.shape.isFork = false := by rw [isFork_shape, hc]
  refine ⟨?_, ?_, fun t yes no u v => ?_⟩
  · rw [Shape.operandCount_of_not_isFork hk]
    exact Draft.places_ofSite_append hs hf.places
  · simp [Draft.ofSite, hf.labels]
  · rw [hf.joins_ofSite, Shape.operandLinks, hk, if_neg Bool.false_ne_true]

/-- Every flow through an expression has its sites and its links. -/
theorem joined : FlowInvariant h (Joined gotos h) (AllJoined gotos h)
    (fun _ => OperandJoined gotos h) where
  plain := joined_plain
  finish _ hc _ _ hf := joined_finish hc hf
  logic := joined_logic
  nil := allJoined_nil
  cons := allJoined_cons
  nested := operandJoined_nested
  leaf {c _ n _ label _} hc hf := operandJoined_leaf (s := h.site n c.siteKind label) rfl hc hf

end Expr

end LastUse
