import LastUse.Proofs.Run.ExprJoins

/-!
# Drafts of statements have their links

The draft of a statement has the links of the statement once its open ends are led on, and edges
into its first site (`Stmt.Joined`). Each form of a statement has its own lemma; `Stmt.joined` puts
them together.
-/

namespace LastUse

/-! ## Heads -/

namespace Stmt

variable (gotos : String → Vertex → Prop)

/-- The flow through the head of a statement has its sites and some links. -/
structure HeadJoined (p : Path) (e : Expr) (n : Nat) (fr : Frontier)
    (links : (yes no : Vertex → Prop) → Links) (head : Head) : Prop where
  places : head.draft.sites.map (·.stmt) = List.replicate e.headCount p
  labels : head.draft.labels = []
  joins (t : Targets) (yes no : Vertex → Prop) (u v : Vertex) :
    head.draft.joins gotos t u v ∨ u ∈ sources head.exits.yes ∧ yes v
        ∨ u ∈ sources head.exits.no ∧ no v ↔
      u ∈ sources fr ∧ v = .site n ∨ links yes no u v

/-- The flow through an initialiser or a step has its sites and its links. -/
structure SideJoined (p : Path) (e : Expr) (n : Nat) (fr : Frontier) (r : Passage) : Prop where
  places : r.draft.sites.map (·.stmt) = List.replicate e.sideCount p
  labels : r.draft.labels = []
  joins (t : Targets) (next : Vertex → Prop) (u v : Vertex) :
    r.draft.joins gotos t u v ∨ u ∈ sources r.out ∧ next v ↔
      u ∈ sources fr ∧ first e.sideCount n next v ∨ e.sideLinks n next u v

variable {gotos} {h : Host} {p : Path} {e : Expr} {n : Nat} {fr : Frontier}
  {head : Head} {r : Passage}

/-- The flow through a head has as many sites as the head. -/
theorem HeadJoined.count {links : (yes no : Vertex → Prop) → Links}
    (hh : HeadJoined gotos p e n fr links head) : head.draft.sites.length = e.headCount := by
  simpa using congrArg List.length hh.places

/-- The flow through an initialiser or a step has as many sites as it has. -/
theorem SideJoined.count (hr : SideJoined gotos p e n fr r) :
    r.draft.sites.length = e.sideCount := by
  simpa using congrArg List.length hr.places

variable (gotos) in
/-- The head of a statement that evaluates an expression has its links. -/
theorem headJoined_evaluating (H : evaluatingHead h e n fr = .ok head) :
    HeadJoined gotos h.stmt e n fr (e.shape.headLinks n) head := by
  obtain ⟨f, hf, H⟩ := ok_of_bind H
  cases H
  have hj : e.Joined gotos h _ _ _ f := Expr.joined.flow hf
  exact ⟨Draft.places_ofSite_append rfl hj.places, by simp [Draft.ofSite, hj.labels],
    hj.joins_ofSite (s := h.fragment n)⟩

/-- What is missing is the missing expression. -/
theorem isAbsent_eq_true (he : e.isAbsent = true) : e = .absent := by
  cases e with
  | absent => rfl
  | _ => cases he

/-- The head of a statement that may have no expression has its links. -/
theorem headJoined_optional (H : optionalHead h e n fr = .ok head) :
    HeadJoined gotos h.stmt e n fr (e.shape.headLinks n) head := by
  unfold optionalHead at H
  split at H
  · next he =>
    cases H
    obtain rfl := isAbsent_eq_true he
    refine ⟨rfl, rfl, fun t yes no u v => ?_⟩
    simp [bareHead, Host.fragment, Host.site, Expr.shape, Shape.headLinks, Shape.links,
      Shape.count, Shape.countAll, Shape.linksAll, Shape.staysOpen, siteLinks]
    grind
  · exact headJoined_evaluating gotos H

variable (gotos) in
/-- The head of a loop has the links of its condition. -/
theorem headJoined_loop (H : loopHead h e n fr = .ok head) :
    HeadJoined gotos h.stmt e n fr (e.guardLinks n) head := by
  unfold loopHead at H
  split at H
  · next he =>
    cases H
    obtain rfl := isAbsent_eq_true he
    refine ⟨rfl, rfl, fun t yes no u v => ?_⟩
    simp [bareHead, Host.fragment, Host.site, Expr.guardLinks, siteLinks, Exits.out, Expr.isAbsent]
  · next he =>
    have hg : e.guardLinks n = e.shape.headLinks n := by
      funext yes no
      rw [Expr.guardLinks, if_neg he]
    rw [hg]
    exact headJoined_evaluating gotos H

/-- A missing initialiser or step has no links. -/
theorem sideJoined_absent (he : e.isAbsent = true) : SideJoined gotos p e n fr ⟨{}, fr⟩ := by
  obtain rfl := isAbsent_eq_true he
  exact ⟨rfl, rfl, fun t next u v => by simp [Expr.sideCount, Expr.sideLinks, Expr.isAbsent]⟩

variable (gotos) in
/-- An initialiser or a step. -/
theorem sideJoined (H : Side h e n fr r) : SideJoined gotos h.stmt e n fr r := by
  cases H with
  | absent he => exact sideJoined_absent he
  | @site kind label f he hf =>
    have hj : e.Joined gotos h _ _ _ f := Expr.joined.flow hf
    refine ⟨?_, by simp [Draft.ofSite, hj.labels], fun t next u v => ?_⟩
    · rw [Expr.sideCount, if_neg he]
      exact Draft.places_ofSite_append rfl hj.places
    · rw [Expr.sideCount, if_neg he, first_of_pos e.headCount_pos, Expr.sideLinks, if_neg he,
        Exits.mem_sources_out, or_and_right]
      exact hj.joins_ofSite (s := h.site n kind label) t next next u v

/-! ## Statements -/

mutual

/-- The labels in a statement, with the ordinals of their sites. -/
@[simp] def labels : Stmt → Nat → List (String × Nat)
  | .absent, _ | .stray _, _ | .unlisted, _ | .misnamed _, _ | .exprStmt _ _, _ | .decl _ _ _, _
  | .goto _ _, _ | .ret _ _, _ | .brk _, _ | .cont _, _ => []
  | .block _ body, n | .caseArm _ _ body, n => labelsAll body n
  | .ifElse _ cond thenArm elseArm, n =>
    thenArm.labels (n + cond.headCount) ++ elseArm.labels (n + cond.headCount + thenArm.count)
  | .whileLoop _ e body, n | .foreach _ _ e body, n => body.labels (n + e.headCount)
  | .doWhile _ body _, n => body.labels n
  | .forLoop _ before init cond _ body, n =>
    before.labels n ++ body.labels (n + before.count + init.sideCount + cond.headCount)
  | .switch _ subject arms, n => labelsAll arms (n + subject.headCount)
  | .labeled _ l body, n => (l, n) :: body.labels (n + 1)

/-- The labels in several statements. -/
@[simp] def labelsAll : List Stmt → Nat → List (String × Nat)
  | [], _ => []
  | s :: rest, n => s.labels n ++ labelsAll rest (n + s.count)

end

variable (gotos) in
/-- The flow through a statement has its sites, its labels and its links. -/
structure Joined (s : Stmt) (n : Nat) (fr : Frontier) (r : Passage) : Prop where
  places : r.draft.sites.map (·.stmt) = s.places
  labels : r.draft.labels = s.labels n
  joins (t : Targets) (u v : Vertex) :
    r.draft.joins gotos t u v ∨ u ∈ sources r.out ∧ t.next v ↔
      u ∈ sources fr ∧ first s.count n t.next v ∨ s.links gotos n t u v

variable (gotos) in
/-- The flow through several statements has their sites, their labels and their links. -/
structure AllJoined (ss : List Stmt) (n : Nat) (fr : Frontier) (r : Passage) : Prop where
  places : r.draft.sites.map (·.stmt) = placesAll ss
  labels : r.draft.labels = labelsAll ss n
  joins (t : Targets) (u v : Vertex) :
    r.draft.joins gotos t u v ∨ u ∈ sources r.out ∧ t.next v ↔
      u ∈ sources fr ∧ first (countAll ss) n t.next v ∨ linksAll gotos ss n t u v

variable (gotos) in
/-- The flow through the arms of a switch has their sites, their labels and their links. Each arm
is entered from the subject, and the first one from what falls through. -/
structure ArmsJoined (arms : List Stmt) (n : Nat) (subject fallthrough : Frontier) (r : Arms) :
    Prop where
  places : r.draft.sites.map (·.stmt) = placesAll arms
  labels : r.draft.labels = labelsAll arms n
  hasDefault : r.hasDefault = arms.any isDefault
  joins (t : Targets) (u v : Vertex) :
    r.draft.joins gotos t u v ∨ u ∈ sources r.out ∧ t.next v ↔
      u ∈ sources fallthrough ∧ first (countAll arms) n t.next v
        ∨ u ∈ sources subject ∧ selected arms n false t.next v ∨ linksAll gotos arms n t u v

variable {s : Stmt} {ss arms : List Stmt}

/-- The flow through a statement has as many sites as the statement. -/
theorem Joined.count (hr : s.Joined gotos n fr r) : r.draft.sites.length = s.count := by
  rw [← length_places, ← hr.places, List.length_map]

/-- The flow through several statements has as many sites as they have. -/
theorem AllJoined.count (hr : AllJoined gotos ss n fr r) :
    r.draft.sites.length = countAll ss := by
  rw [← length_placesAll, ← hr.places, List.length_map]

/-- The frontier at the end of a loop's body. -/
theorem mem_sources_bodyEnd {body : Passage} {u : Vertex} : u ∈ sources (bodyEnd body) ↔
    u ∈ sources body.out ∨ u ∈ sources body.draft.continues := by
  simp [bodyEnd]

/-- A loop whose header comes before its body. -/
theorem joins_closeLoop {cond step : Expr} {body behind : Passage}
    {header : (yes no : Vertex → Prop) → Links} (hh : HeadJoined gotos p cond n fr header head)
    (hb : s.Joined gotos (n + cond.headCount) (labelled head.exits.yes .posNext) body)
    (hs : SideJoined gotos p step (n + cond.headCount + s.count) (bodyEnd body) behind)
    (t : Targets) (u v : Vertex) :
    (closeLoop p n head body behind).draft.joins gotos t u v
        ∨ u ∈ sources (closeLoop p n head body behind).out ∧ t.next v ↔
      u ∈ sources fr ∧ v = .site n
        ∨ preTestedLinks header cond.headCount step s.count n t.breakable (s.links gotos) u v := by
  let next := first step.sideCount (n + cond.headCount + s.count) (· = .site n)
  have hj := hh.joins .none (first s.count (n + cond.headCount) next) t.next u v
  have hi := hb.joins (t.breakable.round next) u v
  have hk := hs.joins .none (· = .site n) u v
  rw [Draft.joins_round, mem_sources_labelled] at hi
  rw [mem_sources_bodyEnd] at hk
  simp only [closeLoop, Draft.joins_closed, Draft.joins_asLoop, Draft.joins_append,
    Draft.joins_ofEdges, sources_append, List.mem_append, mem_sources_labelled, preTestedLinks]
  simp only [Targets.round, Targets.breakable, next] at hi hj ⊢
  grind

/-- A loop that is tested behind its body. -/
theorem joins_closeDoWhile {cond : Expr} {body : Passage} (hb : s.Joined gotos n fr body)
    (hh : HeadJoined gotos p cond (n + s.count) (bodyEnd body)
      (cond.guardLinks (n + s.count)) head)
    (t : Targets) (u v : Vertex) :
    (closeDoWhile p n body head).draft.joins gotos t u v
        ∨ u ∈ sources (closeDoWhile p n body head).out ∧ t.next v ↔
      u ∈ sources fr ∧ v = .site n
        ∨ postTestedLinks cond s.count n t.breakable (s.links gotos) u v := by
  have hi := hb.joins (t.breakable.round (· = .site (n + s.count))) u v
  have hj := hh.joins .none (· = .site n) t.next u v
  rw [Draft.joins_round] at hi
  rw [mem_sources_bodyEnd] at hj
  simp only [closeDoWhile, Draft.joins_closed, Draft.joins_asLoop, Draft.joins_append,
    Draft.joins_ofEdges, sources_append, List.mem_append, mem_sources_labelled, postTestedLinks]
  simp only [Targets.round, Targets.breakable, first_site] at hi ⊢
  grind

/-- The header of a loop over elements, which may go either way whatever its value. -/
theorem HeadJoined.straight (hh : HeadJoined gotos p e n fr (e.shape.headLinks n) head) :
    HeadJoined gotos p e n fr (e.eitherLinks n) ⟨head.draft, .straight head.exits.out⟩ := by
  refine ⟨hh.places, hh.labels, fun t yes no u v => ?_⟩
  have hj := hh.joins t (fun v => yes v ∨ no v) (fun v => yes v ∨ no v) u v
  simp only [Exits.yes_straight, Exits.no_straight, Exits.mem_sources_out, Expr.eitherLinks]
  grind

/-- A statement that only evaluates an expression. -/
theorem joins_head (hh : HeadJoined gotos p e n fr (e.shape.headLinks n) head) (t : Targets)
    (u v : Vertex) : head.draft.joins gotos t u v ∨ u ∈ sources head.exits.out ∧ t.next v ↔
      u ∈ sources fr ∧ first e.headCount n t.next v ∨ e.shape.headLinks n t.next t.next u v := by
  rw [first_of_pos e.headCount_pos, ← hh.joins t t.next t.next, Exits.mem_sources_out,
    or_and_right]

/-- A conditional has its links if its condition and its arms have theirs. -/
theorem joined_ifElse {cond : Expr} {thenArm elseArm : Stmt} {yes no : Passage}
    (hh : HeadJoined gotos p cond n fr (cond.shape.headLinks n) head)
    (hy : thenArm.Joined gotos (n + cond.headCount) (labelled head.exits.yes .posNext) yes)
    (hn : elseArm.Joined gotos (n + cond.headCount + thenArm.count)
      (labelled head.exits.no .negNext) no) :
    (Stmt.ifElse p cond thenArm elseArm).Joined gotos n fr
      ⟨head.draft ++ (yes.draft ++ no.draft).asBranch p [yes.draft.region, no.draft.region],
        yes.out ++ no.out⟩ := by
  refine ⟨?_, ?_, fun t u v => ?_⟩
  · simp [Draft.asBranch, hh.places, hy.places, hn.places]
  · simp [Draft.asBranch, hh.labels, hy.labels, hn.labels]
  · have hj := hh.joins t (first thenArm.count (n + cond.headCount) t.next)
      (first elseArm.count (n + cond.headCount + thenArm.count) t.next) u v
    have hi := hy.joins t u v
    have hk := hn.joins t u v
    have hpos : 0 < cond.headCount + thenArm.count + elseArm.count := by
      have := cond.headCount_pos
      omega
    rw [mem_sources_labelled] at hi hk
    simp only [Stmt.count, first_of_pos hpos, links, Draft.joins_append, Draft.joins_asBranch,
      sources_append, List.mem_append]
    grind

/-- A loop that is tested before its body has its links if its condition and its body have
theirs. -/
theorem joined_whileLoop {cond : Expr} {body : Passage}
    (hh : HeadJoined gotos p cond n fr (cond.guardLinks n) head)
    (hb : s.Joined gotos (n + cond.headCount) (labelled head.exits.yes .posNext) body) :
    (Stmt.whileLoop p cond s).Joined gotos n fr (closeLoop p n head body ⟨{}, bodyEnd body⟩) := by
  have hs : SideJoined gotos p .absent (n + cond.headCount + s.count) (bodyEnd body)
    ⟨{}, bodyEnd body⟩ := sideJoined_absent rfl
  have hpos : 0 < cond.headCount + s.count := Nat.add_pos_left cond.headCount_pos _
  refine ⟨?_, ?_, fun t u v => ?_⟩
  · simp [closeLoop, Draft.asLoop, Draft.withoutBreaks, Draft.withoutContinues,
      Draft.ofEdges, hh.places, hb.places]
  · simp [closeLoop, Draft.asLoop, Draft.withoutBreaks, Draft.withoutContinues,
      Draft.ofEdges, hh.labels, hb.labels]
  · rw [joins_closeLoop hh hb hs, Stmt.count, first_of_pos hpos, links]

/-- A loop that is tested behind its body has its links if its body and its condition have
theirs. -/
theorem joined_doWhile {cond : Expr} {body : Passage} (hb : s.Joined gotos n fr body)
    (hh : HeadJoined gotos p cond (n + s.count) (bodyEnd body)
      (cond.guardLinks (n + s.count)) head) :
    (Stmt.doWhile p s cond).Joined gotos n fr (closeDoWhile p n body head) := by
  have hpos : 0 < s.count + cond.headCount := Nat.add_pos_right _ cond.headCount_pos
  refine ⟨?_, ?_, fun t u v => ?_⟩
  · simp [closeDoWhile, Draft.asLoop, Draft.withoutBreaks, Draft.withoutContinues,
      Draft.ofEdges, hh.places, hb.places]
  · simp [closeDoWhile, Draft.asLoop, Draft.withoutBreaks, Draft.withoutContinues,
      Draft.ofEdges, hh.labels, hb.labels]
  · rw [joins_closeDoWhile hb hh, Stmt.count, first_of_pos hpos, links]

/-- A loop over the items of an expression has its links if the expression and its body have
theirs. -/
theorem joined_foreach {var : String} {body : Passage}
    (hh : HeadJoined gotos p e n fr (e.shape.headLinks n) head)
    (hb : s.Joined gotos (n + e.headCount) (labelled head.exits.out .posNext) body) :
    (Stmt.foreach p var e s).Joined gotos n fr
      (closeLoop p n ⟨head.draft, .straight head.exits.out⟩ body ⟨{}, bodyEnd body⟩) := by
  have hs : SideJoined gotos p .absent (n + e.headCount + s.count) (bodyEnd body)
    ⟨{}, bodyEnd body⟩ := sideJoined_absent rfl
  have hpos : 0 < e.headCount + s.count := Nat.add_pos_left e.headCount_pos _
  refine ⟨?_, ?_, fun t u v => ?_⟩
  · simp [closeLoop, Draft.asLoop, Draft.withoutBreaks, Draft.withoutContinues,
      Draft.ofEdges, hh.places, hb.places]
  · simp [closeLoop, Draft.asLoop, Draft.withoutBreaks, Draft.withoutContinues,
      Draft.ofEdges, hh.labels, hb.labels]
  · rw [joins_closeLoop hh.straight hb hs, Stmt.count, first_of_pos hpos, links]

/-- A loop with an initialiser and a step has its links if its parts have theirs. -/
theorem joined_forLoop {before : Stmt} {init cond step : Expr} {start body behind begin : Passage}
    (hf : before.Joined gotos n fr begin)
    (hi : SideJoined gotos p init (n + before.count) begin.out start)
    (hh : HeadJoined gotos p cond (n + before.count + init.sideCount) start.out
      (cond.guardLinks (n + before.count + init.sideCount)) head)
    (hb : s.Joined gotos (n + before.count + init.sideCount + cond.headCount)
      (labelled head.exits.yes .posNext) body)
    (hs : SideJoined gotos p step (n + before.count + init.sideCount + cond.headCount + s.count)
      (bodyEnd body) behind) :
    (Stmt.forLoop p before init cond step s).Joined gotos n fr
      ⟨begin.draft ++ start.draft
          ++ (closeLoop p (n + before.count + init.sideCount) head body behind).draft,
        (closeLoop p (n + before.count + init.sideCount) head body behind).out⟩ := by
  refine ⟨?_, ?_, fun t u v => ?_⟩
  · simp [closeLoop, Draft.asLoop, Draft.withoutBreaks, Draft.withoutContinues,
      Draft.ofEdges, hh.places, hb.places, hf.places, hi.places, hs.places]
  · simp [closeLoop, Draft.asLoop, Draft.withoutBreaks, Draft.withoutContinues,
      Draft.ofEdges, hh.labels, hb.labels, hf.labels, hi.labels, hs.labels]
  · have hl := joins_closeLoop hh hb hs t u v
    let next : Vertex → Prop := (· = .site (n + before.count + init.sideCount))
    have hj := hi.joins t next u v
    have hk := hf.joins ⟨first init.sideCount (n + before.count) next, t.brk, t.cont⟩ u v
    have hn :
        first before.count n (first init.sideCount (n + before.count) next) v ↔ v = .site n := by
      simp only [first_add, next, Nat.add_assoc, first_site]
    have hpos :
        0 < before.count + init.sideCount + (cond.headCount + s.count + step.sideCount) := by
      have := cond.headCount_pos
      omega
    rw [hn] at hk
    simp only [Stmt.count, first_of_pos hpos, links, Draft.joins_append]
    simp only [Draft.joins, next] at hk hj hl ⊢
    grind

/-- If no case needs to be selected, then control may also go on behind the switch. -/
theorem selected_iff {skips : Bool} {next : Vertex → Prop} {v : Vertex} :
    ∀ {arms : List Stmt} {n : Nat}, selected arms n skips next v ↔
      selected arms n false next v ∨ skips = true ∧ next v
  | [], _ => by simp [selected]
  | arm :: rest, n => by
    simp only [selected]
    rw [selected_iff, or_assoc]

/-- A switch has its links if its subject and its cases have theirs. -/
theorem joined_switch {arms : Arms} {cases : List Stmt}
    (hh : HeadJoined gotos p e n fr (e.shape.headLinks n) head)
    (ha : ArmsJoined gotos cases (n + e.headCount) head.exits.out [] arms) :
    (Stmt.switch p e cases).Joined gotos n fr (closeSwitch p head arms) := by
  refine ⟨?_, ?_, fun t u v => ?_⟩
  · simp [closeSwitch, Draft.asBranch, Draft.withoutBreaks, hh.places, ha.places]
  · simp [closeSwitch, Draft.asBranch, Draft.withoutBreaks, hh.labels, ha.labels]
  · have hpos : 0 < e.headCount + countAll cases := Nat.add_pos_left e.headCount_pos _
    have hi := ha.joins t.breakable u v
    have hj := hh.joins t (selected cases (n + e.headCount) (!cases.any isDefault) t.next)
      (selected cases (n + e.headCount) (!cases.any isDefault) t.next) u v
    rw [Draft.joins_breakable] at hi
    simp only [Exits.mem_sources_out, sources_nil, List.not_mem_nil] at hi
    simp only [closeSwitch, Stmt.count, first_of_pos hpos, links, Draft.joins_append,
      sources_append, List.mem_append, ha.hasDefault]
    rw [selected_iff] at hj
    have ht : t.breakable.next = t.next := rfl
    have hb (q arms') : ((arms.draft.asBranch q arms').withoutBreaks).joins gotos t u v ↔
        arms.draft.withoutBreaks.joins gotos t u v := Iff.rfl
    rw [ht] at hi
    simp only [hb]
    cases hd : cases.any isDefault with
    | true =>
      simp only [hd, Bool.not_true, Bool.false_eq_true, false_and, or_false, if_true, sources_nil,
        List.not_mem_nil] at hj ⊢
      grind
    | false =>
      simp only [hd, Bool.not_false, true_and, Bool.false_eq_true, if_false, mem_sources_labelled,
        Exits.mem_sources_out] at hj ⊢
      grind

/-- A statement with a label has its links if the statement behind the label has. -/
theorem joined_labeled {sc : Scope} {label text : String} {body : Passage}
    (hb : s.Joined gotos (n + 1) (onward n) body) :
    (Stmt.labeled p label s).Joined gotos n fr
      ⟨labelDraft sc p label text n fr ++ body.draft, body.out⟩ := by
  have hd (t u v) : (labelDraft sc p label text n fr).joins gotos t u v ↔
      u ∈ sources fr ∧ v = .site n := Draft.joins_ofSite
  refine ⟨?_, ?_, fun t u v => ?_⟩
  · simp [labelDraft, Draft.ofSite, Host.fragment, Host.site, hb.places]
  · simp [labelDraft, hb.labels]
  · have hj := hb.joins t u v
    have hpos : 0 < 1 + s.count := Nat.add_pos_left Nat.one_pos _
    rw [sources_onward, List.mem_singleton] at hj
    simp only [Stmt.count, first_of_pos hpos, links, Draft.joins_append, hd, siteLinks]
    grind

/-- A `return` has its links, behind which is the exit, if its head has those of its expression. -/
theorem joined_ret (hh : HeadJoined gotos p e n fr (e.shape.headLinks n) head) :
    (Stmt.ret p e).Joined gotos n fr (closeReturn p true head) := by
  refine ⟨?_, ?_, fun t u v => ?_⟩
  · simp [closeReturn, hh.places]
  · simp [closeReturn, hh.labels]
  · have hj := hh.joins t (· = .exit) (· = .exit) u v
    have hl (region) : ({ edges := leadTo (labelled head.exits.out .returnExit) .exit, region } :
        Draft).joins gotos t u v ↔ u ∈ sources head.exits.out ∧ v = .exit := by
      simp [Draft.joins, Draft.connects_leadTo, Frontier.joins]
    simp only [closeReturn, Stmt.count, first_of_pos e.headCount_pos, links, Draft.joins_append,
      if_true, hl, sources_nil, List.not_mem_nil, Exits.mem_sources_out]
    grind

/-- A statement with one site from which control jumps. -/
theorem joined_jump {d : Draft} (hp : d.sites.map (·.stmt) = s.places) (hl : d.labels = s.labels n)
    (hc : s.count = 1) (hd : ∀ t u v, d.joins gotos t u v ↔
      u ∈ sources fr ∧ v = .site n ∨ s.links gotos n t u v) : s.Joined gotos n fr ⟨d, []⟩ := by
  refine ⟨hp, hl, fun t u v => ?_⟩
  rw [hd, hc, first_of_pos Nat.one_pos]
  simp

/-- No statements have no links. -/
theorem allJoined_nil : AllJoined gotos [] n fr ⟨{}, fr⟩ where
  places := rfl
  labels := rfl
  joins t u v := by simp [countAll, linksAll]

/-- Several statements have their links if the first one has and the others have. -/
theorem allJoined_cons {begin later : Passage} (hf : s.Joined gotos n fr begin)
    (hl : AllJoined gotos ss (n + s.count) begin.out later) :
    AllJoined gotos (s :: ss) n fr ⟨begin.draft ++ later.draft, later.out⟩ := by
  refine ⟨?_, ?_, fun t u v => ?_⟩
  · simp [hf.places, hl.places]
  · simp [hf.labels, hl.labels]
  · have hj := hl.joins t u v
    have hi := hf.joins ⟨first (countAll ss) (n + s.count) t.next, t.brk, t.cont⟩ u v
    simp only [first_add] at hi
    simp only [countAll, linksAll, Draft.joins_append]
    simp only [Draft.joins] at hi hj ⊢
    grind

/-- Without cases what falls through goes on. -/
theorem armsJoined_nil {subject fallthrough : Frontier} :
    ArmsJoined gotos [] n subject fallthrough ⟨{}, [], fallthrough, false⟩ where
  places := rfl
  labels := rfl
  hasDefault := rfl
  joins t u v := by simp [countAll, linksAll, selected]

/-- The cases of a switch have their links if the first one has and the others have. -/
theorem armsJoined_cons {isDefault : Bool} {body cases : List Stmt}
    {subject fallthrough : Frontier} {begin : Passage} {later : Arms} (hf : AllJoined gotos body n
      (labelled subject .switchCase ++ labelled fallthrough .nextLine) begin)
    (hl : ArmsJoined gotos cases (n + countAll body) subject begin.out later) :
    ArmsJoined gotos (.caseArm p isDefault body :: cases) n subject fallthrough
      (.cons begin isDefault later) := by
  refine ⟨?_, ?_, ?_, fun t u v => ?_⟩
  · simp [Arms.cons, hf.places, hl.places]
  · simp [Arms.cons, Stmt.count, hf.labels, hl.labels]
  · simp [Arms.cons, hl.hasDefault, Stmt.isDefault]
  · have hj := hl.joins t u v
    have hi := hf.joins ⟨first (countAll cases) (n + countAll body) t.next, t.brk, t.cont⟩ u v
    simp only [first_add, sources_append, List.mem_append, mem_sources_labelled] at hi
    simp only [Arms.cons, countAll, Stmt.count, linksAll, links, selected, Draft.joins_append]
    simp only [Draft.joins] at hi hj ⊢
    grind

/-- Every flow through statements has their sites, their labels and their links, if edges to the
exit are drafted. -/
theorem joined : FlowInvariant
    (fun sc s c fr r => sc.exitEdges = .ok true → s.Joined gotos c.next fr r)
    (fun sc ss c fr r => sc.exitEdges = .ok true → AllJoined gotos ss c.next fr r)
    (fun sc arms c subject fallthrough r => sc.exitEdges = .ok true →
      ArmsJoined gotos arms c.next subject fallthrough r) where
  absent _ := ⟨rfl, rfl, fun t u v => by simp [Stmt.count, links]⟩
  block h he :=
    have hj := h he
    ⟨hj.places, hj.labels, hj.joins⟩
  exprStmt h _ :=
    have hj := headJoined_optional h
    ⟨hj.places, hj.labels, joins_head hj⟩
  decl h _ :=
    have hj := headJoined_optional h
    ⟨hj.places, hj.labels, joins_head hj⟩
  ifElse h hy hn he := by
    have hj := headJoined_evaluating gotos h
    have hy := hy he
    have hn := hn he
    simp only [Cursor.after, hj.count, hy.count] at hy hn
    exact joined_ifElse hj hy hn
  whileLoop h hb he := by
    have hj := headJoined_loop gotos h
    have hb := hb he
    simp only [Cursor.after, hj.count] at hb
    exact joined_whileLoop hj hb
  forLoop hf hi hd h hb hs he := by
    have hf := hf he
    have hi := sideJoined gotos (side_of_init hi)
    have hj := headJoined_loop gotos h
    have hb := hb he
    have hs := sideJoined gotos (side_of_step hs)
    subst hd
    simp only [Cursor.after, hf.count, hi.count, hj.count, hb.count] at hi hj hb hs ⊢
    exact joined_forLoop hf hi hj hb hs
  foreach h hb he := by
    have hj := headJoined_evaluating gotos h
    have hb := hb he
    simp only [Cursor.after, hj.count] at hb
    exact joined_foreach hj hb
  doWhile hb h he := by
    have hb := hb he
    have hj := headJoined_loop gotos h
    simp only [Cursor.after, hb.count] at hj
    exact joined_doWhile hb hj
  switch h ha he := by
    have hj := headJoined_evaluating gotos h
    have ha := ha he
    simp only [Cursor.after, hj.count] at ha
    exact joined_switch hj ha
  labeled _ hb he := joined_labeled (hb he)
  goto _ := joined_jump rfl rfl rfl fun t u v => by
    simp [Draft.joins, Draft.ofSite, Draft.connects_leadTo, Frontier.joins, Host.fragment,
      Host.site, links]
  ret h hx he := by
    cases hx.symm.trans he
    exact joined_ret (headJoined_optional h)
  brk _ _ := joined_jump rfl rfl rfl fun t u v => by
    simp [Draft.joins, Draft.ofSite, Draft.connects_leadTo, Frontier.joins, Host.fragment,
      Host.site, links, siteLinks]
  cont _ _ := joined_jump rfl rfl rfl fun t u v => by
    simp [Draft.joins, Draft.ofSite, Draft.connects_leadTo, Frontier.joins, Host.fragment,
      Host.site, links, siteLinks]
  nil _ := allJoined_nil
  cons hf hl he := by
    have hf := hf he
    have hl := hl he
    simp only [Cursor.after, hf.count] at hl
    exact allJoined_cons hf hl
  noArms _ := armsJoined_nil
  arm hf hl he := by
    have hf := hf he
    have hl := hl he
    simp only [Cursor.after, hf.count] at hl
    exact armsJoined_cons hf hl

end Stmt

end LastUse
