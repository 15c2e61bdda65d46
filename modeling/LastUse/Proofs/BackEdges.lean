import LastUse.Proofs.Flow.Entered
import LastUse.Proofs.Sample

/-!
# Edges that go back

The edges of a flow graph that go back from one site to an earlier one, or to itself, are those of
backward jumps and those of loops, and the latter span no site that is not in a loop:
`FlowGraph.back_edges`. That all other edges go ahead is part of the layout of a function.
Conversely the edges of loops all go back, since no other edge has their label: no frontier holds
it until a loop is closed (`Draft.Closes`).
-/

namespace LastUse

/-- An edge goes from a site to an earlier one, or to the same. -/
def Edge.GoesBack (e : Edge) : Prop := ∃ u v, e.source = .site u ∧ e.target = .site v ∧ v ≤ u

/-- No edge of a frontier is that of a loop. -/
def Frontier.LoopFree (fr : Frontier) : Prop := ∀ x ∈ fr, x.2 ≠ .loopControl

namespace Frontier.LoopFree

variable {a b fr : Frontier} {l : EdgeLabel} {x : Exits}

/-- The empty frontier has no edges of loops. -/
theorem nil : Frontier.LoopFree [] := by
  intro x hx
  cases hx

/-- Two frontiers have none if neither does. -/
theorem append_iff : Frontier.LoopFree (a ++ b) ↔ a.LoopFree ∧ b.LoopFree := List.forall_mem_append

/-- A frontier with another label has none. -/
theorem labelled (hl : l ≠ .loopControl := by decide) : (LastUse.labelled fr l).LoopFree := by
  intro x hx
  rw [(mem_labelled.1 hx).2]
  exact hl

/-- A single edge with another label is that of no loop. -/
theorem single {v : Vertex} (hl : l ≠ .loopControl := by decide) : Frontier.LoopFree [(v, l)] := by
  intro x hx
  rwa [List.mem_singleton.1 hx]

/-- What goes on from a site is no edge of a loop. -/
theorem onward (n : Nat) : (LastUse.onward n).LoopFree := single

/-- If neither way out of an expression is an edge of a loop, then none leaves it. -/
theorem out (h : Frontier.LoopFree (x.yes ++ x.no)) : x.out.LoopFree := by
  cases x with
  | straight out => exact (append_iff.1 h).1
  | forked yes no => exact .labelled

/-- Where a frontier without edges of loops is led, there is no edge of a loop. -/
theorem label_ne (h : fr.LoopFree) {t : Vertex} {e : Edge} (he : e ∈ leadTo fr t) :
    e.label ≠ .loopControl :=
  h _ (mem_leadTo.1 he).1

end Frontier.LoopFree

/-- The edges of loops in a draft go back, and none of them leaves the draft, if none leads into
it. -/
structure Draft.Closes (fr : Frontier) (d : Draft) (out : Frontier) : Prop where
  out : fr.LoopFree → out.LoopFree
  edges : fr.LoopFree → ∀ e ∈ d.edges, e.label = .loopControl → e.GoesBack
  jumping : Frontier.LoopFree (d.breaks ++ d.continues)

namespace Draft.Closes

variable {fr fr' mid out out' : Frontier} {a b d : Draft} {s : Site}

/-- A draft without edges and jumps lets its frontier pass. -/
theorem of_no_edges (he : d.edges = []) (hj : d.breaks ++ d.continues = []) : d.Closes fr fr :=
  ⟨id, fun _ => by simp [he], hj ▸ .nil⟩

/-- What leaves a draft may be led on in another form. -/
theorem sub (h : d.Closes fr out) (hout : out.LoopFree → out'.LoopFree) : d.Closes fr out' :=
  { h with out := fun hfr => hout (h.out hfr) }

/-- The frontier may be another one that has no more edges of loops. -/
theorem weaken (h : d.Closes fr out) (hfr : fr'.LoopFree → fr.LoopFree) : d.Closes fr' out :=
  ⟨fun h' => h.out (hfr h'), fun h' => h.edges (hfr h'), h.jumping⟩

/-- Other things of a draft than its edges do not matter. -/
theorem congr (h : a.Closes fr out) (he : b.edges = a.edges) (hb : b.breaks = a.breaks)
    (hc : b.continues = a.continues) : b.Closes fr out :=
  ⟨h.out, he ▸ h.edges, hb ▸ hc ▸ h.jumping⟩

/-- A draft and the next one, which is entered from the same frontier or from the first draft. -/
theorem append (ha : a.Closes fr mid) (hb : b.Closes fr' out)
    (hmid : fr.LoopFree → mid.LoopFree → fr'.LoopFree) : (a ++ b).Closes fr (mid ++ out) := by
  refine ⟨fun hfr => ?_, fun hfr e he => ?_, ?_⟩
  · exact Frontier.LoopFree.append_iff.2 ⟨ha.out hfr, hb.out (hmid hfr (ha.out hfr))⟩
  · rcases List.mem_append.1 he with he | he
    · exact ha.edges hfr e he
    · exact hb.edges (hmid hfr (ha.out hfr)) e he
  · have haj := Frontier.LoopFree.append_iff.1 ha.jumping
    have hbj := Frontier.LoopFree.append_iff.1 hb.jumping
    simp only [breaks_append, continues_append, Frontier.LoopFree.append_iff]
    exact ⟨⟨haj.1, hbj.1⟩, haj.2, hbj.2⟩

/-- A draft and the next one, which is entered from the first one. -/
theorem andThen (ha : a.Closes fr mid) (hb : b.Closes fr' out)
    (hmid : mid.LoopFree → fr'.LoopFree) : (a ++ b).Closes fr out :=
  (ha.append hb fun _ => hmid).sub fun h => (Frontier.LoopFree.append_iff.1 h).2

/-- The edges to a site are those that lead into it. -/
theorem ofSite : (Draft.ofSite s fr).Closes fr (onward s.ordinal) :=
  ⟨fun _ => .onward _, fun hfr _ he hl => absurd hl (hfr.label_ne he), .nil⟩

/-- More edges of loops, all of which go back. -/
theorem withEdges {edges : List Edge} (h : d.Closes fr out) (he : ∀ e ∈ edges, e.GoesBack) :
    (d ++ .ofEdges edges).Closes fr out := by
  refine ⟨h.out, fun hfr e hm => ?_, by simpa [Draft.ofEdges] using h.jumping⟩
  rcases List.mem_append.1 hm with hm | hm
  · exact h.edges hfr e hm
  · exact fun _ => he e hm

end Draft.Closes

/-! ## Expressions and heads -/

/-- No edge of a loop is in the flow through an expression or leaves it, if none leads into it. -/
def Flow.Closes (fr : Frontier) (f : Flow) : Prop := f.draft.Closes fr (f.exits.yes ++ f.exits.no)

/-- The flow through an expression without connectives is that through its site, if it has one of
its own. -/
theorem Flow.closes_atFragment {h : Host} {n : Nat} {o : Option Nat} {fr : Frontier}
    {evaluated : Nat → Draft} (he : ∀ o, (evaluated o).edges = [])
    (hj : ∀ o, (evaluated o).breaks ++ (evaluated o).continues = []) :
    (Flow.atFragment h n o fr evaluated).Closes fr := by
  cases o with
  | some o => exact (Draft.Closes.of_no_edges (he o) (hj o)).sub fun h => .append_iff.2 ⟨h, h⟩
  | none =>
    have hs : (Draft.ofSite (h.fragment n) fr).Closes fr (onward n) := .ofSite
    exact (hs.andThen (.of_no_edges (he n) (hj n)) id).sub fun h => .append_iff.2 ⟨h, h⟩

/-- No edge of a loop is in the flow through an expression, form by form. -/
theorem Expr.closes (h : Host) : Expr.FlowInvariant h (fun _ _ _ fr f => f.Closes fr)
    (fun _ _ _ fr f => f.Closes fr) (fun _ _ _ fr f => f.Closes fr) where
  plain _ := Flow.closes_atFragment (fun _ => rfl) fun _ => rfl
  finish _ _ _ _ hq := hq.andThen (Flow.closes_atFragment (fun _ => rfl) fun _ => rfl) .out
  logic {_ c _ _ _ _ _ left right} hl hr := by
    cases c with
    | and =>
      refine (hl.append hr fun _ _ => .labelled).sub fun h => ?_
      have hr := Frontier.LoopFree.append_iff.1 (Frontier.LoopFree.append_iff.1 h).2
      exact .append_iff.2 ⟨hr.1, .append_iff.2 ⟨.labelled, hr.2⟩⟩
    | or =>
      refine (hl.append hr fun _ _ => .labelled).sub fun h => ?_
      have hr := Frontier.LoopFree.append_iff.1 (Frontier.LoopFree.append_iff.1 h).2
      exact .append_iff.2 ⟨.append_iff.2 ⟨.labelled, hr.1⟩, hr.2⟩
  nil := (Draft.Closes.of_no_edges rfl rfl).sub fun h => .append_iff.2 ⟨h, h⟩
  cons hf hl := hf.andThen hl .out
  nested _ hp := hp
  leaf _ hp := Draft.Closes.ofSite.andThen hp id

namespace Stmt

variable {h : Host} {e : Expr} {n : Nat} {fr : Frontier} {head : Head} {r : Passage}

/-- A head without an expression is one site. -/
theorem closes_bareHead : (bareHead h n fr).draft.Closes fr
    ((bareHead h n fr).exits.yes ++ (bareHead h n fr).exits.no) :=
  Draft.Closes.ofSite.sub fun _ => .append_iff.2 ⟨.onward n, .onward n⟩

/-- A head is its site and the flow through its expression. -/
theorem closes_evaluatingHead (H : evaluatingHead h e n fr = .ok head) :
    head.draft.Closes fr (head.exits.yes ++ head.exits.no) := by
  obtain ⟨f, hf, H⟩ := ok_of_bind H
  cases H
  exact Draft.Closes.ofSite.andThen ((Expr.closes h).flow hf) id

/-- The expression of a head may be missing. -/
theorem closes_optionalHead (H : optionalHead h e n fr = .ok head) :
    head.draft.Closes fr (head.exits.yes ++ head.exits.no) := by
  unfold optionalHead at H
  split at H
  · cases H
    exact closes_bareHead
  · exact closes_evaluatingHead H

/-- The condition of a loop may be missing. -/
theorem closes_loopHead (H : loopHead h e n fr = .ok head) :
    head.draft.Closes fr (head.exits.yes ++ head.exits.no) := by
  unfold loopHead at H
  split at H
  · cases H
    exact Draft.Closes.ofSite.sub fun _ => .append_iff.2 ⟨.onward n, .nil⟩
  · exact closes_evaluatingHead H

/-- What a `for` loop evaluates beside its condition may be missing, too. -/
theorem closes_side (H : Side h e n fr r) : r.draft.Closes fr r.out := by
  cases H with
  | absent => exact .of_no_edges rfl rfl
  | site _ hf => exact (Draft.Closes.ofSite.andThen ((Expr.closes h).flow hf) id).sub .out

end Stmt

/-! ## Statements -/

/-- What is led back to the start of a loop comes from its own sites. -/
theorem Passage.Laid.Round.within {sc : Scope} {n : Nat} {fr out : Frontier} {d : Draft}
    (h : Round sc n fr d out) : ∀ v ∈ sources out, v.Within n d.sites.length := by
  obtain ⟨m, hm⟩ := h.laid.numbered.exists_marks
  exact fun v hv => (h.among m hm v hv).within

/-- What is led back to the first site of a loop from its sites goes back. -/
theorem Edge.GoesBack.of_within {fr : Frontier} {n k : Nat}
    (hfr : ∀ v ∈ sources fr, v.Within n k) :
    ∀ e ∈ leadTo (labelled fr .loopControl) (.site n), e.GoesBack := by
  intro e he
  obtain ⟨hsrc, htgt⟩ := source_mem_of_leadTo he
  obtain ⟨u, hu, hn, -⟩ := hfr _ (mem_sources_labelled.1 hsrc)
  exact ⟨u, n, hu, htgt, hn⟩

namespace Stmt

variable {p : Path} {n k : Nat} {fr : Frontier} {head : Head} {body step : Passage} {arms : Arms}
  {exits : Bool}

/-- The end of a body has no edges of loops if what comes out of it has none. -/
theorem loopFree_bodyEnd (h : body.out.LoopFree) : (bodyEnd body).LoopFree :=
  Frontier.LoopFree.append_iff.2 ⟨h, .labelled⟩

/-- A loop that is tested first leads the end of its step back to its start. -/
theorem closes_closeLoop (hh : head.draft.Closes fr (head.exits.yes ++ head.exits.no))
    (hb : body.draft.Closes (labelled head.exits.yes .posNext) body.out)
    (hs : step.draft.Closes (bodyEnd body) step.out)
    (hback : ∀ v ∈ sources step.out, v.Within n k) :
    (closeLoop p n head body step).draft.Closes fr (closeLoop p n head body step).out := by
  have hparts := (hh.andThen hb fun _ => .labelled).andThen hs loopFree_bodyEnd
  have hwhole := hparts.withEdges (Edge.GoesBack.of_within hback)
  exact ⟨fun _ => .append_iff.2 ⟨.labelled, (Frontier.LoopFree.append_iff.1 hb.jumping).1⟩,
    hwhole.edges, .nil⟩

/-- A loop that is tested behind its body leads its condition back to the start of the body. -/
theorem closes_closeDoWhile (hb : body.draft.Closes fr body.out)
    (hh : head.draft.Closes (bodyEnd body) (head.exits.yes ++ head.exits.no))
    (hback : ∀ v ∈ sources head.exits.yes, v.Within n k) :
    (closeDoWhile p n body head).draft.Closes fr (closeDoWhile p n body head).out := by
  have hwhole := (hb.andThen hh loopFree_bodyEnd).withEdges (Edge.GoesBack.of_within hback)
  exact ⟨fun _ => .append_iff.2 ⟨.labelled, (Frontier.LoopFree.append_iff.1 hb.jumping).1⟩,
    hwhole.edges, .nil⟩

/-- A switch leads its subject past its cases, and has no edges of loops of its own. -/
theorem closes_closeSwitch (hh : head.draft.Closes fr (head.exits.yes ++ head.exits.no))
    (ha : arms.draft.Closes (head.exits.out ++ []) arms.out) :
    (closeSwitch p head arms).draft.Closes fr (closeSwitch p head arms).out := by
  have hjumping := Frontier.LoopFree.append_iff.1 ha.jumping
  have hled :
      ((arms.draft.asBranch p (if arms.hasDefault then arms.arms
        else arms.arms ++ [[]])).withoutBreaks).Closes
      (head.exits.out ++ []) (arms.out ++ arms.draft.breaks) :=
    ⟨fun h => .append_iff.2 ⟨ha.out h, hjumping.1⟩, ha.edges, hjumping.2⟩
  refine (hh.andThen hled fun h => .append_iff.2 ⟨h.out, .nil⟩).sub fun h => .append_iff.2 ⟨h, ?_⟩
  split
  · exact .nil
  · exact .labelled

/-- A label is one site. -/
theorem closes_labelDraft {sc : Scope} {label text : String} :
    (labelDraft sc p label text n fr).Closes fr (onward n) :=
  ⟨fun _ => .onward n, Draft.Closes.ofSite.edges, .nil⟩

/-- A `return` leads to the exit alone. -/
theorem closes_closeReturn (hh : head.draft.Closes fr (head.exits.yes ++ head.exits.no)) :
    (closeReturn p exits head).draft.Closes fr (closeReturn p exits head).out := by
  refine ⟨fun _ => .nil, fun hfr e he => ?_, by simpa [closeReturn] using hh.jumping⟩
  rcases List.mem_append.1 he with he | he
  · exact hh.edges hfr e he
  · dsimp only at he
    split at he
    · have hfree : (labelled head.exits.out .returnExit).LoopFree := .labelled
      exact fun hl => absurd hl (hfree.label_ne he)
    · cases he

/-- In every flow through a statement the edges of loops go back. -/
theorem closes : FlowInvariant (fun sc s c fr r => Drawn sc s c fr r ∧ r.draft.Closes fr r.out)
    (fun sc ss c fr r => DrawnAll sc ss c fr r ∧ r.draft.Closes fr r.out)
    (fun sc ss c subject fallthrough a => DrawnArms sc ss c subject fallthrough a ∧
      a.draft.Closes (subject ++ fallthrough) a.out) where
  absent := ⟨drawn.absent, .of_no_edges rfl rfl⟩
  block hr := ⟨drawn.block hr.1, hr.2⟩
  exprStmt hh := ⟨drawn.exprStmt hh, (closes_optionalHead hh).sub .out⟩
  decl hh := ⟨drawn.decl hh, (closes_optionalHead hh).sub .out⟩
  ifElse hh hy hn := by
    have harms := hy.2.append hn.2 fun _ _ => .labelled
    refine ⟨drawn.ifElse hh hy.1 hn.1, ?_⟩
    exact (closes_evaluatingHead hh).andThen (harms.congr rfl rfl rfl) fun _ => .labelled
  whileLoop hh hb := by
    have hround := Passage.Laid.Round.preTested (.loop hh) hb.1.fenced.laid .nothing
    refine ⟨drawn.whileLoop hh hb.1, ?_⟩
    refine closes_closeLoop (closes_loopHead hh) hb.2 (.of_no_edges rfl rfl) fun v hv =>
      hround.within v ?_
    rw [sources_append]
    exact List.mem_append_right _ hv
  forLoop hf hst hd hh hb hs := by
    have hround := Passage.Laid.Round.preTested (.loop hh) hb.1.fenced.laid
      (.step (by simpa [Cursor.after, Nat.add_assoc] using hs))
    refine ⟨drawn.forLoop hf.1 hst hd hh hb.1 hs, ?_⟩
    refine (hf.2.andThen (closes_side (side_of_init hst)) id).andThen ?_ id
    refine closes_closeLoop (closes_loopHead hh) hb.2 (closes_side (side_of_step hs)) fun v hv =>
      hround.within v ?_
    rw [sources_append]
    exact List.mem_append_right _ hv
  foreach {_ p _ _ _ c fr label head _} hh hb := by
    have hl :
        (⟨head.draft, .straight head.exits.out⟩ : Head).Laid (headerHost p label) c.next fr :=
      (Head.Laid.evaluating hh).exits fun _ hv => hv
    have hround := Passage.Laid.Round.preTested hl hb.1.fenced.laid .nothing
    refine ⟨drawn.foreach hh hb.1, ?_⟩
    refine closes_closeLoop ((closes_evaluatingHead hh).sub fun h => .append_iff.2 ⟨h.out, h.out⟩)
      hb.2 (.of_no_edges rfl rfl) fun v hv => hround.within v ?_
    rw [sources_append]
    exact List.mem_append_right _ hv
  doWhile hb hh := by
    have hround := Passage.Laid.Round.postTested hb.1.fenced.laid (.loop hh)
    refine ⟨drawn.doWhile hb.1 hh, ?_⟩
    refine closes_closeDoWhile hb.2 (closes_loopHead hh) fun v hv => hround.within v ?_
    simp only [sources_append, List.mem_append, Exits.mem_sources_out]
    exact .inr (.inl hv)
  switch hh ha := ⟨drawn.switch hh ha.1, closes_closeSwitch (closes_evaluatingHead hh) ha.2⟩
  labeled hl hb := ⟨drawn.labeled hl hb.1, closes_labelDraft.andThen hb.2 id⟩
  goto := ⟨drawn.goto, fun _ => .nil, Draft.Closes.ofSite.edges, .nil⟩
  ret hh he := ⟨drawn.ret hh he, closes_closeReturn (closes_optionalHead hh)⟩
  brk hb :=
    ⟨drawn.brk hb, fun _ => .nil, Draft.Closes.ofSite.edges, .append_iff.2 ⟨.labelled, .nil⟩⟩
  cont hc := ⟨drawn.cont hc, fun _ => .nil, Draft.Closes.ofSite.edges, .labelled⟩
  nil := ⟨drawn.nil, .of_no_edges rfl rfl⟩
  cons hf hl := ⟨drawn.cons hf.1 hl.1, hf.2.andThen hl.2 id⟩
  noArms := ⟨drawn.noArms, (Draft.Closes.of_no_edges rfl rfl).sub fun h =>
    (Frontier.LoopFree.append_iff.1 h).2⟩
  arm {_ _ _ _ _ _ subject fallthrough first _} hf hl := by
    have hfirst : first.draft.Closes (subject ++ fallthrough) first.out :=
      hf.2.weaken fun _ => .append_iff.2 ⟨.labelled, .labelled⟩
    refine ⟨drawn.arm hf.1 hl.1, (hfirst.append hl.2 fun hfr hmid => ?_).sub fun h => ?_⟩
    · exact .append_iff.2 ⟨(Frontier.LoopFree.append_iff.1 hfr).1, hmid⟩
    · exact (Frontier.LoopFree.append_iff.1 h).2

end Stmt

/-! ## Flow graphs -/

/-- No orderly edge enters the start or leaves the exit. -/
theorem Edge.Orderly.ends {m : Marks} {e : Edge} (h : e.Orderly m) :
    e.target ≠ .start ∧ e.source ≠ .exit := by
  cases h with
  | leave hv => exact ⟨Vertex.noConfusion, hv⟩
  | enter | ahead | back => exact ⟨Vertex.noConfusion, Vertex.noConfusion⟩

namespace FlowGraph

variable {exitEdges : Except Fault Bool} {tree : Value} {g : FlowGraph} {e : Edge}

/-- The edges of loops go back. -/
theorem goesBack_of_loopControl (h : ofTree exitEdges tree = .ok g) (he : e ∈ g.edges)
    (hl : e.label = .loopControl) : e.GoesBack := by
  obtain ⟨whole, hg⟩ := exists_drafted (ofBody_of_ofTree h)
  have hcloses := (Stmt.closes.flow hg.flow).2
  have hstart : Frontier.LoopFree [(.start, .next)] := .single
  obtain ⟨exits, -, hedges⟩ := hg.edges
  rw [hedges, List.mem_append, List.mem_append, List.mem_append] at he
  rcases he with ((he | he) | he) | he
  · exact hcloses.edges hstart e he hl
  · split at he
    · exact absurd hl ((hcloses.out hstart).label_ne he)
    · cases he
  · split at he
    · obtain rfl := List.mem_singleton.1 he
      cases hl
    · cases he
  · obtain ⟨j, -, rfl⟩ := List.mem_map.1 he
    cases hl

/-- An edge from a site to an earlier one or to the same is that of a backward jump, or it is that
of a loop and spans no site that is not in a loop. All edges of these two kinds go back. No edge
enters the start or leaves the exit. -/
theorem back_edges (h : ofTree exitEdges tree = .ok g) :
    (∀ e ∈ g.edges, ∀ u v, e.source = .site u → e.target = .site v →
      (v ≤ u ↔ (∃ j ∈ g.jumps, j.goesBack = true ∧ e = j.edge) ∨
        e.label = .loopControl ∧ ∀ s ∈ g.sites, v ≤ s.ordinal → s.ordinal ≤ u → s.inLoop = true)) ∧
    (∀ j ∈ g.jumps, j.edge ∈ g.edges) ∧
    ∀ e ∈ g.edges, e.target ≠ .start ∧ e.source ≠ .exit := by
  have hg := laid_of_ofTree h
  have hmarks := marks_of_sites hg.sites
  refine ⟨fun e he u v hu hv => ⟨fun hle => ?_, ?_⟩, fun j hj => ?_, fun e he => ?_⟩
  · rcases hg.edges e he with ho | ⟨j, hj, rfl⟩
    · cases ho with
      | enter => cases hu
      | leave => cases hv
      | ahead hlt =>
        cases hu
        cases hv
        omega
      | back _ hin =>
        cases hu
        cases hv
        exact .inr ⟨rfl, fun s hs hvs hsu => (hmarks s hs).1 ▸ hin s.ordinal hvs hsu⟩
    · cases hu
      cases hv
      exact .inl ⟨j, hj, decide_eq_true hle, rfl⟩
  · rintro (⟨j, -, hback, rfl⟩ | ⟨hl, -⟩)
    · cases hu
      cases hv
      exact of_decide_eq_true hback
    · obtain ⟨u', v', hu', hv', hle⟩ := goesBack_of_loopControl h he hl
      rw [hu, Vertex.site.injEq] at hu'
      rw [hv, Vertex.site.injEq] at hv'
      rwa [hu', hv']
  · obtain ⟨whole, hdraft⟩ := exists_drafted (ofBody_of_ofTree h)
    obtain ⟨exits, -, hedges⟩ := hdraft.edges
    rw [hedges]
    exact List.mem_append_right _ (List.mem_map_of_mem hj)
  · rcases hg.edges e he with ho | ⟨j, -, rfl⟩
    · exact ho.ends
    · exact ⟨Vertex.noConfusion, Vertex.noConfusion⟩

end FlowGraph

namespace Sample

/-- A loop in a loop, and a jump back to a label in front of them. -/
def startsOver : Value :=
  function [.node .labeled [.str "again", use "x"],
    whileLoop "x" [.node .doWhile [.node .block [.list []], name "x"], use "x"],
    .node .goto [.str "again"]]

/-- The inner loop goes back to its only site, the outer one over both, and the jump to the
label. -/
theorem back_edges_startsOver : FlowGraph.ofTree (.ok true) startsOver = .ok (graph startsOver) ∧
    (∃ j ∈ (graph startsOver).jumps, j.goesBack = true ∧ j.edge = ⟨.site 5, .site 0, .jumpNext⟩) ∧
    ⟨.site 3, .site 3, .loopControl⟩ ∈ (graph startsOver).edges ∧
    ⟨.site 4, .site 2, .loopControl⟩ ∈ (graph startsOver).edges ∧
    ∀ s ∈ (graph startsOver).sites, 2 ≤ s.ordinal → s.ordinal ≤ 4 → s.inLoop = true := by
  have hg : FlowGraph.ofTree (.ok true) startsOver = .ok (graph startsOver) :=
    ofTree_eq (by decide +kernel)
  obtain ⟨hback, -, -⟩ := FlowGraph.back_edges hg
  have hjump : ⟨.site 5, .site 0, .jumpNext⟩ ∈ (graph startsOver).edges := by decide +kernel
  have hloop : ⟨.site 4, .site 2, .loopControl⟩ ∈ (graph startsOver).edges := by decide +kernel
  have hspan := ((hback _ hloop 4 2 rfl rfl).1 (by decide)).resolve_left (by decide +kernel)
  obtain ⟨j, hj, hgoes, hedge⟩ :=
    ((hback _ hjump 5 0 rfl rfl).1 (by decide)).resolve_right (by simp)
  exact ⟨hg, ⟨j, hj, hgoes, hedge.symm⟩, by decide +kernel, hloop, hspan.2⟩

end Sample

end LastUse
