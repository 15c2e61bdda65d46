import LastUse.Proofs.Exclusion
import LastUse.Proofs.Flow.Masked

/-!
# Edges to the exit

Settings tell whether a flow graph has the edges by which control leaves the function. The flow
through a statement depends on that in nothing but those edges (`Stmt.flow_leaving`), and no path
between two sites takes one, since none leads on from the exit (`FlowGraph.path_of_withoutExits`).
So all that is found out about a function is the same with them and without
(`Session.exits_invisible`).
-/

namespace LastUse

open Relation (TransGen)

/-! ## Drafts without the edges to the exit -/

/-- Whether an edge leads elsewhere than to the exit. -/
def Edge.goesOn (e : Edge) : Bool := e.target ≠ .exit

/-- The draft without its edges to the exit. -/
def Draft.withoutExits (d : Draft) : Draft := { d with edges := d.edges.filter Edge.goesOn }

/-- The flow through a part of a statement, without the edges to the exit. -/
def Passage.withoutExits (w : Passage) : Passage := { w with draft := w.draft.withoutExits }

/-- The arms of a switch, without the edges to the exit. -/
def Stmt.Arms.withoutExits (arms : Arms) : Arms := { arms with draft := arms.draft.withoutExits }

/-- The scope with edges to the exit, or without them. -/
def Scope.leaving (sc : Scope) (exits : Bool) : Scope := { sc with exitEdges := .ok exits }

/-- Drafts lose their edges to the exit one by one. -/
theorem Draft.withoutExits_append (a b : Draft) :
    (a ++ b).withoutExits = a.withoutExits ++ b.withoutExits := by
  simp only [withoutExits, edges_append, List.filter_append]
  rfl

/-- The edges to the exit may be left out before or after a loop is closed. -/
theorem Draft.withoutExits_asLoop (d : Draft) (p : Path) :
    (d.asLoop p).withoutBreaks.withoutContinues.withoutExits =
      (d.withoutExits.asLoop p).withoutBreaks.withoutContinues := rfl

/-- The edges to the exit may be left out before or after a branch is closed. -/
theorem Draft.withoutExits_asBranch (d : Draft) (p : Path) (arms : List (List Region)) :
    (d.asBranch p arms).withoutExits = d.withoutExits.asBranch p arms := rfl

/-- What leads to the exit does not go on. -/
theorem filter_leave (exits : Bool) (fr : Frontier) :
    (if exits then leadTo fr .exit else []).filter Edge.goesOn = [] := by
  rw [List.filter_eq_nil_iff]
  intro e he
  cases exits with
  | true => simp [Edge.goesOn, (source_mem_of_leadTo he).2]
  | false => cases he

namespace Passage

variable {w w' : Passage}

/-- Passages that are alike have drafts that are alike. -/
theorem same_draft (hw : w.withoutExits = w'.withoutExits) :
    w.draft.withoutExits = w'.draft.withoutExits :=
  congrArg Passage.draft hw

/-- Passages that are the same but for edges to the exit are left in the same way. -/
theorem same_out (hw : w.withoutExits = w'.withoutExits) : w.out = w'.out :=
  (congrArg Passage.out hw :)

/-- Passages that are the same but for edges to the exit have the same regions. -/
theorem same_region (hw : w.withoutExits = w'.withoutExits) : w.draft.region = w'.draft.region :=
  (congrArg (·.draft.region) hw :)

/-- Passages that are the same but for edges to the exit have the same `break` sites. -/
theorem same_breaks (hw : w.withoutExits = w'.withoutExits) : w.draft.breaks = w'.draft.breaks :=
  (congrArg (·.draft.breaks) hw :)

/-- Behind passages that are the same but for edges to the exit sites are numbered alike. -/
theorem same_after (hw : w.withoutExits = w'.withoutExits) (c : Cursor) :
    c.after w.draft = c.after w'.draft :=
  (congrArg (fun w : Passage => c.after w.draft) hw :)

/-- Passages that are the same but for edges to the exit end alike as bodies of loops. -/
theorem same_bodyEnd (hw : w.withoutExits = w'.withoutExits) : Stmt.bodyEnd w = Stmt.bodyEnd w' :=
  (congrArg Stmt.bodyEnd hw :)

end Passage

namespace Stmt

/-- Loops are alike if their bodies are. -/
theorem same_closeLoop {body body' : Passage} (hw : body.withoutExits = body'.withoutExits)
    (p : Path) (n : Nat) (head : Head) (step : Passage) :
    (closeLoop p n head body step).withoutExits =
      (closeLoop p n head body' step).withoutExits := by
  simp only [closeLoop, Passage.withoutExits, Draft.withoutExits_asLoop, Draft.withoutExits_append,
    Passage.same_draft hw, Passage.same_breaks hw]

/-- Switches are alike if their arms are. -/
theorem same_closeSwitch {arms arms' : Arms} (ha : arms.withoutExits = arms'.withoutExits)
    (p : Path) (head : Head) :
    (closeSwitch p head arms).withoutExits = (closeSwitch p head arms').withoutExits := by
  have hdraft : arms.draft.withoutExits = arms'.draft.withoutExits := congrArg Arms.draft ha
  have hregions : arms.arms = arms'.arms := (congrArg Arms.arms ha :)
  have hout : arms.out = arms'.out := (congrArg Arms.out ha :)
  have hdefault : arms.hasDefault = arms'.hasDefault := (congrArg Arms.hasDefault ha :)
  have hbreaks : arms.draft.breaks = arms'.draft.breaks := (congrArg (·.draft.breaks) ha :)
  have hbranch (d : Draft) (regions : List (List Region)) :
      (d.asBranch p regions).withoutBreaks.withoutExits =
      (d.withoutExits.asBranch p regions).withoutBreaks := rfl
  simp only [closeSwitch, Passage.withoutExits, Draft.withoutExits_append, hbranch, hdraft,
    hregions, hout, hdefault, hbreaks]

/-- The arms of a switch are alike if those of the first case and of the later ones are. -/
theorem Arms.same_cons {first first' : Passage} (hf : first.withoutExits = first'.withoutExits)
    {later later' : Arms} (hl : later.withoutExits = later'.withoutExits) (isDefault : Bool) :
    (Arms.cons first isDefault later).withoutExits =
      (Arms.cons first' isDefault later').withoutExits := by
  have hdraft : later.draft.withoutExits = later'.draft.withoutExits := congrArg Arms.draft hl
  have hregions : later.arms = later'.arms := (congrArg Arms.arms hl :)
  have hout : later.out = later'.out := (congrArg Arms.out hl :)
  have hdefault : later.hasDefault = later'.hasDefault := (congrArg Arms.hasDefault hl :)
  simp only [Arms.cons, Arms.withoutExits, Draft.withoutExits_append, Passage.same_draft hf,
    Passage.same_out hf, Passage.same_region hf, hdraft, hregions, hout, hdefault]

/-- A `return` without its edges to the exit. -/
theorem withoutExits_closeReturn (p : Path) (exits : Bool) (head : Head) :
    (closeReturn p exits head).withoutExits =
      ⟨head.draft.withoutExits ++ { region := [.ret p] }, []⟩ := by
  simp only [closeReturn, Passage.withoutExits, Draft.withoutExits_append]
  refine congrArg (Passage.mk · []) (congrArg (head.draft.withoutExits ++ ·) ?_)
  rw [Draft.withoutExits, filter_leave]

mutual

/-- The flow through a statement is the same with edges to the exit and without, but for those
edges. -/
theorem flow_leaving (on off : Bool) : ∀ (s : Stmt) (sc : Scope) (c : Cursor) (fr : Frontier),
    viewed Passage.withoutExits (s.flow (sc.leaving on) c fr) =
      viewed Passage.withoutExits (s.flow (sc.leaving off) c fr)
  | .absent, _, _, _ | .stray _, _, _, _ | .unlisted, _, _, _ | .misnamed _, _, _, _
  | .caseArm .., _, _, _
  | .goto .., _, _, _ | .brk _, _, _, _ | .cont _, _, _, _ | .exprStmt .., _, _, _
  | .decl .., _, _, _ => rfl
  | .block _ body, sc, c, fr => by
    rw [flow, flow]
    exact flowAll_leaving on off body sc c fr
  | .ret p value, sc, c, fr => by
    rw [flow, flow]
    refine viewed_bind_same (host sc (.ret p value) p .ret true) fun h => ?_
    refine viewed_bind_same (optionalHead h value c.next fr) fun head => congrArg some ?_
    exact (withoutExits_closeReturn p on head).trans (withoutExits_closeReturn p off head).symm
  | .ifElse p cond thenArm elseArm, sc, c, fr => by
    rw [flow, flow]
    refine viewed_bind_same (host sc (.ifElse p cond thenArm elseArm) p sc.ordinaryKind false)
      fun h => ?_
    refine viewed_bind_same (evaluatingHead h cond c.next fr) fun head => ?_
    refine viewed_bind (flow_leaving on off thenArm sc _ _) fun y y' hy => ?_
    rw [Passage.same_after hy]
    refine viewed_optional rfl rfl rfl (fun _ => flow_leaving on off elseArm sc _ _) fun n n' hn =>
      congrArg some ?_
    simp only [Passage.withoutExits, Draft.withoutExits_append, Draft.withoutExits_asBranch,
      Passage.same_draft hy, Passage.same_draft hn, Passage.same_region hy, Passage.same_region hn,
      Passage.same_out hy,
      Passage.same_out hn]
  | .whileLoop p cond body, sc, c, fr => by
    rw [flow, flow]
    refine viewed_bind_same (host sc.inLoopBody (.whileLoop p cond body) p .loopHeader false)
      fun h => ?_
    refine viewed_bind_same (loopHead h cond c.next fr) fun head => ?_
    refine viewed_bind (flow_leaving on off body sc.inLoopBody _ _) fun w w' hw => congrArg some ?_
    rw [Passage.same_bodyEnd hw, same_closeLoop hw]
  | .forLoop p before init cond step body, sc, c, fr => by
    unfold flow
    refine viewed_optional rfl rfl rfl (fun _ => flow_leaving on off before sc _ _) fun b b' hb =>
      ?_
    rw [Passage.same_after hb, Passage.same_out hb]
    refine viewed_bind_same (host sc (.forLoop p before init cond step body)
      p sc.ordinaryKind false) fun h => ?_
    refine viewed_bind_same (initFlow h init _ _) fun start => ?_
    refine viewed_bind_same (loopHead _ cond _ start.out) fun head => ?_
    refine viewed_bind (flow_leaving on off body sc.inLoopBody _ _) fun w w' hw => ?_
    rw [Passage.same_after hw, Passage.same_bodyEnd hw]
    refine viewed_bind_same (stepFlow _ step _ _) fun last => congrArg some ?_
    have hclose (n : Nat) := same_closeLoop hw p n head last
    simp only [Passage.withoutExits, Draft.withoutExits_append, Passage.same_draft hb,
      Passage.same_draft (hclose _), Passage.same_out (hclose _)]
  | .foreach p var iterable body, sc, c, fr => by
    rw [flow, flow]
    refine viewed_bind_same (host sc.inLoopBody (.foreach p var iterable body) p .loopHeader false)
      fun h => ?_
    refine viewed_bind_same (evaluatingHead h iterable c.next fr) fun head => ?_
    refine viewed_bind (flow_leaving on off body sc.inLoopBody _ _) fun w w' hw => congrArg some ?_
    rw [Passage.same_bodyEnd hw, same_closeLoop hw]
  | .doWhile p body cond, sc, c, fr => by
    rw [flow, flow]
    refine viewed_bind (flow_leaving on off body sc.inLoopBody c fr) fun w w' hw => ?_
    rw [Passage.same_after hw, Passage.same_bodyEnd hw]
    refine viewed_bind_same (host sc.inLoopBody (.doWhile p body cond) p .loopHeader false)
      fun h => ?_
    refine viewed_bind_same (loopHead h cond _ _) fun head => congrArg some ?_
    simp only [Passage.withoutExits, Draft.withoutExits_asLoop, Draft.withoutExits_append,
      Passage.same_draft hw, Passage.same_breaks hw]
  | .switch p subject arms, sc, c, fr => by
    rw [flow, flow]
    refine viewed_bind_same (host sc (.switch p subject arms) p sc.ordinaryKind false) fun h => ?_
    refine viewed_bind_same (evaluatingHead h subject c.next fr) fun head => ?_
    refine viewed_bind (flowArms_leaving on off arms sc.inSwitchArm _ _ _) fun l l' hl =>
      congrArg some ?_
    exact same_closeSwitch hl p head
  | .labeled p label body, sc, c, fr => by
    rw [flow, flow]
    split
    · rfl
    · refine viewed_bind_same (host sc (.labeled p label body) p .label false) fun h => ?_
      have hbody (head : Draft) :
          viewed Passage.withoutExits (do
            let rest ← flow (sc.leaving on) body (c.after head) (onward c.next)
            pure ⟨head ++ rest.draft, rest.out⟩) =
          viewed Passage.withoutExits (do
            let rest ← flow (sc.leaving off) body (c.after head) (onward c.next)
            pure ⟨head ++ rest.draft, rest.out⟩) := by
        refine viewed_bind (flow_leaving on off body sc _ _) fun w w' hw => congrArg some ?_
        simp only [Passage.withoutExits, Draft.withoutExits_append, Passage.same_draft hw,
          Passage.same_out hw]
      cases body with
      | absent => rfl
      | _ => exact hbody _

/-- The flow through several statements depends on the setting in nothing but the edges to the
exit. -/
theorem flowAll_leaving (on off : Bool) :
    ∀ (ss : List Stmt) (sc : Scope) (c : Cursor) (fr : Frontier),
    viewed Passage.withoutExits (flowAll (sc.leaving on) ss c fr) =
      viewed Passage.withoutExits (flowAll (sc.leaving off) ss c fr)
  | [], _, _, _ => rfl
  | s :: rest, sc, c, fr => by
    rw [flowAll, flowAll]
    refine viewed_bind (flow_leaving on off s sc c fr) fun f f' hf => ?_
    rw [Passage.same_after hf, Passage.same_out hf]
    refine viewed_bind (flowAll_leaving on off rest sc _ _) fun l l' hl => congrArg some ?_
    simp only [Passage.withoutExits, Draft.withoutExits_append, Passage.same_draft hf,
      Passage.same_draft hl, Passage.same_out hl]

/-- The flow through the arms of a switch depends on the setting in nothing but the edges to the
exit. -/
theorem flowArms_leaving (on off : Bool) : ∀ (arms : List Stmt) (sc : Scope) (c : Cursor)
    (subject fallthrough : Frontier),
    viewed Arms.withoutExits (flowArms (sc.leaving on) arms c subject fallthrough) =
      viewed Arms.withoutExits (flowArms (sc.leaving off) arms c subject fallthrough)
  | [], _, _, _, _ => rfl
  | arm :: rest, sc, c, subject, fallthrough => by
    cases arm with
    | caseArm p isDefault body =>
      rw [flowArms, flowArms]
      refine viewed_bind (flowAll_leaving on off body sc _ _) fun f f' hf => ?_
      rw [Passage.same_after hf, Passage.same_out hf]
      refine viewed_bind (flowArms_leaving on off rest sc _ _ _) fun l l' hl => congrArg some ?_
      exact Arms.same_cons hf hl isDefault
    | _ => rfl

end

end Stmt

/-! ## Flow graphs -/

/-- Whether an edge leads from a site to a site. -/
def Edge.isBetweenSites : Edge → Bool
  | ⟨.site _, .site _, _⟩ => true
  | _ => false

/-- An edge between sites does not lead to the exit. -/
theorem Edge.goesOn_of_isBetweenSites {e : Edge} (h : e.isBetweenSites = true) :
    e.goesOn = true := by
  obtain ⟨source, target, label⟩ := e
  cases target with
  | exit => cases source <;> cases h
  | start | site => rfl

namespace FlowGraph

/-- The flow graph without its edges to the exit. -/
def withoutExits (g : FlowGraph) : FlowGraph := { g with edges := g.edges.filter Edge.goesOn }

/-- The flow graph of a body is the same with edges to the exit and without, but for those
edges. -/
theorem ofBody_leaving (on off : Bool) (body : Stmt) :
    viewed withoutExits (ofBody (.ok on) body) = viewed withoutExits (ofBody (.ok off) body) := by
  refine viewed_bind (Stmt.flow_leaving on off body (.outermost (.ok true)) _ _) fun w w' hw => ?_
  have hlabels : w.draft.labels = w'.draft.labels := (congrArg (·.draft.labels) hw :)
  have hgotos : w.draft.gotos = w'.draft.gotos := (congrArg (·.draft.gotos) hw :)
  rw [hlabels, hgotos]
  refine viewed_bind_same (jumpsOf _ _) fun jumps => congrArg some ?_
  have hsites : filledSites w.draft = filledSites w'.draft :=
    (congrArg (fun w : Passage => filledSites w.draft) hw :)
  have howned : w.draft.owned = w'.draft.owned := (congrArg (·.draft.owned) hw :)
  have hedges : w.draft.edges.filter Edge.goesOn = w'.draft.edges.filter Edge.goesOn :=
    (congrArg (·.draft.edges) hw :)
  have hskip (d : Draft) :
      (if d.sites.isEmpty then [⟨.start, .exit, .next⟩] else [] : List Edge).filter Edge.goesOn =
        [] := by
    split <;> rfl
  simp only [withoutExits, List.filter_append, filter_leave, hskip, hsites, hedges, howned,
    Passage.same_region hw]

/-- The flow graph of a tree depends on the setting in nothing but the edges to the exit. -/
theorem ofTree_leaving (on off : Bool) (tree : Value) :
    viewed withoutExits (ofTree (.ok on) tree) = viewed withoutExits (ofTree (.ok off) tree) := by
  unfold ofTree
  split
  · exact ofBody_leaving on off _
  · rfl
  · rfl

/-! ## Paths -/

variable {g g' : FlowGraph} {u v : Vertex}

/-- An edge that does not lead to the exit is in both graphs. -/
theorem leads_of_withoutExits (h : g.withoutExits = g'.withoutExits) (hl : g.Leads u v)
    (hv : v ≠ .exit) : g'.Leads u v := by
  obtain ⟨e, he, hs, ht⟩ := hl
  have hmem : e ∈ g.withoutExits.edges := List.mem_filter.2 ⟨he, by simp [Edge.goesOn, ht, hv]⟩
  rw [h] at hmem
  exact ⟨e, (List.mem_filter.1 hmem).1, hs, ht⟩

/-- A path that does not end at the exit takes no edge to it. -/
theorem path_of_withoutExits (h : g.withoutExits = g'.withoutExits) (hg : g.Laid)
    (hp : TransGen g.Leads u v) (hv : v ≠ .exit) : TransGen g'.Leads u v := by
  induction hp using TransGen.head_induction_on with
  | single hl => exact .single (leads_of_withoutExits h hl hv)
  | head hl hrest ih =>
    refine .head (leads_of_withoutExits h hl ?_) ih
    rintro rfl
    obtain ⟨_, hnext, -⟩ := TransGen.head'_iff.1 hrest
    exact hg.not_leads_exit hnext

/-- Flow graphs that agree in all but their edges, and in the edges between sites too. Every
binding is touched, poisoned and last accessed at the same sites in both. -/
structure AgreeButExits (g g' : FlowGraph) : Prop where
  sites : g.sites = g'.sites
  region : g.region = g'.region
  labels : g.labels = g'.labels
  jumps : g.jumps = g'.jumps
  owned : g.owned = g'.owned
  edges : g.edges.filter Edge.isBetweenSites = g'.edges.filter Edge.isBetweenSites
  repeated : ∀ precise, g.repeated precise = g'.repeated precise
  scan : ∀ b, g.scan b = g'.scan b
  escape : ∀ b resets, g.escape (g.scan b) resets = g'.escape (g'.scan b) resets
  verdict : ∀ b repeated, g.verdict (g.scan b) repeated = g'.verdict (g'.scan b) repeated

section

variable (h : g.withoutExits = g'.withoutExits) (hg : g.Laid) (hg' : g'.Laid)

include h

/-- Both graphs have the same edges between sites, in the same order. -/
theorem edges_of_withoutExits :
    g.edges.filter Edge.isBetweenSites = g'.edges.filter Edge.isBetweenSites := by
  have hfilter (g : FlowGraph) :
      g.withoutExits.edges.filter Edge.isBetweenSites = g.edges.filter Edge.isBetweenSites := by
    rw [withoutExits, List.filter_filter]
    refine List.filter_congr fun e _ => ?_
    cases he : e.isBetweenSites with
    | true => exact Edge.goesOn_of_isBetweenSites he
    | false => rfl
  rw [← hfilter, h, hfilter]

include hg hg'

/-- Paths to sites are the same in both graphs. -/
theorem path_iff {o : Nat} : TransGen g.Leads u (.site o) ↔ TransGen g'.Leads u (.site o) :=
  ⟨fun hp => path_of_withoutExits h hg hp (by simp), fun hp =>
    path_of_withoutExits h.symm hg' hp (by simp)⟩

/-- The accesses behind a site are the same. -/
theorem laterAccesses_eq (s : Scan) (o : Nat) : g.laterAccesses s o = g'.laterAccesses s o := by
  refine List.filter_congr fun t _ => ?_
  rw [Bool.eq_iff_iff, List.contains_iff_mem, List.contains_iff_mem, mem_descendants,
    mem_descendants, path_iff h hg hg']

/-- The verdicts are the same. -/
theorem verdict_eq (s : Scan) (repeated : List Nat) :
    g.verdict s repeated = g'.verdict s repeated := by
  have hregion : g.region = g'.region := (congrArg FlowGraph.region h :)
  have hground : g.ground s repeated = g'.ground s repeated := (congrArg (ground · s repeated) h :)
  simp only [verdict, lastAmong, dropNotes, laterAccesses_eq h hg hg', hregion, hground]

/-- A jump runs the same sites again. -/
theorem repeatedBy_eq (precise : Bool) (j : Jump) :
    g.repeatedBy precise j = g'.repeatedBy precise j := by
  have hbefore (o : Nat) : (g.ancestors (.site j.source)).contains (.site o) =
      (g'.ancestors (.site j.source)).contains (.site o) := by
    rw [Bool.eq_iff_iff, List.contains_iff_mem, List.contains_iff_mem, mem_ancestors,
      mem_ancestors, Relation.reflTransGen_iff_eq_or_transGen,
      Relation.reflTransGen_iff_eq_or_transGen, path_iff h hg hg']
  simp only [repeatedBy, hbefore]

/-- Flow graphs that are the same without their edges to the exit agree in all else. -/
theorem AgreeButExits.of_withoutExits : g.AgreeButExits g' := by
  have hsites : g.sites = g'.sites := (congrArg FlowGraph.sites h :)
  have hjumps : g.jumps = g'.jumps := (congrArg FlowGraph.jumps h :)
  have hscan (b : Binding) : g.scan b = g'.scan b := (congrArg (FlowGraph.scan · b) h :)
  exact {
    sites := hsites
    region := (congrArg FlowGraph.region h :)
    labels := (congrArg FlowGraph.labels h :)
    jumps := hjumps
    owned := (congrArg FlowGraph.owned h :)
    edges := edges_of_withoutExits h
    repeated precise := by
      simp only [FlowGraph.repeated, hjumps, hsites, funext (repeatedBy_eq h hg hg' precise)]
    scan := hscan
    escape b resets := by simp only [FlowGraph.escape, hscan, hsites]
    verdict b repeated := by rw [hscan, verdict_eq h hg hg'] }

end

end FlowGraph

/-! ## Sessions -/

/-- Settings that say the same of everything but of edges to the exit. -/
structure Settings.AgreeButExits (s t : Settings) : Prop where
  precise : s.precise = t.precise
  extraResets : s.extraResets = t.extraResets

namespace Session

/-- Sessions about one tree whose settings and flow graphs agree but for edges to the exit. -/
structure AgreeButExits (s s' : Session) : Prop where
  tree : s.tree = s'.tree
  graph : s.graph.AgreeButExits s'.graph
  settings : s.settings.AgreeButExits s'.settings

namespace AgreeButExits

variable {s s' : Session} (h : s.AgreeButExits s')

include h

/-- The sites that jumps can run again are the same. -/
theorem repeated_eq : s.repeated = s'.repeated := by
  rw [Session.repeated, Session.repeated, h.graph.repeated, h.settings.precise]

/-- A binding is analysed alike. -/
theorem analysisWith_eq (repeated : List Nat) (b : Binding) :
    s.analysisWith repeated b = s'.analysisWith repeated b := by
  simp only [analysisWith, h.settings.extraResets, h.graph.escape, h.graph.verdict]
  rw [h.graph.scan]

/-- The query for an analysis is the same. -/
theorem analysis_eq (b : Binding) : s.analysis b = s'.analysis b := by
  simp only [analysis, h.repeated_eq, h.analysisWith_eq]

/-- A node has the same sites. -/
theorem sitesAt_eq (p : Path) : s.graph.sitesAt p = s'.graph.sitesAt p := by
  simp only [FlowGraph.sitesAt, FlowGraph.stmtSites, h.graph.sites, h.graph.owned]

/-- A target names the same sites. -/
theorem locate_eq (t : Target) : s.locate t = s'.locate t := by
  unfold locate locateOrdinal
  simp only [h.sitesAt_eq, h.graph.sites]

/-- A target that is a node has the same sites. -/
theorem nodeSites_eq (t : Target) : s.nodeSites t = s'.nodeSites t := by
  unfold nodeSites
  simp only [h.sitesAt_eq]

/-- The reports are the same. -/
theorem reportFrom_eq (bs : List Binding) (entries : List ReportEntry) :
    s.reportFrom entries bs = s'.reportFrom entries bs := by
  induction bs generalizing entries with
  | nil => rfl
  | cons b rest ih => simp only [reportFrom, h.analysis_eq, entryOf, h.graph.sites, ih]

/-- The two sessions take a question for the same query, unless it is for the flow graph itself. -/
theorem ask_eq {q : Question} (hq : ∀ b, q ≠ .links b) : s.ask q = s'.ask q := by
  cases q with
  | links b => exact absurd rfl (hq b)
  | analyze b | scan b | escape b => simp only [ask, h.analysis_eq]
  | movableSites b => simp only [ask, movableSites, h.analysis_eq]
  | isMovableAt b t => simp only [ask, isMovableAt, movableSites, h.analysis_eq, h.locate_eq]
  | report chosen => simp only [ask, report, bindings, h.tree, h.reportFrom_eq]
  | locate t => simp only [ask, h.locate_eq]
  | nodeSites t => simp only [ask, h.nodeSites_eq]
  | repeatedSites => simp only [ask, repeatedSites, h.repeated_eq]

/-- A question leaves the same memory. -/
theorem after_eq (m : Memory) (q : Question) : s.after m q = s'.after m q := by
  cases q with
  | links b =>
    -- The flow graph is shown behind the analysis, and showing it leaves the memory as it is.
    have hrun (s : Session) : s.after m (.links b) = ((s.analysis b).run.run m).2 := by
      simp only [after, ask, links, run_bind]
      rcases (s.analysis b).run.run m with ⟨_ | _, m'⟩ <;> rfl
    rw [hrun, hrun, h.analysis_eq]
  | _ => rw [after, h.ask_eq (by simp), after]

/-- Several questions leave the same memory. -/
theorem memoryAfter_eq (asked : List Question) : s.memoryAfter asked = s'.memoryAfter asked := by
  have hafter : s.after = s'.after := funext fun m => funext (h.after_eq m)
  rw [memoryAfter, hafter, memoryAfter]

/-- After the same questions the answers are the same, unless the question is for the flow graph
itself. -/
theorem answer_eq (asked : List Question) {q : Question} (hq : ∀ b, q ≠ .links b) :
    s.answer (s.memoryAfter asked) q = s'.answer (s'.memoryAfter asked) q := by
  rw [answer, h.memoryAfter_eq, h.ask_eq hq, answer]

end AgreeButExits

end Session

/-- A function is accepted with edges to the exit and without, or refused both times. The two flow
graphs agree in all but edges to the exit, and in what is found out about every binding. So two
sessions about the function whose settings differ in those edges give the same answers to the same
questions, unless they are asked to show the flow graph itself. -/
theorem Session.exits_invisible (tree : Value) :
    (FlowGraph.ofTree (.ok true) tree).isOk = (FlowGraph.ofTree (.ok false) tree).isOk ∧
    (∀ g g', FlowGraph.ofTree (.ok true) tree = .ok g → FlowGraph.ofTree (.ok false) tree =
      .ok g' → g.AgreeButExits g') ∧
    ∀ (document document' : Json) (s s' : Session), Session.ofTree document tree = .ok s →
      Session.ofTree document' tree = .ok s' → s.settings.AgreeButExits s'.settings →
      ∀ (asked : List Question) (q : Question), (∀ b, q ≠ .links b) →
        s.answer (s.memoryAfter asked) q = s'.answer (s'.memoryAfter asked) q := by
  have hagree {on off : Bool} {g g' : FlowGraph} (hg : FlowGraph.ofTree (.ok on) tree = .ok g)
      (hg' : FlowGraph.ofTree (.ok off) tree = .ok g') : g.AgreeButExits g' :=
    .of_withoutExits (eq_of_viewed (FlowGraph.ofTree_leaving on off tree) hg hg')
      (FlowGraph.laid_of_ofTree hg) (FlowGraph.laid_of_ofTree hg')
  refine ⟨isOk_of_viewed (FlowGraph.ofTree_leaving true false tree), fun g g' => hagree, ?_⟩
  intro document document' s s' hs hs' hsettings asked q hq
  have hsessions : s.AgreeButExits s' :=
    ⟨(tree_eq hs).trans (tree_eq hs').symm, hagree (graph_eq hs) (graph_eq hs'), hsettings⟩
  exact hsessions.answer_eq asked hq

namespace Sample

/-- Settings by which there are no edges to the exit. -/
def inwardly : Json := .obj [(Settings.graphSection, .obj [(Settings.exitEdgesKey, .bool false)])]

/-- Without edges to the exit the flow graph has two edges fewer, for its two `return` statements,
and the verdict on the parameter is the same after any questions. -/
theorem exits_jumpsOver :
    Session.ofTree .null jumpsOver = .ok (session jumpsOver) ∧
    Session.ofTree inwardly jumpsOver = .ok (sessionWith inwardly jumpsOver) ∧
    (session jumpsOver).graph.edges.length = 10 ∧
      (sessionWith inwardly jumpsOver).graph.edges.length = 8 ∧
    FlowGraph.ofTree (.ok true) jumpsOver = .ok (session jumpsOver).graph ∧
    FlowGraph.ofTree (.ok false) jumpsOver = .ok (sessionWith inwardly jumpsOver).graph ∧
    (session jumpsOver).graph.AgreeButExits (sessionWith inwardly jumpsOver).graph ∧
    (session jumpsOver).answer ((session jumpsOver).memoryAfter [.links x]) (.analyze x) =
      (sessionWith inwardly jumpsOver).answer
        ((sessionWith inwardly jumpsOver).memoryAfter [.links x]) (.analyze x) := by
  have hs : Session.ofTree .null jumpsOver = .ok (session jumpsOver) :=
    session_eq (by decide +kernel)
  have hs' : Session.ofTree inwardly jumpsOver = .ok (sessionWith inwardly jumpsOver) :=
    sessionWith_eq (by decide +kernel)
  have hg := Session.graph_eq hs
  have hg' := Session.graph_eq hs'
  have hon : (session jumpsOver).settings.exitEdges = true := by decide +kernel
  have hoff : (sessionWith inwardly jumpsOver).settings.exitEdges = false := by decide +kernel
  rw [hon] at hg
  rw [hoff] at hg'
  have hagree :
      (session jumpsOver).settings.AgreeButExits (sessionWith inwardly jumpsOver).settings := by
    have hread := Session.settings_eq hs
    have hread' := Session.settings_eq hs'
    generalize (session jumpsOver).settings = settings at hread ⊢
    generalize (sessionWith inwardly jumpsOver).settings = settings' at hread' ⊢
    cases hread
    cases hread'
    exact ⟨rfl, rfl⟩
  obtain ⟨-, hgraphs, hsessions⟩ := Session.exits_invisible jumpsOver
  exact ⟨hs, hs', by decide +kernel, by decide +kernel, hg, hg', hgraphs _ _ hg hg',
    hsessions .null inwardly _ _ hs hs' hagree [.links x] (.analyze x) (by simp)⟩

end Sample

end LastUse
