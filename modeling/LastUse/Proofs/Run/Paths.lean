import LastUse.Proofs.Flow.Reach
import LastUse.Proofs.Run.Advance
import LastUse.Proofs.Run.Progress
import LastUse.Proofs.Sample

/-!
# Paths are executions

The paths of a flow graph from its start are the executions of the function body, cut off anywhere
(`FlowGraph.isPath_iff_executes`). A graph depicts a body (`Depicts`) if its edges are the links of
the body. A step of the machine keeps to such a graph (`Step.follows`, `Step.visits`), and
conversely the machine can take every edge (`Depicts.exists_runs`).
-/

namespace LastUse

open Relation (ReflTransGen)

/-- A graph has exactly the edges that executions of a function body take. -/
structure Depicts (edges : Links) (body : Stmt) : Prop where
  start {v : Vertex} : edges .start v ↔ (targetsOf body [.stmt body 0, .leave]).next v
  exit {v : Vertex} : ¬ edges .exit v
  follows : FollowsAll (gotosOf body) edges [.stmt body 0, .leave] .none

variable {edges : Links} {body : Stmt} {tasks between after rest : List Task} {u v w : Vertex}
  {gotos : String → Vertex → Prop} {t : Targets}

/-! ## A step keeps to the graph -/

/-- What is left of a stack that follows a graph follows it. -/
theorem skipPast_follows {target : Task → Bool} (h : skipPast target rest = some after)
    (hf : FollowsAll gotos edges rest t) : FollowsAll gotos edges after t := by
  obtain ⟨before, task, rfl, -⟩ := exists_of_skipPast h
  exact (followsAll_append.1 hf).2.2

/-- A `break` goes on where the stack has its target. -/
theorem next_of_break (h : skipPast Task.isBreakTarget rest = some after) :
    (targets gotos after t).next = (targets gotos rest t).brk := by
  induction rest with
  | nil => cases h
  | cons task rest ih =>
    cases task with
    | breakTarget =>
      cases h
      rfl
    | _ => exact ih h

/-- A `continue` goes on where the stack has its target. -/
theorem next_of_continue (h : skipPast Task.isContinueTarget rest = some after) :
    (targets gotos after t).next = (targets gotos rest t).cont := by
  induction rest with
  | nil => cases h
  | cons task rest ih =>
    cases task with
    | continueTarget =>
      cases h
      rfl
    | _ => exact ih h

/-- The stack that a jump leaves. -/
theorem Depicts.entry (h : Depicts edges body) {label : String} {way : List Task}
    (hw : body.entry label 0 = some way) : FollowsAll (gotosOf body) edges (way ++ [.leave]) .none
      ∧ ((targetsOf body (way ++ [.leave])).next v → gotosOf body label v) := by
  refine ⟨followsAll_append.2 ⟨Stmt.entry_follows hw h.follows.1, h.follows.2⟩, fun hv => ?_⟩
  obtain ⟨k, rest, rfl, hn⟩ := Stmt.lookup_of_entry hw
  exact ⟨k, hn, hv⟩

/-- After a step the stack still follows the graph. -/
theorem Step.follows (h : Depicts edges body) {o : Option Vertex}
    (hf : FollowsAll (gotosOf body) edges tasks .none) (hs : Step body tasks o after) :
    FollowsAll (gotosOf body) edges after .none := by
  cases hs with
  | visit => exact hf.2
  | leave => trivial
  | unfold hw => exact followsAll_append.2 ⟨hf.1.ways hw, hf.2⟩
  | brk ha => exact skipPast_follows ha hf.2
  | cont ha => exact skipPast_follows ha hf.2
  | goto hw => exact (h.entry hw (v := .exit)).1

/-- What is next after a step without a visit was next before. -/
theorem Step.next (h : Depicts edges body) (hs : Step body tasks none after)
    (hv : (targetsOf body after).next v) : (targetsOf body tasks).next v := by
  cases hs with
  | unfold hw =>
    rw [targetsOf, targets_append] at hv
    rw [targetsOf, targets, Task.targets_next]
    exact Task.first_of_ways hw hv
  | brk ha =>
    rw [targetsOf, next_of_break ha] at hv
    exact hv
  | cont ha =>
    rw [targetsOf, next_of_continue ha] at hv
    exact hv
  | goto hw => exact (h.entry hw).2 hv

/-- A step visits what is next, and what is next then is where the edges lead. -/
theorem Step.visits (h : Depicts edges body) (hf : FollowsAll (gotosOf body) edges tasks .none)
    (hs : Step body tasks (some v) after) :
    (targetsOf body tasks).next v ∧ (edges v w ↔ (targetsOf body after).next w) := by
  cases hs with
  | @visit n rest =>
    refine ⟨rfl, (hf.1 (Nat.le_refl n) (Nat.lt_succ_self n)).trans ?_⟩
    simp [siteLinks, targetsOf]
  | leave => exact ⟨rfl, iff_of_false h.exit id⟩

/-! ## Runs -/

/-- A run that begins with steps without a visit. -/
theorem Silent.runs {vs : List Vertex} (hs : Silent body tasks between)
    (hr : Runs body between vs after) : Runs body tasks vs after := by
  induction hs using ReflTransGen.head_induction_on with
  | refl => exact hr
  | head hstep _ ih => exact .step hstep ih

/-- A stack goes on following the graph until the next visit. -/
theorem Silent.follows (h : Depicts edges body) (hf : FollowsAll (gotosOf body) edges tasks .none)
    (hs : Silent body tasks between) : FollowsAll (gotosOf body) edges between .none := by
  induction hs with
  | refl => exact hf
  | tail _ hstep ih => exact hstep.follows h ih

/-- Along a run the machine takes edges of the graph. -/
theorem Depicts.isChain (h : Depicts edges body) {vs : List Vertex} (hr : Runs body tasks vs after)
    (hf : FollowsAll (gotosOf body) edges tasks .none)
    (hu : ∀ {v}, (targetsOf body tasks).next v → edges u v) : (u :: vs).IsChain edges := by
  induction hr generalizing u with
  | refl => exact .singleton u
  | @step before between after o vs hs _ ih =>
    cases o with
    | none => exact ih (hs.follows h hf) fun hv => hu (hs.next h hv)
    | some v =>
      refine .cons_cons (hu (hs.visits (w := v) h hf).1) (ih (hs.follows h hf) fun hw => ?_)
      exact (hs.visits h hf).2.2 hw

/-- Along edges of the graph there is a run of the machine. -/
theorem Depicts.exists_runs (h : Depicts edges body) {vs : List Vertex}
    (hf : FollowsAll (gotosOf body) edges tasks .none)
    (hu : ∀ {v}, edges u v → (targetsOf body tasks).next v) (hc : (u :: vs).IsChain edges) :
    ∃ after, Runs body tasks vs after := by
  induction vs generalizing u tasks with
  | nil => exact ⟨tasks, .refl⟩
  | cons v vs ih =>
    rw [List.isChain_cons_cons] at hc
    have hl : Live body tasks := List.append_nil tasks ▸ Live.all tasks .nil
    obtain ⟨before, next, hs, hstep⟩ := hl.next (hu hc.1)
    have hb := hs.follows h hf
    obtain ⟨after, hr⟩ := ih (hstep.follows h hb) (fun hw => (hstep.visits h hb).2.1 hw) hc.2
    exact ⟨after, hs.runs (.step hstep hr)⟩

/-! ## Leaving the function -/

/-- The machine leaves the function last, also without its first task. -/
theorem getLast?_tail {task : Task} (hl : (task :: rest).getLast? = some .leave)
    (ht : task ≠ .leave) : rest.getLast? = some .leave := by
  cases rest with
  | nil => exact absurd (by simpa using hl) ht
  | cons => simpa using hl

/-- The machine leaves the function last, also behind a jump. -/
theorem getLast?_skipPast {target : Task → Bool} (ht : target .leave = false)
    (h : skipPast target rest = some after) (hl : rest.getLast? = some .leave) :
    after.getLast? = some .leave := by
  obtain ⟨before, task, rfl, hk⟩ := exists_of_skipPast h
  rw [List.getLast?_append_of_ne_nil _ (List.cons_ne_nil _ _)] at hl
  refine getLast?_tail hl ?_
  rintro rfl
  exact Bool.false_ne_true (ht.symm.trans hk)

/-- Until the function is left, leaving it is the last task. -/
theorem Step.getLast? {o : Option Vertex} (hs : Step body tasks o after)
    (hl : tasks.getLast? = some .leave) :
    o = some .exit ∧ after = [] ∨ o ≠ some .exit ∧ after.getLast? = some .leave := by
  cases hs with
  | visit => exact .inr ⟨nofun, getLast?_tail hl nofun⟩
  | leave => exact .inl ⟨rfl, rfl⟩
  | @unfold task way rest hw =>
    have ht : task ≠ .leave := by
      rintro rfl
      cases hw
    exact .inr ⟨nofun, by simp [List.getLast?_append, getLast?_tail hl ht]⟩
  | brk ha => exact .inr ⟨nofun, getLast?_skipPast rfl ha (getLast?_tail hl nofun)⟩
  | cont ha => exact .inr ⟨nofun, getLast?_skipPast rfl ha (getLast?_tail hl nofun)⟩
  | goto => exact .inr ⟨nofun, by simp⟩

/-- The exit is visited exactly if the function is left. -/
theorem Runs.exit_mem_iff {vs : List Vertex} (hr : Runs body tasks vs after)
    (hl : tasks.getLast? = some .leave) : .exit ∈ vs ↔ after = [] := by
  induction hr with
  | refl =>
    refine iff_of_false List.not_mem_nil ?_
    rintro rfl
    cases hl
  | step hs hr ih =>
    rcases hs.getLast? hl with ⟨rfl, rfl⟩ | ⟨ho, hl'⟩
    · cases hr with
      | refl => simp
      | step hs => cases hs
    · rw [List.mem_append, Option.mem_toList, or_iff_right ho]
      exact ih hl'

/-! ## The graph of a function body -/

namespace FlowGraph

variable {g : FlowGraph}

/-- Every `goto` is a jump to the site of its label. -/
theorem exists_mem_jumpsOf {labels : List (String × Nat)} {gotos : List (Nat × String)}
    {jumps : List Jump} (h : jumpsOf labels gotos = .ok jumps) {n : Nat} {label : String}
    (hg : (n, label) ∈ gotos) : ∃ k, labels.lookup label = some k ∧ ⟨n, k, label⟩ ∈ jumps := by
  induction gotos generalizing jumps with
  | nil => cases hg
  | cons first rest ih =>
    rw [jumpsOf] at h
    split at h
    · cases h
    · next k hk =>
      obtain ⟨others, ho, h⟩ := ok_of_bind h
      cases h
      rcases List.mem_cons.1 hg with rfl | hg
      · exact ⟨k, hk, List.mem_cons_self⟩
      · obtain ⟨k, hk, hj⟩ := ih ho hg
        exact ⟨k, hk, List.mem_cons_of_mem _ hj⟩

/-- The jumps of a flow graph lead where the labels stand. -/
theorem leads_of_jumps {labels : List (String × Nat)} {gotos : List (Nat × String)}
    {jumps : List Jump} (h : jumpsOf labels gotos = .ok jumps) :
    (∃ e ∈ jumps.map Jump.edge, e.source = u ∧ e.target = v) ↔
      ∃ x ∈ gotos, siteLinks x.1 (fun v => ∃ k, labels.lookup x.2 = some k ∧ v = .site k) u v := by
  constructor
  · rintro ⟨e, he, rfl, rfl⟩
    obtain ⟨j, hj, rfl⟩ := List.mem_map.1 he
    obtain ⟨hg, hl⟩ := mem_of_jumpsOf h hj
    exact ⟨_, hg, rfl, j.target, hl, rfl⟩
  · rintro ⟨⟨n, label⟩, hg, rfl, k, hk, rfl⟩
    obtain ⟨k', hk', hj⟩ := exists_mem_jumpsOf h hg
    cases hk.symm.trans hk'
    exact ⟨_, List.mem_map_of_mem hj, rfl, rfl⟩

/-- The draft of a flow graph has the sites, the labels and the links of the function body. -/
theorem Drafted.joined {whole : Passage} (hd : g.Drafted (.ok true) body whole) :
    body.Joined (gotosOf body) 0 [(.start, .next)] whole := Stmt.joined.flow hd.flow rfl

/-- The edges of a flow graph are the links of the function body. -/
theorem leads_iff {whole : Passage} (hd : g.Drafted (.ok true) body whole) :
    g.Leads u v ↔ u = .start ∧ first body.count 0 (· = .exit) v
      ∨ body.links (gotosOf body) 0 { Targets.none with next := (· = .exit) } u v := by
  have hj := hd.joined
  obtain ⟨exits, he, hedges⟩ := hd.edges
  cases he
  have hjumps := leads_of_jumps (u := u) (v := v) hd.jumps
  rw [hj.labels] at hjumps
  have hskip : (∃ e ∈ if whole.draft.sites.isEmpty then [(⟨.start, .exit, .next⟩ : Edge)] else [],
      e.source = u ∧ e.target = v) → u = .start ∧ first body.count 0 (· = .exit) v := by
    split
    · next hs =>
      rintro ⟨e, he, rfl, rfl⟩
      obtain rfl := List.mem_singleton.1 he
      have hc : body.count = 0 := by rw [← hj.count, List.isEmpty_iff.1 hs, List.length_nil]
      rw [hc]
      exact ⟨rfl, first_zero.2 rfl⟩
    · rintro ⟨e, he, -⟩
      cases he
  have hi := hj.joins { Targets.none with next := (· = .exit) } u v
  have hs : u ∈ sources [(.start, .next)] ↔ u = .start := List.mem_singleton
  simp only [Draft.joins, Frontier.joins, Targets.none, and_false, false_or, hs] at hi
  rw [Leads, hedges]
  simp only [List.mem_append, or_and_right, exists_or, if_true, Draft.connects_leadTo, hjumps]
  constructor
  · rintro (((he | he) | he) | he)
    · exact hi.1 (.inl (.inl he))
    · exact hi.1 (.inr he)
    · exact .inl (hskip he)
    · exact hi.1 (.inl (.inr he))
  · intro hl
    rcases hi.2 hl with (he | he) | he
    · exact .inl (.inl (.inl he))
    · exact .inr he
    · exact .inl (.inl (.inr he))

/-- A flow graph depicts the function body that it is made of. -/
theorem depicts {tree : Value} (h : ofTree (.ok true) tree = .ok g) :
    Depicts g.Leads (bodyOf tree) := by
  obtain ⟨whole, hd⟩ := exists_drafted (ofBody_of_ofTree h)
  refine ⟨?_, ?_, ?_, trivial, trivial⟩
  · intro v
    refine (leads_iff hd).trans ((or_iff_left fun hl => ?_).trans (and_iff_right rfl))
    obtain ⟨k, hk, -⟩ := Stmt.links_within hl
    cases hk
  · intro v hl
    rcases (leads_iff hd).1 hl with ⟨hu, -⟩ | hl
    · cases hu
    · obtain ⟨k, hk, -⟩ := Stmt.links_within hl
      cases hk
  · intro k v _ _
    exact (leads_iff hd).trans (or_iff_right nofun)

/-- An execution of a function that has a flow graph goes on until the function is left. -/
theorem exists_step {tree : Value} (h : ofTree (.ok true) tree = .ok g) {vs : List Vertex}
    (hr : Executes (bodyOf tree) vs tasks) (hn : tasks ≠ []) :
    ∃ o after, Step (bodyOf tree) tasks o after := by
  obtain ⟨whole, hd⟩ := exists_drafted (ofBody_of_ofTree h)
  let known (label : String) : Prop := ∃ way, (bodyOf tree).entry label 0 = some way
  have hb : (bodyOf tree).Bound known false false := Stmt.bound.flow hd.flow fun x hx => by
    obtain ⟨k, hk, -⟩ := exists_mem_jumpsOf hd.jumps hx
    obtain ⟨rest, hw⟩ := Stmt.exists_entry (hd.joined.labels ▸ hk)
    exact ⟨_, hw⟩
  have hs : StackBound known [.stmt (bodyOf tree) 0, .leave] false false := ⟨hb, trivial, trivial⟩
  have ht := Runs.bound hb hs hr
  cases tasks with
  | nil => exact absurd rfl hn
  | cons task rest => exact exists_step_of_bound (fun _ hk => hk) ht

/-- The paths from the start of a flow graph are the executions of the function, cut off anywhere.
An execution goes on until the function is left, and the exit is visited exactly if it is. The
sites belong to the statements in the order in which the machine numbers them. -/
theorem isPath_iff_executes {tree : Value} (h : ofTree (.ok true) tree = .ok g) :
    (∀ vs, g.IsPath (.start :: vs) ↔ ∃ tasks, Executes (bodyOf tree) vs tasks)
      ∧ (∀ vs tasks, Executes (bodyOf tree) vs tasks → (.exit ∈ vs ↔ tasks = [])
        ∧ (tasks ≠ [] → ∃ o after, Step (bodyOf tree) tasks o after))
      ∧ g.sites.map (·.stmt) = (bodyOf tree).places := by
  have hg := depicts h
  refine ⟨fun vs => ⟨fun hp => ?_, ?_⟩, fun vs tasks hr => ⟨hr.exit_mem_iff rfl, exists_step h hr⟩,
    ?_⟩
  · exact hg.exists_runs hg.follows (fun hv => hg.start.1 hv) hp
  · rintro ⟨tasks, hr⟩
    exact hg.isChain hr hg.follows fun hv => hg.start.2 hv
  · obtain ⟨whole, hd⟩ := exists_drafted (ofBody_of_ofTree h)
    rw [hd.sites, ← hd.joined.places, filledSites, List.map_map]
    rfl

end FlowGraph

namespace Sample

/-- A jump into the body of a loop, which a `break` leaves. -/
def jumpsIntoLoop : Value :=
  function [.node .goto [.str "inside"],
    .node .whileLoop [.node .logicalAnd [name "a", name "b"],
      .node .block [.list [.node .labeled [.str "inside", use "x"],
        ifElse "c" (.node .brk []) .null]]],
    ret "x"]

/-- The loop is entered at the label, tested once and left in its second round. -/
theorem executes_jumpsIntoLoop :
    FlowGraph.ofTree (.ok true) jumpsIntoLoop = .ok (graph jumpsIntoLoop) ∧
      Executes (FlowGraph.bodyOf jumpsIntoLoop)
        ([0, 4, 5, 6, 1, 2, 3, 4, 5, 6, 7, 8].map Vertex.site ++ [.exit]) [] := by
  have h : FlowGraph.ofTree (.ok true) jumpsIntoLoop = .ok (graph jumpsIntoLoop) :=
    ofTree_eq (by decide +kernel)
  obtain ⟨hp, he, -⟩ := FlowGraph.isPath_iff_executes h
  obtain ⟨tasks, hr⟩ := (hp ([0, 4, 5, 6, 1, 2, 3, 4, 5, 6, 7, 8].map Vertex.site ++ [.exit])).1
    (by decide +kernel)
  obtain rfl := (he _ tasks hr).1.1 (by decide)
  exact ⟨h, hr⟩

end Sample

end LastUse
