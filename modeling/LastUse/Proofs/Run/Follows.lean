import LastUse.Proofs.Run.StmtJoins

/-!
# Stacks that follow a graph

A stack of the machine follows a graph (`FollowsAll`) if from every site that its tasks may visit
the graph has exactly the edges that the machine can take. The targets of a stack (`targets`) say
what the machine visits next. Whichever way a task unfolds, the stack goes on following the graph
(`Task.Follows.ways`), and what is next is what some way of unfolding can visit
(`Task.first_of_ways`).
-/

namespace LastUse

/-! ## Agreement with a graph -/

/-- A graph has exactly some links from the sites in a range. -/
def Links.Agree (edges l : Links) (n m : Nat) : Prop :=
  ∀ ⦃k v⦄, n ≤ k → k < m → (edges (.site k) v ↔ l (.site k) v)

/-- A graph that agrees with two parts agrees with each where its sites are. -/
theorem Links.Agree.or {edges a b : Links} {n k m m' : Nat}
    (h : edges.Agree (fun u v => a u v ∨ b u v) n m) (ha : a.Within n k) (hb : b.Within k m')
    (hn : n ≤ k) (hk : k ≤ m) (hm : m' ≤ m) : edges.Agree a n k ∧ edges.Agree b k m' := by
  constructor
  · intro i v hi hi'
    refine (h hi (Nat.lt_of_lt_of_le hi' hk)).trans (or_iff_left fun hl => ?_)
    obtain ⟨j, hj, hj', -⟩ := hb hl
    cases hj
    omega
  · intro i v hi hi'
    refine (h (Nat.le_trans hn hi) (Nat.lt_of_lt_of_le hi' hm)).trans (or_iff_right fun hl => ?_)
    obtain ⟨j, hj, -, hj'⟩ := ha hl
    cases hj
    omega

namespace Stmt

/-- The number of the sites of a loop, without those of its initialiser. -/
def roundCount : Stmt → Nat
  | .whileLoop _ e body | .foreach _ _ e body => e.headCount + body.count
  | .doWhile _ body cond => body.count + cond.headCount
  | .forLoop _ _ _ cond step body => cond.headCount + body.count + step.sideCount
  | _ => 0

/-- The links of a loop, without those of its initialiser. -/
def roundLinks (gotos : String → Vertex → Prop) : Stmt → Nat → Targets → Links
  | .whileLoop _ cond body, n, t =>
    preTestedLinks (cond.guardLinks n) cond.headCount .absent body.count n t (body.links gotos)
  | .doWhile _ body cond, n, t => postTestedLinks cond body.count n t (body.links gotos)
  | .forLoop _ _ _ cond step body, n, t =>
    preTestedLinks (cond.guardLinks n) cond.headCount step body.count n t (body.links gotos)
  | .foreach _ _ iterable body, n, t =>
    preTestedLinks (iterable.eitherLinks n) iterable.headCount .absent body.count n t
      (body.links gotos)
  | _, _, _ => fun _ _ => False

end Stmt

/-- The targets before a task, from what the task visits first and the targets behind it. -/
def Task.targets (task : Task) (next : Vertex → Prop) (behind : Targets) : Targets :=
  match task with
  | .breakTarget => { behind with next, brk := behind.next }
  | .continueTarget => { behind with next, cont := behind.next }
  | _ => { behind with next }

/-- What is next before a task is what the task visits first. -/
theorem Task.targets_next {task : Task} {next : Vertex → Prop} {behind : Targets} :
    (task.targets next behind).next = next := by
  cases task <;> rfl

variable (gotos : String → Vertex → Prop)

mutual

/-- What a task visits first, given what comes behind it. -/
def Task.first : Task → Targets → Vertex → Prop
  | .visit n, _ | .operand _ n _ _, _ => (· = .site n)
  | .eval e n opened yes no, t =>
    LastUse.first (e.count opened) n fun v => (targets yes t).next v ∨ (targets no t).next v
  | .evalAll es n opened, t => LastUse.first (Shape.countAll es opened) n t.next
  | .either yes no, t => fun v => (targets yes t).next v ∨ (targets no t).next v
  | .stmt s n, t => LastUse.first s.count n t.next
  | .stmts ss n, t => LastUse.first (Stmt.countAll ss) n t.next
  | .select arms n skips, t => Stmt.selected arms n skips t.next
  | .loop s n, t | .round s n, t => LastUse.first s.roundCount n t.next
  | .breakTarget, t | .continueTarget, t => t.next
  | .brk, t => t.brk
  | .cont, t => t.cont
  | .goto label, _ => gotos label
  | .leave, _ => (· = .exit)

/-- Where control goes at the top of a stack, given the targets behind it. -/
def targets : List Task → Targets → Targets
  | [], t => t
  | task :: rest, t => task.targets (task.first (targets rest t)) (targets rest t)

end

variable (edges : Links)

mutual

/-- A graph has exactly the edges that the machine takes from the sites of a task. -/
def Task.Follows : Task → Targets → Prop
  | .visit n, t => edges.Agree (siteLinks n t.next) n (n + 1)
  | .eval e n opened yes no, t =>
    edges.Agree (e.links n opened (targets gotos yes t).next (targets gotos no t).next) n
        (n + e.count opened)
      ∧ FollowsAll yes t ∧ FollowsAll no t
  | .operand e n yes no, t =>
    edges.Agree (e.operandLinks n (targets gotos yes t).next (targets gotos no t).next) n
        (n + e.operandCount)
      ∧ FollowsAll yes t ∧ FollowsAll no t
  | .evalAll es n opened, t =>
    edges.Agree (Shape.linksAll es n opened t.next) n (n + Shape.countAll es opened)
  | .either yes no, t => FollowsAll yes t ∧ FollowsAll no t
  | .stmt s n, t => edges.Agree (s.links gotos n t) n (n + s.count)
  | .stmts ss n, t | .select ss n _, t =>
    edges.Agree (Stmt.linksAll gotos ss n t) n (n + Stmt.countAll ss)
  | .loop s n, t => edges.Agree (s.roundLinks gotos n t.breakable) n (n + s.roundCount)
  | .round s n, t => edges.Agree (s.roundLinks gotos n t) n (n + s.roundCount)
  | .breakTarget, _ | .continueTarget, _ | .brk, _ | .cont, _ | .goto _, _ | .leave, _ => True

/-- A graph has exactly the edges that the machine takes from the sites of a stack. -/
def FollowsAll : List Task → Targets → Prop
  | [], _ => True
  | task :: rest, t => task.Follows (targets gotos rest t) ∧ FollowsAll rest t

end

/-! ## Stacks put together -/

variable {gotos edges} {a b : List Task} {t : Targets}

@[simp] theorem targets_append :
    targets gotos (a ++ b) t = targets gotos a (targets gotos b t) := by
  induction a with
  | nil => simp [targets]
  | cons task rest ih => simp [targets, ih]

@[simp] theorem followsAll_append : FollowsAll gotos edges (a ++ b) t ↔
    FollowsAll gotos edges a (targets gotos b t) ∧ FollowsAll gotos edges b t := by
  induction a with
  | nil => simp [FollowsAll]
  | cons task rest ih => simp [FollowsAll, ih, and_assoc]

/-! ## Expressions -/

namespace Expr

variable {e : Expr} {n : Nat} {yes no : List Task}

/-- The tasks of an expression follow a graph that has its links. -/
theorem followsAll_head
    (h : edges.Agree (e.shape.headLinks n (targets gotos yes t).next (targets gotos no t).next) n
      (n + e.headCount))
    (hy : FollowsAll gotos edges yes t) (hn : FollowsAll gotos edges no t) :
    FollowsAll gotos edges (e.head n yes no) t := by
  obtain ⟨hv, he⟩ := h.or Links.Within.siteLinks Shape.links_within (by omega)
    (by rw [headCount]; omega) (by rw [headCount]; omega)
  exact ⟨hv, ⟨he, hy, hn⟩, trivial⟩

/-- The tasks of the condition of a loop follow a graph that has its links. -/
theorem followsAll_guard
    (h : edges.Agree (e.guardLinks n (targets gotos yes t).next (targets gotos no t).next) n
      (n + e.headCount))
    (hy : FollowsAll gotos edges yes t) (hn : FollowsAll gotos edges no t) :
    FollowsAll gotos edges (e.guard n yes no) t := by
  unfold guardLinks at h
  unfold guard
  split at h
  · next he =>
    rw [if_pos he]
    refine ⟨fun k v hk hk' => h hk (Nat.lt_of_lt_of_le hk' ?_), hy⟩
    rw [headCount]
    omega
  · next he =>
    rw [if_neg he]
    exact followsAll_head h hy hn

/-- The tasks of an initialiser or a step follow a graph that has its links. -/
theorem followsAll_side (h : edges.Agree (e.sideLinks n t.next) n (n + e.sideCount)) :
    FollowsAll gotos edges (e.side n) t := by
  unfold sideLinks sideCount at h
  unfold side
  split at h
  · next he =>
    rw [if_pos he]
    trivial
  · next he =>
    rw [if_neg he]
    exact followsAll_head h trivial trivial

/-- An initialiser or a step leaves the targets of jumps as they are. -/
theorem targets_side :
    targets gotos (e.side n) t = { t with next := first e.sideCount n t.next } := by
  unfold side sideCount
  split
  · rfl
  · have hn : first e.headCount n t.next = (· = .site n) := by
      funext v
      exact propext (first_of_pos e.headCount_pos)
    rw [hn]
    rfl

/-- The condition of a loop is entered at its first site. -/
theorem next_guard {v : Vertex} : (targets gotos (e.guard n yes no) t).next v ↔ v = .site n := by
  unfold guard
  split <;> exact Iff.rfl

end Expr

namespace Shape

variable {e : Shape} {n : Nat} {opened : Bool} {yes no : List Task}

/-- The tasks of an expression follow the graph if the expression does. -/
theorem followsAll_tasks
    (h : edges.Agree (e.links n opened (targets gotos yes t).next (targets gotos no t).next) n
      (n + e.count opened))
    (hy : FollowsAll gotos edges yes t) (hn : FollowsAll gotos edges no t) :
    FollowsAll gotos edges (e.tasks n opened yes no) t := by
  cases e with
  | node parts =>
    rw [links, count] at h
    rw [tasks]
    split at h
    · next ho =>
      rw [if_pos ho]
      exact ⟨h, ⟨hy, hn⟩, trivial⟩
    · next ho =>
      rw [if_neg ho]
      obtain ⟨ha, hb⟩ :=
        h.or linksAll_within Links.Within.siteLinks (by omega) (by omega) (by omega)
      exact ⟨ha, hb, ⟨hy, hn⟩, trivial⟩
  | fork c l r =>
    rw [links_fork, count_fork] at h
    obtain ⟨hl, hr⟩ := h.or (operandLinks_within fun _ => links_within)
      (operandLinks_within fun _ => links_within) (by omega) (by omega) (by omega)
    cases c with
    | and => exact ⟨⟨hl, ⟨⟨hr, hy, hn⟩, trivial⟩, hn⟩, trivial⟩
    | or => exact ⟨⟨hl, hy, ⟨⟨hr, hy, hn⟩, trivial⟩⟩, trivial⟩

/-- What the tasks of an expression visit first. -/
theorem next_tasks {v : Vertex} : (targets gotos (e.tasks n opened yes no) t).next v ↔
    first (e.count opened) n (fun v => (targets gotos yes t).next v ∨ (targets gotos no t).next v)
      v := by
  cases e with
  | node parts =>
    rw [tasks, count]
    split
    · exact Iff.rfl
    · exact first_site.trans (first_of_pos (Nat.succ_pos _)).symm
  | fork c l r =>
    have hpos : 0 < l.operandCount + r.operandCount := Nat.add_pos_left (operandCount_pos l) _
    rw [count_fork, first_of_pos hpos]
    cases c <;> exact Iff.rfl

end Shape

/-! ## Statements -/

namespace Stmt

variable {s : Stmt} {n : Nat}

/-- What is visited next before another round of a loop. -/
theorem targets_round (hc : 0 < s.roundCount) :
    targets gotos [.round s n] t = { t with next := (· = .site n) } := by
  have hn : first s.roundCount n t.next = (· = .site n) := by
    funext v
    exact propext (first_of_pos hc)
  rw [← hn]
  rfl

/-- What is visited next before a loop. -/
theorem targets_loop (hc : 0 < s.roundCount) :
    targets gotos [.loop s n] t = { t with next := (· = .site n) } := by
  rw [← targets_round (n := n) hc]
  rfl

/-- The targets behind the body of a loop. -/
theorem targets_again {step : Expr} {k : Nat} (hc : 0 < s.roundCount) :
    targets gotos (.continueTarget :: (step.side k ++ [.round s n])) t
      = t.round (first step.sideCount k (· = .site n)) := by
  rw [targets, targets_append, targets_round hc, Expr.targets_side]
  rfl

/-- The tasks of a loop behind its header follow the graph if the loop does. -/
theorem Follows.again (header : (yes no : Vertex → Prop) → Links) (step : Expr) {width : Nat}
    {body : Stmt} (hw : ∀ yes no, (header yes no).Within n (n + width)) (hpos : 0 < width)
    (hc : s.roundCount = width + body.count + step.sideCount)
    (hl : s.roundLinks gotos n t
      = preTestedLinks header width step body.count n t (body.links gotos))
    (h : (Task.round s n).Follows gotos edges t) :
    let again : List Task := .stmt body (n + width) :: .continueTarget
      :: (step.side (n + width + body.count) ++ [.round s n])
    edges.Agree (header (targets gotos again t).next t.next) n (n + width)
      ∧ FollowsAll gotos edges again t := by
  have hpos : 0 < s.roundCount := by omega
  have h' := h
  rw [Task.Follows, hl, hc] at h'
  obtain ⟨hh, h'⟩ := h'.or (hw _ _)
    (links_within.or Expr.sideLinks_within (by omega) (Nat.le_add_right _ _) (Nat.le_refl _))
    (by omega) (by omega) (by omega)
  obtain ⟨hb, hs⟩ := h'.or links_within Expr.sideLinks_within (by omega) (Nat.le_add_right _ _)
    (Nat.le_refl _)
  refine ⟨?_, ?_, trivial, ?_⟩
  · rw [targets, targets_again hpos]
    exact hh
  · rw [targets_again hpos]
    exact hb
  · rw [followsAll_append]
    refine ⟨Expr.followsAll_side ?_, h, trivial⟩
    rw [targets_round hpos]
    exact hs

/-- The targets before the test of a loop behind its body. -/
theorem targets_guard {cond : Expr} {k : Nat} : targets gotos (cond.guard k [.round s n] []) t
    = { t with next := (· = .site k) } := by
  unfold Expr.guard
  split <;> rfl

/-- The tasks of the rounds of a loop follow the graph if the rounds do. -/
theorem followsAll_round (h : (Task.round s n).Follows gotos edges t) :
    FollowsAll gotos edges (s.round n) t := by
  cases s with
  | whileLoop p cond body =>
    obtain ⟨hh, ha⟩ :=
      Follows.again (cond.guardLinks n) .absent (fun _ _ => Expr.guardLinks_within)
      cond.headCount_pos rfl rfl h
    exact Expr.followsAll_guard hh ha trivial
  | forLoop p before init cond step body =>
    obtain ⟨hh, ha⟩ := Follows.again (cond.guardLinks n) step (fun _ _ => Expr.guardLinks_within)
      cond.headCount_pos rfl rfl h
    exact Expr.followsAll_guard hh ha trivial
  | foreach p var iterable body =>
    obtain ⟨hh, ha⟩ := Follows.again (iterable.eitherLinks n) .absent
      (fun _ _ => Expr.headLinks_within) iterable.headCount_pos rfl rfl h
    exact followsAll_append.2 ⟨Expr.followsAll_head hh trivial trivial, ⟨ha, trivial⟩, trivial⟩
  | doWhile p body cond =>
    have hpos : 0 < (Stmt.doWhile p body cond).roundCount := Nat.add_pos_right _ cond.headCount_pos
    have ht : targets gotos (.continueTarget :: cond.guard (n + body.count)
        [.round (.doWhile p body cond) n] []) t = t.round (· = .site (n + body.count)) := by
      rw [targets, targets_guard]
      rfl
    obtain ⟨hb, hh⟩ :=
      h.or links_within Expr.guardLinks_within (by omega) (by rw [roundCount]; omega)
      (by rw [roundCount]; omega)
    refine ⟨?_, trivial, Expr.followsAll_guard ?_ ⟨h, trivial⟩ trivial⟩
    · rw [ht]
      exact hb
    · rw [targets_round hpos]
      exact hh
  | _ => trivial

/-- What the rounds of a loop visit first. -/
theorem next_round {v : Vertex} :
    (targets gotos (s.round n) t).next v ↔ first s.roundCount n t.next v := by
  cases s with
  | whileLoop p cond body =>
    rw [round, Expr.next_guard, roundCount, first_of_pos (Nat.add_pos_left cond.headCount_pos _)]
  | forLoop p before init cond step body =>
    have hpos : 0 < cond.headCount + body.count := Nat.add_pos_left cond.headCount_pos _
    rw [round, Expr.next_guard, roundCount, first_of_pos (Nat.add_pos_left hpos _)]
  | foreach p var iterable body =>
    rw [roundCount, first_of_pos (Nat.add_pos_left iterable.headCount_pos _)]
    exact Iff.rfl
  | doWhile p body cond =>
    rw [round, targets, targets, targets_guard, roundCount,
      first_of_pos (Nat.add_pos_right _ cond.headCount_pos)]
    exact first_site
  | _ => exact first_zero.symm

/-- What the tasks of a statement visit first. -/
theorem next_tasks {v : Vertex} :
    (targets gotos (s.tasks n) t).next v ↔ first s.count n t.next v := by
  cases s with
  | absent | stray | unlisted | misnamed =>
    rw [count]
    exact first_zero.symm
  | block | caseArm | whileLoop | doWhile | foreach =>
    rw [count]
    exact Iff.rfl
  | exprStmt | decl | ret =>
    rw [count, first_of_pos (Expr.headCount_pos _)]
    exact Iff.rfl
  | ifElse p cond thenArm elseArm =>
    have hpos : 0 < cond.headCount + thenArm.count := Nat.add_pos_left cond.headCount_pos _
    rw [count, first_of_pos (Nat.add_pos_left hpos _)]
    exact Iff.rfl
  | forLoop p before init cond step body =>
    have hpos : 0 < (Stmt.forLoop p before init cond step body).roundCount :=
      Nat.add_pos_left (Nat.add_pos_left cond.headCount_pos _) _
    have hn : first before.count n (first init.sideCount (n + before.count)
        (· = .site (n + before.count + init.sideCount))) v ↔ v = .site n := by
      simp only [first_add, Nat.add_assoc, first_site]
    rw [tasks, targets, targets_append, targets_loop hpos, Expr.targets_side, count]
    exact hn.trans (first_of_pos (Nat.add_pos_right _ hpos)).symm
  | switch p subject arms =>
    rw [count, first_of_pos (Nat.add_pos_left subject.headCount_pos _)]
    exact Iff.rfl
  | labeled p label body =>
    rw [count, first_of_pos (Nat.add_pos_left Nat.one_pos _)]
    exact Iff.rfl
  | goto | brk | cont =>
    rw [count, first_of_pos Nat.one_pos]
    exact Iff.rfl

/-- The tasks of a statement follow the graph if the statement does. -/
theorem followsAll_tasks (h : (Task.stmt s n).Follows gotos edges t) :
    FollowsAll gotos edges (s.tasks n) t := by
  rw [Task.Follows] at h
  cases s with
  | absent | stray | unlisted | misnamed => trivial
  | block | caseArm | whileLoop | doWhile | foreach =>
    rw [links, count] at h
    exact ⟨h, trivial⟩
  | exprStmt | decl =>
    rw [links, count] at h
    exact Expr.followsAll_head h trivial trivial
  | ifElse p cond thenArm elseArm =>
    rw [links, count] at h
    obtain ⟨hh, h⟩ := h.or Expr.headLinks_within
      (links_within.or links_within (by omega) (Nat.le_add_right _ _) (Nat.le_refl _))
      (by omega) (by omega) (by omega)
    obtain ⟨hy, hn⟩ :=
      h.or links_within links_within (by omega) (Nat.le_add_right _ _) (Nat.le_refl _)
    exact Expr.followsAll_head hh ⟨hy, trivial⟩ ⟨hn, trivial⟩
  | forLoop p before init cond step body =>
    rw [links, count] at h
    have hpos : 0 < (Stmt.forLoop p before init cond step body).roundCount := by
      have := cond.headCount_pos
      rw [roundCount]
      omega
    have hw : ∀ m t, (body.links gotos m t).Within m (m + body.count) := fun _ _ => links_within
    obtain ⟨hb, h⟩ := h.or links_within
      (Expr.sideLinks_within.or (preTestedLinks_within hw fun _ _ => Expr.guardLinks_within)
        (by omega) (Nat.le_add_right _ _) (Nat.le_refl _))
      (by omega) (by omega) (by omega)
    obtain ⟨hi, hl⟩ := h.or Expr.sideLinks_within
      (preTestedLinks_within hw fun _ _ => Expr.guardLinks_within)
        (by omega) (Nat.le_add_right _ _)
      (Nat.le_refl _)
    refine ⟨?_, followsAll_append.2 ⟨Expr.followsAll_side ?_, hl, trivial⟩⟩
    · rw [targets_append, targets_loop hpos, Expr.targets_side]
      exact hb
    · rw [targets_loop hpos]
      exact hi
  | switch p subject arms =>
    rw [links, count] at h
    obtain ⟨hh, ha⟩ := h.or Expr.headLinks_within linksAll_within (by omega) (by omega) (by omega)
    exact followsAll_append.2 ⟨Expr.followsAll_head hh trivial trivial, ha, trivial, trivial⟩
  | labeled p label body =>
    rw [links, count] at h
    obtain ⟨hv, hb⟩ := h.or Links.Within.siteLinks links_within (by omega) (by omega) (by omega)
    exact ⟨hv, hb, trivial⟩
  | ret p value =>
    rw [links, count] at h
    exact followsAll_append.2 ⟨Expr.followsAll_head h trivial trivial, trivial, trivial⟩
  | goto | brk | cont =>
    rw [links, count] at h
    exact ⟨h, trivial, trivial⟩

end Stmt

/-! ## Tasks -/

namespace Task

variable {task : Task} {way : List Task}

/-- Whichever way a task unfolds, the graph is followed. -/
theorem Follows.ways (h : task.Follows gotos edges t) (hw : way ∈ task.ways) :
    FollowsAll gotos edges way t := by
  cases Task.mem_ways.1 hw with
  | eval => exact Shape.followsAll_tasks h.1 h.2.1 h.2.2
  | fork he =>
    obtain ⟨h, hy, hn⟩ := h
    rw [Shape.operandLinks, Shape.operandCount, if_pos he, if_pos he, Nat.zero_add] at h
    exact ⟨⟨h, hy, hn⟩, trivial⟩
  | leaf he =>
    obtain ⟨h, hy, hn⟩ := h
    rw [Shape.operandLinks, Shape.operandCount, if_neg he, if_neg he] at h
    obtain ⟨hv, he⟩ :=
      h.or Links.Within.siteLinks Shape.links_within (by omega) (by omega) (by omega)
    exact ⟨hv, ⟨he, hy, hn⟩, trivial⟩
  | exprs =>
    rw [Follows, Shape.linksAll, Shape.countAll] at h
    obtain ⟨he, hr⟩ :=
      h.or Shape.links_within Shape.linksAll_within (by omega) (by omega) (by omega)
    exact ⟨⟨he, trivial, trivial⟩, hr, trivial⟩
  | yes => exact h.1
  | no => exact h.2
  | stmt => exact Stmt.followsAll_tasks h
  | stmts =>
    rw [Follows, Stmt.linksAll, Stmt.countAll] at h
    obtain ⟨hs, hr⟩ := h.or Stmt.links_within Stmt.linksAll_within (by omega) (by omega) (by omega)
    exact ⟨hs, hr, trivial⟩
  | take => exact ⟨h, trivial⟩
  | skip =>
    rw [Follows, Stmt.linksAll, Stmt.countAll] at h
    obtain ⟨-, hr⟩ := h.or Stmt.links_within Stmt.linksAll_within (by omega) (by omega) (by omega)
    exact ⟨hr, trivial⟩
  | loop => exact ⟨h, trivial, trivial⟩
  | round => exact Stmt.followsAll_round h
  | noExprs | noStmts | noCase | breakTarget | continueTarget => trivial

/-- Whatever is next if a task unfolds some way was next before. -/
theorem first_of_ways {v : Vertex} (hw : way ∈ task.ways)
    (hv : (LastUse.targets gotos way t).next v) : task.first gotos t v := by
  cases Task.mem_ways.1 hw with
  | eval => exact Shape.next_tasks.1 hv
  | @fork e n yes no he =>
    have hpos : 0 < e.count true := Shape.operandCount_of_isFork he ▸ e.operandCount_pos
    have hv : LastUse.first (e.count true) n (fun v => (LastUse.targets gotos yes t).next v
      ∨ (LastUse.targets gotos no t).next v) v := hv
    exact (first_of_pos hpos).1 hv
  | exprs =>
    rw [first, Shape.countAll, ← first_add]
    simpa [LastUse.targets, Task.targets, first] using hv
  | yes => exact .inl hv
  | no => exact .inr hv
  | stmt => exact Stmt.next_tasks.1 hv
  | stmts =>
    rw [first, Stmt.countAll, ← first_add]
    exact hv
  | noCase => exact ⟨rfl, hv⟩
  | take => exact .inl hv
  | skip => exact .inr hv
  | round => exact Stmt.next_round.1 hv
  | leaf | noExprs | noStmts | loop | breakTarget | continueTarget => exact hv

end Task

end LastUse
