import LastUse.Proofs.Flow.Stmt
import LastUse.Proofs.Run.Machine

/-!
# The machine does not get stuck

In a statement that has a flow every jump has a target (`Stmt.Bound`): a `break` stands in a loop
or a switch, a `continue` in a loop, and the label of a `goto` is known. Tasks of such statements
have their targets on the stack (`StackBound`). A step keeps them there (`Step.bound`), and there
is a step until the stack is empty (`exists_step_of_bound`).
-/

namespace LastUse

/-! ## Targets of jumps -/

namespace Stmt

variable (known : String → Prop)

mutual

/-- Every jump in a statement has a target. The flags tell whether a `break` and a `continue` have
one where the statement stands. -/
def Bound : Stmt → (breaks continues : Bool) → Prop
  | .absent, _, _ | .stray _, _, _ | .unlisted, _, _ | .misnamed _, _, _ | .exprStmt _ _, _, _
  | .decl _ _ _, _, _ | .ret _ _, _, _ => True
  | .block _ body, b, c | .caseArm _ _ body, b, c => BoundAll body b c
  | .ifElse _ _ thenArm elseArm, b, c => thenArm.Bound b c ∧ elseArm.Bound b c
  | .whileLoop _ _ body, _, _ | .foreach _ _ _ body, _, _ | .doWhile _ body _, _, _ =>
    body.Bound true true
  | .forLoop _ before _ _ _ body, b, c => before.Bound b c ∧ body.Bound true true
  | .switch _ _ arms, _, c => BoundAll arms true c
  | .labeled _ _ body, b, c => body.Bound b c
  | .goto _ label, _, _ => known label
  | .brk _, b, _ => b = true
  | .cont _, _, c => c = true

/-- Every jump in several statements has a target. -/
def BoundAll : List Stmt → (breaks continues : Bool) → Prop
  | [], _, _ => True
  | s :: rest, b, c => s.Bound b c ∧ BoundAll rest b c

end

/-- Every jump in the rounds of a loop has a target. -/
def RoundBound : Stmt → Prop
  | .whileLoop _ _ body | .foreach _ _ _ body | .doWhile _ body _ | .forLoop _ _ _ _ _ body =>
    body.Bound known true true
  | _ => True

variable {known}

/-- The jumps in a loop are those in its parts, in order. -/
theorem gotos_closeLoop {p : Path} {n : Nat} {head : Head} {body behind : Passage} :
    (closeLoop p n head body behind).draft.gotos
      = head.draft.gotos ++ body.draft.gotos ++ behind.draft.gotos := by
  simp [closeLoop, Draft.asLoop, Draft.withoutBreaks, Draft.withoutContinues, Draft.ofEdges]

/-- In statements that have a flow every jump has a target, if the labels of the jumps are
known. -/
theorem bound : FlowInvariant
    (fun sc s _ _ r => (∀ g ∈ r.draft.gotos, known g.2) → s.Bound known sc.breakable sc.inLoop)
    (fun sc ss _ _ r => (∀ g ∈ r.draft.gotos, known g.2) →
      BoundAll known ss sc.breakable sc.inLoop)
    (fun sc arms _ _ _ r => (∀ g ∈ r.draft.gotos, known g.2) →
      BoundAll known arms sc.breakable sc.inLoop) where
  absent _ := trivial
  block h := h
  exprStmt _ _ := trivial
  decl _ _ := trivial
  ifElse _ hy hn hg := by
    refine ⟨hy fun g h => hg g ?_, hn fun g h => hg g ?_⟩ <;> simp [Draft.asBranch, h]
  whileLoop _ hb hg := hb fun g h => hg g (by simp [gotos_closeLoop, h])
  forLoop hf _ _ _ hb _ hg := by
    refine ⟨hf fun g h => hg g ?_, hb fun g h => hg g ?_⟩ <;> simp [gotos_closeLoop, h]
  foreach _ hb hg := hb fun g h => hg g (by simp [gotos_closeLoop, h])
  doWhile hb _ hg := hb fun g h => hg g (by
    simp [closeDoWhile, Draft.asLoop, Draft.withoutBreaks, Draft.withoutContinues, h])
  switch _ ha hg := ha fun g h => hg g (by
    simp [closeSwitch, Draft.asBranch, Draft.withoutBreaks, h])
  labeled _ hb hg := hb fun g h => hg g (by simp [h])
  goto hg := hg _ (List.mem_singleton.2 rfl)
  ret _ _ _ := trivial
  brk hb _ := hb
  cont hc _ := hc
  nil _ := trivial
  cons hf hl hg := ⟨hf fun g h => hg g (by simp [h]), hl fun g h => hg g (by simp [h])⟩
  noArms _ := trivial
  arm hf hl hg := by
    refine ⟨hf fun g h => hg g ?_, hl fun g h => hg g ?_⟩ <;> simp [Arms.cons, h]

end Stmt

/-! ## Stacks -/

variable (known : String → Prop)

mutual

/-- Every jump of a task has a target. The flags tell whether a `break` and a `continue` have one
on the stack behind the task. -/
def Task.Bound : Task → (breaks continues : Bool) → Prop
  | .eval _ _ _ yes no, b, c | .operand _ _ yes no, b, c | .either yes no, b, c =>
    StackBound yes b c ∧ StackBound no b c
  | .stmt s _, b, c => s.Bound known b c
  | .stmts ss _, b, c => Stmt.BoundAll known ss b c
  | .select arms _ skips, b, c => (arms = [] → skips = true) ∧ Stmt.BoundAll known arms b c
  | .loop s _, _, _ => s.RoundBound known
  | .round s _, b, _ => b = true ∧ s.RoundBound known
  | .brk, b, _ => b = true
  | .cont, _, c => c = true
  | .goto label, _, _ => known label
  | .visit _, _, _ | .evalAll _ _ _, _, _ | .breakTarget, _, _ | .continueTarget, _, _
  | .leave, _, _ => True

/-- Every jump of a stack has a target, on the stack itself or as the flags tell. -/
def StackBound : List Task → (breaks continues : Bool) → Prop
  | [], _, _ => True
  | task :: rest, b, c =>
    task.Bound (rest.any Task.isBreakTarget || b) (rest.any Task.isContinueTarget || c)
      ∧ StackBound rest b c

end

variable {known} {inner behind : List Task} {b c : Bool} {n : Nat}

/-- The jumps of a stack have targets if those behind have and those before have them there or
behind. -/
theorem stackBound_append : StackBound known (inner ++ behind) b c ↔
    StackBound known inner (behind.any Task.isBreakTarget || b)
      (behind.any Task.isContinueTarget || c) ∧ StackBound known behind b c := by
  induction inner with
  | nil => simp [StackBound]
  | cons task rest ih => simp [StackBound, ih, Bool.or_assoc, and_assoc]

/-- The body of a loop, and what follows it. -/
theorem stackBound_body {body : Stmt} (hb : body.Bound known true true)
    (h : StackBound known behind true c) :
    StackBound known (.stmt body n :: .continueTarget :: behind) true c := by
  refine ⟨?_, trivial, h⟩
  simp only [List.any_cons, Task.isContinueTarget, Bool.true_or, Bool.or_true]
  exact hb

/-- A part of the body of a loop, and what follows it up to the end of the loop. -/
theorem stackBound_behind (hi : StackBound known inner true true)
    (h : StackBound known behind true c) :
    StackBound known (inner ++ .continueTarget :: behind ++ [.breakTarget]) b c := by
  refine stackBound_append.2 ⟨stackBound_append.2 ⟨?_, trivial, h⟩, trivial, trivial⟩
  simp only [List.any_cons, Task.isBreakTarget, Task.isContinueTarget, Bool.true_or, Bool.or_true]
  exact hi

namespace Expr

variable {e : Expr} {yes no : List Task}

/-- The jumps of the tasks of an expression are those behind it. -/
theorem stackBound_head (hy : StackBound known yes b c) (hn : StackBound known no b c) :
    StackBound known (e.head n yes no) b c := ⟨trivial, ⟨hy, hn⟩, trivial⟩

/-- The jumps of the tasks of the condition of a loop are those behind it. -/
theorem stackBound_guard (hy : StackBound known yes b c) (hn : StackBound known no b c) :
    StackBound known (e.guard n yes no) b c := by
  unfold guard
  split
  · exact ⟨trivial, hy⟩
  · exact stackBound_head hy hn

/-- An initialiser or a step does not jump. -/
theorem stackBound_side : StackBound known (e.side n) b c := by
  unfold side
  split
  · trivial
  · exact stackBound_head trivial trivial

end Expr

/-- The jumps of the tasks of a shape are those behind it. -/
theorem Shape.stackBound_tasks {e : Shape} {opened : Bool} {yes no : List Task}
    (hy : StackBound known yes b c) (hn : StackBound known no b c) :
    StackBound known (e.tasks n opened yes no) b c := by
  cases e with
  | node parts =>
    rw [tasks]
    split
    · exact ⟨trivial, ⟨hy, hn⟩, trivial⟩
    · exact ⟨trivial, trivial, ⟨hy, hn⟩, trivial⟩
  | fork c l r =>
    cases c with
    | and => exact ⟨⟨⟨⟨hy, hn⟩, trivial⟩, hn⟩, trivial⟩
    | or => exact ⟨⟨hy, ⟨⟨hy, hn⟩, trivial⟩⟩, trivial⟩

namespace Stmt

variable {s : Stmt}

/-- What comes before a loop, its initialiser and the loop. -/
theorem stackBound_init {e : Expr} {m : Nat} (hi : StackBound known inner b c)
    (h : s.RoundBound known) : StackBound known (inner ++ (e.side m ++ [.loop s n])) b c := by
  refine stackBound_append.2 ⟨?_, stackBound_append.2 ⟨Expr.stackBound_side, h, trivial⟩⟩
  unfold Expr.side
  split <;> exact hi

/-- The jumps of a round have targets if those of the loop have. -/
theorem stackBound_round (h : s.RoundBound known) : StackBound known (s.round n) true c := by
  have hr : StackBound known [.round s n] true c := ⟨⟨rfl, h⟩, trivial⟩
  cases s with
  | whileLoop p cond body => exact Expr.stackBound_guard (stackBound_body h hr) trivial
  | doWhile p body cond => exact stackBound_body h (Expr.stackBound_guard hr trivial)
  | forLoop p before init cond step body =>
    refine Expr.stackBound_guard (stackBound_body h ?_) trivial
    exact stackBound_append.2 ⟨Expr.stackBound_side, hr⟩
  | foreach p var iterable body =>
    refine stackBound_append.2 ⟨Expr.stackBound_head trivial trivial, ?_⟩
    exact ⟨⟨stackBound_body h hr, trivial⟩, trivial⟩
  | _ => trivial

/-- The jumps of the tasks of a statement have targets if those of the statement have. -/
theorem stackBound_tasks (h : s.Bound known b c) : StackBound known (s.tasks n) b c := by
  cases s with
  | absent | stray | unlisted | misnamed => trivial
  | exprStmt | decl => exact Expr.stackBound_head trivial trivial
  | block | caseArm | whileLoop | doWhile | foreach => exact ⟨h, trivial⟩
  | ifElse p cond thenArm elseArm =>
    exact Expr.stackBound_head ⟨h.1, trivial⟩ ⟨h.2, trivial⟩
  | forLoop p before init cond step body =>
    have hb : StackBound known [.stmt before n] b c := ⟨h.1, trivial⟩
    exact stackBound_init hb h.2
  | switch p subject arms =>
    refine stackBound_append.2 ⟨Expr.stackBound_head trivial trivial, ⟨?_, h⟩, trivial, trivial⟩
    rintro rfl
    rfl
  | labeled => exact ⟨trivial, h, trivial⟩
  | ret => exact stackBound_append.2 ⟨Expr.stackBound_head trivial trivial, trivial, trivial⟩
  | goto | brk | cont => exact ⟨trivial, h, trivial⟩

variable {l : String}

mutual

/-- Every jump behind a label has a target. -/
theorem stackBound_entry : ∀ {s : Stmt} {n : Nat} {b c : Bool} {way : List Task},
    s.entry l n = some way → s.Bound known b c → StackBound known way b c
  | .absent, _, _, _, _, h, _ | .stray _, _, _, _, _, h, _ | .unlisted, _, _, _, _, h, _
  | .misnamed _, _, _, _, _, h, _ | .exprStmt _ _, _, _, _, _, h, _
  | .decl _ _ _, _, _, _, _, h, _ | .goto _ _, _, _, _, _, h, _ | .ret _ _, _, _, _, _, h, _
  | .brk _, _, _, _, _, h, _ | .cont _, _, _, _, _, h, _ => by
    rw [entry] at h
    cases h
  | .block _ body, _, _, _, _, h, hb | .caseArm _ _ body, _, _, _, _, h, hb => by
    rw [entry] at h
    exact stackBound_entryAll h hb
  | .ifElse _ cond thenArm elseArm, _, _, _, _, h, hb => by
    rw [entry, Option.or_eq_some_iff] at h
    rcases h with h | ⟨-, h⟩
    · exact stackBound_entry h hb.1
    · exact stackBound_entry h hb.2
  | .whileLoop p cond body, _, _, _, _, h, hb | .foreach p var cond body, _, _, _, _, h, hb => by
    rw [entry, Option.map_eq_some_iff] at h
    obtain ⟨inner, h, rfl⟩ := h
    exact stackBound_behind (stackBound_entry h hb) ⟨⟨rfl, hb⟩, trivial⟩
  | .doWhile p body cond, _, _, _, _, h, hb => by
    rw [entry, Option.map_eq_some_iff] at h
    obtain ⟨inner, h, rfl⟩ := h
    refine stackBound_behind (stackBound_entry h hb) (Expr.stackBound_guard ?_ trivial)
    exact ⟨⟨rfl, hb⟩, trivial⟩
  | .forLoop p before init cond step body, _, _, _, _, h, hb => by
    rw [entry, Option.or_eq_some_iff] at h
    rcases h with h | ⟨-, h⟩
    · obtain ⟨inner, hi, rfl⟩ := Option.map_eq_some_iff.1 h
      exact stackBound_init (stackBound_entry hi hb.1) hb.2
    · obtain ⟨inner, hi, rfl⟩ := Option.map_eq_some_iff.1 h
      refine stackBound_behind (stackBound_entry hi hb.2) ?_
      exact stackBound_append.2 ⟨Expr.stackBound_side, ⟨rfl, hb.2⟩, trivial⟩
  | .switch _ _ arms, _, _, _, _, h, hb => by
    rw [entry, Option.map_eq_some_iff] at h
    obtain ⟨inner, h, rfl⟩ := h
    exact stackBound_append.2 ⟨stackBound_entryAll h hb, trivial, trivial⟩
  | .labeled _ label body, _, _, _, _, h, hb => by
    rw [entry] at h
    split at h
    · cases h
      exact ⟨trivial, hb, trivial⟩
    · exact stackBound_entry h hb

/-- Every jump behind a label in several statements has a target. -/
theorem stackBound_entryAll : ∀ {ss : List Stmt} {n : Nat} {b c : Bool} {way : List Task},
    entryAll l ss n = some way → BoundAll known ss b c → StackBound known way b c
  | [], _, _, _, _, h, _ => by
    rw [entryAll] at h
    cases h
  | s :: rest, _, _, _, _, h, hb => by
    rw [entryAll, Option.or_eq_some_iff] at h
    rcases h with h | ⟨-, h⟩
    · obtain ⟨inner, hi, rfl⟩ := Option.map_eq_some_iff.1 h
      exact stackBound_append.2 ⟨stackBound_entry hi hb.1, hb.2, trivial⟩
    · exact stackBound_entryAll h hb.2

end

end Stmt

/-! ## Steps -/

variable {task : Task} {way tasks after rest : List Task}

/-- Whichever way a task unfolds, every jump still has a target. -/
theorem Task.Bound.ways (h : task.Bound known b c) (hw : way ∈ task.ways) :
    StackBound known way b c := by
  cases Task.mem_ways.1 hw with
  | eval => exact Shape.stackBound_tasks h.1 h.2
  | fork => exact ⟨h, trivial⟩
  | leaf => exact ⟨trivial, h, trivial⟩
  | exprs => exact ⟨⟨trivial, trivial⟩, trivial, trivial⟩
  | yes => exact h.1
  | no => exact h.2
  | stmt => exact Stmt.stackBound_tasks h
  | stmts => exact ⟨h.1, h.2, trivial⟩
  | take => exact ⟨h.2, trivial⟩
  | skip hs => exact ⟨⟨hs, h.2.2⟩, trivial⟩
  | loop => exact ⟨⟨rfl, h⟩, trivial, trivial⟩
  | round =>
    obtain ⟨rfl, h⟩ := h
    exact Stmt.stackBound_round h
  | noExprs | noStmts | noCase | breakTarget | continueTarget => trivial

/-- What is left of a stack keeps the targets of its jumps. -/
theorem stackBound_skipPast {target : Task → Bool} (h : skipPast target rest = some after)
    (hb : StackBound known rest b c) : StackBound known after b c := by
  obtain ⟨before, task, rfl, -⟩ := exists_of_skipPast h
  exact (stackBound_append.1 hb).2.2

/-- A jump whose target is on the stack can be made. -/
theorem exists_skipPast {target : Task → Bool} (h : rest.any target = true) :
    ∃ after, skipPast target rest = some after := by
  induction rest with
  | nil => cases h
  | cons task rest ih =>
    rw [skipPast]
    split
    · exact ⟨rest, rfl⟩
    · next ht => exact ih (by simpa [ht] using h)

variable {body : Stmt} {o : Option Vertex}

/-- After a step every jump still has a target. -/
theorem Step.bound (h : body.Bound known false false) (hb : StackBound known tasks false false)
    (hs : Step body tasks o after) : StackBound known after false false := by
  cases hs with
  | visit => exact hb.2
  | leave => trivial
  | unfold hw => exact stackBound_append.2 ⟨hb.1.ways hw, hb.2⟩
  | brk ha => exact stackBound_skipPast ha hb.2
  | cont ha => exact stackBound_skipPast ha hb.2
  | goto hw => exact stackBound_append.2 ⟨Stmt.stackBound_entry hw h, trivial, trivial⟩

/-- Along a run every jump has a target. -/
theorem Runs.bound {vs : List Vertex} (h : body.Bound known false false)
    (hb : StackBound known tasks false false) (hr : Runs body tasks vs after) :
    StackBound known after false false := by
  induction hr with
  | refl => exact hb
  | step hs _ ih => exact ih (hs.bound h hb)

/-- A task that unfolds has a step. -/
theorem exists_step_of_ways (h : task.ways ≠ []) :
    ∃ o after, Step body (task :: rest) o after := by
  obtain ⟨way, hw⟩ := List.exists_mem_of_ne_nil _ h
  exact ⟨none, way ++ rest, .unfold hw⟩

/-- If every jump has a target, then the machine can make a step. -/
theorem exists_step_of_bound (hk : ∀ label, known label → ∃ way, body.entry label 0 = some way)
    (hb : StackBound known (task :: rest) false false) :
    ∃ o after, Step body (task :: rest) o after := by
  obtain ⟨hb, -⟩ := hb
  rw [Bool.or_false, Bool.or_false] at hb
  cases task with
  | visit => exact ⟨_, _, .visit⟩
  | leave => exact ⟨_, _, .leave⟩
  | brk =>
    obtain ⟨after, ha⟩ := exists_skipPast hb
    exact ⟨none, after, .brk ha⟩
  | cont =>
    obtain ⟨after, ha⟩ := exists_skipPast hb
    exact ⟨none, after, .cont ha⟩
  | goto label =>
    obtain ⟨way, hw⟩ := hk label hb
    exact ⟨none, way ++ [.leave], .goto hw⟩
  | operand e =>
    refine exists_step_of_ways ?_
    rw [Task.ways]
    split <;> exact List.cons_ne_nil _ _
  | evalAll es | stmts es => cases es <;> exact exists_step_of_ways (List.cons_ne_nil _ _)
  | select arms =>
    cases arms with
    | nil =>
      cases hb.1 rfl
      exact exists_step_of_ways (List.cons_ne_nil _ _)
    | cons => exact exists_step_of_ways (List.cons_ne_nil _ _)
  | eval | either | stmt | loop | round | breakTarget | continueTarget =>
    exact exists_step_of_ways (List.cons_ne_nil _ _)

end LastUse
