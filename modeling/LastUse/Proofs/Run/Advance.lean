import Mathlib.Logic.Relation
import LastUse.Proofs.Run.Entry

/-!
# The machine gets on

What a stack has as its next vertices the machine can visit (`Live`). A task that has sites
unfolds, without a visit, until the first of them is on top of the stack, and a task that has none
unfolds until it is gone (`Advances`). No round of a loop can go on forever without a visit, since
the header of a loop has a site.
-/

namespace LastUse

open Relation (ReflTransGen)

variable (body : Stmt)

/-- The machine goes from one stack to another without a visit. -/
def Silent : List Task → List Task → Prop := ReflTransGen fun a b => Step body a none b

/-- The machine can visit a vertex next. -/
def Reaches (tasks : List Task) (v : Vertex) : Prop :=
  ∃ before after, Silent body tasks before ∧ Step body before (some v) after

/-- Without a visit, the machine comes to the first of some sites, or to the tasks behind them if
there are none. -/
def Advances (tasks : List Task) (count n : Nat) (behind : List Task) : Prop :=
  ∃ next, Silent body tasks next ∧ if count = 0 then next = behind
    else ∃ rest, next = .visit n :: rest

variable {body} {tasks between behind rest : List Task} {k m n : Nat}

/-- A task unfolds without a visit. -/
theorem Silent.unfold {task : Task} {way : List Task} (h : way ∈ task.ways) :
    Silent body (task :: rest) (way ++ rest) := .single (.unfold h)

/-- A task with only one way to unfold. -/
theorem Silent.only {task : Task} {way : List Task} (h : task.ways = [way]) :
    Silent body (task :: rest) (way ++ rest) := .unfold (by rw [h]; exact List.mem_singleton.2 rfl)

/-- What can be visited behind a way without a visit can be visited before it. -/
theorem Silent.reaches {v : Vertex} (h : Silent body tasks between) (hr : Reaches body between v) :
    Reaches body tasks v := by
  obtain ⟨before, after, hs, hv⟩ := hr
  exact ⟨before, after, h.trans hs, hv⟩

namespace Advances

/-- Where there are no sites the machine is at what is behind them. -/
theorem refl : Advances body tasks 0 n tasks := ⟨tasks, .refl, by simp⟩

/-- A visit that is on top of the stack is the first one. -/
theorem visit (hk : 0 < k) : Advances body (.visit n :: rest) k n behind :=
  ⟨_, .refl, by rw [if_neg (Nat.ne_of_gt hk)]; exact ⟨rest, rfl⟩⟩

/-- The machine may first go on without a visit. -/
theorem of_silent (hs : Silent body tasks between) (h : Advances body between k n behind) :
    Advances body tasks k n behind := by
  obtain ⟨next, hn, hc⟩ := h
  exact ⟨next, hs.trans hn, hc⟩

/-- From sites on to further sites. -/
theorem trans (h : Advances body tasks k n between) (h' : Advances body between m (n + k) behind) :
    Advances body tasks (k + m) n behind := by
  obtain ⟨next, hn, hc⟩ := h
  by_cases hk : k = 0
  · subst hk
    rw [if_pos rfl] at hc
    subst hc
    rw [Nat.zero_add]
    exact of_silent hn h'
  · rw [if_neg hk] at hc
    obtain ⟨rest, rfl⟩ := hc
    exact of_silent hn (visit (by omega))

/-- If there are no sites, then the machine may go on without a visit. -/
theorem then_silent (h : Advances body tasks k n between) (hs : Silent body between behind) :
    Advances body tasks k n behind := h.trans (of_silent hs refl)

/-- If there are sites, then it does not matter what is behind. -/
theorem of_pos (hk : 0 < k) (h : Advances body tasks k n between) (hm : 0 < m) :
    Advances body tasks m n behind := by
  obtain ⟨next, hn, hc⟩ := h
  rw [if_neg (Nat.ne_of_gt hk)] at hc
  obtain ⟨rest, rfl⟩ := hc
  exact of_silent hn (visit hm)

end Advances

namespace Shape

/-- An operand comes to its first site. -/
theorem advances_operand {e : Shape} {yes no : List Task} (hm : 0 < m)
    (h : Advances body (.eval e n true yes no :: rest) (e.count true) n (.either yes no :: rest)) :
    Advances body (.operand e n yes no :: rest) m n behind := by
  cases he : e.isFork with
  | true =>
    have hpos : 0 < e.count true := operandCount_of_isFork he ▸ e.operandCount_pos
    exact .of_silent (.unfold (Task.mem_ways.2 (.fork he))) (.of_pos hpos h hm)
  | false => exact .of_silent (.unfold (Task.mem_ways.2 (.leaf (by simp [he])))) (.visit hm)

mutual

/-- An expression comes to its first site, or to the choice between its two ways. -/
theorem advances : ∀ {e : Shape} {n : Nat} {opened : Bool} {yes no rest : List Task},
    Advances body (.eval e n opened yes no :: rest) (e.count opened) n (.either yes no :: rest)
  | .node parts, n, opened, yes, no, rest => by
    refine .of_silent (.only rfl) ?_
    rw [tasks, count]
    split
    · exact advancesAll
    · exact advancesAll.trans (.visit Nat.one_pos)
  | .fork c l r, n, opened, yes, no, rest => by
    have hpos : 0 < l.operandCount + r.operandCount := Nat.add_pos_left (operandCount_pos l) _
    rw [count_fork]
    refine .of_silent (.only rfl) ?_
    cases c with
    | and => exact advances_operand hpos advances
    | or => exact advances_operand hpos advances

/-- Several expressions come to their first site, or are passed. -/
theorem advancesAll : ∀ {es : List Shape} {n : Nat} {opened : Bool} {rest : List Task},
    Advances body (.evalAll es n opened :: rest) (countAll es opened) n rest
  | [], n, opened, rest => by
    rw [countAll]
    exact .of_silent (.only rfl) .refl
  | e :: es, n, opened, rest => by
    rw [countAll]
    have hs : ∀ tail, Silent body (.either [] [] :: tail) ([] ++ tail) := fun _ =>
      .unfold List.mem_cons_self
    exact .of_silent (.only rfl) ((advances.then_silent (hs _)).trans advancesAll)

end

end Shape

namespace Stmt

/-- The condition of a loop begins at its first site. -/
theorem advances_guard {cond : Expr} {yes no : List Task} (hk : 0 < k) :
    Advances body (cond.guard n yes no ++ rest) k n behind := by
  unfold Expr.guard
  split <;> exact .visit hk

/-- An initialiser or a step begins at its first site, or is gone. -/
theorem advances_side {e : Expr} : Advances body (e.side n ++ rest) e.sideCount n rest := by
  unfold Expr.side Expr.sideCount
  split
  · exact .refl
  · exact .visit e.headCount_pos

/-- A loop begins where its round does. -/
theorem advances_loop {s : Stmt} (h : ∀ rest, Advances body (s.round n ++ rest) k n behind) :
    Advances body (.loop s n :: rest) k n behind :=
  .of_silent (.only rfl) (.of_silent (.only rfl) (h _))

/-- The rounds of a loop that is tested behind its body come to the first site of the body or, if
it has none, to the test. -/
theorem advances_postTested {p : Path} {s : Stmt} {cond : Expr}
    (hs : ∀ rest, Advances body (.stmt s n :: rest) s.count n rest) (rest : List Task) :
    Advances body ((Stmt.doWhile p s cond).round n ++ rest) (s.count + cond.headCount)
      n behind := by
  have hc (tail) : Silent body (.continueTarget :: tail) ([] ++ tail) := .only rfl
  exact ((hs _).then_silent (hc _)).trans (advances_guard cond.headCount_pos)

mutual

/-- A statement comes to its first site, or is passed. -/
theorem advances : ∀ {s : Stmt} {n : Nat} {rest : List Task},
    Advances body (.stmt s n :: rest) s.count n rest
  | .absent, _, _ | .stray _, _, _ | .unlisted, _, _ | .misnamed _, _, _ => by
    rw [count]
    exact .of_silent (.only rfl) .refl
  | .block _ ss, _, _ | .caseArm _ _ ss, _, _ => by
    rw [count]
    exact .of_silent (.only rfl) advancesAll
  | .exprStmt _ e, _, _ | .decl _ _ e, _, _ | .ret _ e, _, _ => by
    rw [count]
    exact .of_silent (.only rfl) (.visit e.headCount_pos)
  | .ifElse _ cond thenArm elseArm, _, _ => by
    rw [count]
    exact .of_silent (.only rfl)
      (.visit (Nat.add_pos_left (Nat.add_pos_left cond.headCount_pos _) _))
  | .whileLoop _ cond _, _, _ => by
    rw [count]
    exact .of_silent (.only rfl) (advances_loop fun _ =>
      advances_guard (Nat.add_pos_left cond.headCount_pos _))
  | .forLoop p before init cond step s, n, rest => by
    have hl :
        Advances body (.loop (.forLoop p before init cond step s)
          (n + before.count + init.sideCount)
        :: rest) (cond.headCount + s.count + step.sideCount) _ rest := advances_loop fun _ =>
      advances_guard (Nat.add_pos_left (Nat.add_pos_left cond.headCount_pos _) _)
    rw [count, Nat.add_assoc]
    refine .of_silent (.only rfl) ?_
    rw [tasks, List.cons_append, List.append_assoc]
    exact advances.trans (advances_side.trans hl)
  | .foreach _ _ iterable _, _, _ => by
    rw [count]
    exact .of_silent (.only rfl) (advances_loop fun _ =>
      .visit (Nat.add_pos_left iterable.headCount_pos _))
  | .doWhile _ s _, _, _ => by
    rw [count]
    exact .of_silent (.only rfl) (advances_loop (advances_postTested fun _ => advances))
  | .switch _ subject _, _, _ => by
    rw [count]
    exact .of_silent (.only rfl) (.visit (Nat.add_pos_left subject.headCount_pos _))
  | .labeled _ _ _, _, _ => by
    rw [count]
    exact .of_silent (.only rfl) (.visit (Nat.add_pos_left Nat.one_pos _))
  | .goto _ _, _, _ | .brk _, _, _ | .cont _, _, _ => by
    rw [count]
    exact .of_silent (.only rfl) (.visit Nat.one_pos)

/-- Several statements come to their first site, or are passed. -/
theorem advancesAll : ∀ {ss : List Stmt} {n : Nat} {rest : List Task},
    Advances body (.stmts ss n :: rest) (countAll ss) n rest
  | [], _, _ => by
    rw [countAll]
    exact .of_silent (.only rfl) .refl
  | s :: ss, _, _ => by
    rw [countAll]
    exact .of_silent (.only rfl) (advances.trans advancesAll)

end

/-- The rounds of a loop come to its first site. -/
theorem advances_round {s : Stmt} : Advances body (.round s n :: rest) s.roundCount n rest := by
  cases s with
  | whileLoop p cond s =>
    exact .of_silent (.only rfl) (advances_guard (Nat.add_pos_left cond.headCount_pos _))
  | forLoop p before init cond step s =>
    exact .of_silent (.only rfl)
      (advances_guard (Nat.add_pos_left (Nat.add_pos_left cond.headCount_pos _) _))
  | foreach p var iterable s =>
    exact .of_silent (.only rfl) (.visit (Nat.add_pos_left iterable.headCount_pos _))
  | doWhile p s cond => exact .of_silent (.only rfl) (advances_postTested (fun _ => advances) _)
  | _ => exact .of_silent (.only rfl) .refl

end Stmt

/-! ## What is next can be visited -/

/-- Where the labels of a function body stand. -/
def gotosOf (body : Stmt) (label : String) (v : Vertex) : Prop :=
  ∃ n, (body.labels 0).lookup label = some n ∧ v = .site n

variable (body) in
/-- The targets of a whole stack. -/
def targetsOf (tasks : List Task) : Targets := targets (gotosOf body) tasks .none

variable (body) in
/-- The machine can visit whatever is next, also behind a `break` or a `continue`. -/
structure Live (tasks : List Task) : Prop where
  next {v : Vertex} : (targetsOf body tasks).next v → Reaches body tasks v
  brk {v : Vertex} : (targetsOf body tasks).brk v →
    ∃ after, skipPast Task.isBreakTarget tasks = some after ∧ Reaches body after v
  cont {v : Vertex} : (targetsOf body tasks).cont v →
    ∃ after, skipPast Task.isContinueTarget tasks = some after ∧ Reaches body after v

namespace Live

variable {v : Vertex}

/-- A visit on top of the stack is the next one. -/
theorem reaches_visit : Reaches body (.visit n :: rest) (.site n) := ⟨_, _, .refl, .visit⟩

/-- From the sites of a task, or from what is behind them. -/
theorem reaches_of_advances (hl : Live body rest) (h : Advances body tasks k n rest)
    (hv : first k n (targetsOf body rest).next v) : Reaches body tasks v := by
  obtain ⟨next, hn, hc⟩ := h
  by_cases hk : k = 0
  · rw [if_pos hk] at hc
    subst hk hc
    exact hn.reaches (hl.next (first_zero.1 hv))
  · rw [if_neg hk] at hc
    obtain ⟨more, rfl⟩ := hc
    obtain rfl := (first_of_pos (Nat.pos_of_ne_zero hk)).1 hv
    exact hn.reaches reaches_visit

/-- A stack with one more task on top, which is no target of a `break` or a `continue`. -/
theorem cons {task : Task} (hl : Live body rest)
    (ht : (task.isBreakTarget || task.isContinueTarget) = false)
    (h : ∀ {v}, task.first (gotosOf body) (targetsOf body rest) v →
      Reaches body (task :: rest) v) : Live body (task :: rest) := by
  cases task with
  | breakTarget | continueTarget => cases ht
  | _ => exact ⟨h, hl.brk, hl.cont⟩

/-- From the empty stack nothing is next. -/
theorem nil : Live body [] := ⟨False.elim, False.elim, False.elim⟩

/-- Any case may be selected. -/
theorem select (hl : Live body rest) : ∀ {arms : List Stmt} {n : Nat} {skips : Bool},
    Stmt.selected arms n skips (targetsOf body rest).next v →
      Reaches body (.select arms n skips :: rest) v
  | [], n, true, ⟨_, hv⟩ =>
    have hs : Silent body (.select [] n true :: rest) ([] ++ rest) := .only rfl
    hs.reaches (hl.next hv)
  | arm :: arms, n, skips, .inl hv =>
    have hs :
        Silent body (.select (arm :: arms) n skips :: rest) ([.stmts (arm :: arms) n] ++ rest) :=
      .unfold (Task.mem_ways.2 .take)
    hs.reaches (hl.reaches_of_advances Stmt.advancesAll hv)
  | arm :: arms, n, skips, .inr hv => by
    have hlast : arms = [] → skips = true := by
      rintro rfl
      exact hv.1
    have hs : Silent body (.select (arm :: arms) n skips :: rest)
        ([.select arms (n + arm.count) skips] ++ rest) := .unfold (Task.mem_ways.2 (.skip hlast))
    exact hs.reaches (select hl hv)

/-- A jump gets to its label. -/
theorem goto {label : String} (hv : gotosOf body label v) :
    Reaches body (.goto label :: rest) v := by
  obtain ⟨n, hn, rfl⟩ := hv
  obtain ⟨rest, hw⟩ := Stmt.exists_entry hn
  exact Silent.reaches (.single (.goto hw)) reaches_visit

/-- The end of what a `break` leaves is passed without a visit. -/
theorem breakTarget (hl : Live body rest) : Live body (.breakTarget :: rest) where
  next hv :=
    have hs : Silent body (.breakTarget :: rest) ([] ++ rest) := .only rfl
    hs.reaches (hl.next hv)
  brk hv := ⟨rest, rfl, hl.next hv⟩
  cont := hl.cont

/-- The point where a `continue` goes on is passed without a visit. -/
theorem continueTarget (hl : Live body rest) : Live body (.continueTarget :: rest) where
  next hv :=
    have hs : Silent body (.continueTarget :: rest) ([] ++ rest) := .only rfl
    hs.reaches (hl.next hv)
  brk := hl.brk
  cont hv := ⟨rest, rfl, hl.next hv⟩

/-- Either of two ways may be taken. -/
theorem either {yes no : List Task} (hy : Live body (yes ++ rest)) (hn : Live body (no ++ rest))
    (hv : (targets (gotosOf body) yes (targetsOf body rest)).next v
      ∨ (targets (gotosOf body) no (targetsOf body rest)).next v) :
    Reaches body (.either yes no :: rest) v := by
  rcases hv with hv | hv
  · exact (Silent.unfold (Task.mem_ways.2 .yes)).reaches
      (hy.next (by rw [targetsOf, targets_append]; exact hv))
  · exact (Silent.unfold (Task.mem_ways.2 .no)).reaches
      (hn.next (by rw [targetsOf, targets_append]; exact hv))

mutual

/-- If the machine gets on from a stack, it gets on with one more task on top. -/
theorem task : ∀ (task : Task) {rest : List Task}, Live body rest → Live body (task :: rest)
  | .visit n, rest, hl => hl.cons rfl fun hv => by
    obtain rfl := hv
    exact reaches_visit
  | .eval e n opened yes no, rest, hl => by
    have he : Live body (.either yes no :: rest) := hl.cons rfl (either (all yes hl) (all no hl))
    exact hl.cons rfl (he.reaches_of_advances Shape.advances)
  | .operand e n yes no, rest, hl => hl.cons rfl fun hv => by
    obtain rfl := hv
    exact hl.reaches_of_advances (Shape.advances_operand Nat.one_pos Shape.advances)
      ((first_of_pos Nat.one_pos).2 rfl)
  | .evalAll es n opened, rest, hl => hl.cons rfl
    (hl.reaches_of_advances Shape.advancesAll)
  | .either yes no, rest, hl => hl.cons rfl (either (all yes hl) (all no hl))
  | .stmt s n, rest, hl => hl.cons rfl (hl.reaches_of_advances Stmt.advances)
  | .stmts ss n, rest, hl => hl.cons rfl (hl.reaches_of_advances Stmt.advancesAll)
  | .select arms n skips, rest, hl => hl.cons rfl hl.select
  | .loop s n, rest, hl => hl.cons rfl fun hv => by
    have hs : Silent body (.loop s n :: rest) ([.round s n, .breakTarget] ++ rest) := .only rfl
    exact hs.reaches (hl.breakTarget.reaches_of_advances Stmt.advances_round hv)
  | .round s n, rest, hl => hl.cons rfl (hl.reaches_of_advances Stmt.advances_round)
  | .breakTarget, _, hl => hl.breakTarget
  | .continueTarget, _, hl => hl.continueTarget
  | .brk, rest, hl => hl.cons rfl fun hv => by
    obtain ⟨after, ha, hr⟩ := hl.brk hv
    exact Silent.reaches (.single (.brk ha)) hr
  | .cont, rest, hl => hl.cons rfl fun hv => by
    obtain ⟨after, ha, hr⟩ := hl.cont hv
    exact Silent.reaches (.single (.cont ha)) hr
  | .goto label, rest, hl => hl.cons rfl goto
  | .leave, rest, hl => hl.cons rfl fun hv => by
    obtain rfl := hv
    exact ⟨_, _, .refl, .leave⟩

/-- If the machine gets on from a stack, it gets on with several more tasks on top. -/
theorem all : ∀ (tasks : List Task) {rest : List Task}, Live body rest → Live body (tasks ++ rest)
  | [], _, hl => hl
  | t :: tasks, _, hl => task t (all tasks hl)

end

end Live

end LastUse
