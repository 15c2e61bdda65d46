import LastUse.Proofs.Run.Follows

/-!
# Jumps into a statement

The tasks from a label to the end of a statement begin at the site of the label
(`Stmt.entry_enters`), and they follow a graph that the statement follows (`Stmt.entry_follows`),
however deep in branches, loops and switches the label stands.
-/

namespace LastUse

/-- Tasks begin at a site, or there are no tasks and no site. -/
inductive Enters : Option (List Task) → Option Nat → Prop where
  | none : Enters none none
  | some {n : Nat} {rest : List Task} : Enters (some (.visit n :: rest)) (some n)

namespace Enters

variable {a b : Option (List Task)} {m n : Option Nat}

/-- More tasks behind the ones from a label. -/
theorem map {f : List Task → List Task} (hf : ∀ task rest, ∃ more, f (task :: rest) = task :: more)
    (h : Enters a n) : Enters (a.map f) n := by
  cases h with
  | none => exact .none
  | @some k rest =>
    obtain ⟨more, hm⟩ := hf (.visit k) rest
    rw [Option.map_some, hm]
    exact .some

/-- The label is looked for in one part, and then in the other. -/
theorem or (ha : Enters a m) (hb : Enters b n) : Enters (a.or b) (m.or n) := by
  cases ha with
  | none => exact hb
  | some => exact .some

end Enters

namespace Stmt

variable {l : String}

mutual

/-- The tasks from a label begin at its site. -/
theorem entry_enters : ∀ {s : Stmt} {n : Nat}, Enters (s.entry l n) ((s.labels n).lookup l)
  | .absent, _ | .stray _, _ | .unlisted, _ | .misnamed _, _ | .exprStmt _ _, _ | .decl _ _ _, _
  | .goto _ _, _ | .ret _ _, _ | .brk _, _ | .cont _, _ => by
    rw [entry, labels]
    exact .none
  | .block _ body, _ | .caseArm _ _ body, _ => by
    rw [entry, labels]
    exact entryAll_enters
  | .ifElse _ _ thenArm elseArm, _ => by
    rw [entry, labels, List.lookup_append]
    exact entry_enters.or entry_enters
  | .whileLoop _ _ body, _ | .foreach _ _ _ body, _ | .doWhile _ body _, _ => by
    rw [entry, labels]
    exact entry_enters.map fun _ _ => ⟨_, rfl⟩
  | .forLoop _ before _ _ _ body, _ => by
    rw [entry, labels, List.lookup_append]
    exact (entry_enters.map fun _ _ => ⟨_, rfl⟩).or (entry_enters.map fun _ _ => ⟨_, rfl⟩)
  | .switch _ _ arms, _ => by
    rw [entry, labels]
    exact entryAll_enters.map fun _ _ => ⟨_, rfl⟩
  | .labeled _ label body, n => by
    rw [entry, labels]
    by_cases h : l = label
    · subst h
      rw [if_pos rfl, List.lookup_cons_self]
      exact .some
    · rw [if_neg h, List.lookup_cons, beq_false_of_ne h]
      exact entry_enters

/-- The tasks from a label in several statements begin at its site. -/
theorem entryAll_enters : ∀ {ss : List Stmt} {n : Nat},
    Enters (entryAll l ss n) ((labelsAll ss n).lookup l)
  | [], _ => .none
  | s :: rest, _ => by
    rw [entryAll, labelsAll, List.lookup_append]
    exact (entry_enters.map fun _ _ => ⟨_, rfl⟩).or entryAll_enters

end

/-- Where a label stands in a statement, control can enter the statement there. -/
theorem exists_entry {s : Stmt} {n k : Nat} (h : (s.labels n).lookup l = some k) :
    ∃ rest, s.entry l n = some (.visit k :: rest) := by
  have he := entry_enters (l := l) (s := s) (n := n)
  rw [h] at he
  generalize s.entry l n = way at he
  cases he with
  | some => exact ⟨_, rfl⟩

/-- Where control can enter a statement at a label, the label stands there. -/
theorem lookup_of_entry {s : Stmt} {n : Nat} {way : List Task} (h : s.entry l n = some way) :
    ∃ k rest, way = .visit k :: rest ∧ (s.labels n).lookup l = some k := by
  have he := entry_enters (l := l) (s := s) (n := n)
  rw [h] at he
  generalize (s.labels n).lookup l = k at he
  cases he with
  | some => exact ⟨_, _, rfl, rfl⟩

variable {gotos : String → Vertex → Prop} {edges : Links}

/-- Tasks of the body of a loop, and what follows the body. -/
theorem followsAll_behind {body : Stmt} {m : Nat} {t : Targets} {inner behind : List Task}
    (h : FollowsAll gotos edges (.stmt body m :: behind) t.breakable)
    (hi : FollowsAll gotos edges inner (targets gotos behind t.breakable)) :
    FollowsAll gotos edges (inner ++ behind ++ [.breakTarget]) t :=
  followsAll_append.2 ⟨followsAll_append.2 ⟨hi, h.2⟩, trivial, trivial⟩

mutual

/-- The tasks from a label follow the graph if the statement does. -/
theorem entry_follows :
    ∀ {s : Stmt} {n : Nat} {t : Targets} {way : List Task}, s.entry l n = some way →
    (Task.stmt s n).Follows gotos edges t → FollowsAll gotos edges way t
  | .absent, _, _, _, h, _ | .stray _, _, _, _, h, _ | .unlisted, _, _, _, h, _
  | .misnamed _, _, _, _, h, _ | .exprStmt _ _, _, _, _, h, _ | .decl _ _ _, _, _, _, h, _
  | .goto _ _, _, _, _, h, _ | .ret _ _, _, _, _, h, _ | .brk _, _, _, _, h, _
  | .cont _, _, _, _, h, _ => by
    rw [entry] at h
    cases h
  | .block _ body, _, _, _, h, hf | .caseArm _ _ body, _, _, _, h, hf => by
    rw [entry] at h
    exact entryAll_follows h (followsAll_tasks hf).1
  | .ifElse _ cond thenArm elseArm, _, _, _, h, hf => by
    rw [entry, Option.or_eq_some_iff] at h
    obtain ⟨-, ⟨-, hy, hn⟩, -⟩ := followsAll_tasks hf
    rcases h with h | ⟨-, h⟩
    · exact entry_follows h hy.1
    · exact entry_follows h hn.1
  | .whileLoop p cond body, n, t, _, h, hf => by
    rw [entry, Option.map_eq_some_iff] at h
    obtain ⟨inner, h, rfl⟩ := h
    obtain ⟨-, hb⟩ := Follows.again (cond.guardLinks n) .absent (fun _ _ => Expr.guardLinks_within)
      cond.headCount_pos rfl rfl (followsAll_tasks hf).1
    exact followsAll_behind hb (entry_follows h hb.1)
  | .foreach p var iterable body, n, t, _, h, hf => by
    rw [entry, Option.map_eq_some_iff] at h
    obtain ⟨inner, h, rfl⟩ := h
    obtain ⟨-, hb⟩ := Follows.again (iterable.eitherLinks n) .absent
      (fun _ _ => Expr.headLinks_within) iterable.headCount_pos rfl rfl (followsAll_tasks hf).1
    exact followsAll_behind hb (entry_follows h hb.1)
  | .doWhile p body cond, n, t, _, h, hf => by
    rw [entry, Option.map_eq_some_iff] at h
    obtain ⟨inner, h, rfl⟩ := h
    have hb := followsAll_round (t := t.breakable) (followsAll_tasks hf).1
    exact followsAll_behind hb (entry_follows h hb.1)
  | .forLoop p before init cond step body, n, t, _, h, hf => by
    rw [entry, Option.or_eq_some_iff] at h
    obtain ⟨hbefore, hrest⟩ := followsAll_tasks hf
    rcases h with h | ⟨-, h⟩
    · obtain ⟨inner, hi, rfl⟩ := Option.map_eq_some_iff.1 h
      exact followsAll_append.2 ⟨entry_follows hi hbefore, hrest⟩
    · obtain ⟨inner, hi, rfl⟩ := Option.map_eq_some_iff.1 h
      obtain ⟨-, hl, -⟩ := followsAll_append.1 hrest
      obtain ⟨-, hb⟩ := Follows.again (cond.guardLinks _) step (fun _ _ => Expr.guardLinks_within)
        cond.headCount_pos rfl rfl hl
      exact followsAll_behind hb (entry_follows hi hb.1)
  | .switch _ _ arms, _, _, _, h, hf => by
    rw [entry, Option.map_eq_some_iff] at h
    obtain ⟨inner, h, rfl⟩ := h
    obtain ⟨-, hs, -⟩ := followsAll_append.1 (followsAll_tasks hf)
    exact followsAll_append.2 ⟨entryAll_follows h hs, trivial, trivial⟩
  | .labeled _ label body, n, _, _, h, hf => by
    rw [entry] at h
    split at h
    · cases h
      exact followsAll_tasks hf
    · exact entry_follows h (followsAll_tasks hf).2.1

/-- The tasks from a label in several statements follow the graph if the statements do. -/
theorem entryAll_follows : ∀ {ss : List Stmt} {n : Nat} {t : Targets} {way : List Task},
    entryAll l ss n = some way → (Task.stmts ss n).Follows gotos edges t →
      FollowsAll gotos edges way t
  | [], _, _, _, h, _ => by
    rw [entryAll] at h
    cases h
  | s :: rest, n, _, _, h, hf => by
    rw [entryAll, Option.or_eq_some_iff] at h
    obtain ⟨hs, hr, -⟩ := hf.ways (List.mem_singleton.2 rfl)
    rcases h with h | ⟨-, h⟩
    · obtain ⟨inner, hi, rfl⟩ := Option.map_eq_some_iff.1 h
      exact followsAll_append.2 ⟨entry_follows hi hs, hr, trivial⟩
    · exact entryAll_follows h hr

end

end Stmt

end LastUse
