import Mathlib.Data.List.Induction
import LastUse.Export.Links
import LastUse.Proofs.Flow.Expr

/-!
# What a session remembers

A session keeps the analyses that it has made. `Session.plainly` answers a question without a
memory, and `Session.memory_invisible` says that whatever was asked before, a session gives the
same answer, except that a scan or a verdict records the binding with which the name was analysed
first. Bindings of one name have the same analysis but for themselves
(`Session.analysisWith_of_sameName`), so what is remembered of one may be answered to another;
`Session.Remembers` is what holds of the memory between two questions.
-/

namespace LastUse

/-! ## Bindings of one name -/

namespace Scalar

/-- Whole numbers over positive ones are equal to the same such numbers if they are equal. -/
theorem mul_eq_iff_of_eq {l m n i j k : Int} (hj : j ≠ 0) (hk : k ≠ 0) (h : m * k = n * j) :
    l * j = m * i ↔ l * k = n * i := by
  constructor
  · intro hl
    refine Int.eq_of_mul_eq_mul_right hj ?_
    calc l * k * j = l * j * k := Int.mul_right_comm _ _ _
      _ = m * k * i := by rw [hl, Int.mul_right_comm]
      _ = n * i * j := by rw [h, Int.mul_right_comm]
  · intro hl
    refine Int.eq_of_mul_eq_mul_right hk ?_
    calc l * j * k = l * k * j := Int.mul_right_comm _ _ _
      _ = n * j * i := by rw [hl, Int.mul_right_comm]
      _ = m * i * k := by rw [← h, Int.mul_right_comm]

/-- Scalars that are one key are equal to the same scalars. -/
theorem same_congr {a b : Scalar} (h : a.sameKey b = true) (c : Scalar) : c.same a = c.same b := by
  rw [sameKey, Bool.or_eq_true, decide_eq_true_eq] at h
  rcases h with h | rfl
  · unfold same at h ⊢
    rcases ha : a.dyadic? with _ | ⟨m, j⟩ <;> rcases hb : b.dyadic? with _ | ⟨n, k⟩ <;>
      simp only [ha, hb] at h ⊢
    · have hab : a = b := by
        split at h
        · simp at h
        · exact of_decide_eq_true h
      rw [hab]
    · simp at h
    · simp at h
    · rcases hc : c.dyadic? with _ | ⟨l, i⟩ <;> simp only
      have hpow : ∀ e : Nat, ((Nat.pow 2 e : Nat) : Int) ≠ 0 := fun e =>
        Int.natCast_ne_zero.2 (Nat.pos_iff_ne_zero.1 (Nat.two_pow_pos e))
      exact decide_eq_decide.2 (mul_eq_iff_of_eq (hpow j) (hpow k) (of_decide_eq_true h))
  · rfl

/-- Scalars that are one key with a third are one key with each other. -/
theorem sameKey_trans {a b c : Scalar} (hab : a.sameKey b = true) (hbc : b.sameKey c = true) :
    a.sameKey c = true := by
  have hab' := hab
  rw [sameKey, Bool.or_eq_true, decide_eq_true_eq] at hab
  rcases hab with hab | rfl
  · rw [sameKey, ← same_congr hbc, hab, Bool.true_or]
  · exact hbc

/-- Scalars that are one key are numbers or the same. -/
theorem eq_or_isSome_of_sameKey {a b : Scalar} (h : a.sameKey b = true) :
    a = b ∨ a.dyadic?.isSome = true ∧ b.dyadic?.isSome = true := by
  rw [sameKey, Bool.or_eq_true, decide_eq_true_eq] at h
  rcases h with h | h
  · unfold same at h
    split at h
    · next ha hb => exact .inr (by simp [ha, hb])
    · split at h
      · simp at h
      · exact .inl (of_decide_eq_true h)
    · simp at h
  · exact .inl h

end Scalar

namespace Binding

variable {a b c : Binding}

/-- Bindings that have the name of a third have the same name. -/
theorem sameName_trans (hab : a.sameName b = true) (hbc : b.sameName c = true) :
    a.sameName c = true := by
  obtain ⟨na, _, pa⟩ := a
  obtain ⟨nb, _, pb⟩ := b
  obtain ⟨nc, _, pc⟩ := c
  cases na <;> cases nb <;> cases nc <;> simp_all [sameName]
  exact Scalar.sameKey_trans hab hbc

/-- Bindings of one name have the same occurrences. -/
theorem same_congr (h : a.sameName b = true) (v : Value) : v.same a.name = v.same b.name := by
  unfold sameName at h
  split at h
  · next s t ha hb =>
    rw [ha, hb]
    cases v with
    | scalar c => exact Scalar.same_congr h c
    | list | node => rfl
  · next ha hb =>
    rw [ha, hb]
    cases v <;> rfl
  · simp at h

/-- Names that are the same are touched by the same expressions. -/
theorem touch_congr (h : a.sameName b = true) : Expr.touch a.name = Expr.touch b.name := by
  funext e
  have hname : Expr.isName a.name = Expr.isName b.name := by
    funext n
    cases n <;> simp [Expr.isName, same_congr h]
  have haddr : Expr.takesAddressOf a.name = Expr.takesAddressOf b.name := by
    funext n
    cases n <;> simp [Expr.takesAddressOf, same_congr h]
  have hmoves : Expr.moves a.name = Expr.moves b.name := by
    funext n
    cases n <;> simp [Expr.moves, same_congr h]
  rw [Expr.touch, Expr.touch, hname, haddr, hmoves]

/-- Bindings of one name are reset at the same further sites. -/
theorem extraResets_congr (h : a.sameName b = true) (settings : Settings) :
    settings.extraResets a.name = settings.extraResets b.name := by
  unfold sameName at h
  split at h
  · next s t ha hb =>
    rw [ha, hb]
    rcases Scalar.eq_or_isSome_of_sameKey h with rfl | ⟨hs, ht⟩
    · rfl
    · -- Numbers name no setting.
      cases s <;> cases t <;> first | rfl | simp [Scalar.dyadic?] at hs ht
  · next ha hb =>
    rw [ha, hb]
    rfl
  · simp at h

end Binding

/-! ## The first binding of each name -/

namespace Binding

/-- The first binding of each name, in order. -/
def firsts (bs : List Binding) : List Binding :=
  bs.foldl (fun seen b => if seen.any (·.sameName b) then seen else seen ++ [b]) []

/-- The first binding with the name of another, or that itself. -/
def recorded (past : List Binding) (b : Binding) : Binding := (past.find? (·.sameName b)).getD b

/-- A further binding is a first one unless its name was there before. -/
theorem firsts_append_singleton (past : List Binding) (b : Binding) :
    firsts (past ++ [b]) =
      if (firsts past).any (·.sameName b) then firsts past else firsts past ++ [b] := by
  simp [firsts]

/-- A name is found among the first bindings as it is among all. -/
theorem find?_firsts (past : List Binding) (b : Binding) :
    (firsts past).find? (·.sameName b) = past.find? (·.sameName b) := by
  induction past using List.reverseRecOn with
  | nil => rfl
  | append_singleton past x ih =>
    rw [firsts_append_singleton, List.find?_append, ← ih]
    split
    · next hany =>
      obtain ⟨y, hy, hyx⟩ := List.any_eq_true.1 hany
      cases hf : (firsts past).find? (·.sameName b) with
      | some z => rfl
      | none =>
        -- A binding that has the name of `x` would have been found.
        have hxb : x.sameName b = false := by
          rw [Bool.eq_false_iff]
          intro hxb
          exact List.find?_eq_none.1 hf y hy (sameName_trans hyx hxb)
        simp [hxb]
    · rw [List.find?_append]

end Binding

/-! ## Analyses of one name -/

/-- If a computation in two steps fails, then one of the steps does. -/
theorem fault_of_bind {α β : Type} : ∀ {x : Except Fault α} {k : α → Except Fault β} {f : Fault},
    x >>= k = .error f → x = .error f ∨ ∃ a, x = .ok a ∧ k a = .error f
  | .ok a, _, _, h => .inr ⟨a, rfl, h⟩
  | .error _, _, _, h => .inl (by cases h; rfl)

namespace Settings

/-- What cannot be read as a list of ordinals has the wrong type. -/
theorem fault_of_ordinalsOf {j : Json} {f : Fault} (h : ordinalsOf j = .error f) :
    f = .mistyped := by
  unfold ordinalsOf at h
  split at h
  · next items =>
    refine (fault_of_bind h).elim (fun h => ?_) fun ⟨_, _, h⟩ => by cases h
    clear * - h
    induction items with
    | nil => cases h
    | cons item rest ih =>
      rw [List.mapM_cons] at h
      rcases fault_of_bind h with h | ⟨_, -, h⟩
      · split at h
        · cases h
        · cases h
          rfl
      · rcases fault_of_bind h with h | ⟨_, -, h⟩
        · exact ih h
        · cases h
  · cases h
  · cases h
  · cases h
    rfl

/-- Settings for the sites that reset a binding are refused for a wrong type, or because they have
no parts. -/
theorem fault_of_extraResets {settings : Settings} {name : Value} {f : Fault}
    (h : settings.extraResets name = .error f) : f = .mistyped ∨ f = .partless := by
  unfold extraResets at h
  split at h
  · next members _ =>
    split at h
    · next n =>
      cases hl : members.lookup n with
      | none => simp [hl] at h
      | some j =>
        rw [hl] at h
        exact .inl (fault_of_ordinalsOf h)
    · cases h
  · cases h
    exact .inr rfl
  · cases h

end Settings

/-- An analysis as that of another binding with the same name. -/
def Analysis.rebind (a : Analysis) (b : Binding) : Analysis :=
  { a with scan := { a.scan with binding := b }, verdict := { a.verdict with binding := b } }

/-- An analysis records one binding. -/
def Analysis.Of (b : Binding) (a : Analysis) : Prop := a.scan.binding = b ∧ a.verdict.binding = b

/-- An analysis of a binding is one of the same binding. -/
theorem Analysis.Of.rebind {a : Analysis} {b : Binding} (h : a.Of b) : a.rebind b = a := by
  obtain ⟨⟨_, _⟩, _, ⟨_, _, _, _, _, _⟩⟩ := a
  obtain ⟨hs, hv⟩ := h
  cases hs
  cases hv
  rfl

namespace Session

variable {s : Session} {b c : Binding} {repeated : List Nat}

/-- Bindings of one name have the same scan but for themselves. -/
theorem scan_of_sameName (h : b.sameName c = true) (g : FlowGraph) :
    g.scan c = { g.scan b with binding := c } := by
  simp only [FlowGraph.scan, Site.access, Binding.touch_congr h]

/-- Bindings of one name have the same analysis but for themselves. -/
theorem analysisWith_of_sameName (h : b.sameName c = true) :
    s.analysisWith repeated c = (s.analysisWith repeated b).map fun r => (r.1.rebind c, r.2) := by
  rw [analysisWith, analysisWith, Binding.extraResets_congr h, scan_of_sameName h]
  cases s.settings.extraResets c.name <;> rfl

/-- An analysis records the binding that it is of. -/
theorem analysisWith_of {a : Analysis} {notes : List Note}
    (h : s.analysisWith repeated b = .ok (a, notes)) : a.Of b := by
  obtain ⟨resets, -, h⟩ := ok_of_bind h
  cases h
  exact ⟨rfl, rfl⟩

/-- An analysis fails only if the settings cannot be read. -/
theorem fault_of_analysisWith {f : Fault} (h : s.analysisWith repeated b = .error f) :
    f = .mistyped ∨ f = .partless := by
  rcases fault_of_bind h with h | ⟨resets, -, h⟩
  · exact Settings.fault_of_extraResets h
  · cases h

/-- The analysis of a binding, made without a memory. -/
def freshly (s : Session) (b : Binding) : Except Fault Analysis :=
  if b.name.isKey then (s.analysisOf b).map (·.1) else .error .mistyped

/-- The bindings among some that are analysed: those before the first one whose analysis fails. -/
def analysed (s : Session) (bs : List Binding) : List Binding :=
  bs.takeWhile fun b => (s.freshly b).isOk

/-- A binding whose analysis succeeds is analysed before the others. -/
theorem analysed_of_ok {a : Analysis} (h : s.freshly b = .ok a) (rest : List Binding) :
    s.analysed (b :: rest) = b :: s.analysed rest := by
  rw [analysed, List.takeWhile_cons, h]
  rfl

/-- Behind a binding whose analysis fails none is analysed. -/
theorem analysed_of_error {f : Fault} (h : s.freshly b = .error f) (rest : List Binding) :
    s.analysed (b :: rest) = [] := by
  rw [analysed, List.takeWhile_cons, h]
  rfl

/-- An analysis that is made without a memory records the binding that it is of. -/
theorem freshly_of {a : Analysis} (h : s.freshly b = .ok a) : a.Of b := by
  unfold freshly at h
  split at h
  · cases ha : s.analysisOf b with
    | error f =>
      rw [ha] at h
      cases h
    | ok r =>
      rw [ha] at h
      cases h
      exact analysisWith_of ha
  · cases h

/-- An analysis fails for no unknown site. -/
theorem fault_of_freshly {f : Fault} (h : s.freshly b = .error f) (named : String) :
    f ≠ .unknownSite named := by
  have hf : f = .mistyped ∨ f = .partless := by
    unfold freshly at h
    split at h
    · cases ha : s.analysisOf b with
      | error f =>
        rw [ha] at h
        cases h
        exact fault_of_analysisWith ha
      | ok r =>
        rw [ha] at h
        cases h
    · cases h
      exact .inl rfl
  rintro rfl
  simp at hf

/-! ## The memory between two questions -/

/-- The run of a query, then of another. -/
theorem run_bind {α β : Type} (x : Query α) (k : α → Query β) (m : Memory) :
    (x >>= k).run.run m =
      match x.run.run m with
      | (.ok a, m') => (k a).run.run m'
      | (.error f, m') => (.error f, m') := by
  rw [ExceptT.run_bind, StateT.run_bind]
  rcases StateT.run (ExceptT.run x) m with ⟨_ | _, m'⟩ <;> rfl

/-- A query about the analysis of a binding looks for one that is remembered. -/
theorem run_analysis (s : Session) (b : Binding) (m : Memory) :
    (s.analysis b).run.run m =
      if b.name.isKey then
        match m.find? b with
        | some a => (.ok a, m)
        | none =>
          match s.analysisWith (m.repeated.getD s.repeated) b with
          | .error f => (.error f, m)
          | .ok (a, notes) =>
            (.ok a, ⟨m.analyses ++ [a], m.log ++ notes.map (Note.message b.name),
              some (m.repeated.getD s.repeated)⟩)
      else (.error .mistyped, m) := by
  unfold analysis
  cases b.name.isKey with
  | false => rfl
  | true =>
    simp only [Bool.not_true, Bool.false_eq_true, if_false, if_true]
    rw [run_bind]
    show (match m.find? b with | some a => _ | none => _ : Query Analysis).run.run m = _
    cases m.find? b with
    | some a => rfl
    | none =>
      show (match s.analysisWith (m.repeated.getD s.repeated) b with
        | .error f => _ | .ok (a, notes) => _ : Query Analysis).run.run m = _
      cases s.analysisWith (m.repeated.getD s.repeated) b <;> rfl

/-- The sites that jumps can run again are found once and then remembered. -/
theorem run_repeatedSites (s : Session) (m : Memory) :
    s.repeatedSites.run.run m =
      match m.repeated with
      | some ordinals => (.ok ordinals, m)
      | none => (.ok s.repeated, { m with repeated := some s.repeated }) := by
  rw [repeatedSites, run_bind]
  show (match m.repeated with | some ordinals => _ | none => _ : Query (List Nat)).run.run m = _
  cases m.repeated <;> rfl

/-- What a memory holds after some bindings have been analysed: the analyses of the first binding
of each name, and the sites that jumps can run again if it holds any. -/
structure Remembers (s : Session) (past : List Binding) (m : Memory) : Prop where
  bindings : m.analyses.map (·.binding) = Binding.firsts past
  analyses : ∀ a ∈ m.analyses, ∃ notes, s.analysisOf a.binding = .ok (a, notes)
  repeated : m.repeated.getD s.repeated = s.repeated

namespace Remembers

variable {past : List Binding} {m : Memory}

/-- At first nothing is remembered. -/
theorem empty : s.Remembers [] .empty := ⟨rfl, by simp [Memory.empty], rfl⟩

/-- What is found of a name is the analysis of the first binding of that name. -/
theorem find?_eq (h : s.Remembers past m) (b : Binding) :
    (m.find? b).map (·.binding) = past.find? (·.sameName b) := by
  rw [← Binding.find?_firsts, ← h.bindings, List.find?_map]
  rfl

/-- Nothing is added for a name that is remembered. -/
theorem known {a : Analysis} (h : s.Remembers past m) (hm : m.find? b = some a) :
    s.Remembers (past ++ [b]) m := by
  have hany : (Binding.firsts past).any (·.sameName b) = true := by
    rw [← h.bindings, List.any_map]
    exact List.any_eq_true.2 ⟨a, List.mem_of_find?_eq_some hm, List.find?_some hm⟩
  refine { h with bindings := ?_ }
  rw [Binding.firsts_append_singleton, hany, if_pos rfl, h.bindings]

/-- A new name is remembered behind the others. -/
theorem learn {a : Analysis} {notes : List Note} (h : s.Remembers past m) (hm : m.find? b = none)
    (ha : s.analysisOf b = .ok (a, notes)) (log : List String) :
    s.Remembers (past ++ [b]) ⟨m.analyses ++ [a], log, some s.repeated⟩ := by
  have hb : a.binding = b := (analysisWith_of ha).1
  have hany : (Binding.firsts past).any (·.sameName b) = false := by
    rw [← h.bindings, List.any_map, List.any_eq_false]
    exact List.find?_eq_none.1 hm
  refine ⟨?_, ?_, rfl⟩
  · rw [Binding.firsts_append_singleton, hany, if_neg Bool.false_ne_true, ← h.bindings]
    simp [hb]
  · intro x hx
    rcases List.mem_append.1 hx with hx | hx
    · exact h.analyses x hx
    · cases List.mem_singleton.1 hx
      exact ⟨notes, hb.symm ▸ ha⟩

/-- An analysis is the one that is made freshly, with the binding that is recorded. If it fails,
the memory stays as it is. -/
theorem analysis (h : s.Remembers past m) (b : Binding) :
    ∃ m', (s.analysis b).run.run m = ((s.freshly b).map (·.rebind (.recorded past b)), m') ∧
      s.Remembers (past ++ s.analysed [b]) m' ∧ ∀ f, s.freshly b = .error f → m' = m := by
  rw [run_analysis]
  cases hk : b.name.isKey with
  | false =>
    have hf : s.freshly b = .error .mistyped := by simp [freshly, hk]
    refine ⟨m, by simp [hf, Except.map], ?_, fun _ _ => rfl⟩
    rw [analysed_of_error hf, List.append_nil]
    exact h
  | true =>
    have hfind := h.find?_eq b
    cases hm : m.find? b with
    | some a =>
      obtain ⟨notes, ha⟩ := h.analyses a (List.mem_of_find?_eq_some hm)
      have hname : a.binding.sameName b = true :=
        List.find?_some (p := fun a : Analysis => a.binding.sameName b) hm
      have hf : s.freshly b = .ok (a.rebind b) := by
        rw [freshly, if_pos hk, analysisOf, analysisWith_of_sameName hname, ← analysisOf, ha]
        rfl
      have hrec : Binding.recorded past b = a.binding := by
        rw [Binding.recorded, ← hfind, hm]
        rfl
      refine ⟨m, ?_, by rw [analysed_of_ok hf]; exact h.known hm, fun _ _ => rfl⟩
      rw [hf, hrec]
      exact congrArg (fun x => (Except.ok x, m)) (analysisWith_of ha).rebind.symm
    | none =>
      have hrec : Binding.recorded past b = b := by
        rw [Binding.recorded, ← hfind, hm]
        rfl
      rw [h.repeated, if_pos rfl]
      cases ha : s.analysisWith s.repeated b with
      | error f =>
        have hf : s.freshly b = .error f := by
          rw [freshly, if_pos hk, analysisOf, ha]
          rfl
        refine ⟨m, by simp [hf, Except.map], ?_, fun _ _ => rfl⟩
        rw [analysed_of_error hf, List.append_nil]
        exact h
      | ok r =>
        have hf : s.freshly b = .ok r.1 := by
          rw [freshly, if_pos hk, analysisOf, ha]
          rfl
        refine ⟨⟨m.analyses ++ [r.1], m.log ++ r.2.map (Note.message b.name), some s.repeated⟩,
          ?_, ?_, ?_⟩
        · rw [hf, hrec]
          exact congrArg (fun x => (Except.ok x, _)) (freshly_of hf).rebind.symm
        · rw [analysed_of_ok hf]
          exact h.learn hm ha _
        · intro f hf'
          cases hf.symm.trans hf'

end Remembers

end Session

/-! ## Questions -/

/-- A question to a session. -/
inductive Question where
  /-- Which accesses of a binding are the last. -/
  | analyze (b : Binding)
  /-- How the sites touch a binding. -/
  | scan (b : Binding)
  /-- Where a binding is poisoned. -/
  | escape (b : Binding)
  | movableSites (b : Binding)
  | isMovableAt (b : Binding) (t : Target)
  | report (chosen : Option (List Binding))
  | links (b : Binding)
  | locate (t : Target)
  | nodeSites (t : Target)
  | repeatedSites

/-- The answer to a question. -/
inductive Answer where
  | verdict (v : Verdict)
  | scan (s : Scan)
  | escape (e : Escape)
  | sites (ordinals : List Nat)
  | truth (b : Bool)
  | report (entries : List ReportEntry)
  | links (g : LinkGraph)

/-- The answer where names have been analysed before: a verdict or a scan records the first
binding. -/
def Answer.recording (past : List Binding) : Answer → Answer
  | .verdict v => .verdict { v with binding := .recorded past v.binding }
  | .scan s => .scan { s with binding := .recorded past s.binding }
  | answer => answer

/-- The bindings that a question asks about. One that names no site asks about none. -/
def Question.bindings (s : Session) : Question → List Binding
  | .analyze b | .scan b | .escape b | .movableSites b | .links b => [b]
  | .isMovableAt b t =>
    match s.locate t with
    | .ok _ => [b]
    | .error _ => []
  | .report (some bs) => bs
  | .report none =>
    match s.bindings with
    | .ok bs => bs
    | .error _ => []
  | .locate _ | .nodeSites _ | .repeatedSites => []

namespace Session

/-- The query that a question makes. -/
def ask (s : Session) : Question → Query Answer
  | .analyze b => do
    let a ← s.analysis b
    pure (.verdict a.verdict)
  | .scan b => do
    let a ← s.analysis b
    pure (.scan a.scan)
  | .escape b => do
    let a ← s.analysis b
    pure (.escape a.escape)
  | .movableSites b => do
    let ordinals ← s.movableSites b
    pure (.sites ordinals)
  | .isMovableAt b t => do
    let answer ← s.isMovableAt b t
    pure (.truth answer)
  | .report chosen => do
    let entries ← s.report chosen
    pure (.report entries)
  | .links b => do
    let g ← s.links b
    pure (.links g)
  | .locate t => do
    let ordinals ← ExceptT.mk (pure (s.locate t))
    pure (.sites ordinals)
  | .nodeSites t => do
    let ordinals ← ExceptT.mk (pure (s.nodeSites t))
    pure (.sites ordinals)
  | .repeatedSites => do
    let ordinals ← s.repeatedSites
    pure (.sites ordinals)

/-- The answer to a question. -/
def answer (s : Session) (m : Memory) (q : Question) : Except Fault Answer :=
  ((s.ask q).run.run m).1

/-- The memory after a question. -/
def after (s : Session) (m : Memory) (q : Question) : Memory := ((s.ask q).run.run m).2

/-- The memory after some questions. -/
def memoryAfter (s : Session) (asked : List Question) : Memory := asked.foldl s.after .empty

/-- The entries of a report, made without a memory. -/
def plainReport (s : Session) (entries : List ReportEntry) :
    List Binding → Except Fault (List ReportEntry)
  | [] => .ok entries
  | b :: rest => do
    let a ← s.freshly b
    s.plainReport
      (if entries.any fun e => e.binding.sameName b then entries else entries ++ [s.entryOf b a])
        rest

/-- The sites where a binding may be moved, found without a memory. -/
def plainSites (s : Session) (b : Binding) : Except Fault (List Nat) :=
  (s.freshly b).map (·.eligible)

/-- The answer to a question without a memory. -/
def plainly (s : Session) : Question → Except Fault Answer
  | .analyze b => (s.freshly b).map fun a => .verdict a.verdict
  | .scan b => (s.freshly b).map fun a => .scan a.scan
  | .escape b => (s.freshly b).map fun a => .escape a.escape
  | .movableSites b => (s.plainSites b).map .sites
  | .isMovableAt b t =>
    (s.locate t >>= fun ordinals => (s.plainSites b).map fun sites =>
      ordinals.any sites.contains).map .truth
  | .report (some bs) => (s.plainReport [] bs).map .report
  | .report none => (s.bindings >>= s.plainReport []).map .report
  | .links b => ((s.freshly b).map fun a => (s.annotated a).shown).map .links
  | .locate t => (s.locate t).map .sites
  | .nodeSites t => (s.nodeSites t).map .sites
  | .repeatedSites => .ok (.sites s.repeated)

/-- A query about some bindings gives a result that does not depend on the memory, but for the
binding that is recorded. -/
def Answers {α : Type} (s : Session) (bs : List Binding) (record : List Binding → α → α)
    (q : Query α) (r : Except Fault α) : Prop :=
  ∀ past m, s.Remembers past m → ∃ m', q.run.run m = (r.map (record past), m') ∧
    s.Remembers (past ++ s.analysed bs) m' ∧ ∀ named, r = .error (.unknownSite named) → m' = m

namespace Answers

variable {α β : Type} {s : Session} {bs : List Binding} {b : Binding}

/-- An analysis is the one that is made without a memory, but for the binding that is recorded. -/
theorem analysis (s : Session) (b : Binding) :
    s.Answers [b] (fun past a => a.rebind (.recorded past b)) (s.analysis b) (s.freshly b) := by
  intro past m h
  obtain ⟨m', hrun, hm', hsame⟩ := h.analysis b
  exact ⟨m', hrun, hm', fun named => hsame _⟩

/-- A result that is worked on further. -/
theorem map {record : List Binding → α → α} {record' : List Binding → β → β} {q : Query α}
    {r : Except Fault α} (h : s.Answers bs record q r) (f : α → β)
    (hf : ∀ past a, r = .ok a → f (record past a) = record' past (f a)) :
    s.Answers bs record' (do let a ← q; pure (f a)) (r.map f) := by
  intro past m hm
  obtain ⟨m', hrun, hm', hsame⟩ := h past m hm
  refine ⟨m', ?_, hm', fun named hr => hsame named ?_⟩
  · rw [run_bind, hrun]
    cases r with
    | ok a => exact congrArg (fun x => (Except.ok x, m')) (hf past a rfl)
    | error f => rfl
  · cases r with
    | ok a => cases hr
    | error f =>
      cases hr
      rfl

/-- What asks nothing of the memory. -/
theorem lift (s : Session) (r : Except Fault α) :
    s.Answers [] (fun _ => id) (ExceptT.mk (pure r)) r := by
  intro past m h
  refine ⟨m, ?_, by simpa [analysed] using h, fun _ _ => rfl⟩
  cases r <;> rfl

/-- What is done with something that asks nothing of the memory. If that fails, nothing is
analysed. -/
theorem lift_bind {r : Except Fault α} {k : α → Query β} {k' : α → Except Fault β}
    {record : List Binding → β → β} (hok : ∀ a, r = .ok a → s.Answers bs record (k a) (k' a))
    (herror : ∀ f, r = .error f → bs = []) :
    s.Answers bs record (do let a ← ExceptT.mk (pure r); k a) (r >>= k') := by
  intro past m hm
  cases r with
  | ok a => exact hok a rfl past m hm
  | error f => exact ⟨m, rfl, by simpa [analysed, herror f rfl] using hm, fun _ _ => rfl⟩

/-- What is made of an analysis does not depend on which binding of the name is recorded. -/
theorem ofAnalysis (s : Session) (b : Binding) (f : Analysis → α)
    (hf : ∀ a c, f (a.rebind c) = f a) :
    s.Answers [b] (fun _ => id) (do let a ← s.analysis b; pure (f a)) ((s.freshly b).map f) :=
  (analysis s b).map f fun _ a _ => hf a _

/-- The sites where a binding may be moved are those that are found without a memory. -/
theorem movableSites (s : Session) (b : Binding) :
    s.Answers [b] (fun _ => id) (s.movableSites b) (s.plainSites b) :=
  ofAnalysis s b _ fun _ _ => rfl

/-- The sites that jumps can run again are the same whether they are remembered or found. -/
theorem repeatedSites (s : Session) :
    s.Answers [] (fun _ => id) s.repeatedSites (.ok s.repeated) := by
  intro past m h
  have hrep := h.repeated
  cases hm : m.repeated with
  | some ordinals =>
    rw [hm, Option.getD_some] at hrep
    refine ⟨m, ?_, by simpa [analysed] using h, nofun⟩
    rw [run_repeatedSites, hm, hrep]
    rfl
  | none =>
    refine ⟨{ m with repeated := some s.repeated }, ?_, ?_, nofun⟩
    · rw [run_repeatedSites, hm]
      rfl
    · exact ⟨by simpa [analysed] using h.bindings, h.analyses, rfl⟩

/-- A report fails for no unknown site. -/
theorem fault_of_plainReport {entries : List ReportEntry} {f : Fault}
    (h : s.plainReport entries bs = .error f) (named : String) : f ≠ .unknownSite named := by
  induction bs generalizing entries with
  | nil => cases h
  | cons b rest ih =>
    rcases fault_of_bind h with h | ⟨a, -, h⟩
    · exact fault_of_freshly h named
    · exact ih h

/-- A report holds the same entries whatever is remembered. -/
theorem reportFrom (s : Session) (bs : List Binding) (entries : List ReportEntry) :
    s.Answers bs (fun _ => id) (s.reportFrom entries bs) (s.plainReport entries bs) := by
  intro past m hm
  suffices hrun : ∃ m', (s.reportFrom entries bs).run.run m = (s.plainReport entries bs, m') ∧
      s.Remembers (past ++ s.analysed bs) m' by
    obtain ⟨m', hrun, hm'⟩ := hrun
    refine ⟨m', hrun.trans ?_, hm', fun named hr => absurd rfl (fault_of_plainReport hr named)⟩
    cases s.plainReport entries bs <;> rfl
  induction bs generalizing entries past m with
  | nil => exact ⟨m, rfl, by simpa [analysed] using hm⟩
  | cons b rest ih =>
    obtain ⟨m₁, hrun, hm₁, -⟩ := hm.analysis b
    rw [Session.reportFrom, run_bind, hrun, plainReport]
    cases hb : s.freshly b with
    | error f =>
      rw [analysed_of_error hb] at hm₁ ⊢
      exact ⟨m₁, rfl, hm₁⟩
    | ok a =>
      rw [analysed_of_ok hb] at hm₁ ⊢
      obtain ⟨m', hrun, hm'⟩ := ih
        (if entries.any fun e => e.binding.sameName b then entries else entries ++ [s.entryOf b a])
          _ _ hm₁
      exact ⟨m', hrun, by simpa [analysed] using hm'⟩

/-- An answer that records no binding. -/
theorem toAnswer {q : Query α} {r : Except Fault α} (h : s.Answers bs (fun _ => id) q r)
    (f : α → Answer)
    (hf : ∀ past a, (f a).recording past = f a) :
    s.Answers bs Answer.recording (do let a ← q; pure (f a)) (r.map f) :=
  h.map f fun past a _ => (hf past a).symm

end Answers

/-- Every question is answered as without a memory, but for the binding that is recorded. -/
theorem answers_ask (s : Session) (q : Question) :
    s.Answers (q.bindings s) Answer.recording (s.ask q) (s.plainly q) := by
  cases q with
  | analyze b =>
    refine (Answers.analysis s b).map _ fun past a h => ?_
    simp [Analysis.rebind, Answer.recording, (freshly_of h).2]
  | scan b =>
    refine (Answers.analysis s b).map _ fun past a h => ?_
    simp [Analysis.rebind, Answer.recording, (freshly_of h).1]
  | escape b => exact (Answers.analysis s b).map _ fun _ _ _ => rfl
  | movableSites b => exact (Answers.movableSites s b).toAnswer .sites fun _ _ => rfl
  | isMovableAt b t =>
    refine Answers.toAnswer (Answers.lift_bind (fun ordinals h => ?_) fun f h => ?_)
      .truth fun _ _ => rfl
    · simp only [Question.bindings, h]
      exact (Answers.movableSites s b).map _ fun _ _ _ => rfl
    · simp only [Question.bindings, h]
  | report chosen =>
    cases chosen with
    | some bs => exact (Answers.reportFrom s bs []).toAnswer .report fun _ _ => rfl
    | none =>
      refine Answers.toAnswer (Answers.lift_bind (fun bs h => ?_) fun f h => ?_) .report fun _ _ =>
        rfl
      · simp only [Question.bindings, h]
        exact Answers.reportFrom s bs []
      · simp only [Question.bindings, h]
  | links b => exact (Answers.ofAnalysis s b _ fun _ _ => rfl).toAnswer .links fun _ _ => rfl
  | locate t => exact (Answers.lift s (s.locate t)).toAnswer .sites fun _ _ => rfl
  | nodeSites t => exact (Answers.lift s (s.nodeSites t)).toAnswer .sites fun _ _ => rfl
  | repeatedSites => exact (Answers.repeatedSites s).toAnswer .sites fun _ _ => rfl

/-- What the memory holds after some questions. -/
theorem remembers_memoryAfter (s : Session) (asked : List Question) :
    s.Remembers (asked.flatMap fun q => s.analysed (q.bindings s)) (s.memoryAfter asked) := by
  induction asked using List.reverseRecOn with
  | nil => exact .empty
  | append_singleton asked q ih =>
    obtain ⟨m', hrun, hm', -⟩ := s.answers_ask q _ _ ih
    have hafter : s.memoryAfter (asked ++ [q]) = m' := by
      rw [memoryAfter, List.foldl_append, ← memoryAfter, List.foldl_cons, List.foldl_nil,
        after, hrun]
    rw [hafter, List.flatMap_append, List.flatMap_singleton]
    exact hm'

/-- Whatever was asked before, a question has the answer that it would have as the first one,
except that a verdict or a scan records the first binding of its name that was analysed. The memory
holds the first binding of each name that was analysed, in order, and a question that names no site
leaves it as it is. -/
theorem memory_invisible (s : Session) (asked : List Question) (q : Question) :
    let past := asked.flatMap fun q => s.analysed (q.bindings s)
    let m := s.memoryAfter asked
    s.answer m q = (s.answer .empty q).map (·.recording past) ∧
      m.analyses.map (·.binding) = Binding.firsts past ∧
      ∀ named, s.answer m q = .error (.unknownSite named) → s.after m q = m := by
  intro past m
  have hm := s.remembers_memoryAfter asked
  obtain ⟨m', hrun, -, hsame⟩ := s.answers_ask q past m hm
  obtain ⟨m₀, hrun₀, -, -⟩ := s.answers_ask q [] .empty .empty
  have hempty : s.answer .empty q = s.plainly q := by
    rw [answer, hrun₀]
    cases s.plainly q with
    | ok a => cases a <;> rfl
    | error f => rfl
  refine ⟨?_, hm.bindings, fun named h => ?_⟩
  · rw [hempty, answer, hrun]
  · rw [answer, hrun] at h
    rw [after, hrun]
    refine hsame named ?_
    cases hq : s.plainly q with
    | ok a =>
      rw [hq] at h
      cases h
    | error f =>
      rw [hq] at h
      exact h

end Session

end LastUse
