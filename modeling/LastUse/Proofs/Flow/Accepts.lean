import LastUse.Proofs.Candidate
import LastUse.Proofs.Tree.Reading

/-!
# When the flow through a statement can be drafted

The flow through a statement that has all of its parts (`Stmt.proper`) is drafted unless the
statement is refused as malformed, and this depends on nothing but where its jumps, cases and
connectives stand (`Stmt.fits`) and on its labels: `Stmt.decides_flow`. So the flow graph of a
proper body is built unless one of these is wrong or a jump has no target
(`FlowGraph.decides_ofBody`).
-/

namespace LastUse

/-! ## Decisions -/

/-- A computation succeeds if a condition holds, and otherwise refuses what it is given as
malformed. -/
def Decides {α : Type} (x : Except Fault α) (P : Prop) : Prop :=
  (∃ a, x = .ok a) ∧ P ∨ (∃ m, x = .error (.malformed m)) ∧ ¬ P

namespace Decides

variable {α β : Type} {x : Except Fault α} {k : α → Except Fault β} {P Q : Prop}

/-- A computation that succeeds decides whatever holds. -/
theorem ok (a : α) (h : P) : Decides (.ok a) P := .inl ⟨⟨a, rfl⟩, h⟩

/-- A computation that refuses what it is given decides whatever does not hold. -/
theorem refuse (m : Malformation) (h : ¬ P) : Decides (.error (.malformed m) : Except Fault α) P :=
  .inr ⟨⟨m, rfl⟩, h⟩

/-- A computation that decides a condition fails in no other way. -/
theorem total (h : Decides x P) : (∃ a, x = .ok a) ∨ ∃ m, x = .error (.malformed m) :=
  h.imp (·.1) (·.1)

/-- A computation that decides a condition refuses what it is given exactly where the condition
fails. -/
theorem refused_iff (h : Decides x P) : (∃ m, x = .error (.malformed m)) ↔ ¬ P := by
  rcases h with ⟨⟨a, rfl⟩, hp⟩ | ⟨hm, hp⟩
  · exact iff_of_false (by simp) (not_not.2 hp)
  · exact iff_of_true hm hp

/-- A computation that decides a condition decides every equivalent one. -/
theorem congr (h : Decides x P) (hpq : P ↔ Q) : Decides x Q := by
  rwa [Decides, ← hpq]

/-- Two steps decide both of their conditions. -/
theorem bind (h : Decides x P) (hk : ∀ a, x = .ok a → P → Decides (k a) Q) :
    Decides (x >>= k) (P ∧ Q) := by
  rcases h with ⟨⟨a, rfl⟩, hp⟩ | ⟨⟨m, rfl⟩, hp⟩
  · exact (hk a rfl hp).congr (by simp [hp])
  · exact .refuse m fun h => hp h.1

/-- What follows a step that succeeds decides. -/
theorem following {a : α} (h : x = .ok a) (hk : Decides (k a) P) : Decides (x >>= k) P := by
  rw [h]
  exact hk

/-- A step that always succeeds decides nothing. -/
theorem andThen (h : Decides x P) (hk : ∀ a, ∃ b, k a = .ok b) : Decides (x >>= k) P := by
  refine (h.bind (Q := True) fun a _ _ => ?_).congr (by simp)
  obtain ⟨b, hb⟩ := hk a
  exact hb ▸ .ok b trivial

end Decides

/-! ## Expressions -/

namespace Expr

mutual

/-- Whether no connective occurs in an operand that is moved or whose address is taken. -/
def fits : Expr → Bool
  | .absent | .stray _ | .unlisted | .name .. | .literal .. => true
  | .foreign _ _ parts | .call _ _ parts => allFit parts
  | .unary _ _ e | .member _ e _ => e.fits
  | .binary _ _ l r | .assign _ _ l r | .index _ l r | .logic _ _ l r => l.fits && r.fits
  | .addressOf _ e | .move _ e => !e.connected

/-- Whether no connective occurs in such an operand in several expressions. -/
def allFit : List Expr → Bool
  | [] => true
  | e :: rest => e.fits && allFit rest

end

mutual

/-- What holds no connective holds none in an operand. -/
theorem fits_of_not_connected : ∀ {e : Expr}, e.connected = false → e.fits = true
  | .absent, _ | .stray _, _ | .unlisted, _ | .name .., _ | .literal .., _ => by simp [fits]
  | .foreign _ _ parts, h | .call _ _ parts, h => by
    rw [connected] at h
    rw [fits, allFit_of_not_connected h]
  | .unary _ _ e, h | .member _ e _, h => by
    rw [connected] at h
    rw [fits, fits_of_not_connected h]
  | .addressOf _ e, h | .move _ e, h => by
    rw [connected] at h
    rw [fits, h, Bool.not_false]
  | .binary _ _ l r, h | .assign _ _ l r, h | .index _ l r, h => by
    rw [connected, Bool.or_eq_false_iff] at h
    rw [fits, fits_of_not_connected h.1, fits_of_not_connected h.2, Bool.and_true]
  | .logic .., h => by simp [connected] at h

/-- Several expressions without connectives fit. -/
theorem allFit_of_not_connected : ∀ {es : List Expr}, anyConnected es = false → allFit es = true
  | [], _ => rfl
  | e :: rest, h => by
    rw [anyConnected, Bool.or_eq_false_iff] at h
    rw [allFit, fits_of_not_connected h.1, allFit_of_not_connected h.2, Bool.and_true]

end

mutual

/-- A proper expression is called by a text. -/
theorem caption_of_proper : ∀ {e : Expr}, e.proper = true → ∃ t, e.caption = .ok (.str t)
  | .absent, h | .stray _, h | .unlisted, h | .foreign .., h => by simp [proper] at h
  | .name _ id, h => by
    obtain ⟨t, rfl⟩ := Value.exists_text h
    exact ⟨t, rfl⟩
  | .literal .., _ => ⟨_, rfl⟩
  | .call _ f args, h => by
    rw [proper, Bool.and_eq_true] at h
    obtain ⟨t, rfl⟩ := Value.exists_text h.1
    obtain ⟨cs, hcs, ts, hts⟩ := captions_of_proper h.2
    rw [caption, hcs]
    refine ⟨t ++ "(" ++ Text.joined ", " ts ++ ")", ?_⟩
    show (Value.texts cs >>= _) = _
    rw [hts]
    rfl
  | .unary _ op e, h => by
    rw [proper, Bool.and_eq_true] at h
    obtain ⟨t, rfl⟩ := Value.exists_text h.1
    obtain ⟨u, hu⟩ := caption_of_proper h.2
    rw [caption, hu]
    exact ⟨_, rfl⟩
  | .binary _ op l r, h | .assign _ op l r, h => by
    rw [proper, Bool.and_eq_true, Bool.and_eq_true] at h
    obtain ⟨⟨ho, hl⟩, hr⟩ := h
    obtain ⟨t, rfl⟩ := Value.exists_text ho
    obtain ⟨u, hu⟩ := caption_of_proper hl
    obtain ⟨v, hv⟩ := caption_of_proper hr
    rw [caption, hu, hv]
    exact ⟨_, rfl⟩
  | .member _ base field, h => by
    rw [proper, Bool.and_eq_true] at h
    obtain ⟨t, rfl⟩ := Value.exists_text h.2
    obtain ⟨u, hu⟩ := caption_of_proper h.1
    rw [caption, hu]
    exact ⟨_, rfl⟩
  | .index _ l r, h | .logic _ _ l r, h => by
    rw [proper, Bool.and_eq_true] at h
    obtain ⟨u, hu⟩ := caption_of_proper h.1
    obtain ⟨v, hv⟩ := caption_of_proper h.2
    rw [caption, hu, hv]
    exact ⟨_, rfl⟩
  | .addressOf _ e, h | .move _ e, h => by
    rw [proper] at h
    obtain ⟨u, hu⟩ := caption_of_proper h
    rw [caption, hu]
    exact ⟨_, rfl⟩

/-- The captions of expressions that have all their parts can be made, and are texts. -/
theorem captions_of_proper : ∀ {es : List Expr}, allProper es = true →
    ∃ cs, captions es = .ok cs ∧ ∃ ts, Value.texts cs = .ok ts
  | [], _ => ⟨[], rfl, [], rfl⟩
  | e :: rest, h => by
    rw [allProper, Bool.and_eq_true] at h
    obtain ⟨t, ht⟩ := caption_of_proper h.1
    obtain ⟨cs, hcs, ts, hts⟩ := captions_of_proper h.2
    rw [captions, ht, hcs]
    refine ⟨_, rfl, t :: ts, ?_⟩
    rw [Value.texts, hts]
    rfl

end

/-- A proper expression has a text. -/
theorem text_of_proper {e : Expr} (h : e.proper = true) : ∃ t, e.text = .ok t := by
  obtain ⟨t, ht⟩ := caption_of_proper h
  rw [text, ht]
  exact ⟨t, rfl⟩

mutual

/-- The search for a connective in a proper expression succeeds. -/
theorem shortCircuits_of_proper : ∀ {e : Expr}, e.proper = true → e.shortCircuits = .ok e.connected
  | .absent, h | .stray _, h | .unlisted, h | .foreign .., h => by simp [proper] at h
  | .name .., _ | .literal .., _ | .logic .., _ => by simp [shortCircuits, connected]
  | .call _ f args, h => by
    rw [proper, Bool.and_eq_true] at h
    rw [shortCircuits, connected, someShortCircuits_of_proper h.2]
  | .unary _ op e, h => by
    rw [proper, Bool.and_eq_true] at h
    rw [shortCircuits, connected, shortCircuits_of_proper h.2]
  | .member _ base field, h => by
    rw [proper, Bool.and_eq_true] at h
    rw [shortCircuits, connected, shortCircuits_of_proper h.1]
  | .addressOf _ e, h | .move _ e, h => by
    rw [proper] at h
    rw [shortCircuits, connected, shortCircuits_of_proper h]
  | .binary _ op l r, h | .assign _ op l r, h => by
    rw [proper, Bool.and_eq_true, Bool.and_eq_true] at h
    rw [shortCircuits, connected, shortCircuits_of_proper h.1.2, shortCircuits_of_proper h.2]
    cases l.connected <;> rfl
  | .index _ l r, h => by
    rw [proper, Bool.and_eq_true] at h
    rw [shortCircuits, connected, shortCircuits_of_proper h.1, shortCircuits_of_proper h.2]
    cases l.connected <;> rfl

/-- Whether some of several such expressions short-circuit is whether a connective occurs in
them. -/
theorem someShortCircuits_of_proper : ∀ {es : List Expr}, allProper es = true →
    someShortCircuits es = .ok (anyConnected es)
  | [], _ => rfl
  | e :: rest, h => by
    rw [allProper, Bool.and_eq_true] at h
    rw [someShortCircuits, anyConnected, shortCircuits_of_proper h.1,
      someShortCircuits_of_proper h.2]
    cases e.connected <;> rfl

end

/-- A flow that is drafted in one piece unless a connective occurs. -/
theorem decides_search {h : Host} {e : Expr} {n : Nat} {o : Option Nat} {fr : Frontier}
    {search : Except Fault Bool} {deep : Except Fault Flow} (hs : search = .ok e.connected)
    (hd : e.connected = true → Decides deep (e.fits = true)) :
    Decides (do if ← search then deep else pure (Flow.plain h e n o fr)) (e.fits = true) := by
  rw [hs]
  cases hc : e.connected with
  | true => exact hd hc
  | false => exact .ok _ (fits_of_not_connected hc)

/-- The flow through an operand is drafted if that through its expression is. -/
theorem decides_operand {h : Host} {c : Connective} {e : Expr} (hp : e.proper = true) {n : Nat}
    {fr : Frontier} (hf : ∀ n o fr, Decides (e.flow h n o fr) (e.fits = true)) :
    Decides (Flow.ofOperand h c e n fr (e.flow h)) (e.fits = true) := by
  unfold Flow.ofOperand
  split
  · exact hf _ _ _
  · obtain ⟨t, ht⟩ := text_of_proper hp
    rw [ht]
    exact (hf _ _ _).andThen fun a => ⟨_, rfl⟩

mutual

/-- The flow through a proper expression is drafted unless a connective occurs in an operand that
is moved or whose address is taken. -/
theorem decides_flow {h : Host} : ∀ {e : Expr}, e.proper = true → ∀ (n : Nat) (o : Option Nat)
    (fr : Frontier), Decides (e.flow h n o fr) (e.fits = true)
  | .absent, hp, _, _, _ | .stray _, hp, _, _, _ | .unlisted, hp, _, _, _
  | .foreign .., hp, _, _, _ => by simp [proper] at hp
  | .name .., _, _, _, _ | .literal .., _, _, _, _ => by
    rw [flow]
    exact .ok _ (by simp [fits])
  | .call p f args, hp, n, o, fr => by
    rw [proper, Bool.and_eq_true] at hp
    rw [flow]
    refine decides_search ?_ fun _ => ?_
    · rw [connected, someShortCircuits_of_proper hp.2]
    · rw [fits]
      exact (decides_flowAll hp.2 n o fr).andThen fun a => ⟨_, rfl⟩
  | .unary p op e, hp, n, o, fr => by
    rw [proper, Bool.and_eq_true] at hp
    rw [flow]
    refine decides_search ?_ fun _ => ?_
    · rw [connected, shortCircuits_of_proper hp.2]
    · rw [fits]
      exact (decides_flow hp.2 n o fr).andThen fun a => ⟨_, rfl⟩
  | .member p base f, hp, n, o, fr => by
    rw [proper, Bool.and_eq_true] at hp
    rw [flow]
    refine decides_search ?_ fun _ => ?_
    · rw [connected, shortCircuits_of_proper hp.1]
    · rw [fits]
      exact (decides_flow hp.1 n o fr).andThen fun a => ⟨_, rfl⟩
  | .binary p op l r, hp, n, o, fr | .assign p op l r, hp, n, o, fr => by
    rw [flow]
    refine decides_search (shortCircuits_of_proper hp) fun _ => ?_
    rw [proper, Bool.and_eq_true, Bool.and_eq_true] at hp
    rw [fits, Bool.and_eq_true]
    refine (decides_flow hp.1.2 n o fr).bind fun left _ _ => ?_
    exact ((decides_flow hp.2 _ _ _).andThen fun a => ⟨_, rfl⟩).andThen fun a => ⟨_, rfl⟩
  | .index p l r, hp, n, o, fr => by
    rw [flow]
    refine decides_search (shortCircuits_of_proper hp) fun _ => ?_
    rw [proper, Bool.and_eq_true] at hp
    rw [fits, Bool.and_eq_true]
    refine (decides_flow hp.1 n o fr).bind fun left _ _ => ?_
    exact ((decides_flow hp.2 _ _ _).andThen fun a => ⟨_, rfl⟩).andThen fun a => ⟨_, rfl⟩
  | .addressOf p e, hp, n, o, fr | .move p e, hp, n, o, fr => by
    rw [proper] at hp
    rw [flow]
    refine decides_search ?_ fun hc => ?_
    · rw [connected, shortCircuits_of_proper hp]
    · refine .refuse _ ?_
      rw [connected] at hc
      simp [fits, hc]
  | .logic p c l r, hp, n, o, fr => by
    rw [proper, Bool.and_eq_true] at hp
    rw [flow, fits, Bool.and_eq_true]
    refine (decides_operand hp.1 (decides_flow hp.1)).bind fun left _ _ => ?_
    exact (decides_operand hp.2 (decides_flow hp.2)).andThen fun a => ⟨_, rfl⟩

/-- The flow through several expressions is drafted exactly if they fit. -/
theorem decides_flowAll {h : Host} : ∀ {es : List Expr}, allProper es = true → ∀ (n : Nat)
    (o : Option Nat) (fr : Frontier), Decides (flowAll h es n o fr) (allFit es = true)
  | [], _, _, _, _ => by
    rw [flowAll]
    exact .ok _ rfl
  | e :: rest, hp, n, o, fr => by
    rw [allProper, Bool.and_eq_true] at hp
    rw [flowAll, allFit, Bool.and_eq_true]
    refine (decides_flow hp.1 n o fr).bind fun first _ _ => ?_
    exact (decides_flowAll hp.2 _ _ _).andThen fun a => ⟨_, rfl⟩

end

/-- A missing expression fits. -/
theorem fits_of_isAbsent {e : Expr} (h : e.isAbsent = true) : e.fits = true := by
  cases e <;> first | rfl | cases h

/-- An expression that has all its parts has a text, and so has a missing one. -/
theorem text_of_properOrAbsent {e : Expr} (h : e.properOrAbsent = true) : ∃ t, e.text = .ok t := by
  rcases Bool.or_eq_true_iff.1 h with ha | hp
  · cases e <;> first | exact ⟨_, rfl⟩ | cases ha
  · exact text_of_proper hp

end Expr

namespace Stmt

variable {h : Host} {e : Expr} {n : Nat} {fr : Frontier}

/-- The head of a statement that evaluates an expression is drafted exactly if the expression
fits. -/
theorem decides_evaluatingHead (hp : e.proper = true) :
    Decides (evaluatingHead h e n fr) (e.fits = true) :=
  (Expr.decides_flow hp _ _ _).andThen fun _ => ⟨_, rfl⟩

/-- The head of a statement that may have no expression is drafted exactly if the expression
fits. -/
theorem decides_optionalHead (hp : e.properOrAbsent = true) :
    Decides (optionalHead h e n fr) (e.fits = true) := by
  unfold optionalHead
  split
  · next ha => exact .ok _ (Expr.fits_of_isAbsent ha)
  · next ha => exact decides_evaluatingHead ((Bool.or_eq_true_iff.1 hp).resolve_left ha)

/-- The head of a loop is drafted exactly if its condition fits. -/
theorem decides_loopHead (hp : e.properOrAbsent = true) :
    Decides (loopHead h e n fr) (e.fits = true) := by
  unfold loopHead
  split
  · next ha => exact .ok _ (Expr.fits_of_isAbsent ha)
  · next ha => exact decides_evaluatingHead ((Bool.or_eq_true_iff.1 hp).resolve_left ha)

/-- The flow through the start of a loop is drafted exactly if the start fits. -/
theorem decides_initFlow (hp : e.properOrAbsent = true) :
    Decides (initFlow h e n fr) (e.fits = true) := by
  unfold initFlow
  split
  · next ha => exact .ok _ (Expr.fits_of_isAbsent ha)
  · next ha =>
    have hp := (Bool.or_eq_true_iff.1 hp).resolve_left ha
    obtain ⟨t, ht⟩ := Expr.text_of_proper hp
    rw [ht]
    exact (Expr.decides_flow hp _ _ _).andThen fun _ => ⟨_, rfl⟩

/-- The flow through the step of a loop is drafted exactly if the step fits. -/
theorem decides_stepFlow (hp : e.properOrAbsent = true) :
    Decides (stepFlow h e n fr) (e.fits = true) := by
  unfold stepFlow
  split
  · next ha => exact .ok _ (Expr.fits_of_isAbsent ha)
  · next ha =>
    have hp := (Bool.or_eq_true_iff.1 hp).resolve_left ha
    obtain ⟨t, ht⟩ := Expr.text_of_proper hp
    rw [ht]
    exact (Expr.decides_flow hp _ _ _).andThen fun _ => ⟨_, rfl⟩

end Stmt

/-! ## Statements -/

namespace Stmt

mutual

/-- Whether every `break` of a statement leaves a loop or a switch and every `continue` goes on
with a loop, each case stands in a switch, and no connective occurs in an operand that is moved or
whose address is taken. -/
def fits (breakable inLoop : Bool) : Stmt → Bool
  | .absent => true
  | .stray _ | .unlisted | .misnamed _ | .caseArm .. => false
  | .block _ body => allFit breakable inLoop body
  | .exprStmt _ e | .decl _ _ e | .ret _ e => e.fits
  | .ifElse _ cond thenArm elseArm =>
    cond.fits && thenArm.fits breakable inLoop && elseArm.fits breakable inLoop
  | .whileLoop _ cond body | .doWhile _ body cond => cond.fits && body.fits true true
  | .forLoop _ before init cond step body =>
    before.fits breakable inLoop && init.fits && cond.fits && step.fits && body.fits true true
  | .foreach _ _ iterable body => iterable.fits && body.fits true true
  | .switch _ subject arms => subject.fits && armsFit true inLoop arms
  | .labeled _ _ body => body.fits breakable inLoop
  | .goto .. => true
  | .brk _ => breakable
  | .cont _ => inLoop

/-- Whether this holds of several statements. -/
def allFit (breakable inLoop : Bool) : List Stmt → Bool
  | [] => true
  | s :: rest => s.fits breakable inLoop && allFit breakable inLoop rest

/-- Whether this holds of the bodies of cases. -/
def armsFit (breakable inLoop : Bool) : List Stmt → Bool
  | [] => true
  | .caseArm _ _ body :: rest => allFit breakable inLoop body && armsFit breakable inLoop rest
  | _ :: _ => false

end

mutual

/-- The labels that a statement and the statements in it carry, in order. -/
def carried : Stmt → List String
  | .labeled _ label body => label :: body.carried
  | .block _ body | .caseArm _ _ body => carriedAll body
  | .switch _ _ arms => carriedAll arms
  | .ifElse _ _ thenArm elseArm => thenArm.carried ++ elseArm.carried
  | .whileLoop _ _ body | .doWhile _ body _ | .foreach _ _ _ body => body.carried
  | .forLoop _ before _ _ _ body => before.carried ++ body.carried
  | .absent | .stray _ | .unlisted | .misnamed _ | .exprStmt .. | .decl .. | .goto .. | .ret ..
  | .brk _ | .cont _ => []

/-- The labels that several statements carry, in order. -/
def carriedAll : List Stmt → List String
  | [] => []
  | s :: rest => s.carried ++ carriedAll rest

end

/-- The labels in a loop are those in its parts, in order. -/
theorem labels_closeLoop {p : Path} {n : Nat} {head : Head} {body behind : Passage} :
    (closeLoop p n head body behind).draft.labels
      = head.draft.labels ++ body.draft.labels ++ behind.draft.labels := by
  simp [closeLoop, Draft.asLoop, Draft.withoutBreaks, Draft.withoutContinues, Draft.ofEdges]

/-- The labels that the flow through a statement drafts are those of its labelled statements. -/
theorem carried_flow : FlowInvariant (fun _ s _ _ r => r.draft.labels.map (·.1) = s.carried)
    (fun _ ss _ _ r => r.draft.labels.map (·.1) = carriedAll ss)
    (fun _ arms _ _ _ r => r.draft.labels.map (·.1) = carriedAll arms) where
  absent := rfl
  block h := h
  exprStmt hh := by simp [(Head.Laid.optional hh).hosted.labels, carried]
  decl hh := by simp [(Head.Laid.optional hh).hosted.labels, carried]
  ifElse hh hy hn := by
    simp [(Head.Laid.evaluating hh).hosted.labels, Draft.asBranch, hy, hn, carried]
  whileLoop hh hb := by simp [labels_closeLoop, (Head.Laid.loop hh).hosted.labels, hb, carried]
  forLoop hf hi _ hh hb hs := by
    simp [labels_closeLoop, (Passage.Evaluates.init hi).hosted.labels,
      (Head.Laid.loop hh).hosted.labels, (Passage.Evaluates.step hs).hosted.labels, hf, hb,
      carried]
  foreach hh hb := by simp [labels_closeLoop, (Head.Laid.evaluating hh).hosted.labels, hb, carried]
  doWhile hb hh := by
    simp [closeDoWhile, Draft.asLoop, Draft.withoutBreaks, Draft.withoutContinues, Draft.ofEdges,
      (Head.Laid.loop hh).hosted.labels, hb, carried]
  switch hh ha := by
    simp [closeSwitch, Draft.asBranch, Draft.withoutBreaks,
      (Head.Laid.evaluating hh).hosted.labels, ha, carried]
  labeled _ hb := by simp [labelDraft, hb, carried]
  goto := rfl
  ret hh _ := by simp [closeReturn, (Head.Laid.optional hh).hosted.labels, carried]
  brk _ := rfl
  cont _ := rfl
  nil := rfl
  cons hf hl := by simp [hf, hl, carriedAll]
  noArms := rfl
  arm hf hl := by simp [Arms.cons, hf, hl, carriedAll, carried]

/-- The head of a proper statement has a text. -/
theorem headText_of_proper {s : Stmt} (hp : s.proper = true) : ∃ t, s.headText = .ok t := by
  cases s with
  | absent | stray | unlisted | misnamed => simp [proper] at hp
  | block | caseArm | labeled | goto | brk | cont => exact ⟨_, rfl⟩
  | exprStmt p e =>
    obtain ⟨t, ht⟩ := Expr.text_of_proper (by simpa only [proper] using hp)
    rw [headText, ht]
    exact ⟨_, rfl⟩
  | decl p name e | ret p e =>
    obtain ⟨t, ht⟩ := Expr.text_of_properOrAbsent (by simpa only [proper] using hp)
    cases e with
    | absent => exact ⟨_, rfl⟩
    | _ =>
      simp only [headText, ht]
      exact ⟨_, rfl⟩
  | ifElse p e | whileLoop p e | doWhile p _ e | foreach p _ e | switch p e =>
    simp only [proper, Bool.and_eq_true] at hp
    obtain ⟨t, ht⟩ := Expr.text_of_proper (e := e) (by simp only [hp])
    rw [headText, ht]
    exact ⟨_, rfl⟩
  | forLoop p before init cond step body =>
    simp only [proper, Bool.and_eq_true] at hp
    obtain ⟨t, ht⟩ := Expr.text_of_properOrAbsent hp.1.1.2
    obtain ⟨u, hu⟩ := Expr.text_of_properOrAbsent hp.1.2
    rw [headText, ht, hu]
    exact ⟨_, rfl⟩

/-- A statement that has all its parts can be the host of sites. -/
theorem host_of_proper {s : Stmt} (hp : s.proper = true) (sc : Scope) (p : Path) (kind : SiteKind)
    (inReturn : Bool) : ∃ h, host sc s p kind inReturn = .ok h := by
  obtain ⟨t, ht⟩ := headText_of_proper hp
  rw [host, ht]
  exact ⟨_, rfl⟩

/-! ### What is accepted where -/

/-- A statement fits where it stands, and it carries no label twice and none of those in use. -/
def Welcome (sc : Scope) (used : List String) (s : Stmt) : Prop :=
  s.fits sc.breakable sc.inLoop = true ∧ (used ++ s.carried).Nodup

/-- The same of several statements, one after the other. -/
def AllWelcome (sc : Scope) (used : List String) (ss : List Stmt) : Prop :=
  allFit sc.breakable sc.inLoop ss = true ∧ (used ++ carriedAll ss).Nodup

/-- The same of the cases of a switch. -/
def ArmsWelcome (sc : Scope) (used : List String) (arms : List Stmt) : Prop :=
  armsFit sc.breakable sc.inLoop arms = true ∧ (used ++ carriedAll arms).Nodup

/-- Behind a draft the labels in use are those from before and those of the draft. -/
theorem labels_after {c : Cursor} {d : Draft} {used ls : List String} (hc : c.labels = used)
    (hd : d.labels.map (·.1) = ls) : (c.after d).labels = used ++ ls := by
  rw [Cursor.after, hc, hd]

/-- A draft with the sites of a single statement has no labels. -/
theorem labels_after_hosted {c : Cursor} {d : Draft} {used : List String} {h : Host} {n : Nat}
    (hc : c.labels = used) (hd : d.Hosted h n) : (c.after d).labels = used := by
  rw [Cursor.after, hd.labels, List.map_nil, List.append_nil, hc]

/-- A part of a proper statement that is there is proper. -/
theorem proper_of_present {s : Stmt} (hs : (s.isAbsent || s.proper) = true) (hne : ¬ s = .absent) :
    s.proper = true := by
  refine (Bool.or_eq_true_iff.1 hs).resolve_left fun ha => ?_
  cases s with
  | absent => exact hne rfl
  | _ => cases ha

/-- The flow through a statement that may be missing, and what is done with it. -/
theorem decides_optional {α : Type} {sc : Scope} {s : Stmt} {c : Cursor} {fr : Frontier}
    {k : Passage → Except Fault α} {x : Except Fault α}
    (hx : x = match s with
      | .absent => (do
        let r ← pure (Passage.mk {} fr)
        k r)
      | s => do
        let r ← Stmt.flow sc s c fr
        k r)
    {used : List String} {Q : Prop} (hs : (s.isAbsent || s.proper) = true) (hc : used.Nodup)
    (hf : s.proper = true → Decides (s.flow sc c fr) (s.Welcome sc used))
    (hk : ∀ r, r.draft.labels.map (·.1) = s.carried → s.Welcome sc used → Decides (k r) Q) :
    Decides x (s.Welcome sc used ∧ Q) := by
  subst hx
  split
  · have hw : absent.Welcome sc used := ⟨rfl, by simpa [carried] using hc⟩
    exact (hk _ rfl hw).congr (by simp [hw])
  · next hne =>
    exact (hf (proper_of_present hs hne)).bind fun r hr hw => hk r (carried_flow.flow hr) hw

variable {exits : Bool}

mutual

/-- The flow through a proper statement is drafted exactly if the statement is welcome where it
stands. -/
theorem decides_flow : ∀ {s : Stmt}, s.proper = true → ∀ {sc : Scope} {c : Cursor} {fr : Frontier}
    {used : List String}, sc.exitEdges = .ok exits → c.labels = used → used.Nodup →
    Decides (s.flow sc c fr) (s.Welcome sc used)
  | .absent, hp, _, _, _, _, _, _, _ | .stray _, hp, _, _, _, _, _, _, _
  | .unlisted, hp, _, _, _, _, _, _, _
  | .misnamed _, hp, _, _, _, _, _, _, _ => by simp [proper] at hp
  | .caseArm .., _, _, _, _, _, _, _, _ => by
    rw [flow]
    exact .refuse _ fun h => by simp [Welcome, fits] at h
  | .block _ body, hp, sc, c, fr, used, he, hc, hu => by
    rw [proper] at hp
    rw [flow]
    exact (decides_flowAll hp he hc hu).congr (by simp [Welcome, AllWelcome, fits, carried])
  | .exprStmt p e, hp, sc, c, fr, used, he, hc, hu => by
    obtain ⟨h, hh⟩ := host_of_proper hp sc p sc.ordinaryKind false
    rw [proper] at hp
    rw [flow]
    refine .following hh (((decides_optionalHead (Expr.properOrAbsent_of_proper hp)).andThen
      fun _ => ⟨_, rfl⟩).congr ?_)
    simp [Welcome, fits, carried, hu]
  | .decl p name e, hp, sc, c, fr, used, he, hc, hu => by
    obtain ⟨h, hh⟩ := host_of_proper hp sc p sc.ordinaryKind false
    rw [proper] at hp
    rw [flow]
    refine .following hh (((decides_optionalHead hp).andThen fun _ => ⟨_, rfl⟩).congr ?_)
    simp [Welcome, fits, carried, hu]
  | .ret p e, hp, sc, c, fr, used, he, hc, hu => by
    obtain ⟨h, hh⟩ := host_of_proper hp sc p .ret true
    rw [proper] at hp
    rw [flow]
    refine .following hh (((decides_optionalHead hp).andThen fun _ => ?_).congr ?_)
    · rw [he]
      exact ⟨_, rfl⟩
    · simp [Welcome, fits, carried, hu]
  | .ifElse p cond thenArm elseArm, hp, sc, c, fr, used, he, hc, hu => by
    obtain ⟨h, hh⟩ := host_of_proper hp sc p sc.ordinaryKind false
    simp only [proper, Bool.and_eq_true] at hp
    obtain ⟨⟨hcond, hyes⟩, hno⟩ := hp
    rw [flow]
    refine .following hh (Decides.congr ((decides_evaluatingHead hcond).bind
      (Q := thenArm.Welcome sc used ∧ elseArm.Welcome sc (used ++ thenArm.carried) ∧ True)
      fun head hhead _ => ?_) ?_)
    · have hl := labels_after_hosted hc (Head.Laid.evaluating hhead).hosted
      refine (decides_flow hyes he hl hu).bind fun yes hy hw => ?_
      have hl := labels_after hl (carried_flow.flow hy)
      exact decides_optional rfl hno hw.2 (fun hp => decides_flow hp he hl hw.2) fun _ _ _ =>
        .ok _ trivial
    · simp only [Welcome, fits, carried, Bool.and_eq_true, ← List.append_assoc]
      have hprefix :
          (used ++ thenArm.carried ++ elseArm.carried).Nodup → (used ++ thenArm.carried).Nodup :=
        List.Nodup.of_append_left
      tauto
  | .whileLoop p cond body, hp, sc, c, fr, used, he, hc, hu => by
    obtain ⟨h, hh⟩ := host_of_proper hp sc.inLoopBody p .loopHeader false
    simp only [proper, Bool.and_eq_true] at hp
    rw [flow]
    refine .following hh
      (Decides.congr ((decides_loopHead (Expr.properOrAbsent_of_proper hp.1)).bind
      (Q := body.Welcome sc.inLoopBody used) fun head hhead _ => ?_) ?_)
    · have hl := labels_after_hosted hc (Head.Laid.loop hhead).hosted
      have hin : sc.inLoopBody.exitEdges = .ok exits := he
      exact (decides_flow hp.2 hin hl hu).andThen fun _ => ⟨_, rfl⟩
    · simp [Welcome, fits, carried, Scope.inLoopBody, and_assoc]
  | .doWhile p body cond, hp, sc, c, fr, used, he, hc, hu => by
    obtain ⟨h, hh⟩ := host_of_proper hp sc.inLoopBody p .loopHeader false
    simp only [proper, Bool.and_eq_true] at hp
    rw [flow]
    have hin : sc.inLoopBody.exitEdges = .ok exits := he
    refine Decides.congr ((decides_flow hp.2 hin hc hu).bind
      (Q := cond.fits = true) fun _ _ _ => .following hh ?_) ?_
    · exact (decides_loopHead (Expr.properOrAbsent_of_proper hp.1)).andThen fun _ => ⟨_, rfl⟩
    · simp only [Welcome, fits, carried, Scope.inLoopBody, Bool.and_eq_true]
      tauto
  | .foreach p var iterable body, hp, sc, c, fr, used, he, hc, hu => by
    obtain ⟨h, hh⟩ := host_of_proper hp sc.inLoopBody p .loopHeader false
    simp only [proper, Bool.and_eq_true] at hp
    rw [flow]
    refine .following hh (Decides.congr ((decides_evaluatingHead hp.1).bind
      (Q := body.Welcome sc.inLoopBody used) fun head hhead _ => ?_) ?_)
    · have hl := labels_after_hosted hc (Head.Laid.evaluating hhead).hosted
      have hin : sc.inLoopBody.exitEdges = .ok exits := he
      exact (decides_flow hp.2 hin hl hu).andThen fun _ => ⟨_, rfl⟩
    · simp [Welcome, fits, carried, Scope.inLoopBody, and_assoc]
  | .forLoop p before init cond step body, hp, sc, c, fr, used, he, hc, hu => by
    obtain ⟨h, hh⟩ := host_of_proper hp sc p sc.ordinaryKind false
    simp only [proper, Bool.and_eq_true] at hp
    obtain ⟨⟨⟨⟨hbefore, hinit⟩, hcond⟩, hstep⟩, hbody⟩ := hp
    unfold flow
    refine Decides.congr (decides_optional (Q := init.fits = true ∧ cond.fits = true ∧
      body.Welcome sc.inLoopBody (used ++ before.carried) ∧ step.fits = true) rfl hbefore hu
      (fun hp => decides_flow hp he hc hu) fun first hf hw => .following hh ?_) ?_
    · have hl := labels_after hc hf
      refine (decides_initFlow hinit).bind fun start hstart _ => ?_
      have hl := labels_after_hosted hl (Passage.Evaluates.init hstart).hosted
      refine (decides_loopHead hcond).bind fun head hhead _ => ?_
      have hl := labels_after_hosted hl (Head.Laid.loop hhead).hosted
      have hin : sc.inLoopBody.exitEdges = .ok exits := he
      refine (decides_flow hbody hin hl hw.2).bind fun _ _ _ => ?_
      exact (decides_stepFlow hstep).andThen fun _ => ⟨_, rfl⟩
    · simp only [Welcome, fits, carried, Scope.inLoopBody, Bool.and_eq_true, ← List.append_assoc]
      have hprefix :
          (used ++ before.carried ++ body.carried).Nodup → (used ++ before.carried).Nodup :=
        List.Nodup.of_append_left
      tauto
  | .switch p subject arms, hp, sc, c, fr, used, he, hc, hu => by
    obtain ⟨h, hh⟩ := host_of_proper hp sc p sc.ordinaryKind false
    simp only [proper, Bool.and_eq_true] at hp
    rw [flow]
    refine .following hh (Decides.congr ((decides_evaluatingHead hp.1).bind
      (Q := ArmsWelcome sc.inSwitchArm used arms) fun head hhead _ => ?_) ?_)
    · have hl := labels_after_hosted hc (Head.Laid.evaluating hhead).hosted
      have hin : sc.inSwitchArm.exitEdges = .ok exits := he
      exact (decides_flowArms hp.2 hin hl hu).andThen fun _ => ⟨_, rfl⟩
    · simp [Welcome, ArmsWelcome, fits, carried, Scope.inSwitchArm, and_assoc]
  | .labeled p label body, hp, sc, c, fr, used, he, hc, hu => by
    obtain ⟨h, hh⟩ := host_of_proper hp sc p .label false
    rw [proper] at hp
    rw [flow, hc]
    split
    · next hl =>
      have hl : label ∈ used := by simpa using hl
      refine .refuse _ fun hw => ?_
      have hnodup := hw.2
      rw [carried, List.append_cons] at hnodup
      exact (List.nodup_append.1 hnodup.of_append_left).2.2 label hl label (by simp) rfl
    · next hl =>
      have hfresh : (used ++ [label]).Nodup := by
        rw [List.nodup_append_comm, List.singleton_append, List.nodup_cons]
        exact ⟨by simpa using hl, hu⟩
      refine .following hh ?_
      split
      · exact .ok _ ⟨rfl, hfresh⟩
      · next hne =>
        have hl : (c.after (labelDraft sc p label h.label c.next fr)).labels = used ++ [label] :=
          labels_after hc rfl
        refine Decides.congr ((decides_flow (proper_of_present hp hne) he hl hfresh).andThen
          fun _ => ⟨_, rfl⟩) ?_
        simp [Welcome, fits, carried]
  | .goto p label, hp, sc, c, fr, used, he, hc, hu => by
    obtain ⟨h, hh⟩ := host_of_proper hp sc p .goto false
    rw [flow]
    exact .following hh (.ok _ ⟨rfl, by simpa [carried] using hu⟩)
  | .brk p, hp, sc, c, fr, used, he, hc, hu => by
    obtain ⟨h, hh⟩ := host_of_proper hp sc p sc.ordinaryKind false
    rw [flow]
    cases hb : sc.breakable with
    | false => exact .refuse _ fun hw => by simp [Welcome, fits, hb] at hw
    | true => exact .following hh (.ok _ ⟨hb, by simpa [carried] using hu⟩)
  | .cont p, hp, sc, c, fr, used, he, hc, hu => by
    obtain ⟨h, hh⟩ := host_of_proper hp sc p sc.ordinaryKind false
    rw [flow]
    cases hl : sc.inLoop with
    | false => exact .refuse _ fun hw => by simp [Welcome, fits, hl] at hw
    | true => exact .following hh (.ok _ ⟨hl, by simpa [carried] using hu⟩)

/-- The flow through several statements is drafted exactly if they are welcome. -/
theorem decides_flowAll : ∀ {ss : List Stmt}, allProper ss = true → ∀ {sc : Scope} {c : Cursor}
    {fr : Frontier} {used : List String}, sc.exitEdges = .ok exits → c.labels = used → used.Nodup →
    Decides (flowAll sc ss c fr) (AllWelcome sc used ss)
  | [], _, _, _, _, _, _, _, hu => by
    rw [flowAll]
    exact .ok _ ⟨rfl, by simpa [carriedAll] using hu⟩
  | s :: rest, hp, sc, c, fr, used, he, hc, hu => by
    rw [allProper, Bool.and_eq_true] at hp
    rw [flowAll]
    refine Decides.congr ((decides_flow hp.1 he hc hu).bind
      (Q := AllWelcome sc (used ++ s.carried) rest) fun first hf hw => ?_) ?_
    · exact (decides_flowAll hp.2 he (labels_after hc (carried_flow.flow hf)) hw.2).andThen
        fun _ => ⟨_, rfl⟩
    · simp only [Welcome, AllWelcome, allFit, carriedAll, Bool.and_eq_true, ← List.append_assoc]
      have hprefix : (used ++ s.carried ++ carriedAll rest).Nodup → (used ++ s.carried).Nodup :=
        List.Nodup.of_append_left
      tauto

/-- The flow through the cases of a switch is drafted exactly if they are welcome. -/
theorem decides_flowArms :
    ∀ {arms : List Stmt}, armsProper arms = true → ∀ {sc : Scope} {c : Cursor}
    {subject fallthrough : Frontier} {used : List String}, sc.exitEdges = .ok exits →
      c.labels = used →
    used.Nodup → Decides (flowArms sc arms c subject fallthrough) (ArmsWelcome sc used arms)
  | [], _, _, _, _, _, _, _, _, hu => by
    rw [flowArms]
    exact .ok _ ⟨rfl, by simpa [carriedAll] using hu⟩
  | arm :: rest, hp, sc, c, _, _, used, he, hc, hu => by
    cases arm with
    | caseArm p isDefault body =>
      rw [armsProper, Bool.and_eq_true] at hp
      rw [flowArms]
      refine Decides.congr ((decides_flowAll hp.1 he hc hu).bind
        (Q := ArmsWelcome sc (used ++ carriedAll body) rest) fun first hf hw => ?_) ?_
      · exact (decides_flowArms hp.2 he (labels_after hc (carried_flow.flowAll hf)) hw.2).andThen
          fun _ => ⟨_, rfl⟩
      · simp only [AllWelcome, ArmsWelcome, armsFit, carried, carriedAll, Bool.and_eq_true,
          ← List.append_assoc]
        have hprefix :
            (used ++ carriedAll body ++ carriedAll rest).Nodup → (used ++ carriedAll body).Nodup :=
          List.Nodup.of_append_left
        tauto
    | _ => simp [armsProper] at hp

end

end Stmt

/-! ## Functions -/

namespace FlowGraph

/-- Jumps have targets exactly if every label that is named is carried. -/
theorem decides_jumpsOf {labels : List (String × Nat)} : ∀ {gotos : List (Nat × String)},
    Decides (jumpsOf labels gotos) (∀ l ∈ gotos.map (·.2), l ∈ labels.map (·.1))
  | [] => .ok _ (by simp)
  | (source, label) :: rest => by
    rw [jumpsOf]
    split
    · next hl =>
      refine .refuse _ fun hall => ?_
      obtain ⟨entry, hmem, heq⟩ := List.mem_map.1 (hall label (by simp))
      have hne := List.lookup_eq_none_iff.1 hl entry hmem
      simp [heq] at hne
    · next target hl =>
      have hmem : label ∈ labels.map (·.1) := by
        obtain ⟨before, behind, rfl, -⟩ := List.lookup_eq_some_iff.1 hl
        simp
      refine Decides.congr (decides_jumpsOf.andThen fun _ => ⟨_, rfl⟩) ?_
      rw [List.map_cons, List.forall_mem_cons]
      exact ⟨fun h => ⟨hmem, h⟩, fun h => h.2⟩

/-- The flow graph of a proper body is built exactly if the body fits, carries no label twice and
names none that it does not carry. -/
theorem decides_ofBody {body : Stmt} (hp : body.proper = true) (exits : Bool) :
    Decides (ofBody (.ok exits) body)
      ((body.fits false false = true ∧ body.carried.Nodup) ∧
        ∀ l ∈ body.gotos, l ∈ body.carried) := by
  have hbody : Decides (body.flow (.outermost (.ok exits)) ⟨0, []⟩ [(.start, .next)])
      (body.Welcome (.outermost (.ok exits)) []) := Stmt.decides_flow hp rfl rfl List.nodup_nil
  refine (hbody.bind fun whole hw _ => ?_)
  rw [← Stmt.gotos_flow.flow hw, ← Stmt.carried_flow.flow hw]
  exact .following rfl (decides_jumpsOf.andThen fun _ => ⟨_, rfl⟩)

end FlowGraph

end LastUse
