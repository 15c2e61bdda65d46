import LastUse.Proofs.Flow.Layout

/-!
# Stretches of sites

The sites of a function come in stretches, each of which belongs to one statement: the head of a
statement is a stretch, and a `for` loop has one more for its initialiser and one for its step.
`Stmt.stretches` lists the statements in the order of their stretches, with whether each declares a
name, and the flow through a statement has just these stretches (`Stmt.stretched`). A statement
that declares a name has no other stretch than its head, so all sites of it come before all sites
of the statements that declare names behind it (`Stretched.pairwise`).
-/

namespace LastUse

/-- Sites in stretches, each of which belongs to the statement at a place. A stretch may be
empty. -/
inductive Stretched : List (Path × Bool) → List Site → Prop
  | nil : Stretched [] []
  | cons {x : Path × Bool} {xs : List (Path × Bool)} {a b : List Site} :
      (∀ s ∈ a, s.stmt = x.1) → Stretched xs b → Stretched (x :: xs) (a ++ b)

namespace Stretched

variable {xs ys : List (Path × Bool)} {a b : List Site} {d : Draft} {h : Host} {n : Nat} {p : Path}
  {declares : Bool}

/-- Stretches behind stretches are stretches. -/
theorem append (ha : Stretched xs a) (hb : Stretched ys b) : Stretched (xs ++ ys) (a ++ b) := by
  induction ha with
  | nil => exact hb
  | cons hs _ ih =>
    rw [List.cons_append, List.append_assoc]
    exact .cons hs ih

/-- One stretch. -/
theorem single (hs : ∀ s ∈ a, s.stmt = p) : Stretched [(p, declares)] a := by
  rw [← List.append_nil a]
  exact .cons hs .nil

/-- The sites of a statement's own expressions are a stretch. -/
theorem hosted (hd : d.Hosted h n) : Stretched [(h.stmt, declares)] d.sites :=
  single fun s hs => (hd.host s hs).1

/-- Every site belongs to the statement of a stretch. -/
theorem exists_mem (h : Stretched xs a) {s : Site} (hs : s ∈ a) : ∃ x ∈ xs, s.stmt = x.1 := by
  induction h with
  | nil => cases hs
  | @cons x xs a b ha _ ih =>
    rcases List.mem_append.1 hs with hs | hs
    · exact ⟨x, List.mem_cons_self, ha s hs⟩
    · obtain ⟨y, hy, heq⟩ := ih hs
      exact ⟨y, List.mem_cons_of_mem _ hy, heq⟩

/-- Sites may change in other things than their statements. -/
theorem map {f : Site → Site} (hf : ∀ s, (f s).stmt = s.stmt) (h : Stretched xs a) :
    Stretched xs (a.map f) := by
  induction h with
  | nil => exact .nil
  | cons ha _ ih =>
    rw [List.map_append]
    refine .cons (fun s hs => ?_) ih
    obtain ⟨t, ht, rfl⟩ := List.mem_map.1 hs
    rw [hf, ha t ht]

/-- If no other stretch belongs to a statement that declares a name, then all sites of such a
statement come before those of the next ones. -/
theorem pairwise (h : Stretched xs a) (ha : a.Pairwise (·.ordinal < ·.ordinal))
    (hxs : xs.Pairwise fun x y => x.2 = true ∨ y.2 = true → x.1 ≠ y.1) :
    xs.Pairwise fun x y => x.2 = true → y.2 = true →
      ∀ s ∈ a, ∀ t ∈ a, s.stmt = x.1 → t.stmt = y.1 → s.ordinal < t.ordinal := by
  induction h with
  | nil => exact .nil
  | @cons x xs a b hx hb ih =>
    obtain ⟨-, hab, hlt⟩ := List.pairwise_append.1 ha
    obtain ⟨hne, hxs⟩ := List.pairwise_cons.1 hxs
    -- The sites of a later statement that declares a name are not in the first stretch.
    have hlater : ∀ y ∈ xs, y.2 = true → ∀ s ∈ a ++ b, s.stmt = y.1 → s ∈ b := by
      intro y hy hdecl s hs hstmt
      refine (List.mem_append.1 hs).resolve_left fun hs => hne y hy (.inr hdecl) ?_
      rw [← hx s hs, hstmt]
    refine List.pairwise_cons.2 ⟨fun y hy hdx hdy s hs t ht hsx hty => ?_, ?_⟩
    · have hs : s ∈ a := by
        refine (List.mem_append.1 hs).resolve_right fun hs => ?_
        obtain ⟨z, hz, hsz⟩ := hb.exists_mem hs
        exact hne z hz (.inl hdx) (hsx.symm.trans hsz)
      exact hlt s hs t (hlater y hy hdy t ht hty)
    · refine (ih hab hxs).imp_of_mem fun {y z} hy hz hyz hdy hdz s hs t ht hsy htz => ?_
      exact hyz hdy hdz s (hlater y hy hdy s hs hsy) t (hlater z hz hdz t ht htz) hsy htz

end Stretched

namespace Stmt

mutual

/-- The places of the statements to which the stretches of a statement's sites belong, with whether
each declares a name. -/
def stretches : Stmt → List (Path × Bool)
  | .absent | .stray _ | .unlisted | .misnamed _ => []
  | .block _ body | .caseArm _ _ body => stretchesAll body
  | .exprStmt p _ | .ret p _ | .goto p _ | .brk p | .cont p => [(p, false)]
  | .decl p _ _ => [(p, true)]
  | .ifElse p _ thenArm elseArm => (p, false) :: (thenArm.stretches ++ elseArm.stretches)
  | .whileLoop p _ body | .labeled p _ body => (p, false) :: body.stretches
  | .doWhile p body _ => body.stretches ++ [(p, false)]
  | .forLoop p before _ _ _ body =>
    before.stretches ++ (p, false) :: (p, false) :: (body.stretches ++ [(p, false)])
  | .foreach p _ _ body => (p, true) :: body.stretches
  | .switch p _ arms => (p, false) :: stretchesAll arms

/-- The places of the statements to which the stretches of the sites of several statements
belong. -/
def stretchesAll : List Stmt → List (Path × Bool)
  | [] => []
  | s :: rest => s.stretches ++ stretchesAll rest

end

/-- The sites of a loop that is tested before its body. -/
theorem sites_closeLoop (p : Path) (n : Nat) (head : Head) (body step : Passage) :
    (closeLoop p n head body step).draft.sites =
      head.draft.sites ++ (body.draft.sites ++ step.draft.sites) := by
  simp [closeLoop, Draft.asLoop, Draft.withoutBreaks, Draft.withoutContinues, Draft.ofEdges]

/-- The sites of a statement come in its stretches. -/
theorem stretched : FlowInvariant (fun _ s _ _ r => Stretched s.stretches r.draft.sites)
    (fun _ ss _ _ r => Stretched (stretchesAll ss) r.draft.sites)
    (fun _ arms _ _ _ a => Stretched (stretchesAll arms) a.draft.sites) where
  absent := .nil
  block h := h
  exprStmt hh := .hosted (Head.Laid.optional hh).hosted
  decl hh := .hosted (Head.Laid.optional hh).hosted
  ifElse hh hy hn := .append (.hosted (Head.Laid.evaluating hh).hosted) (.append hy hn)
  whileLoop hh hb := by
    rw [sites_closeLoop, List.append_nil]
    exact .append (.hosted (Head.Laid.loop hh).hosted) hb
  forLoop hf hi _ hh hb hs := by
    have hi : Stretched [(_, false)] _ := .hosted (Passage.Evaluates.init hi).hosted
    have hh : Stretched [(_, false)] _ := .hosted (Head.Laid.loop hh).hosted
    have hs : Stretched [(_, false)] _ := .hosted (Passage.Evaluates.step hs).hosted
    rw [Draft.sites_append, Draft.sites_append, sites_closeLoop, List.append_assoc]
    exact hf.append (hi.append (hh.append (hb.append hs)))
  foreach hh hb := by
    rw [sites_closeLoop, List.append_nil]
    exact .append (.hosted (Head.Laid.evaluating hh).hosted) hb
  doWhile {_ p _ _ c _ _ body head} hb hh := by
    have hsites :
        (closeDoWhile p c.next body head).draft.sites = body.draft.sites ++ head.draft.sites := by
      simp [closeDoWhile, Draft.asLoop, Draft.withoutBreaks, Draft.withoutContinues, Draft.ofEdges]
    rw [hsites]
    exact .append hb (.hosted (Head.Laid.loop hh).hosted)
  switch hh ha := .append (.hosted (Head.Laid.evaluating hh).hosted) ha
  labeled _ hb :=
    .append (.single (by simp [labelDraft, Draft.ofSite, Host.fragment, Host.site])) hb
  goto := .single (by simp [Draft.ofSite, Host.fragment, Host.site])
  ret hh _ := by
    rw [closeReturn, Draft.sites_append, List.append_nil]
    exact .hosted (Head.Laid.optional hh).hosted
  brk _ := .single (by simp [Draft.ofSite, Host.fragment, Host.site, plainHost])
  cont _ := .single (by simp [Draft.ofSite, Host.fragment, Host.site, plainHost])
  nil := .nil
  cons hf hl := hf.append hl
  noArms := .nil
  arm hf hl := .append hf hl

end Stmt

end LastUse
