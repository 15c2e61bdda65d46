import LastUse.Proofs.Flow.Accepts
import LastUse.Proofs.Tree.Masked

/-!
# The flow through a mask

A mask keeps all that the flow through an expression or a statement depends on. So the flow through
the mask is that through the statement, with masks of the expressions that are evaluated; only the
labels of the sites are other ones (`Expr.flow_masked`, `Stmt.flow_masked`). Two flows are compared
by their own masks, in which sites have no labels.
-/

namespace LastUse

/-! ## Views of outcomes -/

section

variable {α β γ δ : Type}

/-- What a view shows of the outcome of a computation: nothing of a fault. -/
def viewed (view : α → β) : Except Fault α → Option β
  | .ok a => some (view a)
  | .error _ => none

/-- Computations that look alike go on alike if what follows does. -/
theorem viewed_bind {view : α → γ} {view' : β → δ} {x x' : Except Fault α}
    {k k' : α → Except Fault β} (hx : viewed view x = viewed view x')
    (hk : ∀ a a', view a = view a' → viewed view' (k a) = viewed view' (k' a')) :
    viewed view' (x >>= k) = viewed view' (x' >>= k') := by
  cases x with
  | ok a =>
    cases x' with
    | ok a' => exact hk a a' (Option.some.inj hx)
    | error => cases hx
  | error =>
    cases x' with
    | ok => cases hx
    | error => rfl

/-- The same computation, and what follows it. -/
theorem viewed_bind_same {view : β → δ} (x : Except Fault α) {k k' : α → Except Fault β}
    (hk : ∀ a, viewed view (k a) = viewed view (k' a)) :
    viewed view (x >>= k) = viewed view (x >>= k') := by
  cases x with
  | ok a => exact hk a
  | error => rfl

/-- Computations that look the same succeed together. -/
theorem isOk_of_viewed {view : α → β} {r r' : Except Fault α}
    (h : viewed view r = viewed view r') : r.isOk = r'.isOk := by
  cases r <;> cases r' <;> first | rfl | cases h

/-- The results of two computations that look the same look the same. -/
theorem eq_of_viewed {view : α → β} {r r' : Except Fault α} (h : viewed view r = viewed view r')
    {a a' : α} (hr : r = .ok a) (hr' : r' = .ok a') : view a = view a' := by
  subst hr hr'
  exact Option.some.inj h

end

/-! ## Masks of drafts -/

/-- The mask of a site, which has no label. -/
def Site.masked (x : Value) (s : Site) : Site :=
  { s with label := "", exprs := s.exprs.map (Expr.masked x) }

/-- A statement whose sites have no labels. -/
def Host.unlabelled (h : Host) : Host := { h with label := "" }

/-- The mask of a draft. -/
def Draft.masked (x : Value) (d : Draft) : Draft :=
  { d with
    sites := d.sites.map (Site.masked x)
    attached := d.attached.map fun a => (a.1, a.2.masked x) }

/-- The mask of the flow through an expression. -/
def Flow.masked (x : Value) (f : Flow) : Flow := { f with draft := f.draft.masked x }

variable {x : Value}

namespace Draft

/-- The mask of two drafts is made of the masks of both. -/
theorem masked_append (a b : Draft) : (a ++ b).masked x = a.masked x ++ b.masked x := by
  show (Draft.append a b).masked x = Draft.append (a.masked x) (b.masked x)
  simp [Draft.append, masked]

/-- A mask has as many sites. -/
theorem length_masked (d : Draft) : (d.masked x).sites.length = d.sites.length :=
  List.length_map ..

/-- Drafts with one mask have as many sites. -/
theorem length_eq {d d' : Draft} (h : d.masked x = d'.masked x) :
    d.sites.length = d'.sites.length := by
  rw [← length_masked (x := x), h, length_masked]

/-- The mask of a single site is the site without its label. -/
theorem masked_ofSite (h : Host) (n : Nat) (kind : SiteKind) (label : String) (fr : Frontier) :
    (ofSite (h.site n kind label) fr).masked x = ofSite (h.unlabelled.site n kind "") fr := rfl

/-- The mask of a fragment is the fragment without its label. -/
theorem masked_fragment (h : Host) (n : Nat) (fr : Frontier) :
    (ofSite (h.fragment n) fr).masked x = ofSite (h.unlabelled.fragment n) fr := rfl

/-- A branch is masked inside. -/
theorem masked_asBranch (d : Draft) (p : Path) (arms : List (List Region)) :
    (d.asBranch p arms).masked x = (d.masked x).asBranch p arms := rfl

/-- A loop is masked inside. -/
theorem masked_asLoop (d : Draft) (p : Path) :
    (d.asLoop p).withoutBreaks.withoutContinues.masked x =
      ((d.masked x).asLoop p).withoutBreaks.withoutContinues := rfl

/-- Drafts with one mask have one region. -/
theorem region_eq {d d' : Draft} (h : d.masked x = d'.masked x) : d.region = d'.region :=
  (congrArg Draft.region h :)

/-- Drafts with one mask break out at the same sites. -/
theorem breaks_eq {d d' : Draft} (h : d.masked x = d'.masked x) : d.breaks = d'.breaks :=
  (congrArg Draft.breaks h :)

/-- A site owns the same places in the mask of an expression. -/
theorem masked_ofExpr (o : Nat) (e : Expr) : (ofExpr o e).masked x = ofExpr o (e.masked x) := by
  have howned : (e.masked x).preorder.filterMap (fun n => n.place?.map (·, o)) =
      e.preorder.filterMap fun n => n.place?.map (·, o) := by
    simp only [Expr.preorder_eq_nodes, Expr.nodes_masked, List.filterMap_map, Function.comp_def,
      Expr.place?_masked]
  simp [ofExpr, masked, howned]

end Draft

/-- What follows the text of an expression, if it does not show the text. -/
theorem Expr.viewed_text {α δ : Type} {view : α → δ} {e : Expr} {k k' : String → Except Fault α}
    (hp : e.proper = true) (hk : ∀ t t', viewed view (k t) = viewed view (k' t')) :
    viewed view (e.text >>= k) = viewed view ((e.masked x).text >>= k') := by
  obtain ⟨t, ht⟩ := text_of_proper hp
  obtain ⟨t', ht'⟩ := text_of_proper (proper_masked x hp)
  rw [ht, ht']
  exact hk t t'

namespace Flow

variable {h h' : Host} {p : Path} {n : Nat} {f f' first first' : Flow}

/-- Flows with one mask have drafts with one mask. -/
theorem draft_eq (hf : f.masked x = f'.masked x) : f.draft.masked x = f'.draft.masked x :=
  congrArg Flow.draft hf

/-- Flows with one mask leave one fragment open. -/
theorem fragment_eq (hf : f.masked x = f'.masked x) : f.fragment = f'.fragment :=
  (congrArg Flow.fragment hf :)

/-- Flows with one mask have the same ways out. -/
theorem exits_eq (hf : f.masked x = f'.masked x) : f.exits = f'.exits := (congrArg Flow.exits hf :)

/-- What is evaluated at a fragment is masked there. -/
theorem masked_atFragment (h : Host) (n : Nat) (o : Option Nat) (fr : Frontier)
    (evaluated : Nat → Draft) :
    (atFragment h n o fr evaluated).masked x = atFragment h.unlabelled n o fr fun k =>
      (evaluated k).masked x := by
  cases o with
  | some k => rfl
  | none => simp [atFragment, masked, Draft.masked_append, Host.fragment, Draft.masked_ofSite]; rfl

/-- The mask of the flow through an expression without connectives is the flow through its mask. -/
theorem masked_plain (h : Host) (e : Expr) (n : Nat) (o : Option Nat) (fr : Frontier) :
    (plain h e n o fr).masked x = plain h.unlabelled (e.masked x) n o fr := by
  rw [plain, masked_atFragment, plain]
  simp only [Draft.masked_ofExpr]

/-- The last step of a flow may be taken behind the mask. -/
theorem masked_finish (h : Host) (p : Path) (n : Nat) (f : Flow) :
    (finish h p n f).masked x = finish h.unlabelled p n (f.masked x) := by
  have hlast := masked_atFragment (x := x) h (n + f.draft.sites.length) f.fragment f.exits.out
    fun o => Draft.ofOwned p o
  have hown (o : Nat) : (Draft.ofOwned p o).masked x = Draft.ofOwned p o := rfl
  simp only [hown] at hlast
  simp only [finish, masked, Draft.length_masked, ← hlast, Draft.masked_append]

/-- The flow through two expressions, from those through each. -/
theorem andThen_masked {second second' : Nat → Option Nat → Frontier → Except Fault Flow}
    (hf : first.masked x = first'.masked x)
    (hs : ∀ n o fr, viewed (masked x) (second n o fr) = viewed (masked x) (second' n o fr)) :
    viewed (masked x) (first.andThen n second) = viewed (masked x) (first'.andThen n second') := by
  unfold andThen
  rw [Draft.length_eq (draft_eq hf), fragment_eq hf, exits_eq hf]
  refine viewed_bind (hs _ _ _) fun next next' hn => congrArg some ?_
  simp only [masked, Draft.masked_append, draft_eq hf, draft_eq hn, fragment_eq hn, exits_eq hn]

/-- The flow through an operand, from that through its expression. -/
theorem ofOperand_masked {c : Connective} {e : Expr} {fr : Frontier}
    {flow flow' : Nat → Option Nat → Frontier → Except Fault Flow}
    (hh : h.unlabelled = h'.unlabelled)
    (he : e.proper = true)
    (hf : ∀ n o fr, viewed (masked x) (flow n o fr) = viewed (masked x) (flow' n o fr)) :
    viewed (masked x) (ofOperand h c e n fr flow) =
      viewed (masked x) (ofOperand h' c (e.masked x) n fr flow') := by
  -- What is done with an operand that is no connective, before it is known which expression it is.
  have hleaf : viewed (masked x) (do
        let label ← e.text
        let inner ← flow (n + 1) (some n) (onward n)
        pure { inner with draft := Draft.ofSite (h.site n c.siteKind label) fr ++ inner.draft }) =
      viewed (masked x) (do
        let label ← (e.masked x).text
        let inner ← flow' (n + 1) (some n) (onward n)
        pure { inner with draft := Draft.ofSite (h'.site n c.siteKind label) fr ++
          inner.draft }) := by
    refine Expr.viewed_text he fun t t' => viewed_bind (hf _ _ _) fun f f' hf => congrArg some ?_
    simp only [masked, Draft.masked_append, Draft.masked_ofSite, hh, draft_eq hf, fragment_eq hf,
      exits_eq hf]
  cases e with
  | logic => exact hf n none fr
  | _ => exact hleaf

end Flow

/-! ## Expressions -/

namespace Expr

variable {h h' : Host}

/-- The flow through an expression without connectives looks like the flow through its mask. -/
theorem viewed_plain (hh : h.unlabelled = h'.unlabelled) (e : Expr) (n : Nat) (o : Option Nat)
    (fr : Frontier) :
    viewed (Flow.masked x) (.ok (.plain h e n o fr)) =
      viewed (Flow.masked x) (.ok (.plain h' (e.masked x) n o fr)) := by
  simp only [viewed, Flow.masked_plain, hh, masked_masked]

/-- A flow that is drafted in one piece unless a connective occurs. -/
theorem viewed_search {e : Expr} {n : Nat} {o : Option Nat} {fr : Frontier}
    {deep deep' : Except Fault Flow} (hh : h.unlabelled = h'.unlabelled)
    (search : Except Fault Bool)
    (hd : viewed (Flow.masked x) deep = viewed (Flow.masked x) deep') :
    viewed (Flow.masked x) (do if ← search then deep else pure (Flow.plain h e n o fr)) =
      viewed (Flow.masked x)
        (do if ← search then deep' else pure (Flow.plain h' (e.masked x) n o fr)) := by
  refine viewed_bind_same search fun found => ?_
  cases found with
  | true => exact hd
  | false => exact viewed_plain hh e n o fr

/-- Flows that look the same do so after their last step. -/
theorem viewed_finish {deep deep' : Except Fault Flow} {p : Path} {n : Nat}
    (hh : h.unlabelled = h'.unlabelled)
    (hd : viewed (Flow.masked x) deep = viewed (Flow.masked x) deep') :
    viewed (Flow.masked x) (do let parts ← deep; pure (.finish h p n parts)) =
      viewed (Flow.masked x) (do let parts ← deep'; pure (.finish h' p n parts)) := by
  refine viewed_bind hd fun f f' hf => congrArg some ?_
  rw [Flow.masked_finish, Flow.masked_finish, hh, hf]

mutual

/-- The flow through the mask of an expression is the mask of the flow through the expression. -/
theorem flow_masked (hh : h.unlabelled = h'.unlabelled) : ∀ {e : Expr}, e.proper = true →
    ∀ (n : Nat) (o : Option Nat) (fr : Frontier),
    viewed (Flow.masked x) (e.flow h n o fr) = viewed (Flow.masked x) ((e.masked x).flow h' n o fr)
  | .absent, hp, _, _, _ | .stray _, hp, _, _, _ | .unlisted, hp, _, _, _
  | .foreign .., hp, _, _, _ => by simp [proper] at hp
  | .name .., _, _, _, _ | .literal .., _, _, _, _ => by
    rw [flow, masked, flow]
    exact viewed_plain hh _ _ _ _
  | .call p f args, hp, n, o, fr => by
    rw [proper, Bool.and_eq_true] at hp
    rw [flow, masked, flow, someShortCircuits_maskedAll]
    exact viewed_search hh _ (viewed_finish hh (flowAll_masked hh hp.2 n o fr))
  | .unary p op e, hp, n, o, fr => by
    rw [proper, Bool.and_eq_true] at hp
    rw [flow, masked, flow, shortCircuits_masked]
    exact viewed_search hh _ (viewed_finish hh (flow_masked hh hp.2 n o fr))
  | .member p e f, hp, n, o, fr => by
    rw [proper, Bool.and_eq_true] at hp
    rw [flow, masked, flow, shortCircuits_masked]
    exact viewed_search hh _ (viewed_finish hh (flow_masked hh hp.1 n o fr))
  | .binary p op l r, hp, n, o, fr | .assign p op l r, hp, n, o, fr => by
    simp only [proper, Bool.and_eq_true] at hp
    rw [flow, masked, flow, ← masked, shortCircuits_masked]
    exact viewed_search hh _ (viewed_bind (flow_masked hh hp.1.2 n o fr) fun f f' hf =>
      viewed_finish hh (Flow.andThen_masked hf (flow_masked hh hp.2)))
  | .index p l r, hp, n, o, fr => by
    simp only [proper, Bool.and_eq_true] at hp
    rw [flow, masked, flow, ← masked, shortCircuits_masked]
    exact viewed_search hh _ (viewed_bind (flow_masked hh hp.1 n o fr) fun f f' hf =>
      viewed_finish hh (Flow.andThen_masked hf (flow_masked hh hp.2)))
  | .addressOf p e, hp, n, o, fr | .move p e, hp, n, o, fr => by
    rw [flow, masked, flow, shortCircuits_masked]
    exact viewed_search hh _ rfl
  | .logic p c l r, hp, n, o, fr => by
    rw [proper, Bool.and_eq_true] at hp
    rw [flow, masked, flow]
    refine viewed_bind (Flow.ofOperand_masked hh hp.1 (flow_masked hh hp.1)) fun f f' hf => ?_
    rw [Draft.length_eq (Flow.draft_eq hf), Flow.exits_eq hf]
    refine viewed_bind (Flow.ofOperand_masked hh hp.2 (flow_masked hh hp.2)) fun g g' hg =>
      congrArg some ?_
    simp only [Flow.masked, Draft.masked_append, Flow.draft_eq hf, Flow.draft_eq hg,
      Flow.exits_eq hg]

/-- The flow through several expressions looks like the flow through their masks. -/
theorem flowAll_masked (hh : h.unlabelled = h'.unlabelled) :
    ∀ {es : List Expr}, allProper es = true → ∀ (n : Nat) (o : Option Nat) (fr : Frontier),
    viewed (Flow.masked x) (flowAll h es n o fr) =
      viewed (Flow.masked x) (flowAll h' (maskedAll x es) n o fr)
  | [], _, _, _, _ => by rw [flowAll, maskedAll, flowAll]
  | e :: rest, hp, n, o, fr => by
    rw [allProper, Bool.and_eq_true] at hp
    rw [flowAll, maskedAll, flowAll]
    exact viewed_bind (flow_masked hh hp.1 n o fr) fun f f' hf =>
      Flow.andThen_masked hf (flowAll_masked hh hp.2)

end

end Expr

/-! ## Heads of statements -/

/-- The mask of the flow through the head of a statement. -/
def Head.masked (x : Value) (head : Head) : Head := { head with draft := head.draft.masked x }

/-- The mask of the flow through a part of a statement. -/
def Passage.masked (x : Value) (w : Passage) : Passage := { w with draft := w.draft.masked x }

/-- The mask of the arms of a switch. -/
def Stmt.Arms.masked (x : Value) (arms : Arms) : Arms := { arms with draft := arms.draft.masked x }

/-- A mask does not change where the next statement begins. -/
theorem Cursor.after_masked (c : Cursor) (d : Draft) : c.after (d.masked x) = c.after d := by
  rw [Cursor.after, Draft.length_masked, Cursor.after]
  rfl

/-- Behind drafts with one mask the next statement begins at one point. -/
theorem Cursor.after_eq (c : Cursor) {d d' : Draft} (h : d.masked x = d'.masked x) :
    c.after d = c.after d' := by
  rw [← after_masked (x := x), h, after_masked]

namespace Head

variable {head head' : Head}

/-- Heads with one mask have drafts with one mask. -/
theorem draft_eq (hh : head.masked x = head'.masked x) :
    head.draft.masked x = head'.draft.masked x :=
  congrArg Head.draft hh

/-- Heads with one mask have the same ways out. -/
theorem exits_eq (hh : head.masked x = head'.masked x) : head.exits = head'.exits :=
  (congrArg Head.exits hh :)

end Head

namespace Passage

variable {w w' : Passage}

/-- Passages with one mask have drafts with one mask. -/
theorem draft_eq (hw : w.masked x = w'.masked x) : w.draft.masked x = w'.draft.masked x :=
  congrArg Passage.draft hw

/-- Passages with one mask have the same way out. -/
theorem out_eq (hw : w.masked x = w'.masked x) : w.out = w'.out := (congrArg Passage.out hw :)

end Passage

namespace Stmt

section

variable {h h' : Host} {e : Expr} {s : Stmt}

/-- The mask of a statement has the same host but for the label. -/
theorem viewed_host (hp : s.proper = true) (x : Value) (sc : Scope) (p : Path) (kind : SiteKind)
    (inReturn : Bool) :
    viewed Host.unlabelled (host sc s p kind inReturn) =
      viewed Host.unlabelled (host sc (s.masked x) p kind inReturn) := by
  obtain ⟨t, ht⟩ := headText_of_proper hp
  obtain ⟨t', ht'⟩ := headText_of_proper (proper_masked x hp)
  rw [host, host, ht, ht']
  rfl

/-- A head that evaluates nothing has one mask for all labels. -/
theorem bareHead_masked (hh : h.unlabelled = h'.unlabelled) (n : Nat) (fr : Frontier) :
    (bareHead h n fr).masked x = (bareHead h' n fr).masked x := by
  simp only [bareHead, Head.masked, Draft.masked_fragment, hh]

/-- A head that evaluates an expression looks like one that evaluates its mask. -/
theorem evaluatingHead_masked (hh : h.unlabelled = h'.unlabelled) (hp : e.proper = true) (n : Nat)
    (fr : Frontier) :
    viewed (Head.masked x) (evaluatingHead h e n fr) =
      viewed (Head.masked x) (evaluatingHead h' (e.masked x) n fr) := by
  refine viewed_bind (Expr.flow_masked hh hp _ _ _) fun f f' hf => congrArg some ?_
  simp only [Head.masked, Draft.masked_append, Draft.masked_fragment, hh, Flow.draft_eq hf,
    Flow.exits_eq hf]

/-- A head that may evaluate an expression looks like one that may evaluate its mask. -/
theorem optionalHead_masked (hh : h.unlabelled = h'.unlabelled) (hp : e.properOrAbsent = true)
    (n : Nat) (fr : Frontier) :
    viewed (Head.masked x) (optionalHead h e n fr) =
      viewed (Head.masked x) (optionalHead h' (e.masked x) n fr) := by
  unfold optionalHead
  rw [Expr.isAbsent_masked]
  split
  · exact congrArg some (bareHead_masked hh n fr)
  · next ha => exact evaluatingHead_masked hh ((Bool.or_eq_true_iff.1 hp).resolve_left ha) n fr

/-- The head of a loop looks like that of a loop with the mask of the condition. -/
theorem loopHead_masked (hh : h.unlabelled = h'.unlabelled) (hp : e.properOrAbsent = true)
    (n : Nat) (fr : Frontier) :
    viewed (Head.masked x) (loopHead h e n fr) =
      viewed (Head.masked x) (loopHead h' (e.masked x) n fr) := by
  unfold loopHead
  rw [Expr.isAbsent_masked]
  split
  · have hbare := bareHead_masked (x := x) hh n fr
    refine congrArg some ?_
    simp only [Head.masked, Head.draft_eq hbare, Head.exits_eq hbare]
  · next ha => exact evaluatingHead_masked hh ((Bool.or_eq_true_iff.1 hp).resolve_left ha) n fr

/-- The start of a loop looks like its mask. -/
theorem initFlow_masked (hh : h.unlabelled = h'.unlabelled) (hp : e.properOrAbsent = true)
    (n : Nat) (fr : Frontier) :
    viewed (Passage.masked x) (initFlow h e n fr) =
      viewed (Passage.masked x) (initFlow h' (e.masked x) n fr) := by
  unfold initFlow
  rw [Expr.isAbsent_masked]
  split
  · rfl
  · next ha =>
    have hp := (Bool.or_eq_true_iff.1 hp).resolve_left ha
    have hkind : h.kind = h'.kind := (congrArg Host.kind hh :)
    refine Expr.viewed_text hp fun t t' =>
      viewed_bind (Expr.flow_masked hh hp _ _ _) fun f f' hf => congrArg some ?_
    simp only [Passage.masked, Draft.masked_append, Draft.masked_ofSite, hh, hkind,
      Flow.draft_eq hf, Flow.exits_eq hf]

/-- The step of a loop looks like its mask. -/
theorem stepFlow_masked (hh : h.unlabelled = h'.unlabelled) (hp : e.properOrAbsent = true)
    (n : Nat) (fr : Frontier) :
    viewed (Passage.masked x) (stepFlow h e n fr) =
      viewed (Passage.masked x) (stepFlow h' (e.masked x) n fr) := by
  unfold stepFlow
  rw [Expr.isAbsent_masked]
  split
  · rfl
  · next ha =>
    have hp := (Bool.or_eq_true_iff.1 hp).resolve_left ha
    refine Expr.viewed_text hp fun t t' =>
      viewed_bind (Expr.flow_masked hh hp _ _ _) fun f f' hf => congrArg some ?_
    simp only [Passage.masked, Draft.masked_append, Draft.masked_ofSite, hh, Flow.draft_eq hf,
      Flow.exits_eq hf]

end

/-! ## Statements -/

/-- A loop may be closed behind the mask. -/
theorem masked_closeLoop (p : Path) (n : Nat) (head : Head) (body step : Passage) :
    (closeLoop p n head body step).masked x =
      closeLoop p n (head.masked x) (body.masked x) (step.masked x) := by
  simp [closeLoop, Passage.masked, Head.masked, Draft.masked, Draft.asLoop, Draft.withoutBreaks,
    Draft.withoutContinues, Draft.ofEdges]

/-- Bodies with one mask end at the same sites. -/
theorem bodyEnd_eq {body body' : Passage} (hw : body.masked x = body'.masked x) :
    bodyEnd body = bodyEnd body' := by
  have hcontinues : body.draft.continues = body'.draft.continues :=
    (congrArg (·.draft.continues) hw :)
  rw [bodyEnd, bodyEnd, Passage.out_eq hw, hcontinues]

/-- A case may be added to the others behind the mask. -/
theorem Arms.masked_cons (first : Passage) (isDefault : Bool) (rest : Arms) :
    (cons first isDefault rest).masked x = cons (first.masked x) isDefault (rest.masked x) := by
  simp only [cons, masked, Passage.masked, Draft.masked_append]
  rfl

/-- A switch may be closed behind the mask. -/
theorem masked_closeSwitch (p : Path) (head : Head) (arms : Arms) :
    (closeSwitch p head arms).masked x = closeSwitch p (head.masked x) (arms.masked x) := by
  simp only [closeSwitch, Passage.masked, Draft.masked_append]
  rfl

/-- Two flows, each through a statement that may be missing, and what is done with them. -/
theorem viewed_optional {α γ δ : Type} {part : Passage → γ} {view : α → δ} {sc sc' : Scope}
    {s s' : Stmt} {c : Cursor} {fr : Frontier} {k k' : Passage → Except Fault α}
    {r r' : Except Fault α}
    (hr : r = match s with
      | .absent => (do
        let w ← pure (Passage.mk {} fr)
        k w)
      | s => do
        let w ← Stmt.flow sc s c fr
        k w)
    (hr' : r' = match s' with
      | .absent => (do
        let w ← pure (Passage.mk {} fr)
        k' w)
      | s => do
        let w ← Stmt.flow sc' s c fr
        k' w)
    (ha : s.isAbsent = s'.isAbsent)
    (hf : s.isAbsent = false → viewed part (s.flow sc c fr) = viewed part (s'.flow sc' c fr))
    (hk : ∀ w w', part w = part w' → viewed view (k w) = viewed view (k' w')) :
    viewed view r = viewed view r' := by
  subst hr hr'
  cases hs : s.isAbsent with
  | true =>
    rw [hs] at ha
    cases s with
    | absent =>
      cases s' with
      | absent => exact hk _ _ rfl
      | _ => cases ha
    | _ => cases hs
  | false =>
    have hbind := viewed_bind (hf hs) hk
    rw [hs] at ha
    cases s with
    | absent => cases hs
    | _ =>
      cases s' with
      | absent => cases ha
      | _ => exact hbind

mutual

/-- The flow through the mask of a statement is the mask of the flow through the statement. -/
theorem flow_masked : ∀ {s : Stmt}, s.proper = true → ∀ (sc : Scope) (c : Cursor) (fr : Frontier),
    viewed (Passage.masked x) (s.flow sc c fr) =
      viewed (Passage.masked x) ((s.masked x).flow sc c fr)
  | .absent, hp, _, _, _ | .stray _, hp, _, _, _ | .unlisted, hp, _, _, _
  | .misnamed _, hp, _, _, _ => by
    simp [proper] at hp
  | .caseArm .., _, _, _, _ => rfl
  | .block _ body, hp, sc, c, fr => by
    rw [proper] at hp
    rw [flow, masked, flow]
    exact flowAll_masked hp sc c fr
  | .exprStmt p e, hp, sc, c, fr => by
    have hhost := viewed_host hp x sc p sc.ordinaryKind false
    rw [proper] at hp
    rw [flow, masked, flow]
    refine viewed_bind hhost fun h h' hh => ?_
    refine viewed_bind (optionalHead_masked hh (Expr.properOrAbsent_of_proper hp) _ _)
      fun f f' hf =>
      congrArg some ?_
    simp only [Passage.masked, Head.draft_eq hf, Head.exits_eq hf]
  | .decl p name e, hp, sc, c, fr => by
    have hhost := viewed_host hp x sc p sc.ordinaryKind false
    rw [proper] at hp
    rw [flow, masked, flow]
    refine viewed_bind hhost fun h h' hh => ?_
    refine viewed_bind (optionalHead_masked hh hp _ _) fun f f' hf => congrArg some ?_
    simp only [Passage.masked, Head.draft_eq hf, Head.exits_eq hf]
  | .ret p e, hp, sc, c, fr => by
    have hhost := viewed_host hp x sc p .ret true
    rw [proper] at hp
    rw [flow, masked, flow]
    refine viewed_bind hhost fun h h' hh => ?_
    refine viewed_bind (optionalHead_masked hh hp _ _) fun f f' hf => ?_
    refine viewed_bind_same sc.exitEdges fun exits => congrArg some ?_
    simp only [Passage.masked, Draft.masked_append, Head.draft_eq hf, Head.exits_eq hf]
  | .ifElse p cond thenArm elseArm, hp, sc, c, fr => by
    have hhost := viewed_host hp x sc p sc.ordinaryKind false
    simp only [proper, Bool.and_eq_true] at hp
    obtain ⟨⟨hcond, hyes⟩, hno⟩ := hp
    rw [flow, masked, flow]
    refine viewed_bind hhost fun h h' hh => ?_
    refine viewed_bind (evaluatingHead_masked hh hcond _ _) fun f f' hf => ?_
    rw [c.after_eq (Head.draft_eq hf), Head.exits_eq hf]
    refine viewed_bind (flow_masked hyes sc _ _) fun y y' hy => ?_
    rw [Cursor.after_eq _ (Passage.draft_eq hy)]
    refine viewed_optional rfl rfl (isAbsent_masked _ _).symm
      (fun ha => flow_masked (by simpa [ha] using hno) sc _ _) fun w w' hw => congrArg some ?_
    simp only [Passage.masked, Draft.masked_append, Draft.masked_asBranch, Head.draft_eq hf,
      Passage.draft_eq hy, Passage.draft_eq hw, Draft.region_eq (Passage.draft_eq hy),
      Draft.region_eq (Passage.draft_eq hw),
      Passage.out_eq hy, Passage.out_eq hw]
  | .whileLoop p cond body, hp, sc, c, fr => by
    have hhost := viewed_host hp x sc.inLoopBody p .loopHeader false
    simp only [proper, Bool.and_eq_true] at hp
    rw [flow, masked, flow]
    refine viewed_bind hhost fun h h' hh => ?_
    refine viewed_bind (loopHead_masked hh (Expr.properOrAbsent_of_proper hp.1) _ _) fun f f' hf =>
      ?_
    rw [c.after_eq (Head.draft_eq hf), Head.exits_eq hf]
    refine viewed_bind (flow_masked hp.2 _ _ _) fun w w' hw => congrArg some ?_
    rw [masked_closeLoop, masked_closeLoop, hf, hw, bodyEnd_eq hw]
  | .doWhile p body cond, hp, sc, c, fr => by
    have hhost := viewed_host hp x sc.inLoopBody p .loopHeader false
    simp only [proper, Bool.and_eq_true] at hp
    rw [flow, masked, flow]
    refine viewed_bind (flow_masked hp.2 _ _ _) fun w w' hw => ?_
    refine viewed_bind hhost fun h h' hh => ?_
    rw [c.after_eq (Passage.draft_eq hw), bodyEnd_eq hw]
    refine viewed_bind (loopHead_masked hh (Expr.properOrAbsent_of_proper hp.1) _ _) fun f f' hf =>
      congrArg some ?_
    simp only [Passage.masked, Draft.masked_asLoop, Draft.masked_append, Passage.draft_eq hw,
      Head.draft_eq hf, Head.exits_eq hf, Draft.breaks_eq (Passage.draft_eq hw)]
  | .foreach p var iterable body, hp, sc, c, fr => by
    have hhost := viewed_host hp x sc.inLoopBody p .loopHeader false
    simp only [proper, Bool.and_eq_true] at hp
    rw [flow, masked, flow]
    refine viewed_bind hhost fun h h' hh => ?_
    refine viewed_bind (evaluatingHead_masked hh hp.1 _ _) fun f f' hf => ?_
    simp only [c.after_eq (Head.draft_eq hf), Head.exits_eq hf]
    refine viewed_bind (flow_masked hp.2 _ _ _) fun w w' hw => congrArg some ?_
    rw [masked_closeLoop, masked_closeLoop, hw, bodyEnd_eq hw]
    simp only [Head.masked, Head.draft_eq hf]
  | .forLoop p before init cond step body, hp, sc, c, fr => by
    have hhost := viewed_host hp x sc p sc.ordinaryKind false
    simp only [proper, Bool.and_eq_true] at hp
    obtain ⟨⟨⟨⟨hbefore, hinit⟩, hcond⟩, hstep⟩, hbody⟩ := hp
    rw [masked]
    unfold flow
    refine viewed_optional rfl rfl (isAbsent_masked _ _).symm
      (fun ha => flow_masked (by simpa [ha] using hbefore) sc _ _) fun b b' hb => ?_
    refine viewed_bind hhost fun h h' hh => ?_
    rw [c.after_eq (Passage.draft_eq hb), Passage.out_eq hb]
    refine viewed_bind (initFlow_masked hh hinit _ _) fun i i' hi => ?_
    rw [Cursor.after_eq _ (Passage.draft_eq hi), Passage.out_eq hi]
    have hloop : Host.unlabelled { h with kind := .loopHeader, inLoop := true } =
        Host.unlabelled { h' with kind := .loopHeader, inLoop := true } :=
      congrArg (fun h : Host => { h with kind := .loopHeader, inLoop := true }) hh
    refine viewed_bind (loopHead_masked hloop hcond _ _) fun f f' hf => ?_
    rw [Cursor.after_eq _ (Head.draft_eq hf), Head.exits_eq hf]
    refine viewed_bind (flow_masked hbody _ _ _) fun w w' hw => ?_
    rw [Cursor.after_eq _ (Passage.draft_eq hw), bodyEnd_eq hw]
    refine viewed_bind (stepFlow_masked hloop hstep _ _) fun l l' hl => congrArg some ?_
    have hclose (n : Nat) :
        (closeLoop p n f w l).masked x = (closeLoop p n f' w' l').masked x := by
      rw [masked_closeLoop, masked_closeLoop, hf, hw, hl]
    simp only [Passage.masked, Draft.masked_append, Passage.draft_eq hb, Passage.draft_eq hi,
      Passage.draft_eq (hclose _), Passage.out_eq (hclose _)]
  | .switch p subject arms, hp, sc, c, fr => by
    have hhost := viewed_host hp x sc p sc.ordinaryKind false
    simp only [proper, Bool.and_eq_true] at hp
    rw [flow, masked, flow]
    refine viewed_bind hhost fun h h' hh => ?_
    refine viewed_bind (evaluatingHead_masked hh hp.1 _ _) fun f f' hf => ?_
    rw [c.after_eq (Head.draft_eq hf), Head.exits_eq hf]
    refine viewed_bind (flowArms_masked hp.2 _ _ _ _) fun l l' hl => congrArg some ?_
    rw [masked_closeSwitch, masked_closeSwitch, hf, hl]
  | .labeled p label body, hp, sc, c, fr => by
    rw [proper] at hp
    rw [flow, masked, flow]
    split
    · rfl
    · -- The text of a label does not depend on the statement behind it.
      refine viewed_bind_same (host sc (.labeled p label body) p .label false) fun h => ?_
      have hbody (head : Draft) (hb : body.proper = true) :
          viewed (Passage.masked x) (do
            let rest ← flow sc body (c.after head) (onward c.next)
            pure ⟨head ++ rest.draft, rest.out⟩) =
          viewed (Passage.masked x) (do
            let rest ← flow sc (body.masked x) (c.after head) (onward c.next)
            pure ⟨head ++ rest.draft, rest.out⟩) := by
        refine viewed_bind (flow_masked hb sc _ _) fun w w' hw => congrArg some ?_
        simp only [Passage.masked, Draft.masked_append, Passage.draft_eq hw, Passage.out_eq hw]
      cases body with
      | absent => rfl
      | _ => exact hbody _ (by simpa [isAbsent] using hp)
  | .goto .., _, _, _, _ | .brk _, _, _, _, _ | .cont _, _, _, _, _ => rfl

/-- The flow through several statements looks like the flow through their masks. -/
theorem flowAll_masked :
    ∀ {ss : List Stmt}, allProper ss = true → ∀ (sc : Scope) (c : Cursor) (fr : Frontier),
    viewed (Passage.masked x) (flowAll sc ss c fr) =
      viewed (Passage.masked x) (flowAll sc (maskedAll x ss) c fr)
  | [], _, _, _, _ => rfl
  | s :: rest, hp, sc, c, fr => by
    rw [allProper, Bool.and_eq_true] at hp
    rw [flowAll, maskedAll, flowAll]
    refine viewed_bind (flow_masked hp.1 sc c fr) fun f f' hf => ?_
    rw [c.after_eq (Passage.draft_eq hf), Passage.out_eq hf]
    refine viewed_bind (flowAll_masked hp.2 sc _ _) fun l l' hl => congrArg some ?_
    simp only [Passage.masked, Draft.masked_append, Passage.draft_eq hf, Passage.draft_eq hl,
      Passage.out_eq hl]

/-- The flow through the cases of a switch looks like the flow through their masks. -/
theorem flowArms_masked :
    ∀ {arms : List Stmt}, armsProper arms = true → ∀ (sc : Scope) (c : Cursor)
    (subject fallthrough : Frontier), viewed (Arms.masked x)
      (flowArms sc arms c subject fallthrough) =
      viewed (Arms.masked x) (flowArms sc (maskedAll x arms) c subject fallthrough)
  | [], _, _, _, _, _ => rfl
  | arm :: rest, hp, sc, c, subject, fallthrough => by
    cases arm with
    | caseArm p isDefault body =>
      rw [armsProper, Bool.and_eq_true] at hp
      rw [flowArms, maskedAll, masked, flowArms]
      refine viewed_bind (flowAll_masked hp.1 sc _ _) fun f f' hf => ?_
      rw [c.after_eq (Passage.draft_eq hf), Passage.out_eq hf]
      refine viewed_bind (flowArms_masked hp.2 sc _ _ _) fun l l' hl => congrArg some ?_
      rw [Arms.masked_cons, Arms.masked_cons, hf, hl]
    | _ => simp [armsProper] at hp

end

end Stmt

/-! ## Flow graphs -/

namespace FlowGraph

/-- The mask of a flow graph. -/
def masked (x : Value) (g : FlowGraph) : FlowGraph :=
  { g with sites := g.sites.map (Site.masked x) }

/-- The expressions may be put to their sites behind the mask. -/
theorem filledSites_masked (d : Draft) :
    filledSites (d.masked x) = (filledSites d).map (Site.masked x) := by
  have hexprs (n : Nat) :
      (d.masked x).attached.filterMap (fun a => if a.1 = n then some a.2 else none) =
      (d.attached.filterMap fun a => if a.1 = n then some a.2 else none).map (Expr.masked x) := by
    simp only [Draft.masked, List.filterMap_map, List.map_filterMap, Function.comp_def]
    refine List.filterMap_congr fun a _ => ?_
    split <;> rfl
  rw [filledSites, filledSites, List.map_map]
  simp only [hexprs]
  exact List.map_map ..

/-- The flow graph of the mask of a body is the mask of the flow graph of the body. -/
theorem ofBody_masked {body : Stmt} (hp : body.proper = true) (exitEdges : Except Fault Bool) :
    viewed (masked x) (ofBody exitEdges body) =
      viewed (masked x) (ofBody exitEdges (body.masked x)) := by
  refine viewed_bind (Stmt.flow_masked hp _ _ _) fun w w' hw => ?_
  have hlabels : w.draft.labels = w'.draft.labels := (congrArg (·.draft.labels) hw :)
  have hgotos : w.draft.gotos = w'.draft.gotos := (congrArg (·.draft.gotos) hw :)
  refine viewed_bind_same exitEdges fun exits => ?_
  rw [hlabels, hgotos]
  refine viewed_bind_same (jumpsOf _ _) fun jumps => congrArg some ?_
  have hedges : w.draft.edges = w'.draft.edges := (congrArg (·.draft.edges) hw :)
  have howned : w.draft.owned = w'.draft.owned := (congrArg (·.draft.owned) hw :)
  have hempty : w.draft.sites.isEmpty = w'.draft.sites.isEmpty := by
    simpa [Passage.masked, Draft.masked] using congrArg (·.draft.sites.isEmpty) hw
  simp only [masked, ← filledSites_masked, Passage.draft_eq hw, Passage.out_eq hw,
    Draft.region_eq (Passage.draft_eq hw), hedges, howned, hempty]

end FlowGraph

end LastUse
