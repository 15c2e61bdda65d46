import LastUse.Flow.Condition

/-!
# How the flow through an expression is put together

`Expr.flow` distinguishes three kinds of expressions. One in which no connective occurs is
evaluated at the open fragment (`Flow.plain`). A connective has a flow for each operand. Any other
expression has the flow of its parts, one after the other, and a fragment for the node itself
(`Flow.finish`). `Expr.FlowInvariant` says what a property needs to hold of all flows that are put
together in this way.
-/

namespace LastUse

/-- If a computation in two steps succeeds, then both steps do. -/
theorem ok_of_bind {ε α β : Type} : ∀ {x : Except ε α} {f : α → Except ε β} {b : β},
    x >>= f = .ok b → ∃ a, x = .ok a ∧ f a = .ok b
  | .ok a, _, _, h => ⟨a, rfl, h⟩

/-- Nothing is added behind a draft. -/
@[simp] theorem Draft.append_empty (d : Draft) : d ++ ({} : Draft) = d := by
  show Draft.append d {} = d
  simp [Draft.append]

namespace Expr

/-- Whether the expression is a connective with its operands. -/
def isConnective : Expr → Bool
  | .logic .. => true
  | _ => false

/-- Whether a name can be touched by the node: it is an occurrence of one, or takes the address of
or moves its operand. -/
def mayTouch : Expr → Bool
  | .name .. | .addressOf .. | .move .. => true
  | _ => false

mutual

/-- Whether a connective occurs in an expression. -/
def connected : Expr → Bool
  | .absent | .stray _ | .unlisted | .name .. | .literal .. => false
  | .logic .. => true
  | .foreign _ _ parts => anyConnected parts
  | .call _ _ args => anyConnected args
  | .unary _ _ e | .addressOf _ e | .move _ e => e.connected
  | .member _ base _ => base.connected
  | .binary _ _ l r | .assign _ _ l r | .index _ l r => l.connected || r.connected

/-- Whether a connective occurs in one of several expressions. -/
def anyConnected : List Expr → Bool
  | [] => false
  | e :: rest => e.connected || anyConnected rest

end

mutual

/-- A connective occurs in an expression if one of its nodes is a connective. -/
theorem connected_eq_any : ∀ (e : Expr), e.connected = e.nodes.any isConnective
  | .absent | .stray _ | .unlisted | .name .. | .literal .. | .logic .. => by
    simp [connected, nodes, isConnective]
  | .foreign _ _ parts | .call _ _ parts => by
    simp [connected, nodes, isConnective, anyConnected_eq_any parts]
  | .unary _ _ e | .addressOf _ e | .move _ e | .member _ e _ => by
    simp [connected, nodes, isConnective, connected_eq_any e]
  | .binary _ _ l r | .assign _ _ l r | .index _ l r => by
    simp [connected, nodes, isConnective, connected_eq_any l, connected_eq_any r]

/-- A connective occurs in several expressions if one of their nodes is a connective. -/
theorem anyConnected_eq_any : ∀ (es : List Expr), anyConnected es = (nodesAll es).any isConnective
  | [] => rfl
  | e :: rest => by simp [anyConnected, nodesAll, connected_eq_any e, anyConnected_eq_any rest]

end

mutual

/-- A search for a connective that does not fail tells whether one occurs. -/
theorem connected_of_shortCircuits : ∀ {e : Expr} {b : Bool},
    e.shortCircuits = .ok b → e.connected = b
  | .absent, _, h | .name .., _, h | .literal .., _, h | .logic .., _, h => by
    simp only [shortCircuits, Except.ok.injEq] at h
    simp [connected, h]
  | .stray _, _, h | .unlisted, _, h => by simp [shortCircuits] at h
  | .foreign _ _ parts, _, h => by
    rw [shortCircuits] at h
    rw [connected, anyConnected_of_someShortCircuits h]
  | .call _ _ args, _, h => by
    rw [shortCircuits] at h
    rw [connected, anyConnected_of_someShortCircuits h]
  | .unary _ _ e, _, h | .addressOf _ e, _, h | .move _ e, _, h => by
    rw [shortCircuits] at h
    rw [connected, connected_of_shortCircuits h]
  | .member _ base _, _, h => by
    rw [shortCircuits] at h
    rw [connected, connected_of_shortCircuits h]
  | .binary _ _ l r, _, h | .assign _ _ l r, _, h | .index _ l r, _, h => by
    rw [shortCircuits] at h
    obtain ⟨a, hl, h⟩ := ok_of_bind h
    rw [connected, connected_of_shortCircuits hl]
    cases a with
    | true => simpa [pure, Except.pure] using h
    | false => rw [Bool.false_or, connected_of_shortCircuits (by simpa using h)]

/-- A search for a connective in several expressions tells whether one occurs. -/
theorem anyConnected_of_someShortCircuits : ∀ {es : List Expr} {b : Bool},
    someShortCircuits es = .ok b → anyConnected es = b
  | [], _, h => by
    simp only [someShortCircuits, Except.ok.injEq] at h
    simp [anyConnected, h]
  | e :: rest, _, h => by
    rw [someShortCircuits] at h
    obtain ⟨a, he, h⟩ := ok_of_bind h
    rw [anyConnected, connected_of_shortCircuits he]
    cases a with
    | true => simpa [pure, Except.pure] using h
    | false => rw [Bool.false_or, anyConnected_of_someShortCircuits (by simpa using h)]

end

/-- What properties of flows need to hold of every flow through an expression: `P` of the flow
through an expression, `Q` of the flow through several and `R` of the flow through an operand. -/
structure FlowInvariant (h : Host) (P : Expr → Nat → Option Nat → Frontier → Flow → Prop)
    (Q : List Expr → Nat → Option Nat → Frontier → Flow → Prop)
    (R : Connective → Expr → Nat → Frontier → Flow → Prop) : Prop where
  plain {e : Expr} {n : Nat} {o : Option Nat} {fr : Frontier} :
    e.connected = false → P e n o fr (.plain h e n o fr)
  finish {e : Expr} {p : Path} {n : Nat} {o : Option Nat} {fr : Frontier} {parts : Flow} :
    e.place? = some p → e.isConnective = false → e.mayTouch = false → e.connected = true →
      Q e.parts n o fr parts → P e n o fr (.finish h p n parts)
  logic {p : Path} {c : Connective} {l r : Expr} {n : Nat} {o : Option Nat} {fr : Frontier}
    {left right : Flow} :
    R c l n fr left → R c r (n + left.draft.sites.length) (Flow.entry c left.exits) right →
      P (.logic p c l r) n o fr
        ⟨left.draft ++ right.draft, none, Flow.combine c left.exits right.exits⟩
  nil {n : Nat} {o : Option Nat} {fr : Frontier} : Q [] n o fr ⟨{}, o, .straight fr⟩
  cons {e : Expr} {rest : List Expr} {n : Nat} {o : Option Nat} {fr : Frontier}
    {first later : Flow} :
    P e n o fr first →
      Q rest (n + first.draft.sites.length) first.fragment first.exits.out later →
      Q (e :: rest) n o fr { later with draft := first.draft ++ later.draft }
  nested {c : Connective} {e : Expr} {n : Nat} {fr : Frontier} {f : Flow} :
    e.isConnective = true → P e n none fr f → R c e n fr f
  leaf {c : Connective} {e : Expr} {n : Nat} {fr : Frontier} {label : String} {f : Flow} :
    e.isConnective = false → P e (n + 1) (some n) (onward n) f →
      R c e n fr { f with draft := Draft.ofSite (h.site n c.siteKind label) fr ++ f.draft }

namespace FlowInvariant

variable {h : Host} {P : Expr → Nat → Option Nat → Frontier → Flow → Prop}
  {Q : List Expr → Nat → Option Nat → Frontier → Flow → Prop}
  {R : Connective → Expr → Nat → Frontier → Flow → Prop}

/-- The flow through a node with one part. -/
theorem finish_one (I : FlowInvariant h P Q R) {e part : Expr} {p : Path} {n : Nat}
    {o : Option Nat} {fr : Frontier} {f : Flow} (he : e.place? = some p)
    (hc : e.isConnective = false)
    (ht : e.mayTouch = false) (hs : e.connected = true) (hp : e.parts = [part])
    (hf : P part n o fr f) : P e n o fr (.finish h p n f) := by
  have hq := I.cons hf I.nil
  rw [← hp] at hq
  simpa [Flow.finish, Exits.out] using I.finish he hc ht hs hq

/-- The flow through a node with two parts. -/
theorem finish_two (I : FlowInvariant h P Q R) {e l r : Expr} {p : Path} {n : Nat}
    {o : Option Nat} {fr : Frontier} {left right : Flow} (he : e.place? = some p)
    (hc : e.isConnective = false) (ht : e.mayTouch = false) (hs : e.connected = true)
    (hp : e.parts = [l, r]) (hl : P l n o fr left)
    (hr : P r (n + left.draft.sites.length) left.fragment left.exits.out right) :
    P e n o fr (.finish h p n { right with draft := left.draft ++ right.draft }) := by
  have hq := I.cons hl (I.cons hr I.nil)
  rw [← hp] at hq
  simpa [Flow.finish, Exits.out] using I.finish he hc ht hs hq

/-- The flow through an operand, from the flow through its expression. -/
theorem operand (I : FlowInvariant h P Q R) {c : Connective} {e : Expr} {n : Nat} {fr : Frontier}
    {f : Flow} (H : Flow.ofOperand h c e n fr (e.flow h) = .ok f)
    (hP : ∀ {n o fr f}, e.flow h n o fr = .ok f → P e n o fr f) : R c e n fr f := by
  unfold Flow.ofOperand at H
  split at H
  · exact I.nested rfl (hP H)
  · next _ hne =>
    obtain ⟨label, -, H⟩ := ok_of_bind H
    obtain ⟨inner, hi, H⟩ := ok_of_bind H
    cases H
    refine I.leaf ?_ (hP hi)
    cases e with
    | logic p c l r => exact (hne p c l r rfl).elim
    | _ => rfl

/-- The flow through an expression whose parts may be connected: that of its parts if they are. -/
theorem of_search (I : FlowInvariant h P Q R) {e : Expr} {n : Nat} {o : Option Nat} {fr : Frontier}
    {f : Flow} {search : Except Fault Bool} {deep : Except Fault Flow}
    (hs : ∀ {b}, search = .ok b → e.connected = b)
    (H : (do if ← search then deep else pure (Flow.plain h e n o fr)) = .ok f)
    (hd : e.connected = true → deep = .ok f → P e n o fr f) : P e n o fr f := by
  obtain ⟨b, hb, H⟩ := ok_of_bind H
  cases b with
  | true => exact hd (hs hb) (by simpa using H)
  | false =>
    simp only [Bool.false_eq_true, if_false] at H
    cases H
    exact I.plain (hs hb)

mutual

/-- A property that is kept holds of every flow through an expression. -/
theorem flow (I : FlowInvariant h P Q R) : ∀ {e : Expr} {n : Nat} {o : Option Nat}
    {fr : Frontier} {f : Flow}, e.flow h n o fr = .ok f → P e n o fr f
  | .absent, _, _, _, _, H | .stray _, _, _, _, _, H | .unlisted, _, _, _, _, H
  | .foreign _ _ _, _, _, _, _, H => by simp [Expr.flow] at H
  | .name _ _, _, _, _, _, H | .literal _ _, _, _, _, _, H => by
    rw [Expr.flow] at H
    cases H
    exact I.plain (by simp [connected])
  | .call p g args, n, o, fr, f, H => by
    rw [Expr.flow] at H
    refine I.of_search (fun hb => ?_) H fun hs H => ?_
    · rw [connected, anyConnected_of_someShortCircuits hb]
    · obtain ⟨parts, hp, H⟩ := ok_of_bind H
      cases H
      exact I.finish rfl rfl rfl hs (I.flowAll hp)
  | .unary p op e, n, o, fr, f, H | .member p e _, n, o, fr, f, H => by
    rw [Expr.flow] at H
    refine I.of_search (fun hb => ?_) H fun hs H => ?_
    · rw [connected, connected_of_shortCircuits hb]
    · obtain ⟨part, hp, H⟩ := ok_of_bind H
      cases H
      exact I.finish_one rfl rfl rfl hs rfl (I.flow hp)
  | .binary p op l r, n, o, fr, f, H | .assign p op l r, n, o, fr, f, H
  | .index p l r, n, o, fr, f, H => by
    rw [Expr.flow] at H
    refine I.of_search connected_of_shortCircuits H fun hs H => ?_
    obtain ⟨left, hl, H⟩ := ok_of_bind H
    obtain ⟨parts, hp, H⟩ := ok_of_bind H
    obtain ⟨right, hr, hp⟩ := ok_of_bind hp
    cases H
    cases hp
    exact I.finish_two rfl rfl rfl hs rfl (I.flow hl) (I.flow hr)
  | .addressOf p e, n, o, fr, f, H | .move p e, n, o, fr, f, H => by
    rw [Expr.flow] at H
    refine I.of_search (fun hb => ?_) H fun hs H => ?_
    · rw [connected, connected_of_shortCircuits hb]
    · cases H
  | .logic p c l r, n, o, fr, f, H => by
    rw [Expr.flow] at H
    obtain ⟨left, hl, H⟩ := ok_of_bind H
    obtain ⟨right, hr, H⟩ := ok_of_bind H
    cases H
    exact I.logic (I.operand hl fun hf => I.flow hf) (I.operand hr fun hf => I.flow hf)

/-- A property that is kept holds of every flow through several expressions. -/
theorem flowAll (I : FlowInvariant h P Q R) : ∀ {es : List Expr} {n : Nat} {o : Option Nat}
    {fr : Frontier} {f : Flow}, Expr.flowAll h es n o fr = .ok f → Q es n o fr f
  | [], _, _, _, _, H => by
    rw [Expr.flowAll] at H
    cases H
    exact I.nil
  | e :: rest, n, o, fr, f, H => by
    rw [Expr.flowAll] at H
    obtain ⟨first, hf, H⟩ := ok_of_bind H
    obtain ⟨later, hl, H⟩ := ok_of_bind H
    cases H
    exact I.cons (I.flow hf) (I.flowAll hl)

end

end FlowInvariant

end Expr

end LastUse
