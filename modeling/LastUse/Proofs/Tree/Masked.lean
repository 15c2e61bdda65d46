import LastUse.Access
import LastUse.Proofs.Flow.Expr
import LastUse.Proofs.Tree.Reading

/-!
# Masks

The mask of a tree for a name blots out what does not matter to the name: other names, the
functions that are called, operators, members, literals, and the names that are declared. It keeps
the kinds of the nodes, the lengths of lists, the labels, and where the name occurs. So two trees
have one mask if they have the same shape and the same labels and the name occurs at the same
places.

What is read from the mask of a tree is the mask of what is read from the tree
(`Expr.masked_ofValue`, `Stmt.masked_ofValue`).
-/

namespace LastUse

namespace Value

/-- A text that is not `x`. -/
def otherThan (x : Value) : Value := if (str "").same x then str "_" else str ""

/-- The other text is a text. -/
theorem isText_otherThan (x : Value) : (otherThan x).isText = true := by
  unfold otherThan
  split <;> rfl

/-- A text is equal to nothing but itself. -/
theorem eq_of_str_same {s : String} {x : Value} (h : (str s).same x = true) : x = str s := by
  cases x with
  | scalar t =>
    rw [same] at h
    cases t with
    | str t =>
      obtain rfl := Scalar.str.inj (of_decide_eq_true h)
      rfl
    | float y => cases hy : y.dyadic? <;> simp [Scalar.same, Scalar.dyadic?, hy] at h
    | _ => cases h
  | list | node => cases h

/-- The other text is not `x`. -/
theorem otherThan_same (x : Value) : (otherThan x).same x = false := by
  unfold otherThan
  split
  · next h =>
    rw [eq_of_str_same h]
    decide
  · next h => exact Bool.eq_false_iff.2 h

/-- What a mask leaves of a field that holds no part of a node: a label as it is, and of an
occurrence of a name only whether it is `x`. -/
def maskedData (x : Value) : Kind → Value → Value
  | .labeled, v | .goto, v => v
  | .name, v => if v.same x then v else otherThan x
  | _, _ => str ""

mutual

/-- The mask of a value for the name `x`. -/
def masked (x : Value) : Value → Value
  | .scalar s => .scalar s
  | .list items => .list (maskedItems x items)
  | .node k fields => .node k (maskedFields x k k.fields fields)

/-- The masks of the items of a list. -/
def maskedItems (x : Value) : List Value → List Value
  | [] => []
  | v :: rest => masked x v :: maskedItems x rest

/-- The masks of the fields of a node. -/
def maskedFields (x : Value) (k : Kind) : List FieldDecl → List Value → List Value
  | f :: fs, v :: rest =>
    (if f.type.role = .data then maskedData x k v else masked x v) :: maskedFields x k fs rest
  | [], rest => rest
  | _ :: _, [] => []

end

/-- An occurrence of a name is one of `x` behind the mask if it was one before. -/
theorem maskedData_name_same (x v : Value) : (maskedData x .name v).same x = v.same x := by
  rw [maskedData]
  split
  · rfl
  · next h => rw [otherThan_same, Bool.eq_false_iff.2 h]

/-- What is masked once is masked for good. -/
theorem maskedData_idem (x : Value) (k : Kind) (v : Value) :
    maskedData x k (maskedData x k v) = maskedData x k v := by
  cases k
  case name =>
    simp only [maskedData]
    split
    · rfl
    · rw [otherThan_same, if_neg Bool.false_ne_true]
  all_goals rfl

/-- A text stays a text behind the mask. -/
theorem isText_maskedData {x v : Value} (k : Kind) (h : v.isText = true) :
    (maskedData x k v).isText = true := by
  cases k
  case name =>
    rw [maskedData]
    split
    · exact h
    · exact isText_otherThan x
  case labeled | goto => exact h
  all_goals rfl

end Value

namespace Expr

mutual

/-- The mask of an expression. -/
def masked (x : Value) : Expr → Expr
  | .absent => .absent
  | .stray t => .stray t
  | .unlisted => .unlisted
  | .foreign p k parts => .foreign p k (maskedAll x parts)
  | .name p id => .name p (.maskedData x .name id)
  | .literal p v => .literal p (.maskedData x .literal v)
  | .call p f args => .call p (.maskedData x .call f) (maskedAll x args)
  | .unary p op e => .unary p (.maskedData x .unary op) (e.masked x)
  | .binary p op l r => .binary p (.maskedData x .binary op) (l.masked x) (r.masked x)
  | .assign p op l r => .assign p (.maskedData x .assign op) (l.masked x) (r.masked x)
  | .member p base field => .member p (base.masked x) (.maskedData x .member field)
  | .index p l r => .index p (l.masked x) (r.masked x)
  | .addressOf p e => .addressOf p (e.masked x)
  | .move p e => .move p (e.masked x)
  | .logic p c l r => .logic p c (l.masked x) (r.masked x)

/-- The masks of several expressions. -/
def maskedAll (x : Value) : List Expr → List Expr
  | [] => []
  | e :: rest => e.masked x :: maskedAll x rest

end

/-- The masks of some expressions and further ones are those of both. -/
theorem maskedAll_append (x : Value) (es es' : List Expr) :
    maskedAll x (es ++ es') = maskedAll x es ++ maskedAll x es' := by
  induction es with
  | nil => rfl
  | cons e rest ih => rw [List.cons_append, maskedAll, ih, maskedAll, List.cons_append]

variable (x : Value)

/-- Parts could not be listed behind the mask if they could not be before. -/
theorem isUnlisted_masked (e : Expr) : (e.masked x).isUnlisted = e.isUnlisted := by
  cases e <;> rfl

/-- An expression is missing behind the mask if it was missing before. -/
theorem isAbsent_masked (e : Expr) : (e.masked x).isAbsent = e.isAbsent := by
  cases e <;> rfl

/-- A mask stays in its place. -/
theorem place?_masked (e : Expr) : (e.masked x).place? = e.place? := by
  cases e <;> rfl

/-- Some parts could not be listed behind the mask if some could not be before. -/
theorem any_isUnlisted_maskedAll (es : List Expr) :
    (maskedAll x es).any isUnlisted = es.any isUnlisted := by
  induction es with
  | nil => rfl
  | cons e rest ih => rw [maskedAll, List.any_cons, List.any_cons, isUnlisted_masked, ih]

mutual

/-- The mask of a mask adds nothing. -/
theorem masked_masked : ∀ e : Expr, (e.masked x).masked x = e.masked x
  | .absent | .stray _ | .unlisted => rfl
  | .foreign _ _ parts => by simp only [masked, maskedAll_maskedAll parts]
  | .name .. | .literal .. => by simp only [masked, Value.maskedData_idem]
  | .call _ _ args => by simp only [masked, Value.maskedData_idem, maskedAll_maskedAll args]
  | .unary _ _ e | .member _ e _ => by simp only [masked, Value.maskedData_idem, masked_masked e]
  | .addressOf _ e | .move _ e => by simp only [masked, masked_masked e]
  | .binary _ _ l r | .assign _ _ l r | .index _ l r | .logic _ _ l r => by
    simp only [masked, Value.maskedData_idem, masked_masked l, masked_masked r]

/-- Several expressions, too, are masked for good. -/
theorem maskedAll_maskedAll : ∀ es : List Expr, maskedAll x (maskedAll x es) = maskedAll x es
  | [] => rfl
  | e :: rest => by simp only [maskedAll, masked_masked e, maskedAll_maskedAll rest]

end

mutual

/-- The nodes of a mask are the masks of the nodes. -/
theorem nodes_masked : ∀ e : Expr, (e.masked x).nodes = e.nodes.map (masked x)
  | .absent | .stray _ | .unlisted | .name .. | .literal .. => rfl
  | .foreign _ _ parts | .call _ _ parts => by simp [masked, nodes, nodesAll_maskedAll parts]
  | .unary _ _ e | .member _ e _ | .addressOf _ e | .move _ e => by
    simp [masked, nodes, nodes_masked e]
  | .binary _ _ l r | .assign _ _ l r | .index _ l r | .logic _ _ l r => by
    simp [masked, nodes, nodes_masked l, nodes_masked r]

/-- The nodes of the masks of several expressions are the masks of their nodes. -/
theorem nodesAll_maskedAll :
    ∀ es : List Expr, nodesAll (maskedAll x es) = (nodesAll es).map (masked x)
  | [] => rfl
  | e :: rest => by simp [maskedAll, nodesAll, nodes_masked e, nodesAll_maskedAll rest]

end

mutual

/-- A mask keeps the connectives. -/
theorem shortCircuits_masked : ∀ e : Expr, (e.masked x).shortCircuits = e.shortCircuits
  | .absent | .stray _ | .unlisted | .name .. | .literal .. | .logic .. => rfl
  | .foreign _ _ parts | .call _ _ parts => by
    simp only [masked, shortCircuits, someShortCircuits_maskedAll parts]
  | .unary _ _ e | .member _ e _ | .addressOf _ e | .move _ e => by
    simp only [masked, shortCircuits, shortCircuits_masked e]
  | .binary _ _ l r | .assign _ _ l r | .index _ l r => by
    simp only [masked, shortCircuits, shortCircuits_masked l, shortCircuits_masked r]

/-- Whether some of several expressions short-circuit stays the same. -/
theorem someShortCircuits_maskedAll :
    ∀ es : List Expr, someShortCircuits (maskedAll x es) = someShortCircuits es
  | [] => rfl
  | e :: rest => by
    simp only [maskedAll, someShortCircuits, shortCircuits_masked e,
      someShortCircuits_maskedAll rest]

end

mutual

/-- The mask of an expression that has all of its parts has them too. -/
theorem proper_masked : ∀ {e : Expr}, e.proper = true → (e.masked x).proper = true
  | .absent, h | .stray _, h | .unlisted, h | .foreign .., h => h
  | .name .., h => Value.isText_maskedData _ h
  | .literal .., _ => rfl
  | .call _ _ args, h => by
    simp only [proper, masked, Bool.and_eq_true] at h ⊢
    exact ⟨Value.isText_maskedData _ h.1, allProper_maskedAll h.2⟩
  | .unary _ _ e, h => by
    simp only [proper, masked, Bool.and_eq_true] at h ⊢
    exact ⟨Value.isText_maskedData _ h.1, proper_masked h.2⟩
  | .binary _ _ l r, h | .assign _ _ l r, h => by
    simp only [proper, masked, Bool.and_eq_true] at h ⊢
    exact ⟨⟨Value.isText_maskedData _ h.1.1, proper_masked h.1.2⟩, proper_masked h.2⟩
  | .member _ e _, h => by
    simp only [proper, masked, Bool.and_eq_true] at h ⊢
    exact ⟨proper_masked h.1, Value.isText_maskedData _ h.2⟩
  | .index _ l r, h | .logic _ _ l r, h => by
    simp only [proper, masked, Bool.and_eq_true] at h ⊢
    exact ⟨proper_masked h.1, proper_masked h.2⟩
  | .addressOf _ e, h | .move _ e, h => by
    simp only [proper, masked] at h ⊢
    exact proper_masked h

/-- The masks of expressions that have all their parts have all their parts. -/
theorem allProper_maskedAll :
    ∀ {es : List Expr}, allProper es = true → allProper (maskedAll x es) = true
  | [], _ => rfl
  | e :: rest, h => by
    simp only [allProper, maskedAll, Bool.and_eq_true] at h ⊢
    exact ⟨proper_masked h.1, allProper_maskedAll h.2⟩

end

/-- The mask of an expression that has all its parts or is missing has all its parts or is
missing. -/
theorem properOrAbsent_masked {e : Expr} (h : e.properOrAbsent = true) :
    (e.masked x).properOrAbsent = true := by
  rw [properOrAbsent, Bool.or_eq_true] at h ⊢
  exact h.imp ((isAbsent_masked x e).trans ·) (proper_masked x)

/-! ## How a mask touches the name -/

/-- An expression has `x` at its root behind the mask if it had before. -/
theorem root_masked_same : ∀ e : Expr, (e.masked x).root.same x = e.root.same x
  | .name .. => Value.maskedData_name_same ..
  | .member _ e _ | .index _ e _ => by simp only [masked, root, root_masked_same e]
  | .absent | .stray _ | .unlisted | .foreign .. | .literal .. | .call .. | .unary .. | .binary ..
  | .assign .. | .addressOf .. | .move .. | .logic .. => rfl

/-- The mask is an occurrence of `x` where the expression is one. -/
theorem isName_masked (e : Expr) : isName x (e.masked x) = isName x e := by
  cases e with
  | name => exact Value.maskedData_name_same ..
  | _ => rfl

/-- The mask takes the address of `x` where the expression does. -/
theorem takesAddressOf_masked (e : Expr) : takesAddressOf x (e.masked x) = takesAddressOf x e := by
  cases e with
  | addressOf _ e => exact root_masked_same x e
  | _ => rfl

/-- The mask moves `x` where the expression does. -/
theorem moves_masked (e : Expr) : moves x (e.masked x) = moves x e := by
  cases e with
  | move _ e => exact root_masked_same x e
  | _ => rfl

/-- A mask touches the name as the expression does. -/
theorem touch_masked (e : Expr) : (e.masked x).touch x = e.touch x := by
  simp only [touch, preorder_eq_nodes, nodes_masked, List.any_map, Function.comp_def,
    isName_masked, takesAddressOf_masked, moves_masked]

/-! ## Reading a mask -/

/-- A node may be put together from the masks of its parts. -/
theorem assemble_masked (p : Path) (k : Kind) (fields : List Value) (parts : List Expr) :
    assemble p k (Value.maskedFields x k k.fields fields) (maskedAll x parts) =
      (assemble p k fields parts).masked x := by
  have hparts : (if (maskedAll x parts).any isUnlisted then [.unlisted] else maskedAll x parts) =
      maskedAll x (if parts.any isUnlisted then [.unlisted] else parts) := by
    rw [any_isUnlisted_maskedAll]
    split <;> rfl
  unfold assemble
  rw [hparts]
  generalize (if parts.any isUnlisted then [.unlisted] else parts) = parts
  cases k
  case name | literal => rcases fields with _ | ⟨_, _ | ⟨_, _⟩⟩ <;> rfl
  case call => rcases fields with _ | ⟨_, _⟩ <;> rfl
  case unary | addressOf | move =>
    rcases fields with _ | ⟨_, _⟩ <;> rcases parts with _ | ⟨_, _ | ⟨_, _⟩⟩ <;> rfl
  case binary | index | logicalAnd | logicalOr =>
    rcases fields with _ | ⟨_, _⟩ <;> rcases parts with _ | ⟨_, _ | ⟨_, _ | ⟨_, _⟩⟩⟩ <;> rfl
  case assign =>
    rcases fields with _ | ⟨_, _ | ⟨_, _ | ⟨_, _ | ⟨_, _⟩⟩⟩⟩ <;>
      rcases parts with _ | ⟨_, _ | ⟨_, _ | ⟨_, _⟩⟩⟩ <;> rfl
  case member =>
    rcases fields with _ | ⟨_, _ | ⟨_, _ | ⟨_, _⟩⟩⟩ <;>
      rcases parts with _ | ⟨_, _ | ⟨_, _⟩⟩ <;> rfl
  all_goals rfl

mutual

/-- What is read from the mask of an expression is the mask of what is read from it. -/
theorem masked_ofValue : ∀ (v : Value) (p : Path), v.isOf Kind.exprs = true → v.wellTyped = true →
    (ofValue p v).masked x = ofValue p (Value.masked x v)
  | .scalar _, _, hk, _ | .list _, _, hk, _ => by cases hk
  | .node k fields, p, hk, ht => by
    have hparts := maskedAll_ofFields fields p (Kind.expr_fields k (List.contains_iff_mem.1 hk)) ht
    rw [Value.masked, ofValue, ofValue, ← hparts, assemble_masked]

/-- What is read from the masks of items is the mask of what is read from the items. -/
theorem maskedAll_ofItems : ∀ (items : List Value) (p : Path) (i : Nat),
    (∀ v ∈ items, v.isOf Kind.exprs = true) → Value.itemsWellTyped items = true →
    maskedAll x (ofItems p i items) = ofItems p i (Value.maskedItems x items)
  | [], _, _, _, _ => rfl
  | v :: rest, p, i, hk, ht => by
    rw [List.forall_mem_cons] at hk
    rw [Value.itemsWellTyped, Bool.and_eq_true] at ht
    rw [Value.maskedItems, ofItems, ofItems, maskedAll, masked_ofValue v _ hk.1 ht.1,
      maskedAll_ofItems rest p (i + 1) hk.2 ht.2]

/-- What is read from the masks of fields is the mask of what is read from the fields. -/
theorem maskedAll_ofFields : ∀ (vs : List Value) (p : Path) {k : Kind} {fs : List FieldDecl},
    (∀ f ∈ fs, f.type = .scalar ∧ k.skips f.name = true ∨
      (f.type = .text ∨ f.type = .expr ∨ f.type = .exprs) ∧ k.skips f.name = false) →
    Value.fieldsWellTyped fs vs = true →
    maskedAll x (ofFields p fs vs) = ofFields p fs (Value.maskedFields x k fs vs)
  | [], _, _, fs, _, _ => by cases fs <;> rfl
  | _ :: _, _, _, [], _, _ => rfl
  | v :: rest, p, k, f :: fs, hf, ht => by
    rw [List.forall_mem_cons] at hf
    obtain ⟨ha, hv, ht⟩ := Value.typed_cons ht
    have hrest := maskedAll_ofFields rest p hf.2 ht
    obtain ⟨name, type, default⟩ := f
    rcases hf.1 with ⟨rfl, -⟩ | ⟨rfl | rfl | rfl, -⟩
    · simpa [Value.maskedFields, ofFields, FieldType.role] using hrest
    · simpa [Value.maskedFields, ofFields, FieldType.role] using hrest
    · simp [Value.maskedFields, ofFields, FieldType.role, maskedAll,
        masked_ofValue v _ ha hv, hrest]
    · obtain ⟨items, rfl, hall⟩ := Value.exists_list_of_isListOf ha
      simp [Value.maskedFields, Value.masked, ofFields, FieldType.role, maskedAll_append,
        maskedAll_ofItems items _ 0 hall hv, hrest]

end

/-- What is read from the mask of a well-typed expression is the mask of what is read from it. -/
theorem masked_of_isExpr {v : Value} (h : v.IsExpr) (p : Path) :
    (ofValue p v).masked x = ofValue p (Value.masked x v) := masked_ofValue x v p h.1 h.2

/-- What is read from the mask of a well-typed expression or of nothing is the mask of what is read
from it. -/
theorem masked_of_isExprOrNull {v : Value} (h : v.IsExprOrNull) (p : Path) :
    (ofValue p v).masked x = ofValue p (Value.masked x v) := by
  rcases h with rfl | h
  · rfl
  · exact masked_of_isExpr x h p

end Expr

namespace Stmt

mutual

/-- The mask of a statement. -/
def masked (x : Value) : Stmt → Stmt
  | .absent => .absent
  | .stray t => .stray t
  | .unlisted => .unlisted
  | .misnamed k => .misnamed k
  | .block p body => .block p (maskedAll x body)
  | .exprStmt p e => .exprStmt p (e.masked x)
  | .decl p _ init => .decl p "" (init.masked x)
  | .ifElse p cond thenArm elseArm =>
    .ifElse p (cond.masked x) (thenArm.masked x) (elseArm.masked x)
  | .whileLoop p cond body => .whileLoop p (cond.masked x) (body.masked x)
  | .doWhile p body cond => .doWhile p (body.masked x) (cond.masked x)
  | .forLoop p before init cond step body =>
    .forLoop p (before.masked x) (init.masked x) (cond.masked x) (step.masked x) (body.masked x)
  | .foreach p _ iterable body => .foreach p "" (iterable.masked x) (body.masked x)
  | .switch p subject arms => .switch p (subject.masked x) (maskedAll x arms)
  | .caseArm p isDefault body => .caseArm p isDefault (maskedAll x body)
  | .labeled p label body => .labeled p label (body.masked x)
  | .goto p label => .goto p label
  | .ret p value => .ret p (value.masked x)
  | .brk p => .brk p
  | .cont p => .cont p

/-- The masks of several statements. -/
def maskedAll (x : Value) : List Stmt → List Stmt
  | [] => []
  | s :: rest => s.masked x :: maskedAll x rest

end

/-- A statement is missing behind the mask if it was missing before. -/
theorem isAbsent_masked (x : Value) (s : Stmt) : (s.masked x).isAbsent = s.isAbsent := by
  cases s <;> rfl

mutual

/-- The mask of a statement that has all of its parts has them too. -/
theorem proper_masked (x : Value) : ∀ {s : Stmt}, s.proper = true → (s.masked x).proper = true
  | .absent, h | .stray _, h | .unlisted, h | .misnamed _, h => h
  | .block _ body, h | .caseArm _ _ body, h => by
    simp only [proper, masked] at h ⊢
    exact allProper_maskedAll x h
  | .exprStmt _ e, h => by
    simp only [proper, masked] at h ⊢
    exact Expr.proper_masked x h
  | .decl _ _ e, h | .ret _ e, h => by
    simp only [proper, masked] at h ⊢
    exact Expr.properOrAbsent_masked x h
  | .ifElse _ cond thenArm elseArm, h => by
    simp only [proper, masked, isAbsent_masked, Bool.and_eq_true, Bool.or_eq_true] at h ⊢
    exact ⟨⟨Expr.proper_masked x h.1.1, proper_masked x h.1.2⟩, h.2.imp_right (proper_masked x)⟩
  | .whileLoop _ cond body, h | .doWhile _ body cond, h | .foreach _ _ cond body, h => by
    simp only [proper, masked, Bool.and_eq_true] at h ⊢
    exact ⟨Expr.proper_masked x h.1, proper_masked x h.2⟩
  | .forLoop _ before init cond step body, h => by
    simp only [proper, masked, isAbsent_masked, Bool.and_eq_true, Bool.or_eq_true] at h ⊢
    obtain ⟨⟨⟨⟨hbefore, hinit⟩, hcond⟩, hstep⟩, hbody⟩ := h
    exact ⟨⟨⟨⟨hbefore.imp_right (proper_masked x), Expr.properOrAbsent_masked x hinit⟩,
      Expr.properOrAbsent_masked x hcond⟩, Expr.properOrAbsent_masked x hstep⟩,
      proper_masked x hbody⟩
  | .switch _ subject arms, h => by
    simp only [proper, masked, Bool.and_eq_true] at h ⊢
    exact ⟨Expr.proper_masked x h.1, armsProper_maskedAll x h.2⟩
  | .labeled _ _ body, h => by
    simp only [proper, masked, isAbsent_masked, Bool.or_eq_true] at h ⊢
    exact h.imp_right (proper_masked x)
  | .goto .., _ | .brk _, _ | .cont _, _ => rfl

/-- The masks of statements that have all their parts have all their parts. -/
theorem allProper_maskedAll (x : Value) :
    ∀ {ss : List Stmt}, allProper ss = true → allProper (maskedAll x ss) = true
  | [], _ => rfl
  | s :: rest, h => by
    simp only [allProper, maskedAll, Bool.and_eq_true] at h ⊢
    exact ⟨proper_masked x h.1, allProper_maskedAll x h.2⟩

/-- The masks of cases that have all their parts have all their parts. -/
theorem armsProper_maskedAll (x : Value) : ∀ {arms : List Stmt}, armsProper arms = true →
    armsProper (maskedAll x arms) = true
  | [], _ => rfl
  | arm :: rest, h => by
    cases arm with
    | caseArm p isDefault body =>
      simp only [armsProper, maskedAll, masked, Bool.and_eq_true] at h ⊢
      exact ⟨allProper_maskedAll x h.1, armsProper_maskedAll x h.2⟩
    | _ => simp [armsProper] at h

end

/-- A value is a statement behind the mask if it was one before. -/
theorem isStmtValue_masked (x v : Value) : isStmtValue (Value.masked x v) = isStmtValue v := by
  cases v <;> rfl

/-- A value is true behind the mask if it was true before. -/
theorem truthy_masked (x v : Value) : (Value.masked x v).truthy = v.truthy := by
  cases v with
  | scalar | node => rfl
  | list items => cases items <;> rfl

/-- A case is read from its mask if its body is. -/
theorem masked_caseArm (x : Value) {p : Path} (values : Value) {body : List Value}
    (h : maskedAll x (ofItems (p.field "body") 0 body) = ofItems
      (p.field "body") 0 (Value.maskedItems x body)) :
    (ofValue p (.node .caseArm [values, .list body])).masked x =
      ofValue p (Value.masked x (.node .caseArm [values, .list body])) := by
  have hmask : Value.masked x (.node .caseArm [values, .list body]) =
      .node .caseArm [Value.masked x values, .list (Value.maskedItems x body)] := rfl
  rw [hmask, ofValue, ofValue, truthy_masked, masked, ofList, ofList, h]

/-- Each form of a statement is read from its mask. -/
theorem masked_reading (x : Value) : Value.StmtInvariant
    (fun p v => (ofValue p v).masked x = ofValue p (Value.masked x v))
    (fun p i items => maskedAll x (ofItems p i items) = ofItems p i (Value.maskedItems x items))
    (fun p i items => maskedAll x (ofItems p i items) = ofItems
      p i (Value.maskedItems x items)) where
  absent := rfl
  block h := congrArg (block _) h
  exprStmt he := congrArg (exprStmt _) (Expr.masked_of_isExpr x he _)
  decl he := congrArg (decl _ "") (Expr.masked_of_isExprOrNull x he _)
  ifElse hc _ hy hn := by
    rw [ofValue, masked, Expr.masked_of_isExpr x hc, hy, hn]
    rfl
  whileLoop hc _ hb := by
    rw [ofValue, masked, Expr.masked_of_isExpr x hc, hb]
    rfl
  doWhile _ hb hc := by
    rw [ofValue, masked, Expr.masked_of_isExpr x hc, hb]
    rfl
  forLoop := by
    intro p init cond step body hi hc hs _ hb
    have hcond := Expr.masked_of_isExprOrNull x hc
    have hstep := Expr.masked_of_isExprOrNull x hs
    have hmask : Value.masked x (.node .forLoop [init, cond, step, body]) = .node .forLoop
        [Value.masked x init, Value.masked x cond, Value.masked x step, Value.masked x body] := rfl
    rcases hi with hi | ⟨hi, hbefore⟩
    · rw [ofValue_forLoop_of_isExpr hi, masked, hcond, hstep, hb,
        Expr.masked_of_isExprOrNull x hi, hmask, ofValue, isStmtValue_masked, not_isStmtValue hi]
      rfl
    · rw [ofValue_forLoop_of_isStmt hi, masked, hcond, hstep, hb, hbefore, hmask, ofValue,
        isStmtValue_masked, isStmtValue_of_isStmt hi]
      rfl
  foreach hi _ hb := by
    simp only [ofValue, named, masked, Expr.masked_of_isExpr x hi, hb]
    rfl
  switch hs ha := by
    simp only [ofValue, ofList, masked, Expr.masked_of_isExpr x hs, ha]
    rfl
  caseArm h := masked_caseArm x _ h
  labeled hb := congrArg (labeled _ _) hb
  goto := rfl
  ret he := congrArg (ret _) (Expr.masked_of_isExprOrNull x he _)
  brk := rfl
  cont := rfl
  nil := rfl
  cons _ hf hl := by rw [ofItems, maskedAll, hf, hl, Value.maskedItems, ofItems]
  noArms := rfl
  arm hb ha := by rw [ofItems, maskedAll, masked_caseArm x _ hb, ha, Value.maskedItems, ofItems]

/-- What is read from the mask of a statement is the mask of what is read from it. -/
theorem masked_ofValue {v : Value} (h : v.IsStmt) (x : Value) (p : Path) :
    (ofValue p v).masked x = ofValue p (Value.masked x v) := (masked_reading x).holds h p

end Stmt

end LastUse
