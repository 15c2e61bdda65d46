import LastUse.Proofs.Flow.Expr
import LastUse.Proofs.Tree.Typed
import LastUse.Stmt.Basic

/-!
# Reading well-typed trees

What is read from a well-typed tree has all of its parts (`Expr.proper_ofValue`,
`Stmt.proper_ofValue`), and each node of it is of the kind that the tree says
(`Expr.kind?_ofValue`). What is to be shown of all well-typed statements is shown for one form
after the other (`Value.StmtInvariant`), and all of them are evaluated but for those that a literal
holds (`Value.evaluated_of_isStmt`). A node of a tree comes with its own part of the tree: the
evaluated nodes below its place are those of its value (`Value.mem_evaluated_node`).
-/

namespace LastUse

/-! ## The part of a tree that a node holds -/

namespace Value

variable {m n : Path × Value}

/-- The evaluated nodes of a value are at or below its place. -/
theorem under_evaluated {v : Value} {p : Path} (h : n ∈ v.evaluated p) : p.Under n.1 :=
  under_nodes (mem_evaluated.1 h).1

/-- The evaluated nodes of a list from an index on are below its items from there on. -/
theorem under_evaluatedItems {items : List Value} {p : Path} {i : Nat}
    (h : n ∈ evaluatedItems p i items) : ∃ j, i ≤ j ∧ (p.item j).Under n.1 :=
  under_itemNodes (mem_evaluatedItems.1 h).1

/-- The evaluated nodes in the fields of a node are below these fields. -/
theorem under_evaluatedFields {vs : List Value} {p : Path} {k : Kind} {fs : List FieldDecl}
    (hfs : (fs.map (·.name)).Nodup) (h : n ∈ (evaluatedFields p k fs vs).flatten) :
    ∃ f ∈ fs, (p.field f.name).Under n.1 :=
  under_fieldNodes ((mem_evaluatedFields hfs).1 h).1

/-- What is above an evaluated node is evaluated. -/
theorem mem_evaluated_of_under {v : Value} {p : Path} (hm : m ∈ v.nodes p) (hn : n ∈ v.evaluated p)
    (hu : m.1.Under n.1) : m ∈ v.evaluated p := by
  refine mem_evaluated.2 ⟨hm, fun x hx ho => ?_⟩
  obtain ⟨k, fields, field, hk, hskip, hx'⟩ := ho
  exact (mem_evaluated.1 hn).2 x hx ⟨k, fields, field, hk, hskip, hx'.trans hu⟩

/-- There is no other node at the place of an evaluated one. -/
theorem eq_of_place {v : Value} {p : Path} (hm : m ∈ v.nodes p) (hn : n ∈ v.evaluated p)
    (h : m.1 = n.1) : m = n :=
  List.inj_on_of_nodup_map (nodup_evaluated v p) (mem_evaluated_of_under hm hn (h ▸ .refl _)) hn h

mutual

/-- The evaluated nodes of a node are those of the tree that are not above it or beside it. -/
theorem mem_evaluated_node : ∀ {v : Value} {p : Path}, n ∈ v.evaluated p →
    (m ∈ n.2.evaluated n.1 ↔ m ∈ v.evaluated p ∧ n.1.Under m.1)
  | .scalar _, _, hn => by simp [evaluated] at hn
  | .list items, p, hn => by
    rw [evaluated] at hn ⊢
    exact mem_evaluatedItems_node hn
  | .node k fields, p, hn => by
    have hperm := (k.evaluationOrder_perm (evaluatedFields p k k.fields fields)).flatten
    rw [evaluated, List.mem_cons, hperm.mem_iff] at hn
    rcases hn with rfl | hn
    · exact ⟨fun hm => ⟨hm, under_evaluated hm⟩, fun hm => hm.1⟩
    · rw [mem_evaluatedFields_node k.nodup_fields hn, evaluated, List.mem_cons, hperm.mem_iff]
      refine ⟨fun h => ⟨.inr h.1, h.2⟩, fun h => ⟨h.1.resolve_left ?_, h.2⟩⟩
      rintro rfl
      obtain ⟨f, -, hf⟩ := under_evaluatedFields k.nodup_fields hn
      exact Path.not_field_under (hf.trans h.2)

/-- Below the place of an evaluated node of a list are the evaluated nodes of its value. -/
theorem mem_evaluatedItems_node : ∀ {items : List Value} {p : Path} {i : Nat},
    n ∈ evaluatedItems p i items →
    (m ∈ n.2.evaluated n.1 ↔ m ∈ evaluatedItems p i items ∧ n.1.Under m.1)
  | [], _, _, hn => by simp [evaluatedItems] at hn
  | v :: rest, p, i, hn => by
    rw [evaluatedItems, List.mem_append] at hn ⊢
    rcases hn with hn | hn
    · rw [mem_evaluated_node hn]
      refine ⟨fun h => ⟨.inl h.1, h.2⟩, fun h => ⟨h.1.resolve_right fun hm => ?_, h.2⟩⟩
      obtain ⟨j, hij, hj⟩ := under_evaluatedItems hm
      have := ((under_evaluated hn).trans h.2).item_inj hj
      omega
    · rw [mem_evaluatedItems_node hn]
      refine ⟨fun h => ⟨.inr h.1, h.2⟩, fun h => ⟨h.1.resolve_left fun hm => ?_, h.2⟩⟩
      obtain ⟨j, hij, hj⟩ := under_evaluatedItems hn
      have := (hj.trans h.2).item_inj (under_evaluated hm)
      omega

/-- Below the place of an evaluated node in the fields of a node are the evaluated nodes of its
value. -/
theorem mem_evaluatedFields_node : ∀ {vs : List Value} {p : Path} {k : Kind} {fs : List FieldDecl},
    (fs.map (·.name)).Nodup → n ∈ (evaluatedFields p k fs vs).flatten →
    (m ∈ n.2.evaluated n.1 ↔ m ∈ (evaluatedFields p k fs vs).flatten ∧ n.1.Under m.1)
  | [], _, _, fs, _, hn => by cases fs <;> simp [evaluatedFields] at hn
  | _ :: _, _, _, [], _, hn => by simp [evaluatedFields] at hn
  | v :: rest, p, k, f :: fs, hfs, hn => by
    rw [List.map_cons, List.nodup_cons] at hfs
    have hother : ∀ {x q : Path × Value}, x ∈ (evaluatedFields p k fs rest).flatten →
        (p.field f.name).Under q.1 → ¬ x.1.Under q.1 := by
      intro x q hx hq hxq
      obtain ⟨g, hg, hu⟩ := under_evaluatedFields hfs.2 hx
      exact hfs.1 (List.mem_map.2 ⟨g, hg, (hu.trans hxq).field_inj hq⟩)
    rw [evaluatedFields, List.flatten_cons, List.mem_append] at hn ⊢
    rcases hn with hn | hn
    · split at hn
      · cases hn
      · next hskip =>
        rw [if_neg hskip, mem_evaluated_node hn]
        refine ⟨fun h => ⟨.inl h.1, h.2⟩, fun h => ⟨h.1.resolve_right fun hm => ?_, h.2⟩⟩
        exact hother hm ((under_evaluated hn).trans h.2) (.refl _)
    · rw [mem_evaluatedFields_node hfs.2 hn]
      refine ⟨fun h => ⟨.inr h.1, h.2⟩, fun h => ⟨h.1.resolve_left fun hm => ?_, h.2⟩⟩
      split at hm
      · cases hm
      · exact hother hn (under_evaluated hm) h.2

end

mutual

/-- All evaluated nodes of an expression are expressions. -/
theorem isOf_evaluated : ∀ {v : Value} {p : Path}, v.isOf Kind.exprs = true → v.wellTyped = true →
    n ∈ v.evaluated p → n.2.isOf Kind.exprs = true
  | .scalar _, _, hk, _, _ | .list _, _, hk, _, _ => by cases hk
  | .node k fields, p, hk, ht, hn => by
    rw [evaluated, List.mem_cons, (k.evaluationOrder_perm _).flatten.mem_iff] at hn
    rcases hn with rfl | hn
    · exact hk
    · rw [wellTyped] at ht
      exact isOf_evaluatedFields (Kind.expr_fields k (List.contains_iff_mem.1 hk)) ht hn

/-- The evaluated nodes in a list of well-typed expressions are expressions. -/
theorem isOf_evaluatedItems : ∀ {items : List Value} {p : Path} {i : Nat},
    (∀ v ∈ items, v.isOf Kind.exprs = true) → itemsWellTyped items = true →
    n ∈ evaluatedItems p i items → n.2.isOf Kind.exprs = true
  | [], _, _, _, _, hn => by simp [evaluatedItems] at hn
  | v :: rest, p, i, hk, ht, hn => by
    rw [List.forall_mem_cons] at hk
    rw [itemsWellTyped, Bool.and_eq_true] at ht
    rw [evaluatedItems, List.mem_append] at hn
    exact hn.elim (isOf_evaluated hk.1 ht.1) (isOf_evaluatedItems hk.2 ht.2)

/-- The evaluated nodes in the fields of a well-typed expression are expressions. -/
theorem isOf_evaluatedFields : ∀ {vs : List Value} {p : Path} {k : Kind} {fs : List FieldDecl},
    (∀ f ∈ fs, f.type = .scalar ∧ k.skips f.name = true ∨
      (f.type = .text ∨ f.type = .expr ∨ f.type = .exprs) ∧ k.skips f.name = false) →
    fieldsWellTyped fs vs = true → n ∈ (evaluatedFields p k fs vs).flatten →
      n.2.isOf Kind.exprs = true
  | [], _, _, fs, _, _, hn => by cases fs <;> simp [evaluatedFields] at hn
  | _ :: _, _, _, [], _, _, hn => by simp [evaluatedFields] at hn
  | v :: rest, p, k, f :: fs, hf, ht, hn => by
    rw [List.forall_mem_cons] at hf
    obtain ⟨ha, hv, ht⟩ := typed_cons ht
    rw [evaluatedFields, List.flatten_cons, List.mem_append] at hn
    refine hn.elim (fun hn => ?_) (isOf_evaluatedFields hf.2 ht)
    obtain ⟨name, type, default⟩ := f
    rcases hf.1 with ⟨rfl, hskip⟩ | ⟨rfl | rfl | rfl, hskip⟩
    · simp [hskip] at hn
    · simp [hskip, evaluated_of_isText ha] at hn
    · exact isOf_evaluated ha hv (by simpa [hskip] using hn)
    · obtain ⟨items, rfl, hall⟩ := exists_list_of_isListOf ha
      exact isOf_evaluatedItems hall hv (by simpa [hskip, evaluated] using hn)

end

end Value

/-! ## Expressions -/

/-- The kinds of connectives. -/
def Kind.connectives : List Kind := [.logicalAnd, .logicalOr]

namespace Expr

/-- The kind of a node. -/
def kind? : Expr → Option Kind
  | .absent | .stray _ | .unlisted => none
  | .foreign _ k _ => some k
  | .name .. => some .name
  | .literal .. => some .literal
  | .call .. => some .call
  | .unary .. => some .unary
  | .binary .. => some .binary
  | .assign .. => some .assign
  | .member .. => some .member
  | .index .. => some .index
  | .addressOf .. => some .addressOf
  | .move .. => some .move
  | .logic _ c _ _ => some c.kind

/-- A node that is put together is of the kind that is asked for. -/
theorem kind?_assemble (p : Path) (k : Kind) (fields : List Value) (parts : List Expr) :
    (assemble p k fields parts).kind? = some k := by
  unfold assemble
  dsimp only
  generalize (if parts.any isUnlisted then [.unlisted] else parts) = parts
  split <;> rfl

/-- What is read from a node is of its kind. -/
theorem kind?_ofValue (p : Path) (k : Kind) (fields : List Value) :
    (ofValue p (.node k fields)).kind? = some k := by
  rw [ofValue, kind?_assemble]

/-- A node of a tree is of some kinds if what is read from it is. -/
theorem isOf_eq_kind? {n : Path × Value} (kinds : List Kind) :
    n.2.isOf kinds = ((Value.read n).kind?.any kinds.contains) := by
  obtain ⟨p, v⟩ := n
  cases v with
  | node k fields => rw [Value.read, kind?_ofValue, Value.isOf, Option.any_some]
  | scalar s => cases s <;> rfl
  | list => rfl

mutual

/-- Whether an expression has all of its parts, and texts for its names and operators. -/
def proper : Expr → Bool
  | .absent | .stray _ | .unlisted | .foreign .. => false
  | .name _ id => id.isText
  | .literal .. => true
  | .call _ f args => f.isText && allProper args
  | .unary _ op e => op.isText && e.proper
  | .binary _ op l r | .assign _ op l r => op.isText && l.proper && r.proper
  | .member _ base field => base.proper && field.isText
  | .index _ l r | .logic _ _ l r => l.proper && r.proper
  | .addressOf _ e | .move _ e => e.proper

/-- Whether several expressions have all of their parts. -/
def allProper : List Expr → Bool
  | [] => true
  | e :: rest => e.proper && allProper rest

end

/-- Some expressions and further ones have all their parts if both have. -/
theorem allProper_append (es es' : List Expr) :
    allProper (es ++ es') = (allProper es && allProper es') := by
  induction es with
  | nil => simp [allProper]
  | cons e rest ih => simp [allProper, ih, Bool.and_assoc]

/-- A node of an expression has all of its parts if they are proper. -/
theorem proper_node {p : Path} {k : Kind} {fields : List Value} (hk : k ∈ Kind.exprs)
    (ht : Value.fieldsWellTyped k.fields fields = true)
    (hparts : allProper (ofFields p k.fields fields) = true) :
    (ofValue p (.node k fields)).proper = true := by
  simp only [Kind.exprs, List.mem_cons, List.not_mem_nil, or_false] at hk
  -- The number of fields is that of the declared ones, and only a call has parts in a list.
  rcases hk with rfl | rfl | rfl | rfl | rfl | rfl | rfl | rfl | rfl | rfl | rfl | rfl <;>
    rcases fields with _ | ⟨a, _ | ⟨b, _ | ⟨c, _ | ⟨d, rest⟩⟩⟩⟩ <;>
    simp only [Kind.fields, Value.fieldsWellTyped, Bool.and_true, Bool.and_false,
      Bool.false_eq_true, Bool.and_eq_true] at ht
  case inr.inr.inl.cons.cons.nil =>
    obtain ⟨items, rfl, -⟩ := Value.exists_list_of_isListOf ht.2.1
    have hall := any_isUnlisted_ofItems (p.field "args") 0 items
    have hf : a.isText = true := ht.1.1
    simpa [ofValue, assemble, ofFields, Kind.fields, FieldDecl.required, FieldDecl.orEmpty,
      FieldType.role, proper, hall, hf] using hparts
  all_goals
    simp [ofValue, assemble, ofFields, Kind.fields, FieldDecl.required, FieldDecl.orNull,
      FieldType.role, isUnlisted_ofValue, allProper, proper, FieldType.admits] at hparts ht ⊢
  all_goals simp_all

mutual

/-- What is read from an expression has all of its parts. -/
theorem proper_ofValue : ∀ (v : Value) (p : Path), v.isOf Kind.exprs = true → v.wellTyped = true →
    (ofValue p v).proper = true
  | .scalar _, _, hk, _ | .list _, _, hk, _ => by cases hk
  | .node k fields, p, hk, ht => by
    have hk : k ∈ Kind.exprs := List.contains_iff_mem.1 hk
    rw [Value.wellTyped] at ht
    exact proper_node hk ht (proper_ofFields fields p (Kind.expr_fields k hk) ht)

/-- What is read from a list of well-typed expressions has all its parts. -/
theorem proper_ofItems : ∀ (items : List Value) (p : Path) (i : Nat),
    (∀ v ∈ items, v.isOf Kind.exprs = true) → Value.itemsWellTyped items = true →
    allProper (ofItems p i items) = true
  | [], _, _, _, _ => by rw [ofItems, allProper]
  | v :: rest, p, i, hk, ht => by
    rw [List.forall_mem_cons] at hk
    rw [Value.itemsWellTyped, Bool.and_eq_true] at ht
    rw [ofItems, allProper, proper_ofValue v _ hk.1 ht.1, proper_ofItems rest p (i + 1) hk.2 ht.2,
      Bool.and_true]

/-- What is read from the fields of a well-typed expression has all its parts. -/
theorem proper_ofFields : ∀ (vs : List Value) (p : Path) {k : Kind} {fs : List FieldDecl},
    (∀ f ∈ fs, f.type = .scalar ∧ k.skips f.name = true ∨
      (f.type = .text ∨ f.type = .expr ∨ f.type = .exprs) ∧ k.skips f.name = false) →
    Value.fieldsWellTyped fs vs = true → allProper (ofFields p fs vs) = true
  | [], _, _, fs, _, _ => by cases fs <;> simp [ofFields, allProper]
  | _ :: _, _, _, [], _, _ => by simp [ofFields, allProper]
  | v :: rest, p, k, f :: fs, hf, ht => by
    rw [List.forall_mem_cons] at hf
    obtain ⟨ha, hv, ht⟩ := Value.typed_cons ht
    have hrest := proper_ofFields rest p hf.2 ht
    obtain ⟨name, type, default⟩ := f
    rcases hf.1 with ⟨rfl, -⟩ | ⟨rfl | rfl | rfl, -⟩
    · simpa [ofFields, FieldType.role] using hrest
    · simpa [ofFields, FieldType.role] using hrest
    · simp [ofFields, FieldType.role, allProper, proper_ofValue v _ ha hv, hrest]
    · obtain ⟨items, rfl, hall⟩ := Value.exists_list_of_isListOf ha
      simp [ofFields, FieldType.role, allProper_append, proper_ofItems items _ 0 hall hv, hrest]

end

/-- Whether an expression that may be missing is proper. -/
def properOrAbsent (e : Expr) : Bool := e.isAbsent || e.proper

/-- An expression that may be missing may be there. -/
theorem properOrAbsent_of_proper {e : Expr} (h : e.proper = true) : e.properOrAbsent = true := by
  rw [properOrAbsent, h, Bool.or_true]

end Expr

/-! ## Statements -/

/-- A well-typed expression. -/
def Value.IsExpr (v : Value) : Prop := v.isOf Kind.exprs = true ∧ v.wellTyped = true

/-- A well-typed expression or nothing. -/
def Value.IsExprOrNull (v : Value) : Prop := v = .null ∨ v.IsExpr

/-- A well-typed statement. -/
def Value.IsStmt (v : Value) : Prop := v.isOf Kind.stmts = true ∧ v.wellTyped = true

/-- What a node other than a literal does not evaluate is a list of expressions. -/
theorem Kind.typed_fields {k : Kind} (h : k ≠ .literal) : ∀ f ∈ k.fields,
    f.type ≠ .scalar ∧ (k.skips f.name = true → f.type = .exprs) := by
  cases k
  case literal => exact absurd rfl h
  all_goals decide

namespace Value

/-- What is null is the null value. -/
theorem eq_null {v : Value} (h : v.isNull = true) : v = .null := by
  cases v with
  | scalar s =>
    cases s with
    | null => rfl
    | _ => cases h
  | list | node => cases h

/-- What a field for an expression or nothing may hold is a well-typed expression or nothing. -/
theorem isExprOrNull {v : Value} (h : (v.isNull || v.isOf Kind.exprs) = true)
    (ht : v.wellTyped = true) : v.IsExprOrNull :=
  (Bool.or_eq_true_iff.1 h).imp eq_null fun he => ⟨he, ht⟩

/-- A value is of one kind only. -/
theorem not_isOf {v : Value} {kinds kinds' : List Kind} (hk : ∀ k ∈ kinds, k ∉ kinds')
    (h : v.isOf kinds = true) : ¬ v.isOf kinds' = true := by
  cases v with
  | node k fields => exact fun h' => hk k (List.contains_iff_mem.1 h) (List.contains_iff_mem.1 h')
  | scalar | list => cases h

/-- The evaluated nodes of a well-typed expression are well-typed expressions. -/
theorem isExpr_evaluated {v : Value} {p : Path} {n : Path × Value} (h : v.IsExpr)
    (hn : n ∈ v.evaluated p) : n.2.IsExpr :=
  ⟨isOf_evaluated h.1 h.2 hn, wellTyped_evaluated h.2 hn⟩

variable {n : Path × Value}

mutual

/-- A statement of a well-typed tree that is in no literal is evaluated, and it is in no
expression. -/
theorem evaluated_of_isStmt : ∀ {v : Value} {p : Path}, v.wellTyped = true → n ∈ v.nodes p →
    n.2.isOf Kind.stmts = true →
    (∀ m ∈ v.nodes p, m.2.isOf [.literal] = true → ¬ (m.1.field "value").Under n.1) →
    n ∈ v.evaluated p ∧ ¬ v.isOf Kind.exprs = true ∧ ¬ v.isListOf (·.isOf Kind.exprs) = true
  | .scalar _, _, _, hn, _, _ => by simp [nodes] at hn
  | .list items, p, ht, hn, hs, hl => by
    obtain ⟨he, hk⟩ := evaluatedItems_of_isStmt ht hn hs hl
    exact ⟨he, Bool.false_ne_true, hk⟩
  | .node k fields, p, ht, hn, hs, hl => by
    rw [nodes, List.forall_mem_cons] at hl
    rw [nodes, List.mem_cons] at hn
    rcases hn with rfl | hn
    · exact ⟨List.mem_cons_self, not_isOf (by decide) hs, Bool.false_ne_true⟩
    · have hk : k ≠ .literal := by
        rintro rfl
        obtain ⟨f, hf, hu⟩ := under_fieldNodes hn
        rw [List.mem_singleton.1 hf] at hu
        exact hl.1 rfl hu
      obtain ⟨he, f, hf, htype⟩ := evaluatedFields_of_isStmt (Kind.typed_fields hk) ht hn hs hl.2
      refine ⟨?_, fun hexpr => ?_, Bool.false_ne_true⟩
      · rw [evaluated, List.mem_cons, (k.evaluationOrder_perm _).flatten.mem_iff]
        exact .inr he
      · have := Kind.expr_fields k (List.contains_iff_mem.1 hexpr) f hf
        grind

/-- A statement in a list is evaluated if no literal holds it, and not all items of the list are
expressions. -/
theorem evaluatedItems_of_isStmt : ∀ {items : List Value} {p : Path} {i : Nat},
    itemsWellTyped items = true → n ∈ itemNodes p i items → n.2.isOf Kind.stmts = true →
    (∀ m ∈ itemNodes p i items, m.2.isOf [.literal] = true → ¬ (m.1.field "value").Under n.1) →
    n ∈ evaluatedItems p i items ∧ ¬ items.all (·.isOf Kind.exprs) = true
  | [], _, _, _, hn, _, _ => by simp [itemNodes] at hn
  | v :: rest, p, i, ht, hn, hs, hl => by
    rw [itemsWellTyped, Bool.and_eq_true] at ht
    rw [itemNodes, List.forall_mem_append] at hl
    rw [itemNodes, List.mem_append] at hn
    rw [evaluatedItems, List.mem_append, List.all_cons, Bool.and_eq_true, not_and_or]
    rcases hn with hn | hn
    · obtain ⟨he, hk, -⟩ := evaluated_of_isStmt ht.1 hn hs hl.1
      exact ⟨.inl he, .inl hk⟩
    · obtain ⟨he, hk⟩ := evaluatedItems_of_isStmt ht.2 hn hs hl.2
      exact ⟨.inr he, .inr hk⟩

/-- A statement in the fields of a node is evaluated if no literal holds it, and one of the fields
is not for expressions alone. -/
theorem evaluatedFields_of_isStmt :
    ∀ {vs : List Value} {p : Path} {k : Kind} {fs : List FieldDecl},
    (∀ f ∈ fs, f.type ≠ .scalar ∧ (k.skips f.name = true → f.type = .exprs)) →
    fieldsWellTyped fs vs = true → n ∈ fieldNodes p fs vs → n.2.isOf Kind.stmts = true →
    (∀ m ∈ fieldNodes p fs vs, m.2.isOf [.literal] = true → ¬ (m.1.field "value").Under n.1) →
    n ∈ (evaluatedFields p k fs vs).flatten ∧ ∃ f ∈ fs, f.type ∉ [.scalar, .text, .expr, .exprs]
  | [], _, _, fs, _, _, hn, _, _ => by cases fs <;> simp [fieldNodes] at hn
  | _ :: _, _, _, [], _, _, hn, _, _ => by simp [fieldNodes] at hn
  | v :: rest, p, k, f :: fs, hfs, ht, hn, hs, hl => by
    rw [List.forall_mem_cons] at hfs
    obtain ⟨ha, hv, ht⟩ := typed_cons ht
    rw [fieldNodes, List.forall_mem_append] at hl
    rw [fieldNodes, List.mem_append] at hn
    rw [evaluatedFields, List.flatten_cons, List.mem_append]
    rcases hn with hn | hn
    · have hv : v.wellTyped = true := by simpa [hfs.1.1] using hv
      obtain ⟨he, hk, hks⟩ := evaluated_of_isStmt hv hn hs hl.1
      have htype : f.type ∉ [.scalar, .text, .expr, .exprs] := by
        simp only [List.mem_cons, List.not_mem_nil, or_false, not_or]
        refine ⟨hfs.1.1, fun h => ?_, fun h => ?_, fun h => ?_⟩
        · rw [h] at ha
          rw [evaluated_of_isText ha] at he
          cases he
        · exact hk (by rwa [h] at ha)
        · exact hks (by rwa [h] at ha)
      refine ⟨.inl ?_, f, List.mem_cons_self, htype⟩
      rwa [if_neg fun hskip => htype (by simp [hfs.1.2 hskip])]
    · obtain ⟨he, g, hg, hk⟩ := evaluatedFields_of_isStmt hfs.2 ht hn hs hl.2
      exact ⟨.inr he, g, List.mem_cons_of_mem _ hg, hk⟩

end

/-- A well-typed function has a block for its body. -/
theorem exists_body {tree : Value} (ht : tree.wellTyped = true)
    (hf : tree.isOf [.function] = true) :
    ∃ name params fields, tree = .node .function [name, params, .node .block fields] ∧
      name.isText = true ∧ params.isListOf isText = true ∧ (node .block fields).IsStmt := by
  cases tree with
  | scalar | list => cases hf
  | node k fields =>
    obtain rfl : k = .function := List.mem_singleton.1 (List.contains_iff_mem.1 hf)
    obtain ⟨name, params, body, rfl⟩ := List.length_eq_three.1 (length_of_typed ht)
    obtain ⟨hn, -, ht⟩ := typed_cons ht
    obtain ⟨hp, -, ht⟩ := typed_cons ht
    obtain ⟨hb, hbt, -⟩ := typed_cons ht
    cases body with
    | scalar | list => cases hb
    | node k fields =>
      obtain rfl : k = .block := List.mem_singleton.1 (List.contains_iff_mem.1 hb)
      exact ⟨name, params, fields, rfl, hn, hp, rfl, hbt⟩

/-- The evaluated nodes of a function are the function itself and those of its body. -/
theorem evaluated_function {name params body : Value} (hn : name.isText = true)
    (hp : params.isListOf isText = true) :
    (node .function [name, params, body]).evaluated .root =
      (.root, .node .function [name, params, body]) ::
        body.evaluated (Path.root.field "body") := by
  show (Path.root, node .function [name, params, body]) ::
      (name.evaluated (Path.root.field "name") ++
    (params.evaluated (Path.root.field "params") ++
      (body.evaluated (Path.root.field "body") ++ []))) = _
  rw [evaluated_of_isText hn, evaluated_of_isTexts hp, List.append_nil, List.nil_append,
    List.nil_append]

/-- A well-typed case has a list of statements for its body. -/
theorem exists_caseArm {v : Value} (hk : v.isOf [.caseArm] = true) (ht : v.wellTyped = true) :
    ∃ values body, v = .node .caseArm [values, .list body] := by
  cases v with
  | scalar | list => cases hk
  | node k fields =>
    obtain rfl : k = .caseArm := List.mem_singleton.1 (List.contains_iff_mem.1 hk)
    obtain ⟨values, body, rfl⟩ := List.length_eq_two.1 (length_of_typed ht)
    obtain ⟨items, rfl, -⟩ := exists_list_of_isListOf (typed_cons (typed_cons ht).2.2).1
    exact ⟨values, items, rfl⟩

/-- What properties of well-typed statements need to hold of every one: `P` of a statement or
nothing, `L` of several statements from an item of a list on and `A` of the cases of a switch. -/
structure StmtInvariant (P : Path → Value → Prop) (L A : Path → Nat → List Value → Prop) :
    Prop where
  absent {p : Path} : P p .null
  block {p : Path} {body : List Value} : L (p.field "body") 0 body →
    P p (.node .block [.list body])
  exprStmt {p : Path} {e : Value} : e.IsExpr → P p (.node .exprStmt [e])
  decl {p : Path} {name : String} {init : Value} :
    init.IsExprOrNull → P p (.node .decl [.str name, init])
  ifElse {p : Path} {cond thenArm elseArm : Value} :
    cond.IsExpr → thenArm.IsStmt → P (p.field "then") thenArm → P (p.field "orelse") elseArm →
      P p (.node .ifElse [cond, thenArm, elseArm])
  whileLoop {p : Path} {cond body : Value} :
    cond.IsExpr → body.IsStmt → P (p.field "body") body → P p (.node .whileLoop [cond, body])
  doWhile {p : Path} {body cond : Value} :
    body.IsStmt → P (p.field "body") body → cond.IsExpr → P p (.node .doWhile [body, cond])
  forLoop {p : Path} {init cond step body : Value} :
    init.IsExprOrNull ∨ init.IsStmt ∧ P (p.field "init") init → cond.IsExprOrNull →
      step.IsExprOrNull →
      body.IsStmt → P (p.field "body") body → P p (.node .forLoop [init, cond, step, body])
  foreach {p : Path} {var : String} {iterable body : Value} :
    iterable.IsExpr → body.IsStmt → P (p.field "body") body →
      P p (.node .foreach [.str var, iterable, body])
  switch {p : Path} {subject : Value} {cases : List Value} :
    subject.IsExpr → A (p.field "cases") 0 cases → P p (.node .switch [subject, .list cases])
  caseArm {p : Path} {values : Value} {body : List Value} :
    L (p.field "body") 0 body → P p (.node .caseArm [values, .list body])
  labeled {p : Path} {label : String} {body : Value} :
    P (p.field "stmt") body → P p (.node .labeled [.str label, body])
  goto {p : Path} {label : String} : P p (.node .goto [.str label])
  ret {p : Path} {value : Value} : value.IsExprOrNull → P p (.node .ret [value])
  brk {p : Path} : P p (.node .brk [])
  cont {p : Path} : P p (.node .cont [])
  nil {p : Path} {i : Nat} : L p i []
  cons {p : Path} {i : Nat} {s : Value} {rest : List Value} :
    s.IsStmt → P (p.item i) s → L p (i + 1) rest → L p i (s :: rest)
  noArms {p : Path} {i : Nat} : A p i []
  arm {p : Path} {i : Nat} {values : Value} {body rest : List Value} :
    L ((p.item i).field "body") 0 body → A p (i + 1) rest →
      A p i (.node .caseArm [values, .list body] :: rest)

namespace StmtInvariant

variable {P : Path → Value → Prop} {L A : Path → Nat → List Value → Prop}

/-- What is known of the body of a case. -/
def CaseBody (L : Path → Nat → List Value → Prop) (p : Path) : Value → Prop
  | .node .caseArm [_, .list body] => L (p.field "body") 0 body
  | _ => True

/-- A property that every form keeps holds of all well-typed statements. -/
theorem induct (I : StmtInvariant P L A) :
    (∀ (p : Path) (v : Value), v.isNull = true ∨ v.isOf Kind.stmts = true → v.wellTyped = true →
      P p v ∧ CaseBody L p v) ∧
    (∀ (p : Path) (v : Value), v.isListOf (·.isOf Kind.stmts) = true → v.wellTyped = true →
      ∃ items, v = .list items ∧ L p 0 items ∧
        (v.isListOf (·.isOf [.caseArm]) = true → A p 0 items)) ∧
    ∀ (p : Path) (i : Nat) (items : List Value), (∀ v ∈ items, v.isOf Kind.stmts = true) →
      itemsWellTyped items = true →
      L p i items ∧ ((∀ v ∈ items, v.isOf [.caseArm] = true) → A p i items) := by
  -- The induction is on how statements are read, which has a case for each form.
  apply Stmt.ofValue.mutual_induct
  case case1 =>
    intros
    exact ⟨I.absent, trivial⟩
  case case2 =>
    intro p s hs hk _
    cases s <;> first | exact absurd rfl hs | rcases hk with hk | hk <;> cases hk
  case case3 =>
    intro p items hk
    rcases hk with hk | hk <;> cases hk
  case case4 =>
    intro p body ih _ ht
    obtain ⟨hb, hbt, -⟩ := typed_cons ht
    obtain ⟨items, rfl, hl, -⟩ := ih hb hbt
    exact ⟨I.block hl, trivial⟩
  case case5 =>
    intro p e _ ht
    obtain ⟨he, het, -⟩ := typed_cons ht
    exact ⟨I.exprStmt ⟨he, het⟩, trivial⟩
  case case6 =>
    intro p name init _ ht
    obtain ⟨hn, -, ht⟩ := typed_cons ht
    obtain ⟨hi, hit, -⟩ := typed_cons ht
    obtain ⟨s, rfl⟩ := exists_text hn
    exact ⟨I.decl (isExprOrNull hi hit), trivial⟩
  case case7 =>
    intro p cond thenArm elseArm iht ihe _ ht
    obtain ⟨hc, hct, ht⟩ := typed_cons ht
    obtain ⟨hy, hyt, ht⟩ := typed_cons ht
    obtain ⟨hn, hnt, -⟩ := typed_cons ht
    exact ⟨I.ifElse ⟨hc, hct⟩ ⟨hy, hyt⟩ (iht (.inr hy) hyt).1
      (ihe (Bool.or_eq_true_iff.1 hn) hnt).1, trivial⟩
  case case8 =>
    intro p cond body ih _ ht
    obtain ⟨hc, hct, ht⟩ := typed_cons ht
    obtain ⟨hb, hbt, -⟩ := typed_cons ht
    exact ⟨I.whileLoop ⟨hc, hct⟩ ⟨hb, hbt⟩ (ih (.inr hb) hbt).1, trivial⟩
  case case9 =>
    intro p body cond ih _ ht
    obtain ⟨hb, hbt, ht⟩ := typed_cons ht
    obtain ⟨hc, hct, -⟩ := typed_cons ht
    exact ⟨I.doWhile ⟨hb, hbt⟩ (ih (.inr hb) hbt).1 ⟨hc, hct⟩, trivial⟩
  case case10 =>
    intro p init cond step body ihi ihb _ ht
    obtain ⟨hi, hit, ht⟩ := typed_cons ht
    obtain ⟨hc, hct, ht⟩ := typed_cons ht
    obtain ⟨hs, hst, ht⟩ := typed_cons ht
    obtain ⟨hb, hbt, -⟩ := typed_cons ht
    have hclause : init.IsExprOrNull ∨ init.IsStmt ∧ P (p.field "init") init :=
      (Bool.or_eq_true_iff.1 hi).imp (fun h => isExprOrNull h hit)
        fun h => ⟨⟨h, hit⟩, (ihi (.inr h) hit).1⟩
    exact ⟨I.forLoop hclause (isExprOrNull hc hct) (isExprOrNull hs hst)
      ⟨hb, hbt⟩ (ihb (.inr hb) hbt).1, trivial⟩
  case case11 =>
    intro p var iterable body ih _ ht
    obtain ⟨hv, -, ht⟩ := typed_cons ht
    obtain ⟨hi, hit, ht⟩ := typed_cons ht
    obtain ⟨hb, hbt, -⟩ := typed_cons ht
    obtain ⟨s, rfl⟩ := exists_text hv
    exact ⟨I.foreach ⟨hi, hit⟩ ⟨hb, hbt⟩ (ih (.inr hb) hbt).1, trivial⟩
  case case12 =>
    intro p subject cases ih _ ht
    obtain ⟨hs, hst, ht⟩ := typed_cons ht
    obtain ⟨hc, hct, -⟩ := typed_cons ht
    obtain ⟨items, rfl, -, ha⟩ := ih (stmts_of_cases hc) hct
    exact ⟨I.switch ⟨hs, hst⟩ (ha hc), trivial⟩
  case case13 =>
    intro p values body ih _ ht
    obtain ⟨-, -, ht⟩ := typed_cons ht
    obtain ⟨hb, hbt, -⟩ := typed_cons ht
    obtain ⟨items, rfl, hl, -⟩ := ih hb hbt
    exact ⟨I.caseArm hl, hl⟩
  case case14 =>
    intro p label body ih _ ht
    obtain ⟨hl, -, ht⟩ := typed_cons ht
    obtain ⟨hb, hbt, -⟩ := typed_cons ht
    obtain ⟨s, rfl⟩ := exists_text hl
    exact ⟨I.labeled (ih (Bool.or_eq_true_iff.1 hb) hbt).1, trivial⟩
  case case15 =>
    intro p label _ ht
    obtain ⟨hl, -, -⟩ := typed_cons ht
    obtain ⟨s, rfl⟩ := exists_text hl
    exact ⟨I.goto, trivial⟩
  case case16 =>
    intro p value _ ht
    obtain ⟨hv, hvt, -⟩ := typed_cons ht
    exact ⟨I.ret (isExprOrNull hv hvt), trivial⟩
  case case17 =>
    intro p fields _ ht
    cases fields with
    | nil => exact ⟨I.brk, trivial⟩
    | cons => cases ht
  case case18 =>
    intro p fields _ ht
    cases fields with
    | nil => exact ⟨I.cont, trivial⟩
    | cons => cases ht
  case case19 =>
    intro p k fields hblock hexpr hdecl hif hwhile hdo hfor hforeach
      hswitch hcase hlabeled hgoto hret hbrk hcont hk ht
    have hlen := length_of_typed ht
    have hmem : k ∈ Kind.stmts := List.contains_iff_mem.1 (hk.resolve_left Bool.false_ne_true)
    exfalso
    -- A statement with as many fields as are declared is one of the cases above.
    rcases fields with _ | ⟨a, _ | ⟨b, _ | ⟨c, _ | ⟨d, _ | ⟨e, rest⟩⟩⟩⟩⟩ <;> cases k <;> first
      | exact absurd hmem (by decide)
      | (cases hlen; done)
      | exact hbrk rfl
      | exact hcont rfl
      | exact hblock a rfl rfl
      | exact hexpr a rfl rfl
      | exact hgoto a rfl rfl
      | exact hret a rfl rfl
      | exact hdecl a b rfl rfl
      | exact hwhile a b rfl rfl
      | exact hdo a b rfl rfl
      | exact hswitch a b rfl rfl
      | exact hcase a b rfl rfl
      | exact hlabeled a b rfl rfl
      | exact hif a b c rfl rfl
      | exact hforeach a b c rfl rfl
      | exact hfor a b c d rfl rfl
  case case20 =>
    intro p items ih hk ht
    obtain ⟨hl, ha⟩ := ih (List.all_eq_true.1 hk) ht
    exact ⟨items, rfl, hl, fun hc => ha (List.all_eq_true.1 hc)⟩
  case case21 =>
    intro p s hk
    cases hk
  case case22 =>
    intro v p hl _ hk
    obtain ⟨items, rfl, -⟩ := exists_list_of_isListOf hk
    exact absurd rfl (hl items)
  case case23 =>
    intros
    exact ⟨I.nil, fun _ => I.noArms⟩
  case case24 =>
    intro p i v rest ihv ihr hk ht
    rw [List.forall_mem_cons] at hk
    rw [itemsWellTyped, Bool.and_eq_true] at ht
    obtain ⟨hv, hbody⟩ := ihv (.inr hk.1) ht.1
    obtain ⟨hl, ha⟩ := ihr hk.2 ht.2
    refine ⟨I.cons ⟨hk.1, ht.1⟩ hv hl, fun hc => ?_⟩
    rw [List.forall_mem_cons] at hc
    obtain ⟨values, body, rfl⟩ := exists_caseArm hc.1 ht.1
    exact I.arm hbody (ha hc.2)

/-- A property that every form keeps holds of a well-typed statement. -/
theorem holds (I : StmtInvariant P L A) {v : Value} (h : v.IsStmt) (p : Path) : P p v :=
  (I.induct.1 p v (.inr h.1) h.2).1

end StmtInvariant

end Value

/-- What is read from a well-typed expression has all its parts. -/
theorem Expr.proper_of_isExpr {v : Value} (h : v.IsExpr) (p : Path) :
    (ofValue p v).proper = true :=
  proper_ofValue v p h.1 h.2

/-- A test of the kinds of expressions says the same of an expression and of what is read from
it. -/
theorem Value.test_read {n : Path × Value} {test : Expr → Bool} {kinds : List Kind}
    (htest : ∀ e : Expr, e.proper = true → test e = e.kind?.any kinds.contains) (h : n.2.IsExpr) :
    test (read n) = n.2.isOf kinds := by
  rw [Expr.isOf_eq_kind?]
  exact htest _ (Expr.proper_of_isExpr h n.1)

/-- What is read from an expression is a connective if the kind says so. -/
theorem Value.isConnective_read {n : Path × Value} (h : n.2.IsExpr) :
    (read n).isConnective = n.2.isOf Kind.connectives := by
  refine test_read (fun e hp => ?_) h
  cases e with
  | logic _ c => cases c <;> rfl
  | absent | stray | unlisted | foreign => cases hp
  | _ => rfl

/-- What is read from a well-typed expression or nothing has all its parts or is missing. -/
theorem Expr.properOrAbsent_ofValue {v : Value} (h : v.IsExprOrNull) (p : Path) :
    (ofValue p v).properOrAbsent = true := by
  rcases h with rfl | h
  · rfl
  · exact properOrAbsent_of_proper (proper_of_isExpr h p)

namespace Stmt

mutual

/-- Whether a statement has all of its parts, with a case in each arm of a switch. -/
def proper : Stmt → Bool
  | .absent | .stray _ | .unlisted | .misnamed _ => false
  | .block _ body | .caseArm _ _ body => allProper body
  | .exprStmt _ e => e.proper
  | .decl _ _ e | .ret _ e => e.properOrAbsent
  | .ifElse _ cond thenArm elseArm =>
    cond.proper && thenArm.proper && (elseArm.isAbsent || elseArm.proper)
  | .whileLoop _ cond body | .doWhile _ body cond => cond.proper && body.proper
  | .forLoop _ before init cond step body =>
    (before.isAbsent || before.proper) && init.properOrAbsent && cond.properOrAbsent &&
      step.properOrAbsent && body.proper
  | .foreach _ _ iterable body => iterable.proper && body.proper
  | .switch _ subject arms => subject.proper && armsProper arms
  | .labeled _ _ body => body.isAbsent || body.proper
  | .goto .. | .brk _ | .cont _ => true

/-- Whether several statements have all of their parts. -/
def allProper : List Stmt → Bool
  | [] => true
  | s :: rest => s.proper && allProper rest

/-- Whether the arms of a switch are cases that have all of their parts. -/
def armsProper : List Stmt → Bool
  | [] => true
  | .caseArm _ _ body :: rest => allProper body && armsProper rest
  | _ :: _ => false

end

/-- A well-typed statement is a statement to the reader. -/
theorem isStmtValue_of_isStmt {v : Value} (h : v.IsStmt) : isStmtValue v = true := by
  cases v with
  | node => exact h.1
  | scalar | list => cases h.1

/-- A well-typed expression is none, and neither is nothing. -/
theorem not_isStmtValue {v : Value} (h : v.IsExprOrNull) : isStmtValue v = false := by
  have hkinds : ∀ k ∈ Kind.exprs, k.isStmt = false := by decide
  rcases h with rfl | h
  · rfl
  · cases v with
    | node k fields => exact hkinds k (List.contains_iff_mem.1 h.1)
    | scalar | list => cases h.1

variable {p : Path} {init cond step body : Value}

/-- A loop whose initialiser is a statement. -/
theorem ofValue_forLoop_of_isStmt (h : init.IsStmt) :
    ofValue p (.node .forLoop [init, cond, step, body]) =
      .forLoop p (ofValue (p.field "init") init) .absent (.ofValue (p.field "cond") cond)
        (.ofValue (p.field "step") step) (ofValue (p.field "body") body) := by
  rw [ofValue, if_pos (isStmtValue_of_isStmt h), if_pos (isStmtValue_of_isStmt h)]

/-- A loop whose initialiser is an expression or missing. -/
theorem ofValue_forLoop_of_isExpr (h : init.IsExprOrNull) :
    ofValue p (.node .forLoop [init, cond, step, body]) =
      .forLoop p .absent (.ofValue (p.field "init") init) (.ofValue (p.field "cond") cond)
        (.ofValue (p.field "step") step) (ofValue (p.field "body") body) := by
  simp [ofValue, not_isStmtValue h]

/-- A statement is not nothing. -/
theorem proper_of_isStmt {p : Path} {v : Value} (hs : v.IsStmt)
    (h : v = .null ∨ (ofValue p v).proper = true) : (ofValue p v).proper = true := by
  refine h.resolve_left ?_
  rintro rfl
  cases hs.1

/-- Of nothing a missing statement is read, and of other values one that has all its parts. -/
theorem absent_or_proper {p : Path} {v : Value} (h : v = .null ∨ (ofValue p v).proper = true) :
    ((ofValue p v).isAbsent || (ofValue p v).proper) = true := by
  rcases h with rfl | h
  · rfl
  · rw [h, Bool.or_true]

/-- Each form of a statement is read with all its parts. -/
theorem proper_reading : Value.StmtInvariant (fun p v => v = .null ∨ (ofValue p v).proper = true)
    (fun p i items => allProper (ofItems p i items) = true)
    (fun p i items => armsProper (ofItems p i items) = true) where
  absent := .inl rfl
  block h := .inr h
  exprStmt he := .inr (Expr.proper_of_isExpr he _)
  decl he := .inr (Expr.properOrAbsent_ofValue he _)
  ifElse hc hs hy hn := by
    refine .inr ?_
    simp only [ofValue, proper, Bool.and_eq_true]
    exact ⟨⟨Expr.proper_of_isExpr hc _, proper_of_isStmt hs hy⟩, absent_or_proper hn⟩
  whileLoop hc hs hb := by
    refine .inr ?_
    simp only [ofValue, proper, Bool.and_eq_true]
    exact ⟨Expr.proper_of_isExpr hc _, proper_of_isStmt hs hb⟩
  doWhile hs hb hc := by
    refine .inr ?_
    simp only [ofValue, proper, Bool.and_eq_true]
    exact ⟨Expr.proper_of_isExpr hc _, proper_of_isStmt hs hb⟩
  forLoop hi hc hst hs hb := by
    have hcond := Expr.properOrAbsent_ofValue hc
    have hstep := Expr.properOrAbsent_ofValue hst
    refine .inr ?_
    rcases hi with hi | ⟨hi, hbefore⟩
    · rw [ofValue_forLoop_of_isExpr hi]
      simp only [proper, Bool.and_eq_true]
      exact ⟨⟨⟨⟨rfl, Expr.properOrAbsent_ofValue hi _⟩, hcond _⟩, hstep _⟩, proper_of_isStmt hs hb⟩
    · rw [ofValue_forLoop_of_isStmt hi]
      simp only [proper, Bool.and_eq_true]
      exact ⟨⟨⟨⟨absent_or_proper hbefore, rfl⟩, hcond _⟩, hstep _⟩, proper_of_isStmt hs hb⟩
  foreach hi hs hb := by
    refine .inr ?_
    simp only [ofValue, named, proper, Bool.and_eq_true]
    exact ⟨Expr.proper_of_isExpr hi _, proper_of_isStmt hs hb⟩
  switch hs ha := by
    refine .inr ?_
    simp only [ofValue, ofList, proper, Bool.and_eq_true]
    exact ⟨Expr.proper_of_isExpr hs _, ha⟩
  caseArm h := .inr h
  labeled hb := .inr (absent_or_proper hb)
  goto := .inr rfl
  ret he := .inr (Expr.properOrAbsent_ofValue he _)
  brk := .inr rfl
  cont := .inr rfl
  nil := rfl
  cons hs hf hl := by
    simp only [ofItems, allProper, Bool.and_eq_true]
    exact ⟨proper_of_isStmt hs hf, hl⟩
  noArms := rfl
  arm hb ha := by
    simp only [ofItems, ofValue, ofList, armsProper, Bool.and_eq_true]
    exact ⟨hb, ha⟩

/-- What is read from a statement has all of its parts. -/
theorem proper_ofValue {v : Value} (h : v.IsStmt) (p : Path) : (ofValue p v).proper = true :=
  proper_of_isStmt h (proper_reading.holds h p)

end Stmt

/-- Only a function has a flow graph. -/
theorem FlowGraph.isOf_of_ofTree {exitEdges : Except Fault Bool} {tree : Value} {g : FlowGraph}
    (h : ofTree exitEdges tree = .ok g) : tree.isOf [.function] = true := by
  unfold ofTree at h
  split at h
  · rfl
  · cases h
  · cases h

end LastUse
