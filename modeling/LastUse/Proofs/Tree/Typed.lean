import LastUse.Proofs.Tree.Evaluated
import LastUse.Proofs.Access

/-!
# Well-typed trees

A tree is well typed if every field of every node holds what the field is declared to hold
(`Value.wellTyped`); a literal may hold anything. Every evaluated node of a well-typed tree is well
typed (`Value.wellTyped_evaluated`), and the nodes of an expression that is read from it are the
evaluated nodes of the tree, in order (`Value.nodes_ofValue`).
-/

namespace LastUse

/-- Whether a value is a node of one of some kinds. -/
def Value.isOf (kinds : List Kind) : Value → Bool
  | .node k _ => kinds.contains k
  | _ => false

/-- Whether a value is a text. -/
def Value.isText : Value → Bool
  | .scalar (.str _) => true
  | _ => false

/-- Whether there is no value. -/
def Value.isNull : Value → Bool
  | .scalar .null => true
  | _ => false

/-- Whether a value is a list of values with a property. -/
def Value.isListOf (p : Value → Bool) : Value → Bool
  | .list items => items.all p
  | _ => false

/-- Whether a field of a type may hold a value, as far as the value itself and the items of a list
go. -/
def FieldType.admits : FieldType → Value → Bool
  | .text, v => v.isText
  | .texts, v => v.isListOf Value.isText
  | .scalar, _ => true
  | .expr, v => v.isOf Kind.exprs
  | .exprOrNone, v => v.isNull || v.isOf Kind.exprs
  | .exprs, v => v.isListOf (·.isOf Kind.exprs)
  | .block, v => v.isOf [.block]
  | .stmt, v => v.isOf Kind.stmts
  | .stmtOrNone, v => v.isNull || v.isOf Kind.stmts
  | .stmts, v => v.isListOf (·.isOf Kind.stmts)
  | .cases, v => v.isListOf (·.isOf [.caseArm])
  | .clause, v => v.isNull || v.isOf Kind.exprs || v.isOf Kind.stmts

namespace Value

mutual

/-- Whether every field of every node of a value has its declared type. What a literal holds may be
anything, whole numbers of any length included: those that are read have at most `digitLimit`
digits (`Value.spellable_of_ofText`). -/
def wellTyped : Value → Bool
  | .scalar _ => true
  | .list items => itemsWellTyped items
  | .node k fields => fieldsWellTyped k.fields fields

/-- Whether all items of a list are well typed. -/
def itemsWellTyped : List Value → Bool
  | [] => true
  | v :: rest => v.wellTyped && itemsWellTyped rest

/-- Whether the values of fields have the declared types. -/
def fieldsWellTyped : List FieldDecl → List Value → Bool
  | [], [] => true
  | f :: fs, v :: rest =>
    f.type.admits v && (f.type = .scalar || v.wellTyped) && fieldsWellTyped fs rest
  | _, _ => false

end

/-- A list of values with a property is a list, and all its items have the property. -/
theorem exists_list_of_isListOf {q : Value → Bool} {v : Value} (h : v.isListOf q = true) :
    ∃ items, v = .list items ∧ ∀ x ∈ items, q x = true := by
  cases v with
  | list items => exact ⟨items, rfl, List.all_eq_true.1 h⟩
  | scalar | node => cases h

/-- In a text nothing is evaluated. -/
theorem evaluated_of_isText {v : Value} (h : v.isText = true) (p : Path) : v.evaluated p = [] := by
  cases v with
  | scalar s => rw [evaluated]
  | list | node => cases h

/-- In a list of texts nothing is evaluated. -/
theorem evaluated_of_isTexts {v : Value} (h : v.isListOf isText = true) (p : Path) :
    v.evaluated p = [] := by
  obtain ⟨items, rfl, hall⟩ := exists_list_of_isListOf h
  rw [evaluated]
  clear h
  generalize 0 = i
  induction items generalizing i with
  | nil => rw [evaluatedItems]
  | cons v rest ih =>
    rw [List.forall_mem_cons] at hall
    rw [evaluatedItems, evaluated_of_isText hall.1, ih hall.2, List.nil_append]

/-- A text is some string. -/
theorem exists_text {v : Value} (h : v.isText = true) : ∃ s, v = .str s := by
  cases v with
  | scalar s =>
    cases s with
    | str s => exact ⟨s, rfl⟩
    | _ => cases h
  | list | node => cases h

/-- A node of one of some kinds is one of more. -/
theorem isOf_mono {kinds kinds' : List Kind} {v : Value} (hk : ∀ k ∈ kinds, k ∈ kinds')
    (h : v.isOf kinds = true) : v.isOf kinds' = true := by
  cases v with
  | node k fields => exact List.contains_iff_mem.2 (hk k (List.contains_iff_mem.1 h))
  | scalar | list => cases h

/-- Cases are statements. -/
theorem stmts_of_cases {v : Value} (h : v.isListOf (·.isOf [.caseArm]) = true) :
    v.isListOf (·.isOf Kind.stmts) = true := by
  obtain ⟨items, rfl, hall⟩ := exists_list_of_isListOf h
  exact List.all_eq_true.2 fun x hx => isOf_mono (by decide) (hall x hx)

/-- The first field has its declared type, and so have the others. -/
theorem typed_cons {f : FieldDecl} {fs : List FieldDecl} {v : Value} {rest : List Value}
    (h : fieldsWellTyped (f :: fs) (v :: rest) = true) :
    f.type.admits v = true ∧ (f.type = .scalar || v.wellTyped) = true ∧
      fieldsWellTyped fs rest = true := by
  rw [fieldsWellTyped, Bool.and_eq_true, Bool.and_eq_true] at h
  exact ⟨h.1.1, h.1.2, h.2⟩

/-- Every declared field has a value. -/
theorem length_of_typed : ∀ {fs : List FieldDecl} {vs : List Value}, fieldsWellTyped fs vs = true →
    vs.length = fs.length
  | [], [], _ => rfl
  | _ :: _, _ :: _, h => congrArg (· + 1) (length_of_typed (typed_cons h).2.2)
  | [], _ :: _, h | _ :: _, [], h => by cases h

/-- What may hold anything is not evaluated. -/
theorem skips_of_scalar (k : Kind) : ∀ f ∈ k.fields, f.type = .scalar → k.skips f.name = true := by
  cases k <;> decide

mutual

/-- The evaluated nodes of a well-typed value are well typed. -/
theorem wellTyped_evaluated : ∀ {v : Value} {p : Path} {n : Path × Value}, v.wellTyped = true →
    n ∈ v.evaluated p → n.2.wellTyped = true
  | .scalar _, _, _, _, hn => by simp [evaluated] at hn
  | .list items, p, n, ht, hn => by
    rw [wellTyped] at ht
    rw [evaluated] at hn
    exact wellTyped_evaluatedItems ht hn
  | .node k fields, p, n, ht, hn => by
    rw [evaluated, List.mem_cons] at hn
    rcases hn with rfl | hn
    · exact ht
    · rw [wellTyped] at ht
      exact wellTyped_evaluatedFields (skips_of_scalar k) ht
        ((k.evaluationOrder_perm _).flatten.mem_iff.1 hn)

/-- The evaluated nodes of a well-typed list are well typed. -/
theorem wellTyped_evaluatedItems : ∀ {items : List Value} {p : Path} {i : Nat} {n : Path × Value},
    itemsWellTyped items = true → n ∈ evaluatedItems p i items → n.2.wellTyped = true
  | [], _, _, _, _, hn => by simp [evaluatedItems] at hn
  | v :: rest, p, i, n, ht, hn => by
    rw [itemsWellTyped, Bool.and_eq_true] at ht
    rw [evaluatedItems, List.mem_append] at hn
    exact hn.elim (wellTyped_evaluated ht.1) (wellTyped_evaluatedItems ht.2)

/-- The evaluated nodes in well-typed fields are well typed. -/
theorem wellTyped_evaluatedFields : ∀ {vs : List Value} {p : Path} {k : Kind} {fs : List FieldDecl}
    {n : Path × Value}, (∀ f ∈ fs, f.type = .scalar → k.skips f.name = true) →
    fieldsWellTyped fs vs = true → n ∈ (evaluatedFields p k fs vs).flatten → n.2.wellTyped = true
  | [], _, _, fs, _, _, _, hn => by cases fs <;> simp [evaluatedFields] at hn
  | _ :: _, _, _, [], _, _, _, hn => by simp [evaluatedFields] at hn
  | v :: rest, p, k, f :: fs, n, hf, ht, hn => by
    obtain ⟨-, hv, ht⟩ := typed_cons ht
    rw [evaluatedFields, List.flatten_cons, List.mem_append] at hn
    rcases hn with hn | hn
    · split at hn
      · cases hn
      · next hskip =>
        have hne : f.type ≠ .scalar := fun hs => hskip (hf f List.mem_cons_self hs)
        rw [decide_eq_false hne, Bool.false_or] at hv
        exact wellTyped_evaluated hv hn
    · exact wellTyped_evaluatedFields (fun x hx => hf x (List.mem_cons_of_mem _ hx)) ht hn

end

end Value

/-! ## Expressions -/

namespace Expr

/-- A node that is put together stands in its place. -/
theorem place?_assemble (p : Path) (k : Kind) (fields : List Value) (parts : List Expr) :
    (assemble p k fields parts).place? = some p := by
  unfold assemble
  dsimp only
  generalize (if parts.any isUnlisted then [.unlisted] else parts) = parts
  split <;> rfl

/-- What is read from a node keeps its place. -/
theorem place?_ofValue (p : Path) (k : Kind) (fields : List Value) :
    (ofValue p (.node k fields)).place? = some p := by
  rw [ofValue, place?_assemble]

/-- What is read from a value can be listed. -/
theorem isUnlisted_ofValue (p : Path) (v : Value) : (ofValue p v).isUnlisted = false := by
  cases v with
  | scalar s => cases s <;> rfl
  | list => rfl
  | node k fields =>
    have hp := place?_ofValue p k fields
    generalize ofValue p (.node k fields) = e at hp
    cases e with
    | unlisted => cases hp
    | _ => rfl

/-- The items of a list can be listed. -/
theorem any_isUnlisted_ofItems (p : Path) (i : Nat) (items : List Value) :
    (ofItems p i items).any isUnlisted = false := by
  induction items generalizing i with
  | nil => rfl
  | cons v rest ih => simp [ofItems, isUnlisted_ofValue, ih]

/-- The parts of an expression are what its fields hold. -/
theorem parts_ofValue {p : Path} {k : Kind} {fields : List Value} (hk : k ∈ Kind.exprs)
    (ht : Value.fieldsWellTyped k.fields fields = true) :
    (ofValue p (.node k fields)).parts = ofFields p k.fields fields := by
  simp only [Kind.exprs, List.mem_cons, List.not_mem_nil, or_false] at hk
  -- The number of fields is that of the declared ones, and only a call has parts in a list.
  rcases hk with rfl | rfl | rfl | rfl | rfl | rfl | rfl | rfl | rfl | rfl | rfl | rfl <;>
    rcases fields with _ | ⟨a, _ | ⟨b, _ | ⟨c, _ | ⟨d, rest⟩⟩⟩⟩ <;>
    simp only [Kind.fields, Value.fieldsWellTyped, Bool.and_true, Bool.and_false,
      Bool.false_eq_true, Bool.and_eq_true] at ht
  case inr.inr.inl.cons.cons.nil =>
    obtain ⟨items, rfl, -⟩ := Value.exists_list_of_isListOf ht.2.1
    have hall := any_isUnlisted_ofItems (p.field "args") 0 items
    simp [ofValue, assemble, ofFields, Kind.fields, FieldDecl.required, FieldDecl.orEmpty,
      FieldType.role, parts, hall]
  all_goals
    simp [ofValue, assemble, ofFields, Kind.fields, FieldDecl.required, FieldDecl.orNull,
      FieldType.role, isUnlisted_ofValue, parts]

end Expr

/-- The fields of an expression hold texts, expressions and lists of expressions, and a literal
holds a value that is not evaluated. -/
theorem Kind.expr_fields : ∀ k ∈ Kind.exprs, ∀ f ∈ k.fields,
    f.type = .scalar ∧ k.skips f.name = true ∨
      (f.type = .text ∨ f.type = .expr ∨ f.type = .exprs) ∧ k.skips f.name = false := by
  decide

namespace Value

/-- A node of a tree as an expression. -/
def read (n : Path × Value) : Expr := .ofValue n.1 n.2

mutual

/-- The nodes of an expression are those that are evaluated. -/
theorem nodes_ofValue : ∀ (v : Value) (p : Path), v.isOf Kind.exprs = true → v.wellTyped = true →
    (Expr.ofValue p v).nodes = (v.evaluated p).map read
  | .scalar _, _, hk, _ | .list _, _, hk, _ => by cases hk
  | .node k fields, p, hk, ht => by
    have hk : k ∈ Kind.exprs := List.contains_iff_mem.1 hk
    have hnode : (Expr.ofValue p (.node k fields)).isNode = true := by
      rw [Expr.isNode, Expr.place?_ofValue, Option.isSome_some]
    have horder : k.evaluationOrder (evaluatedFields p k k.fields fields) =
        evaluatedFields p k k.fields fields := by
      cases k <;> first | rfl | simp [Kind.exprs] at hk
    rw [wellTyped] at ht
    rw [Expr.nodes_of_isNode hnode, Expr.parts_ofValue hk ht, evaluated, horder, List.map_cons,
      nodes_ofFields fields p k (Kind.expr_fields k hk) ht]
    rfl

/-- The nodes of what is read from a list of expressions are its evaluated nodes. -/
theorem nodes_ofItems : ∀ (items : List Value) (p : Path) (i : Nat),
    (∀ v ∈ items, v.isOf Kind.exprs = true) → itemsWellTyped items = true →
    Expr.nodesAll (Expr.ofItems p i items) = (evaluatedItems p i items).map read
  | [], _, _, _, _ => by simp [Expr.ofItems, Expr.nodesAll, evaluatedItems]
  | v :: rest, p, i, hk, ht => by
    rw [itemsWellTyped, Bool.and_eq_true] at ht
    rw [Expr.ofItems, Expr.nodesAll, evaluatedItems, List.map_append,
      nodes_ofValue v _ (hk v List.mem_cons_self) ht.1,
      nodes_ofItems rest p (i + 1) (fun x hx => hk x (List.mem_cons_of_mem _ hx)) ht.2]

/-- The nodes of what is read from the fields of an expression are their evaluated nodes. -/
theorem nodes_ofFields : ∀ (vs : List Value) (p : Path) (k : Kind) {fs : List FieldDecl},
    (∀ f ∈ fs, f.type = .scalar ∧ k.skips f.name = true ∨
      (f.type = .text ∨ f.type = .expr ∨ f.type = .exprs) ∧ k.skips f.name = false) →
    fieldsWellTyped fs vs = true →
    Expr.nodesAll (Expr.ofFields p fs vs) = (evaluatedFields p k fs vs).flatten.map read
  | [], _, _, fs, _, _ => by cases fs <;> simp [Expr.ofFields, Expr.nodesAll, evaluatedFields]
  | _ :: _, _, _, [], _, _ => by simp [Expr.ofFields, Expr.nodesAll, evaluatedFields]
  | v :: rest, p, k, f :: fs, hf, ht => by
    obtain ⟨ha, hv, ht⟩ := typed_cons ht
    have hrest := nodes_ofFields rest p k (fun x hx => hf x (List.mem_cons_of_mem _ hx)) ht
    have hfield := hf f List.mem_cons_self
    obtain ⟨name, type, default⟩ := f
    rw [evaluatedFields, List.flatten_cons, List.map_append, ← hrest]
    rcases hfield with ⟨rfl, hskip⟩ | ⟨rfl | rfl | rfl, hskip⟩
    · simp [Expr.ofFields, FieldType.role, hskip]
    · simp [Expr.ofFields, FieldType.role, hskip, evaluated_of_isText ha]
    · simp [Expr.ofFields, FieldType.role, hskip, Expr.nodesAll, nodes_ofValue v _ ha hv]
    · obtain ⟨items, rfl, hall⟩ := exists_list_of_isListOf ha
      simp [Expr.ofFields, FieldType.role, hskip, Expr.nodesAll_append, evaluated,
        nodes_ofItems items _ 0 hall hv]

end

end Value

/-! ## Nodes that can touch a name -/

/-- The kinds of nodes by which a name can be touched. -/
def Kind.touching : List Kind := [.name, .addressOf, .move]

/-- What is read from a node of another kind cannot touch a name. -/
theorem Expr.mayTouch_assemble {p : Path} {k : Kind} {fields : List Value} {parts : List Expr}
    (hk : k ∉ Kind.touching) : (assemble p k fields parts).mayTouch = false := by
  unfold assemble
  dsimp only
  generalize (if parts.any isUnlisted then [.unlisted] else parts) = parts
  split <;> first | rfl | simp [Kind.touching] at hk

/-- Whether a name can be touched by a well-typed node depends on its kind. -/
theorem Value.mayTouch_read {n : Path × Value} (h : n.2.wellTyped = true) :
    (read n).mayTouch = n.2.isOf Kind.touching := by
  obtain ⟨p, v⟩ := n
  cases v with
  | scalar s => cases s <;> rfl
  | list items => rfl
  | node k fields =>
    have hlen := length_of_typed h
    by_cases hk : k ∈ Kind.touching
    · simp only [Kind.touching, List.mem_cons, List.not_mem_nil, or_false] at hk
      rcases hk with rfl | rfl | rfl <;> obtain ⟨a, rfl⟩ := List.length_eq_one_iff.1 hlen
      case inl => rfl
      all_goals
        simp [read, Expr.ofValue, Expr.ofFields, Expr.assemble, Kind.fields, FieldDecl.required,
          FieldType.role, Expr.isUnlisted_ofValue, Expr.mayTouch, isOf, Kind.touching]
    · rw [read, Expr.ofValue, Expr.mayTouch_assemble hk, isOf]
      exact (Bool.eq_false_iff.2 fun hc => hk (List.contains_iff_mem.1 hc)).symm

end LastUse
