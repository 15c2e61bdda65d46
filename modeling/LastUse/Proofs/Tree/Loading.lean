import LastUse.Proofs.Flow.Expr
import LastUse.Proofs.Sample
import LastUse.Proofs.Tree.Evaluated
import LastUse.Tree.Loader

/-!
# Loading and dumping

A document may leave out fields that have a default, and it may give the members of an object in
any order. `Json.fill` writes those fields in, and documents that differ in the order of members
alone are `Json.Rearranged`. Loading undoes dumping, and dumping what was loaded gives the filled
document but for the order of members (`Value.loading_undoes_dumping`). All of it rests on what an
object has to hold to be loaded (`Value.load_obj`).
-/

namespace LastUse

/-! ## Documents -/

namespace Json

/-- What holds of a document if it holds of all documents in it holds of every document. -/
theorem induct {P : Json → Prop} (scalar : ∀ s, P (.scalar s))
    (arr : ∀ items, (∀ j ∈ items, P j) → P (.arr items))
    (obj : ∀ members, (∀ m ∈ members, P m.2) → P (.obj members)) : ∀ j, P j
  | .scalar s => scalar s
  | .arr items => arr items (inItems items)
  | .obj members => obj members (inMembers members)
where
  inItems : ∀ (items : List Json), ∀ j ∈ items, P j
    | [] => by simp
    | j :: rest => List.forall_mem_cons.2 ⟨induct scalar arr obj j, inItems rest⟩
  inMembers : ∀ (members : List (String × Json)), ∀ m ∈ members, P m.2
    | [] => by simp
    | (_, j) :: rest => List.forall_mem_cons.2 ⟨induct scalar arr obj j, inMembers rest⟩

mutual

/-- Whether the members of every object in a document have distinct names. -/
def distinct : Json → Bool
  | .scalar _ => true
  | .arr items => itemsDistinct items
  | .obj members => decide (members.map (·.1)).Nodup && membersDistinct members

/-- Whether the members have distinct names in every object in several documents. -/
def itemsDistinct : List Json → Bool
  | [] => true
  | j :: rest => j.distinct && itemsDistinct rest

/-- Whether they have in every object in the members of an object. -/
def membersDistinct : List (String × Json) → Bool
  | [] => true
  | (_, j) :: rest => j.distinct && membersDistinct rest

end

/-- Two documents are the same but for the order of the members of objects. -/
inductive Rearranged : Json → Json → Prop
  | scalar (s : Scalar) : Rearranged (.scalar s) (.scalar s)
  | arr {a b : List Json} : a.length = b.length →
    (∀ (i : Nat) (x y : Json), a[i]? = some x → b[i]? = some y → Rearranged x y) →
    Rearranged (.arr a) (.arr b)
  | obj {a b : List (String × Json)} : (a.map (·.1)).Perm (b.map (·.1)) →
    (∀ (name : String) (x y : Json), (name, x) ∈ a → (name, y) ∈ b → Rearranged x y) →
    Rearranged (.obj a) (.obj b)

/-- The members that an object leaves out and that have a default, each with it. -/
def missing (members : List (String × Json)) : List (String × Json) :=
  match members.lookup Value.typeKey with
  | some (.scalar (.str tag)) =>
    match Kind.ofTag? tag with
    | some k => (k.fields.filter fun f => (members.lookup f.name).isNone).filterMap fun f =>
        f.default.map fun v => (f.name, v.dump)
    | none => []
  | _ => []

mutual

/-- A document with all that may be left out filled in, in every object. -/
def fill : Json → Json
  | .scalar s => .scalar s
  | .arr items => .arr (fillItems items)
  | .obj members => .obj (fillMembers members ++ missing members)

/-- Several documents with all that may be left out filled in. -/
def fillItems : List Json → List Json
  | [] => []
  | j :: rest => j.fill :: fillItems rest

/-- The members of an object with all that may be left out filled in. -/
def fillMembers : List (String × Json) → List (String × Json)
  | [] => []
  | (name, j) :: rest => (name, j.fill) :: fillMembers rest

end

/-- Items are filled in one by one. -/
theorem fillItems_eq_map (items : List Json) : fillItems items = items.map fill := by
  induction items with
  | nil => rfl
  | cons j rest ih => rw [fillItems, ih, List.map_cons]

/-- Members are filled in one by one and keep their names. -/
theorem fillMembers_eq_map (members : List (String × Json)) :
    fillMembers members = members.map fun m => (m.1, m.2.fill) := by
  induction members with
  | nil => rfl
  | cons m rest ih => rw [fillMembers, ih, List.map_cons]

/-- Names are distinct in each item of an array in which they are. -/
theorem distinct_of_mem_items {items : List Json} (h : itemsDistinct items = true) :
    ∀ j ∈ items, j.distinct = true := by
  induction items with
  | nil => simp
  | cons j rest ih =>
    rw [itemsDistinct, Bool.and_eq_true] at h
    exact List.forall_mem_cons.2 ⟨h.1, ih h.2⟩

/-- Names are distinct in each member of an object in which they are. -/
theorem distinct_of_mem_members {members : List (String × Json)}
    (h : membersDistinct members = true) : ∀ m ∈ members, m.2.distinct = true := by
  induction members with
  | nil => simp
  | cons m rest ih =>
    rw [membersDistinct, Bool.and_eq_true] at h
    exact List.forall_mem_cons.2 ⟨h.1, ih h.2⟩

/-- Among members with distinct names there is one of a name at most. -/
theorem lookup_eq_some {α : Type} {members : List (String × α)} (h : (members.map (·.1)).Nodup)
    {name : String} {a : α} : members.lookup name = some a ↔ (name, a) ∈ members := by
  induction members with
  | nil => simp
  | cons m rest ih =>
    obtain ⟨name', a'⟩ := m
    rw [List.map_cons, List.nodup_cons] at h
    by_cases hn : name = name'
    · subst hn
      have hnot : (name, a) ∉ rest := fun hm => h.1 (List.mem_map.2 ⟨_, hm, rfl⟩)
      simp [hnot, eq_comm]
    · simp [List.lookup_cons, beq_false_of_ne hn, ih h.2, hn]

/-- A name is not found if no member has it. -/
theorem lookup_eq_none {α : Type} {members : List (String × α)} {name : String} :
    members.lookup name = none ↔ name ∉ members.map (·.1) := by
  simp only [List.lookup_eq_none_iff, bne_iff_ne, List.mem_map, not_exists, not_and]
  exact forall₂_congr fun m _ => ne_comm

/-- A document whose names are distinct is the same as itself. -/
theorem Rearranged.refl {j : Json} (h : j.distinct = true) : Rearranged j j := by
  induction j using induct with
  | scalar s => exact .scalar s
  | arr items ih =>
    have hall := distinct_of_mem_items (by rwa [distinct] at h)
    refine .arr rfl fun i x y hx hy => ?_
    cases Option.some.inj (hx.symm.trans hy)
    exact ih x (List.mem_of_getElem? hx) (hall x (List.mem_of_getElem? hx))
  | obj members ih =>
    rw [distinct, Bool.and_eq_true, decide_eq_true_eq] at h
    have hall := distinct_of_mem_members h.2
    refine .obj (.refl _) fun name x y hx hy => ?_
    have heq : some x = some y := by
      rw [← (lookup_eq_some h.1).2 hx, (lookup_eq_some h.1).2 hy]
    cases heq
    exact ih (name, x) hx (hall _ hx)

end Json

/-! ## What is loaded -/

/-- The type is not a field. -/
theorem Kind.typeKey_not_mem (k : Kind) : Value.typeKey ∉ k.fields.map (·.name) := by
  cases k <;> decide

/-- The kind that a tag stands for has that tag. -/
theorem Kind.tag_of_ofTag? {tag : String} {k : Kind} (h : ofTag? tag = some k) : k.tag = tag := by
  simpa using List.find?_some h

namespace Value

variable {p : Path} {members : List (String × Json)} {k : Kind} {v : Value}

/-- The kind of an object is the one whose tag its type is. -/
theorem kindOf_eq_ok : kindOf p members = .ok k ↔ members.lookup typeKey = some (.str k.tag) := by
  unfold kindOf
  constructor
  · intro h
    split at h
    · cases h
    · next tag htag =>
      split at h
      · next k' hk =>
        cases h
        rw [htag, Kind.tag_of_ofTag? hk]
      · cases h
    · cases h
    · cases h
  · intro h
    simp [h]

/-- A list is made of a value and a list if both are. -/
theorem cons_eq_ok {x : Except Fault Value} {y : Except Fault (List Value)} {vs : List Value} :
    (do
      let v ← x
      let rest ← y
      pure (v :: rest)) = .ok vs ↔ ∃ v rest, x = .ok v ∧ y = .ok rest ∧ vs = v :: rest := by
  cases x with
  | error f => simp [bind, Except.bind]
  | ok v =>
    cases y with
    | error f => simp [bind, Except.bind]
    | ok rest => simp [bind, Except.bind, pure, Except.pure, eq_comm]

/-- The fields that are gathered are those that are there and, of the others, the defaults. -/
theorem gather_eq_ok {loaded : List (String × Except Fault Value)} : ∀ {fs : List FieldDecl}
    {vs : List Value}, gather p k loaded fs = .ok vs ↔
      List.Forall₂ (fun f v => loaded.lookup f.name = some (.ok v) ∨
        loaded.lookup f.name = none ∧ f.default = some v) fs vs
  | [], vs => by
    rw [gather, List.forall₂_nil_left_iff]
    exact ⟨fun h => (Except.ok.inj h).symm, fun h => h ▸ rfl⟩
  | f :: fs, vs => by
    rw [gather, List.forall₂_cons_left_iff]
    cases loaded.lookup f.name with
    | some r =>
      refine cons_eq_ok.trans (exists₂_congr fun v rest => ?_)
      rw [gather_eq_ok]
      simp
    | none =>
      cases f.default with
      | some v =>
        refine cons_eq_ok.trans (exists₂_congr fun v rest => ?_)
        rw [gather_eq_ok]
        simp
      | none => simp [bind, Except.bind]

/-- There are no stray names if each name is that of the type or that of a field. -/
theorem strayNames_eq_nil {names : List String} :
    strayNames k names = [] ↔ ∀ n ∈ names, n = typeKey ∨ n ∈ k.fields.map (·.name) := by
  rw [strayNames, ← List.perm_nil, (List.mergeSort_perm _ _).congr_left, List.perm_nil,
    List.filter_eq_nil_iff]
  simp only [List.mem_map]
  refine forall₂_congr fun n _ => ?_
  by_cases hn : n = typeKey <;> simp [hn]

/-- A name is found among the loaded members if it is found among the members. -/
theorem lookup_loadMembers {name : String} :
    (loadMembers p members).lookup name = (members.lookup name).map (load (p.field name)) := by
  induction members with
  | nil => rfl
  | cons m rest ih =>
    obtain ⟨name', j⟩ := m
    rw [loadMembers]
    by_cases hn : name = name'
    · subst hn
      simp
    · simp [List.lookup_cons, beq_false_of_ne hn, ih]

/-- The members of an object supply a value for a field: what the member of that name loads to or,
if there is none, the default. -/
def Supplied (p : Path) (members : List (String × Json)) (f : FieldDecl) (v : Value) : Prop :=
  (∃ j, members.lookup f.name = some j ∧ load (p.field f.name) j = .ok v) ∨
    members.lookup f.name = none ∧ f.default = some v

/-- An object is loaded if it names its kind, has no members but those of the kind, and supplies
all fields. -/
theorem load_obj : load p (.obj members) = .ok v ↔
    ∃ k fields, v = .node k fields ∧ members.lookup typeKey = some (.str k.tag) ∧
      (∀ n ∈ members.map (·.1), n = typeKey ∨ n ∈ k.fields.map (·.name)) ∧
      List.Forall₂ (Supplied p members) k.fields fields := by
  have hsupplied : Supplied p members = fun f v =>
      (loadMembers p members).lookup f.name = some (.ok v) ∨
        (loadMembers p members).lookup f.name = none ∧ f.default = some v := by
    funext f v
    rw [Supplied, lookup_loadMembers, Option.map_eq_some_iff, Option.map_eq_none_iff]
  rw [load, assemble, hsupplied]
  constructor
  · intro h
    obtain ⟨k, hk, h⟩ := ok_of_bind h
    obtain ⟨fields, hf, h⟩ := ok_of_bind h
    split at h
    · next hstray =>
      cases h
      exact ⟨k, fields, rfl, kindOf_eq_ok.1 hk, strayNames_eq_nil.1 hstray, gather_eq_ok.1 hf⟩
    · cases h
  · rintro ⟨k, fields, rfl, hk, hnames, hf⟩
    simp only [kindOf_eq_ok.2 hk, gather_eq_ok.2 hf, strayNames_eq_nil.2 hnames, bind,
      Except.bind, pure, Except.pure]

/-- The items of an array are loaded one by one. -/
theorem loadItems_eq_ok : ∀ {items : List Json} {i : Nat} {vs : List Value},
    loadItems p i items = .ok vs → List.Forall₂ (fun j v => ∃ q, load q j = .ok v) items vs
  | [], _, vs, h => by
    rw [loadItems] at h
    cases h
    exact .nil
  | j :: rest, i, vs, h => by
    rw [loadItems] at h
    obtain ⟨v, vs, hv, hvs, rfl⟩ := cons_eq_ok.1 h
    exact .cons ⟨_, hv⟩ (loadItems_eq_ok hvs)

/-! ## Loading a dumped tree -/

mutual

/-- Whether every node of a value has a value for each declared field and no more. -/
def full : Value → Bool
  | .scalar _ => true
  | .list items => allFull items
  | .node k fields => fields.length = k.fields.length && allFull fields

/-- Whether every node of several values has a value for each declared field and no more. -/
def allFull : List Value → Bool
  | [] => true
  | v :: rest => v.full && allFull rest

end

/-- Several values are full if each is. -/
theorem allFull_iff {vs : List Value} : allFull vs = true ↔ ∀ v ∈ vs, v.full = true := by
  induction vs with
  | nil => simp [allFull]
  | cons v rest ih => simp [allFull, ih]

/-- The fields of a node are dumped under their names. -/
theorem names_dumpFields : ∀ {fs : List FieldDecl} {vs : List Value}, vs.length = fs.length →
    (dumpFields fs vs).map (·.1) = fs.map (·.name)
  | [], [], _ => rfl
  | f :: fs, v :: vs, h => by
    rw [dumpFields, List.map_cons, List.map_cons, names_dumpFields (Nat.succ.inj h)]

/-- Each field of a node is dumped as the member of its name. -/
theorem mem_dumpFields : ∀ {fs : List FieldDecl} {vs : List Value}, vs.length = fs.length →
    List.Forall₂ (fun f v => (f.name, v.dump) ∈ dumpFields fs vs) fs vs
  | [], [], _ => .nil
  | f :: fs, v :: vs, h => by
    rw [dumpFields]
    refine .cons List.mem_cons_self ?_
    exact (mem_dumpFields (Nat.succ.inj h)).imp fun _ _ => List.mem_cons_of_mem _

/-- The names of the members that a node is dumped with. -/
theorem nodup_dumped {fields : List Value} (h : fields.length = k.fields.length) :
    (((typeKey, Json.str k.tag) :: dumpFields k.fields fields).map (·.1)).Nodup := by
  rw [List.map_cons, names_dumpFields h, List.nodup_cons]
  exact ⟨k.typeKey_not_mem, k.nodup_fields⟩

/-- What holds of a value if it holds of all values in it holds of every value. -/
theorem induct {P : Value → Prop} (scalar : ∀ s, P (.scalar s))
    (list : ∀ items, (∀ v ∈ items, P v) → P (.list items))
    (node : ∀ k fields, (∀ v ∈ fields, P v) → P (.node k fields)) : ∀ v, P v
  | .scalar s => scalar s
  | .list items => list items (inItems items)
  | .node k fields => node k fields (inItems fields)
where
  inItems : ∀ (items : List Value), ∀ v ∈ items, P v
    | [] => by simp
    | v :: rest => List.forall_mem_cons.2 ⟨induct scalar list node v, inItems rest⟩

/-- Items that load as they are dumped load together. -/
theorem loadItems_dumpItems {vs : List Value} (h : ∀ v ∈ vs, ∀ p, load p v.dump = .ok v)
    (i : Nat) : loadItems p i (dumpItems vs) = .ok vs := by
  induction vs generalizing i with
  | nil => rfl
  | cons v rest ih =>
    rw [List.forall_mem_cons] at h
    rw [dumpItems, loadItems]
    exact cons_eq_ok.2 ⟨v, rest, h.1 _, ih h.2 _, rfl⟩

/-- Loading undoes dumping. -/
theorem load_dump {v : Value} (hv : v.full = true) (p : Path) : load p v.dump = .ok v := by
  induction v using induct generalizing p with
  | scalar s => rfl
  | list items ih =>
    rw [full, allFull_iff] at hv
    rw [dump, load, loadItems_dumpItems fun v hm => ih v hm (hv v hm)]
    rfl
  | node k fields ih =>
    rw [full, Bool.and_eq_true, decide_eq_true_eq, allFull_iff] at hv
    have hnames := nodup_dumped hv.1
    rw [dump]
    refine load_obj.2 ⟨k, fields, rfl, List.lookup_cons_self, fun n hn => ?_, ?_⟩
    · rw [List.map_cons, names_dumpFields hv.1] at hn
      exact List.mem_cons.1 hn
    · have hload : ∀ v ∈ fields, ∀ p, load p v.dump = .ok v := fun v hm => ih v hm (hv.2 v hm)
      refine ((List.forall₂_and_left _ _).2 ⟨hload, (mem_dumpFields hv.1).flip⟩).flip.imp ?_
      rintro f v ⟨hload, hmem⟩
      exact .inl ⟨_, (Json.lookup_eq_some hnames).2 (List.mem_cons_of_mem _ hmem), hload _⟩

/-! ## Dumping a loaded tree -/

/-- The defaults are full. -/
theorem full_default (k : Kind) : ∀ f ∈ k.fields, f.default.all full = true := by
  cases k <;> decide

/-- Names are distinct in the dumped defaults. -/
theorem distinct_default (k : Kind) : ∀ f ∈ k.fields, f.default.all (·.dump.distinct) = true := by
  cases k <;> decide

/-- What is on the right of two related lists has something to the left of it. -/
theorem exists_left {α β : Type} {R : α → β → Prop} {a : List α} {b : List β}
    (h : List.Forall₂ R a b) {y : β} (hy : y ∈ b) : ∃ x ∈ a, R x y := by
  induction h with
  | nil => cases hy
  | cons hr _ ih =>
    rcases List.mem_cons.1 hy with rfl | hy
    · exact ⟨_, List.mem_cons_self, hr⟩
    · obtain ⟨x, hx, hr⟩ := ih hy
      exact ⟨x, List.mem_cons_of_mem _ hx, hr⟩

/-- A member that is found is there. -/
theorem mem_of_lookup {name : String} {j : Json} (h : members.lookup name = some j) :
    (name, j) ∈ members := by
  obtain ⟨before, behind, rfl, -⟩ := List.lookup_eq_some_iff.1 h
  simp

/-- What is loaded has all fields. -/
theorem full_of_load {j : Json} (h : load p j = .ok v) : v.full = true := by
  induction j using Json.induct generalizing p v with
  | scalar s =>
    cases h
    rfl
  | arr items ih =>
    rw [load] at h
    obtain ⟨vs, hvs, h⟩ := ok_of_bind h
    cases h
    rw [full, allFull_iff]
    intro v hv
    obtain ⟨j, hj, q, hq⟩ := exists_left (loadItems_eq_ok hvs) hv
    exact ih j hj hq
  | obj members ih =>
    obtain ⟨k, fields, rfl, -, -, hf⟩ := load_obj.1 h
    rw [full, Bool.and_eq_true, decide_eq_true_eq, allFull_iff]
    refine ⟨hf.length_eq.symm, fun v hv => ?_⟩
    obtain ⟨f, hmem, ⟨j, hj, hload⟩ | ⟨-, hd⟩⟩ := exists_left hf hv
    · exact ih _ (mem_of_lookup hj) hload
    · simpa [hd] using full_default k f hmem

/-- Items are dumped one by one. -/
theorem dumpItems_eq_map (vs : List Value) : dumpItems vs = vs.map dump := by
  induction vs with
  | nil => rfl
  | cons v rest ih => rw [dumpItems, ih, List.map_cons]

/-- What is dumped of the fields is under the name of a field and is its dumped value. -/
theorem exists_of_mem_dumpFields {R : FieldDecl → Value → Prop} {fs : List FieldDecl}
    {vs : List Value} (h : List.Forall₂ R fs vs) {name : String} {x : Json}
    (hx : (name, x) ∈ dumpFields fs vs) : ∃ f ∈ fs, ∃ v, R f v ∧ name = f.name ∧ x = v.dump := by
  induction h with
  | nil => simp [dumpFields] at hx
  | cons hr _ ih =>
    rw [dumpFields] at hx
    rcases List.mem_cons.1 hx with hx | hx
    · cases hx
      exact ⟨_, List.mem_cons_self, _, hr, rfl, rfl⟩
    · obtain ⟨f, hf, hv⟩ := ih hx
      exact ⟨f, List.mem_cons_of_mem _ hf, hv⟩

/-- The members that are missing are the fields that the object does not have and that have a
default. -/
theorem mem_missing (hk : members.lookup typeKey = some (.str k.tag)) {name : String} {y : Json} :
    (name, y) ∈ Json.missing members ↔ ∃ f ∈ k.fields, name = f.name ∧
      members.lookup f.name = none ∧ ∃ v, f.default = some v ∧ y = v.dump := by
  simp only [Json.missing, hk, Kind.ofTag?_tag, List.mem_filterMap, List.mem_filter,
    Option.isNone_iff_eq_none, Option.map_eq_some_iff, Prod.mk.injEq]
  constructor
  · rintro ⟨f, ⟨hf, hnone⟩, v, hd, rfl, rfl⟩
    exact ⟨f, hf, rfl, hnone, v, hd, rfl⟩
  · rintro ⟨f, hf, rfl, hnone, v, hd, rfl⟩
    exact ⟨f, ⟨hf, hnone⟩, v, hd, rfl, rfl⟩

/-- The members that an object leaves out have distinct names. -/
theorem nodup_missing (hk : members.lookup typeKey = some (.str k.tag)) :
    ((Json.missing members).map (·.1)).Nodup := by
  have hsub : ∀ fs : List FieldDecl, ((fs.filterMap fun f =>
      f.default.map fun v => (f.name, v.dump)).map (·.1)).Sublist (fs.map (·.name)) := by
    intro fs
    induction fs with
    | nil => exact .refl _
    | cons f fs ih =>
      rw [List.filterMap_cons]
      cases f.default with
      | none => exact .cons _ ih
      | some v => exact .cons_cons _ ih
  simp only [Json.missing, hk, Kind.ofTag?_tag]
  exact k.nodup_fields.sublist ((hsub _).trans (List.filter_sublist.map _))

/-- Members keep their names when they are filled in. -/
theorem names_fillMembers (members : List (String × Json)) :
    (Json.fillMembers members).map (·.1) = members.map (·.1) := by
  rw [Json.fillMembers_eq_map, List.map_map]
  rfl

/-- A loaded object is dumped with the names that it has when it is filled. -/
theorem perm_names {fields : List Value} (hn : (members.map (·.1)).Nodup)
    (hk : members.lookup typeKey = some (.str k.tag))
    (hnames : ∀ n ∈ members.map (·.1), n = typeKey ∨ n ∈ k.fields.map (·.name))
    (hf : List.Forall₂ (Supplied p members) k.fields fields) :
    (((typeKey, Json.str k.tag) :: dumpFields k.fields fields).map (·.1)).Perm
      ((Json.fillMembers members ++ Json.missing members).map (·.1)) := by
  have hmissing : ∀ n ∈ (Json.missing members).map (·.1),
      n ∈ k.fields.map (·.name) ∧ n ∉ members.map (·.1) := by
    intro n hm
    obtain ⟨⟨_, y⟩, hy, rfl⟩ := List.mem_map.1 hm
    obtain ⟨f, hf, rfl, hnone, -⟩ := (mem_missing hk).1 hy
    exact ⟨List.mem_map.2 ⟨f, hf, rfl⟩, Json.lookup_eq_none.1 hnone⟩
  have hright : ((Json.fillMembers members ++ Json.missing members).map (·.1)).Nodup := by
    rw [List.map_append, names_fillMembers, List.nodup_append]
    refine ⟨hn, nodup_missing hk, ?_⟩
    rintro n hm _ hm' rfl
    exact (hmissing n hm').2 hm
  refine (List.perm_ext_iff_of_nodup (nodup_dumped hf.length_eq.symm) hright).2 fun n => ?_
  rw [List.map_cons, names_dumpFields hf.length_eq.symm, List.map_append, names_fillMembers,
    List.mem_cons, List.mem_append]
  constructor
  · rintro (rfl | hm)
    · exact .inl (List.mem_map.2 ⟨_, mem_of_lookup hk, rfl⟩)
    · by_cases hin : n ∈ members.map (·.1)
      · exact .inl hin
      · -- A field that the document leaves out is loaded from its default.
        obtain ⟨f, hmem, rfl⟩ := List.mem_map.1 hm
        obtain ⟨v, -, ⟨j, hj, -⟩ | ⟨hnone, hd⟩⟩ := exists_left hf.flip hmem
        · exact absurd (List.mem_map.2 ⟨_, mem_of_lookup hj, rfl⟩) hin
        · exact .inr (List.mem_map.2 ⟨_, (mem_missing hk).2 ⟨f, hmem, rfl, hnone, v, hd, rfl⟩,
            rfl⟩)
  · rintro (hm | hm)
    · exact hnames n hm
    · exact .inr (hmissing n hm).1

/-- The members of a filled object are those it has, filled, and those that are missing. -/
theorem mem_filled (hn : (members.map (·.1)).Nodup)
    (hk : members.lookup typeKey = some (.str k.tag))
    {name : String} {y : Json}
    (hy : (name, y) ∈ Json.fillMembers members ++ Json.missing members) :
    (∃ j, members.lookup name = some j ∧ y = j.fill) ∨
      ∃ f ∈ k.fields, name = f.name ∧ members.lookup f.name = none ∧ ∃ v, f.default = some v ∧
        y = v.dump := by
  rw [List.mem_append, Json.fillMembers_eq_map, List.mem_map, mem_missing hk] at hy
  refine hy.imp_left ?_
  rintro ⟨⟨name, j⟩, hm, heq⟩
  cases heq
  exact ⟨j, (Json.lookup_eq_some hn).2 hm, rfl⟩

/-- A loaded document is dumped as it is when filled. -/
theorem rearranged_fill {j : Json} (hj : j.distinct = true) (h : load p j = .ok v) :
    v.dump.Rearranged j.fill := by
  induction j using Json.induct generalizing p v with
  | scalar s =>
    cases h
    exact .scalar s
  | arr items ih =>
    have hall := Json.distinct_of_mem_items (by rwa [Json.distinct] at hj)
    rw [load] at h
    obtain ⟨vs, hvs, h⟩ := ok_of_bind h
    cases h
    have hvs := loadItems_eq_ok hvs
    rw [dump, Json.fill, dumpItems_eq_map, Json.fillItems_eq_map]
    refine .arr (by simp [hvs.length_eq]) fun i x y hx hy => ?_
    rw [List.getElem?_map, Option.map_eq_some_iff] at hx hy
    obtain ⟨_, hv, rfl⟩ := hx
    obtain ⟨_, hj, rfl⟩ := hy
    obtain ⟨hi', rfl⟩ := List.getElem?_eq_some_iff.1 hv
    obtain ⟨hi, rfl⟩ := List.getElem?_eq_some_iff.1 hj
    obtain ⟨q, hq⟩ := hvs.get hi hi'
    exact ih _ (List.getElem_mem hi) (hall _ (List.getElem_mem hi)) hq
  | obj members ih =>
    rw [Json.distinct, Bool.and_eq_true, decide_eq_true_eq] at hj
    have hall := Json.distinct_of_mem_members hj.2
    obtain ⟨k, fields, rfl, hk, hnames, hf⟩ := load_obj.1 h
    rw [dump, Json.fill]
    refine .obj (perm_names hj.1 hk hnames hf) fun name x y hx hy => ?_
    have hy := mem_filled hj.1 hk hy
    -- The name is that of the type, or of a field that the document gives, or of one that it
    -- leaves out.
    rcases List.mem_cons.1 hx with hx | hx
    · cases hx
      obtain ⟨j, hj, rfl⟩ | ⟨f, hmem, hname, -⟩ := hy
      · cases hk.symm.trans hj
        exact .scalar _
      · exact absurd (List.mem_map.2 ⟨f, hmem, hname.symm⟩) k.typeKey_not_mem
    · obtain ⟨f, hmem, v, ⟨j, hl, hload⟩ | ⟨hnone, hd⟩, rfl, rfl⟩ := exists_of_mem_dumpFields hf hx
      · obtain ⟨j', hj', rfl⟩ | ⟨f', -, hname, hnone, -⟩ := hy
        · cases hl.symm.trans hj'
          exact ih _ (mem_of_lookup hl) (hall _ (mem_of_lookup hl)) hload
        · rw [← hname, hl] at hnone
          cases hnone
      · obtain ⟨j', hj', -⟩ | ⟨f', hmem', hname, -, v', hd', rfl⟩ := hy
        · cases hnone.symm.trans hj'
        · cases List.inj_on_of_nodup_map k.nodup_fields hmem hmem' hname
          cases hd.symm.trans hd'
          exact .refl (by simpa [hd] using distinct_default k f hmem)

/-- A document holds a tree if it loads to a node. -/
theorem ofJson_eq_ok {d : Json} {t : Value} :
    ofJson d = .ok t ↔ load .root d = .ok t ∧ ∃ k fields, t = .node k fields := by
  cases d with
  | scalar s =>
    refine ⟨fun h => (nomatch h), ?_⟩
    rintro ⟨h, k, fields, rfl⟩
    cases h
  | arr items =>
    refine ⟨fun h => (nomatch h), ?_⟩
    rintro ⟨h, k, fields, rfl⟩
    rw [load] at h
    obtain ⟨vs, -, h⟩ := ok_of_bind h
    cases h
  | obj members =>
    refine ⟨fun h => ⟨h, ?_⟩, And.left⟩
    obtain ⟨k, fields, hk, -⟩ := load_obj.1 h
    exact ⟨k, fields, hk⟩

/-- A tree whose nodes have all fields is loaded from what it is dumped as. A document that loads
is dumped as the same document with exactly the defaults it leaves out filled in, and loading it
again changes nothing. -/
theorem loading_undoes_dumping :
    (∀ (k : Kind) (fields : List Value), (node k fields).full = true →
      ofJson (node k fields).dump = .ok (node k fields)) ∧
    ∀ (d : Json) (t : Value), d.distinct = true → ofJson d = .ok t →
      t.dump.Rearranged d.fill ∧ ofJson t.dump = .ok t := by
  refine ⟨fun k fields h => ofJson_eq_ok.2 ⟨load_dump h _, k, fields, rfl⟩, fun d t hd h => ?_⟩
  obtain ⟨h, hnode⟩ := ofJson_eq_ok.1 h
  exact ⟨rearranged_fill hd h, ofJson_eq_ok.2 ⟨load_dump (full_of_load h) _, hnode⟩⟩

end Value

namespace Sample

/-- A document in which members stand in any order and fields are left out at each depth: the
parameters of the function, the statements of a block, the other arm of a conditional. A literal
holds a node in a list of lists. -/
def document : Json :=
  .obj [("body", .obj [("body", .arr [
    .obj [("then", .obj [("type", .str "Block")]), ("type", .str "If"),
      ("cond",
        .obj
          [("value", .arr [.arr [.scalar .null, .obj [("id", .str "x"), ("type", .str "Name")]]]),
        ("type", .str "Literal")])],
    .obj [("type", .str "Return")]]), ("type", .str "Block")]), ("type", .str "Function"),
    ("name", .str "f")]

/-- The value that the document is loaded to. -/
def documented : Value :=
  .node .function [.str "f", .list [], .node .block [.list [
    .node .ifElse [.node .literal [.list [.list [.null, name "x"]]],
      .node .block [.list []], .null],
    .node .ret [.null]]]]

/-- Both directions at once: the document and what it is loaded to, and a name. -/
theorem documented_dumped : (Value.ofJson document = .ok documented ∧
    documented.dump.Rearranged document.fill ∧ Value.ofJson documented.dump = .ok documented) ∧
    Value.ofJson (name "x").dump = .ok (name "x") :=
  have loaded : Value.ofJson document = .ok documented := by with_unfolding_all rfl
  ⟨⟨loaded, Value.loading_undoes_dumping.2 document documented (by decide) loaded⟩,
    Value.loading_undoes_dumping.1 .name [.str "x"] (by decide)⟩

end Sample

end LastUse
