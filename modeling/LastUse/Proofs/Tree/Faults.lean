import LastUse.Proofs.Tree.Loading
import Mathlib.Data.List.Lex

/-!
# The fault that a document is refused for

`Json.Fails` says which checks an object fails, and `Json.Faulty` where in a document objects do:
those that it holds in fields that their kinds declare, and in lists. Each failed check has a rank,
and by their ranks checks are made in order: those of an object begin with its type, go on with its
declared fields and what they hold, and end with its other members. A document is loaded if no
check fails, and otherwise refused for the first that does (`Value.refused_for_first_fault`). That
a computation meets the first of some faults (`MeetsFirst`) carries over from its parts, so the
proof follows the loader step by step.
-/

namespace LastUse

/-! ## Faults of documents -/

namespace Json

/-- An item of an array. -/
def item? (i : Nat) : Json → Option Json
  | .arr items => items[i]?
  | _ => none

/-- What stands at a place of a document. -/
def follow (d : Json) : Path → Option Json
  | .root => some d
  | .field p name => (d.follow p).bind (get? name)
  | .item p i => (d.follow p).bind (item? i)

/-- A check that an object at a place fails, with its turn: first comes the type, then the declared
fields in order, then the members that are no fields. -/
inductive Fails (p : Path) (members : List (String × Json)) : Nat → Fault → Prop
  | untyped : members.lookup Value.typeKey = none → Fails p members 0 (.malformed (.notANode p))
  | unknown {t : Scalar} : members.lookup Value.typeKey = some (.scalar t) →
      (∀ k : Kind, t ≠ .str k.tag) → Fails p members 0 (.malformed (.unknownType p t))
  | unusable {j : Json} : members.lookup Value.typeKey = some j → (∀ t, j ≠ .scalar t) →
      Fails p members 0 .mistyped
  | missing {k : Kind} {i : Nat} {fd : FieldDecl} : members.lookup Value.typeKey =
      some (.str k.tag) →
      k.fields[i]? = some fd → members.lookup fd.name = none → fd.default = none →
      Fails p members (i + 1) (.malformed (.missingField p k fd.name))
  | stray {k : Kind} {name : String} : members.lookup Value.typeKey = some (.str k.tag) →
      name ∈ members.map (·.1) → name ≠ Value.typeKey → name ∉ k.fields.map (·.name) →
      Fails p members (k.fields.length + 1)
        (.malformed (.unknownFields p k (Value.strayNames k (members.map (·.1)))))

/-- A document at a place has a fault: an object at the place `q` in it fails a check. The way to
the object is through declared fields of objects whose kind is known and through items of arrays.
The rank is made of their turns on the way, and the turn of the check. -/
inductive Faulty :
    Path → Json → (rank : List Nat) → (q : Path) → List (String × Json) → Fault → Prop
  | check {p : Path} {members : List (String × Json)} {turn : Nat}
      {f : Fault} : Fails p members turn f → Faulty p (.obj members) [turn] p members f
  | field {p q : Path} {members inner : List (String × Json)}
      {k : Kind} {i : Nat} {fd : FieldDecl} {j : Json}
      {rank : List Nat} {f : Fault} : members.lookup Value.typeKey = some (.str k.tag) →
      k.fields[i]? = some fd → members.lookup fd.name = some j →
      Faulty (p.field fd.name) j rank q inner f →
      Faulty p (.obj members) ((i + 1) :: rank) q inner f
  | item {p q : Path} {items : List Json} {inner : List (String × Json)}
      {i : Nat} {j : Json} {rank : List Nat} {f : Fault} : items[i]? = some j →
      Faulty (p.item i) j rank q inner f →
      Faulty p (.arr items) (i :: rank) q inner f

/-- A fault of a whole document, with its rank, its place and what stands there: the document is no
object, or there is a fault in it. -/
inductive FaultAt (d : Json) : (rank : List Nat) → (q : Path) → Json → Fault → Prop
  | root : (∀ members, d ≠ .obj members) → FaultAt d [] .root d (.malformed (.notANode .root))
  | inside {rank : List Nat} {q : Path} {members : List (String × Json)} {f : Fault} :
      Faulty .root d rank q members f → FaultAt d rank q (.obj members) f

/-- A place that is followed from the root of a document leads to the object with the fault. -/
theorem Faulty.follow {d j : Json} {p q : Path} {rank : List Nat} {members : List (String × Json)}
    {f : Fault} (h : Faulty p j rank q members f) (hp : d.follow p = some j) :
    d.follow q = some (.obj members) := by
  induction h with
  | check => exact hp
  | field _ _ hj _ ih => exact ih (by rw [Json.follow, hp, Option.bind_some, get?, hj])
  | item hj _ ih => exact ih (by rw [Json.follow, hp, Option.bind_some, item?, hj])

/-- Where a document is faulty an object fails a check. -/
theorem Faulty.exists_fails {j : Json} {p q : Path} {rank : List Nat}
    {members : List (String × Json)} {f : Fault} (h : Faulty p j rank q members f) :
    ∃ turn, Fails q members turn f := by
  induction h with
  | check hf => exact ⟨_, hf⟩
  | field _ _ _ _ ih => exact ih
  | item _ _ ih => exact ih

end Json

/-- A place stands at the head of a text, with a colon behind it. -/
def Path.Heads (p : Path) (text : String) : Prop := ∃ rest, text = p.text ++ ": " ++ rest

namespace Path.Heads

variable {p : Path} {text : String}

/-- A place and a text that begins with a colon have the place at the head. -/
theorem of_eq (rest : String) (h : text = ": " ++ rest) : p.Heads (p.text ++ text) := by
  subst h
  exact ⟨rest, String.append_assoc.symm⟩

/-- A text with a place at its head may go on. -/
theorem append (h : p.Heads text) (more : String) : p.Heads (text ++ more) := by
  obtain ⟨rest, rfl⟩ := h
  exact ⟨rest ++ more, String.append_assoc⟩

end Path.Heads

/-! ## The first fault -/

/-- A computation fails with the first of some faults by their ranks, and succeeds if there is
none. -/
def MeetsFirst {α : Type} (faults : List Nat → Fault → Prop) : Except Fault α → Prop
  | .ok _ => ∀ rank f, ¬ faults rank f
  | .error f => ∃ rank, faults rank f ∧ ∀ rank' f', faults rank' f' → rank ≤ rank'

namespace MeetsFirst

variable {α β : Type} {faults others : List Nat → Fault → Prop}

/-- Computations that meet the first of some faults meet the first of the same faults otherwise
described. -/
theorem congr {r : Except Fault α} (h : MeetsFirst faults r)
    (hf : ∀ rank f, faults rank f ↔ others rank f) : MeetsFirst others r := by
  have heq : faults = others := funext fun rank => funext fun f => propext (hf rank f)
  exact heq ▸ h

/-- Nothing goes wrong. -/
theorem ok (a : α) (hf : ∀ rank f, ¬ faults rank f) :
    MeetsFirst faults (.ok a : Except Fault α) := hf

/-- One computation after another meets the first fault of both, if those of the one come before
those of the other. -/
theorem bind {x : Except Fault α} {k : α → Except Fault β} (hx : MeetsFirst faults x)
    (hk : ∀ a, x = .ok a → MeetsFirst others (k a))
    (hle : ∀ rank f rank' f', faults rank f → others rank' f' → rank ≤ rank') :
    MeetsFirst (fun rank f => faults rank f ∨ others rank f) (x >>= k) := by
  cases x with
  | error f =>
    obtain ⟨rank, hf, hfirst⟩ := hx
    refine ⟨rank, .inl hf, fun rank' f' h => ?_⟩
    rcases h with h | h
    · exact hfirst rank' f' h
    · exact hle rank f rank' f' hf h
  | ok a =>
    show MeetsFirst _ (k a)
    refine (hk a rfl).congr fun rank f => ?_
    rw [or_iff_right (hx rank f)]

/-- Faults behind one more turn. -/
theorem push {r : Except Fault α} (h : MeetsFirst faults r) (turn : Nat) :
    MeetsFirst (fun rank f => ∃ rest, rank = turn :: rest ∧ faults rest f) r := by
  cases r with
  | ok a =>
    rintro rank f ⟨rest, -, hf⟩
    exact h rest f hf
  | error f =>
    obtain ⟨rest, hf, hfirst⟩ := h
    refine ⟨turn :: rest, ⟨rest, rfl, hf⟩, ?_⟩
    rintro _ f' ⟨rest', rfl, hf'⟩
    exact List.cons_le_cons turn (hfirst rest' f' hf')

/-- What comes of a value does not matter. -/
theorem map {r : Except Fault α} (h : MeetsFirst faults r) (g : α → β) :
    MeetsFirst faults (r >>= fun a => pure (g a)) := by
  cases r with
  | ok a => exact h
  | error f => exact h

end MeetsFirst

/-- The faults of parts that take turns, from a number on. -/
def InTurn {α : Type} (faults : Nat → α → List Nat → Fault → Prop) (i : Nat) (parts : List α)
    (rank : List Nat) (f : Fault) : Prop :=
  ∃ n a, parts[n]? = some a ∧ ∃ rest, rank = (i + n) :: rest ∧ faults (i + n) a rest f

/-- The faults of parts in turn are those of the first, then those of the others. -/
theorem inTurn_cons {α : Type} {faults : Nat → α → List Nat → Fault → Prop} {i : Nat} {a : α}
    {parts : List α} {rank : List Nat} {f : Fault} : InTurn faults i (a :: parts) rank f ↔
      (∃ rest, rank = i :: rest ∧ faults i a rest f) ∨ InTurn faults (i + 1) parts rank f := by
  constructor
  · rintro ⟨_ | n, b, hb, h⟩
    · cases hb
      exact .inl h
    · rw [show i + (n + 1) = i + 1 + n by omega] at h
      exact .inr ⟨n, b, hb, h⟩
  · rintro (h | ⟨n, b, hb, h⟩)
    · exact ⟨0, a, rfl, h⟩
    · rw [show i + 1 + n = i + (n + 1) by omega] at h
      exact ⟨n + 1, b, hb, h⟩

/-- Parts that are computed one after the other are computed up to the first fault of one. -/
theorem MeetsFirst.inTurn {α β : Type} {faults : Nat → α → List Nat → Fault → Prop}
    {part : Nat → α → Except Fault β} (run : Nat → List α → Except Fault (List β))
    (hnil : ∀ i, run i [] = .ok [])
    (hcons : ∀ i a rest, run i (a :: rest) = do
      let b ← part i a
      let bs ← run (i + 1) rest
      pure (b :: bs))
    {parts : List α} (h : ∀ a ∈ parts, ∀ i, MeetsFirst (faults i a) (part i a)) (i : Nat) :
    MeetsFirst (InTurn faults i parts) (run i parts) := by
  induction parts generalizing i with
  | nil =>
    rw [hnil]
    refine .ok _ ?_
    rintro rank f ⟨n, a, ha, -⟩
    cases ha
  | cons a rest ih =>
    rw [List.forall_mem_cons] at h
    rw [hcons]
    refine (((h.1 i).push i).bind (fun b _ => (ih h.2 (i + 1)).map _) ?_).congr fun rank f =>
      inTurn_cons.symm
    rintro _ f _ f' ⟨rest, rfl, -⟩ ⟨n, a, -, rest', rfl, -⟩
    exact le_of_lt (.rel (by omega))

/-! ## The faults that the loader meets -/

namespace Value

variable {p : Path} {members : List (String × Json)} {k : Kind}

/-- An object has one kind. -/
theorem kind_unique {k' : Kind} (hk : members.lookup typeKey = some (.str k.tag))
    (hk' : members.lookup typeKey = some (.str k'.tag)) : k = k' := by
  have htag : k.tag = k'.tag := by simpa [hk] using hk'
  rw [← Option.some.injEq, ← Kind.ofTag?_tag k, htag, Kind.ofTag?_tag]

/-- The faults of a document at a place. -/
def faultsOf (p : Path) (j : Json) (rank : List Nat) (f : Fault) : Prop :=
  ∃ q members, j.Faulty p rank q members f

/-- The faults of a declared field of an object: of what it holds or, if it has no default, that it
is missing. -/
def fieldFaults (p : Path) (members : List (String × Json)) (k : Kind) (fd : FieldDecl)
    (rank : List Nat) (f : Fault) : Prop :=
  match members.lookup fd.name with
  | some j => faultsOf (p.field fd.name) j rank f
  | none => rank = [] ∧ fd.default = none ∧ f = .malformed (.missingField p k fd.name)

/-- The faults of a field that is there are those of what it holds. -/
theorem fieldFaults_of_some {fd : FieldDecl} {j : Json} (hl : members.lookup fd.name = some j)
    {rank : List Nat} {f : Fault} :
    fieldFaults p members k fd rank f ↔ faultsOf (p.field fd.name) j rank f := by
  unfold fieldFaults
  rw [hl]

/-- The fault of a field that is not there is that it is missing, if it has no default. -/
theorem fieldFaults_of_none {fd : FieldDecl} (hl : members.lookup fd.name = none) {rank : List Nat}
    {f : Fault} :
    fieldFaults p members k fd rank f ↔
      rank = [] ∧ fd.default = none ∧ f = .malformed (.missingField p k fd.name) := by
  unfold fieldFaults
  rw [hl]

/-- An array is loaded up to the first fault of an item. -/
theorem loadItems_meets {items : List Json}
    (h : ∀ j ∈ items, ∀ q, MeetsFirst (faultsOf q j) (load q j)) :
    MeetsFirst (InTurn (fun i j => faultsOf (p.item i) j) 0 items) (loadItems p 0 items) :=
  .inTurn (loadItems p) (fun _ => by rw [loadItems]) (fun _ _ _ => by rw [loadItems])
    (fun j hj _ => h j hj _) 0

/-- The value for a declared field of an object. -/
def supply (p : Path) (members : List (String × Json)) (k : Kind) (fd : FieldDecl) :
    Except Fault Value :=
  match members.lookup fd.name, fd.default with
  | some j, _ => load (p.field fd.name) j
  | none, some v => .ok v
  | none, none => .error (.malformed (.missingField p k fd.name))

/-- The values for the fields are supplied one after the other. -/
theorem gather_cons (fd : FieldDecl) (rest : List FieldDecl) :
    gather p k (loadMembers p members) (fd :: rest) = (do
      let v ← supply p members k fd
      let vs ← gather p k (loadMembers p members) rest
      pure (v :: vs)) := by
  rw [gather, lookup_loadMembers, supply]
  cases members.lookup fd.name with
  | some j => rfl
  | none => cases fd.default <;> rfl

/-- A field is supplied unless it has a fault, and otherwise the first one is met. -/
theorem supply_meets (h : ∀ m ∈ members, ∀ q, MeetsFirst (faultsOf q m.2) (load q m.2))
    (fd : FieldDecl) : MeetsFirst (fieldFaults p members k fd) (supply p members k fd) := by
  unfold supply
  cases hl : members.lookup fd.name with
  | some j => exact (h _ (mem_of_lookup hl) _).congr fun rank f => (fieldFaults_of_some hl).symm
  | none =>
    cases hd : fd.default with
    | some v =>
      intro rank f hf
      rw [fieldFaults_of_none hl, hd] at hf
      cases hf.2.1
    | none => exact ⟨[], (fieldFaults_of_none hl).2 ⟨rfl, hd, rfl⟩,
      fun rank' f' _ => not_lt.1 (List.not_lt_nil _)⟩

/-- The fields of an object are gathered up to the first fault of one. -/
theorem gather_meets (h : ∀ m ∈ members, ∀ q, MeetsFirst (faultsOf q m.2) (load q m.2)) :
    MeetsFirst (InTurn (fun _ fd => fieldFaults p members k fd) 1 k.fields)
      (gather p k (loadMembers p members) k.fields) :=
  .inTurn (fun _ => gather p k (loadMembers p members)) (fun _ => by rw [gather])
    (fun _ fd rest => gather_cons fd rest) (fun fd _ _ => supply_meets h fd) 1

/-- An object fails the check of its type if its kind cannot be told. -/
theorem fails_zero_iff {f : Fault} : Json.Fails p members 0 f ↔ kindOf p members = .error f := by
  unfold kindOf
  constructor
  · intro h
    cases h with
    | untyped hn => rw [hn]
    | @unknown t ht hne =>
      rw [ht]
      cases t with
      | str tag =>
        cases hk : Kind.ofTag? tag with
        | none => simp [hk]
        | some k => exact absurd (by rw [Kind.tag_of_ofTag? hk]) (hne k)
      | _ => rfl
    | @unusable j hj hne =>
      rw [hj]
      cases j with
      | scalar t => exact absurd rfl (hne t)
      | arr | obj => rfl
  · intro h
    split at h
    · next hn =>
      cases h
      exact .untyped hn
    · next tag ht =>
      split at h
      · cases h
      · next hnone =>
        cases h
        refine .unknown ht ?_
        rintro k heq
        cases heq
        rw [Kind.ofTag?_tag] at hnone
        cases hnone
    · next t hne ht =>
      cases h
      refine .unknown ht ?_
      rintro k rfl
      exact hne k.tag rfl
    · next j hne hj =>
      cases h
      exact .unusable hj hne

/-- The type of an object is checked. -/
theorem kindOf_meets :
    MeetsFirst (fun rank f => rank = [0] ∧ Json.Fails p members 0 f) (kindOf p members) := by
  simp only [fails_zero_iff]
  cases kindOf p members with
  | ok k =>
    rintro rank f ⟨-, hf⟩
    cases hf
  | error f =>
    refine ⟨[0], ⟨rfl, rfl⟩, ?_⟩
    rintro _ f' ⟨rfl, -⟩
    exact le_refl _

/-- The fault of an object with members that are no fields. -/
def strayFaults (p : Path) (members : List (String × Json)) (k : Kind) (rank : List Nat)
    (f : Fault) : Prop :=
  rank = [k.fields.length + 1] ∧ strayNames k (members.map (·.1)) ≠ [] ∧
    f = .malformed (.unknownFields p k (strayNames k (members.map (·.1))))

/-- The members of an object that are no fields are checked. -/
theorem strays_meet (fields : List Value) : MeetsFirst (strayFaults p members k)
    (match strayNames k (members.map (·.1)) with
      | [] => pure (.node k fields)
      | stray => .error (.malformed (.unknownFields p k stray)) : Except Fault Value) := by
  unfold strayFaults
  cases hs : strayNames k (members.map (·.1)) with
  | nil =>
    rintro rank f ⟨-, hne, -⟩
    exact hne rfl
  | cons name rest =>
    refine ⟨_, ⟨rfl, List.cons_ne_nil _ _, rfl⟩, ?_⟩
    rintro _ f' ⟨rfl, -⟩
    exact le_refl _

/-- There are stray names if some name is neither that of the type nor that of a field. -/
theorem strayNames_ne_nil {names : List String} :
    strayNames k names ≠ [] ↔ ∃ n ∈ names, n ≠ typeKey ∧ n ∉ k.fields.map (·.name) := by
  simp only [ne_eq, strayNames_eq_nil, not_forall, not_or, exists_prop]

/-- The faults of an object: of its type or, if its kind is known, of its fields and of its other
members. -/
theorem faultsOf_obj {rank : List Nat} {f : Fault} : faultsOf p (.obj members) rank f ↔
    (rank = [0] ∧ Json.Fails p members 0 f) ∨
      ∃ k : Kind, members.lookup typeKey = some (.str k.tag) ∧
      (InTurn (fun _ fd => fieldFaults p members k fd) 1 k.fields rank f ∨
        strayFaults p members k rank f) := by
  constructor
  · rintro ⟨q, inner, h⟩
    cases h with
    | check hf =>
      cases hf with
      | untyped hn => exact .inl ⟨rfl, .untyped hn⟩
      | unknown ht hne => exact .inl ⟨rfl, .unknown ht hne⟩
      | unusable hj hne => exact .inl ⟨rfl, .unusable hj hne⟩
      | @missing k i fd hk hi hl hd =>
        refine .inr ⟨k, hk, .inl ⟨i, fd, hi, [], by rw [Nat.add_comm], ?_⟩⟩
        exact (fieldFaults_of_none hl).2 ⟨rfl, hd, rfl⟩
      | @stray k name hk hm ht hn =>
        exact .inr ⟨k, hk, .inr ⟨rfl, strayNames_ne_nil.2 ⟨name, hm, ht, hn⟩, rfl⟩⟩
    | @field _ _ _ _ k i fd j rank _ hk hi hl h =>
      refine .inr ⟨k, hk, .inl ⟨i, fd, hi, rank, by rw [Nat.add_comm], ?_⟩⟩
      exact (fieldFaults_of_some hl).2 ⟨q, inner, h⟩
  · rintro (⟨rfl, hf⟩ | ⟨k, hk, ⟨i, fd, hi, rest, rfl, h⟩ | ⟨rfl, hne, rfl⟩⟩)
    · exact ⟨p, members, .check hf⟩
    · rw [Nat.add_comm]
      cases hl : members.lookup fd.name with
      | some j =>
        obtain ⟨q, inner, h⟩ := (fieldFaults_of_some hl).1 h
        exact ⟨q, inner, .field hk hi hl h⟩
      | none =>
        obtain ⟨rfl, hd, rfl⟩ := (fieldFaults_of_none hl).1 h
        exact ⟨p, members, .check (.missing hk hi hl hd)⟩
    · obtain ⟨name, hm, ht, hn⟩ := strayNames_ne_nil.1 hne
      exact ⟨p, members, .check (.stray hk hm ht hn)⟩

/-- The faults of an array are those of its items in turn. -/
theorem faultsOf_arr {items : List Json} {rank : List Nat} {f : Fault} :
    faultsOf p (.arr items) rank f ↔ InTurn (fun i j => faultsOf (p.item i) j) 0 items rank f := by
  constructor
  · rintro ⟨q, inner, h⟩
    cases h with
    | @item _ _ _ _ i j rank _ hj h =>
      rw [← Nat.zero_add i] at h ⊢
      exact ⟨i, j, hj, rank, rfl, q, inner, h⟩
  · rintro ⟨i, j, hj, rest, rfl, q, inner, h⟩
    rw [Nat.zero_add] at h ⊢
    exact ⟨q, inner, .item hj h⟩

/-- An object is checked in the order of the ranks: its type, its fields, its other members. -/
theorem assemble_meets (h : ∀ m ∈ members, ∀ q, MeetsFirst (faultsOf q m.2) (load q m.2)) :
    MeetsFirst (faultsOf p (.obj members)) (assemble p members (loadMembers p members)) := by
  refine (kindOf_meets.bind (fun k hk => ?_) ?_).congr fun rank f => faultsOf_obj.symm
  · have hk := kindOf_eq_ok.1 hk
    refine ((gather_meets h).bind (fun fields _ => strays_meet fields) ?_).congr fun rank f => ?_
    · rintro _ f _ f' ⟨n, fd, hn, rest, rfl, -⟩ ⟨rfl, -⟩
      have hlt := (List.getElem?_eq_some_iff.1 hn).1
      exact le_of_lt (.rel (by omega))
    · constructor
      · intro hf
        exact ⟨k, hk, hf⟩
      · rintro ⟨k', hk', hf⟩
        cases kind_unique hk hk'
        exact hf
  · rintro _ f rank' f' ⟨rfl, -⟩ ⟨k, -, ⟨n, fd, -, rest, rfl, -⟩ | ⟨rfl, -⟩⟩
    · exact le_of_lt (.rel (by omega))
    · exact le_of_lt (.rel (by omega))

/-- A document is loaded up to its first fault. -/
theorem load_meets (j : Json) (p : Path) : MeetsFirst (faultsOf p j) (load p j) := by
  induction j using Json.induct generalizing p with
  | scalar s =>
    rw [load]
    refine .ok _ ?_
    rintro rank f ⟨q, inner, h⟩
    cases h
  | arr items ih =>
    rw [load]
    exact ((loadItems_meets ih).map _).congr fun rank f => faultsOf_arr.symm
  | obj members ih =>
    rw [load]
    exact assemble_meets ih

/-! ## One fault of a rank -/

/-- An object whose kind is known fails a check of its fields or of its other members. -/
theorem fails_succ {i : Nat} {f : Fault} (h : Json.Fails p members (i + 1) f) :
    ∃ k : Kind, members.lookup typeKey = some (.str k.tag) ∧
      ((∃ fd, k.fields[i]? = some fd ∧ f = .malformed (.missingField p k fd.name)) ∨
        k.fields[i]? = none ∧
          f = .malformed (.unknownFields p k (strayNames k (members.map (·.1))))) := by
  cases h with
  | @missing k _ fd hk hi => exact ⟨k, hk, .inl ⟨fd, hi, rfl⟩⟩
  | @stray k _ hk => exact ⟨k, hk, .inr ⟨by simp, rfl⟩⟩

/-- At one turn an object fails one check. -/
theorem fails_unique {turn : Nat} {f f' : Fault} (h : Json.Fails p members turn f)
    (h' : Json.Fails p members turn f') : f = f' := by
  cases turn with
  | zero =>
    rw [fails_zero_iff] at h h'
    exact Except.error.inj (h.symm.trans h')
  | succ i =>
    obtain ⟨k, hk, h⟩ := fails_succ h
    obtain ⟨k', hk', h'⟩ := fails_succ h'
    cases kind_unique hk hk'
    rcases h with ⟨fd, hi, rfl⟩ | ⟨hi, rfl⟩
    · rcases h' with ⟨fd', hi', rfl⟩ | ⟨hi', -⟩
      · rw [Option.some.inj (hi.symm.trans hi')]
      · rw [hi] at hi'
        cases hi'
    · rcases h' with ⟨fd', hi', -⟩ | ⟨-, rfl⟩
      · rw [hi] at hi'
        cases hi'
      · rfl

/-- A fault inside a document has a rank of one turn at least. -/
theorem rank_ne_nil {j : Json} {rank : List Nat} {q : Path} {inner : List (String × Json)}
    {f : Fault} (h : j.Faulty p rank q inner f) : rank ≠ [] := by
  cases h <;> exact List.cons_ne_nil _ _

/-- The rank of a fault tells which one it is. -/
theorem faulty_unique {j : Json} {rank : List Nat} {q q' : Path}
    {inner inner' : List (String × Json)} {f f' : Fault} (h : j.Faulty p rank q inner f)
    (h' : j.Faulty p rank q' inner' f') : q = q' ∧ inner = inner' ∧ f = f' := by
  induction h with
  | check hf =>
    cases h' with
    | check hf' => exact ⟨rfl, rfl, fails_unique hf hf'⟩
    | field _ _ _ h' => exact absurd rfl (rank_ne_nil h')
  | field hk hi hl h ih =>
    cases h' with
    | check => exact absurd rfl (rank_ne_nil h)
    | field hk' hi' hl' h' =>
      cases kind_unique hk hk'
      cases hi.symm.trans hi'
      cases hl.symm.trans hl'
      exact ih h'
  | item hj _ ih =>
    cases h' with
    | item hj' h' =>
      cases hj.symm.trans hj'
      exact ih h'

/-- A fault is told with its place in front, unless it is of a type that is no text. -/
theorem heads_of_fails {turn : Nat} {f : Fault} (h : Json.Fails p members turn f)
    (ht : ∀ t, members.lookup typeKey = some t → ∃ tag, t = .str tag) :
    ∃ m, f = .malformed m ∧ p.Heads m.message := by
  cases h with
  | untyped => exact ⟨_, rfl, .of_eq "expected an object with a 'type' key" (by simp)⟩
  | unknown => exact ⟨_, rfl, .append (.of_eq "unknown node type " (by simp)) _⟩
  | unusable hj hne =>
    obtain ⟨tag, rfl⟩ := ht _ hj
    exact absurd rfl (hne _)
  | @missing k => exact ⟨_, rfl, .append (.append ⟨k.tag, rfl⟩ _) _⟩
  | stray =>
    exact ⟨_, rfl, .append (.append (.append (.of_eq "unknown fields [" (by simp)) _) _) _⟩

end Value

namespace Json.FaultAt

variable {d o o' : Json} {rank : List Nat} {q q' : Path} {f f' : Fault}

/-- At the place of a fault stands what the fault says. -/
theorem follow (h : d.FaultAt rank q o f) : d.follow q = some o := by
  cases h with
  | root => rfl
  | inside h => exact h.follow rfl

/-- A fault is known by its rank. -/
theorem unique (h : d.FaultAt rank q o f) (h' : d.FaultAt rank q' o' f') :
    q' = q ∧ o' = o ∧ f' = f := by
  cases h with
  | root hd =>
    cases h' with
    | root => exact ⟨rfl, rfl, rfl⟩
    | inside h' => exact absurd rfl (Value.rank_ne_nil h')
  | inside h =>
    cases h' with
    | root => exact absurd rfl (Value.rank_ne_nil h)
    | inside h' =>
      obtain ⟨rfl, rfl, rfl⟩ := Value.faulty_unique h h'
      exact ⟨rfl, rfl, rfl⟩

/-- The message of a fault has its place at the head, if the type of the object there is a text. -/
theorem heads (h : d.FaultAt rank q o f)
    (ht : ∀ t, o.get? Value.typeKey = some t → ∃ tag, t = .str tag) :
    ∃ m, f = .malformed m ∧ q.Heads m.message := by
  cases h with
  | root => exact ⟨_, rfl, .of_eq "expected an object with a 'type' key" (by simp)⟩
  | inside h =>
    obtain ⟨turn, hf⟩ := h.exists_fails
    exact Value.heads_of_fails hf ht

end Json.FaultAt

/-- The whole document is loaded up to its first fault. -/
theorem Value.ofJson_meets (d : Json) :
    MeetsFirst (fun rank f => ∃ q o, d.FaultAt rank q o f) (ofJson d) := by
  cases d with
  | obj members =>
    refine (load_meets (.obj members) .root).congr fun rank f => ?_
    constructor
    · rintro ⟨q, inner, h⟩
      exact ⟨q, _, .inside h⟩
    · rintro ⟨q, o, h⟩
      cases h with
      | root hd => exact absurd rfl (hd members)
      | inside h => exact ⟨q, _, h⟩
  | scalar | arr =>
    exact ⟨[], ⟨.root, _, .root (by simp)⟩, fun rank' f' _ => not_lt.1 (List.not_lt_nil _)⟩

/-- A document is loaded if it has no fault. Otherwise it is refused for the first one by rank. Its
place, followed from the root, leads to what has the fault, and the message begins with the place,
unless the type that stands there is no text. -/
theorem Value.refused_for_first_fault (d : Json) :
    ((∃ v, ofJson d = .ok v) ↔ ∀ rank q o f, ¬ d.FaultAt rank q o f) ∧
    ∀ f, ofJson d = .error f → ∃ rank q o, d.FaultAt rank q o f ∧ d.follow q = some o ∧
      (∀ rank' q' o' f', d.FaultAt rank' q' o' f' → rank < rank' ∨
        rank' = rank ∧ q' = q ∧ o' = o ∧ f' = f) ∧
      ((∀ t, o.get? typeKey = some t → ∃ tag, t = .str tag) →
        ∃ m, f = .malformed m ∧ q.Heads m.message) := by
  have hmeets := ofJson_meets d
  cases hd : ofJson d with
  | ok v =>
    rw [hd] at hmeets
    refine ⟨⟨fun _ rank q o f h => hmeets rank f ⟨q, o, h⟩, fun _ => ⟨v, rfl⟩⟩, ?_⟩
    rintro f hf
    cases hf
  | error f =>
    rw [hd] at hmeets
    obtain ⟨rank, ⟨q, o, h⟩, hfirst⟩ := hmeets
    refine ⟨⟨?_, fun hnone => absurd h (hnone rank q o f)⟩, ?_⟩
    · rintro ⟨v, hv⟩
      cases hv
    · rintro f' hf
      cases hf
      refine ⟨rank, q, o, h, h.follow, fun rank' q' o' f' h' => ?_, h.heads⟩
      rcases le_iff_lt_or_eq.1 (hfirst rank' f' ⟨q', o', h'⟩) with hlt | rfl
      · exact .inl hlt
      · exact .inr ⟨rfl, h.unique h'⟩

namespace Sample

/-- A call with a member too many, in the first argument too, and with a second argument of no
kind. -/
def faultyCall : Json :=
  .obj [("extra", .null), ("type", .str "Call"), ("func", .str "f"),
    ("args", .arr [.obj [("type", .str "Name"), ("id", .str "x"), ("line", .nat 4)],
      .obj [("type", .str "Nope")]])]

/-- What is wrong with the first argument. -/
def faultyArg : Fault :=
  .malformed (.unknownFields ((Path.root.field "args").item 0) .name ["line"])

/-- The call is refused for its first argument, whose members are looked at before the second
argument and before the other members of the call. -/
theorem refused_faultyCall :
    Value.ofJson faultyCall = .error faultyArg ∧
    faultyCall.FaultAt [2, 1, 0] ((Path.root.field "args").item 1) (.obj [("type", .str "Nope")])
      (.malformed (.unknownType ((Path.root.field "args").item 1) (.str "Nope"))) ∧
    ∃ rank q o, faultyCall.FaultAt rank q o faultyArg ∧ faultyCall.follow q = some o ∧
      rank < [2, 1, 0] := by
  have hrefused : Value.ofJson faultyCall = .error faultyArg := by with_unfolding_all rfl
  have hsecond :
      faultyCall.FaultAt [2, 1, 0] ((Path.root.field "args").item 1) (.obj [("type", .str "Nope")])
      (.malformed (.unknownType ((Path.root.field "args").item 1) (.str "Nope"))) := by
    refine .inside (.field (k := .call) (i := 1) rfl rfl rfl
      (.item (i := 1) rfl (.check (.unknown rfl ?_))))
    intro k
    cases k <;> decide
  obtain ⟨rank, q, o, h, hfollow, hfirst, -⟩ :=
    (Value.refused_for_first_fault faultyCall).2 _ hrefused
  refine ⟨hrefused, hsecond, rank, q, o, h, hfollow, ?_⟩
  rcases hfirst _ _ _ _ hsecond with hlt | ⟨-, -, -, heq⟩
  · exact hlt
  · cases heq

end Sample

end LastUse
