import LastUse.Proofs.Tree.Loading
import Mathlib.Algebra.Ring.Nat

/-!
# What is read can be spelled

A whole number of more than `digitLimit` digits has no spelling. The reader refuses texts that hold
one, so all scalars of a document that is read can be spelled (`Json.spellable_of_read`), and so
can those of the tree that is loaded from it (`Value.spellable_of_ofText`).
-/

namespace LastUse

/-! ## Numbers -/

namespace Json

/-- A digit adds less than ten. -/
theorem digit_lt {c : Char} (h : c.isDigit = true) : c.toNat - '0'.toNat < 10 := by
  simp only [Char.isDigit, Bool.and_eq_true, decide_eq_true_eq] at h
  have hhigh : c.toNat ≤ 57 := UInt32.le_iff_toNat_le.1 h.2
  have hzero : '0'.toNat = 48 := rfl
  omega

/-- Digits behind a number make it greater by as many places. -/
theorem foldl_digits_lt {digits : List Char} (h : ∀ c ∈ digits, c.isDigit = true) (n : Nat) :
    digits.foldl (fun n c => n * 10 + (c.toNat - '0'.toNat)) n < (n + 1) * 10 ^ digits.length := by
  induction digits generalizing n with
  | nil => simp
  | cons c rest ih =>
    rw [List.forall_mem_cons] at h
    have hc := digit_lt h.1
    have hstep : n * 10 + (c.toNat - '0'.toNat) + 1 ≤ (n + 1) * 10 := by omega
    refine Nat.lt_of_lt_of_le (ih h.2 _) ?_
    rw [List.length_cons, Nat.pow_succ', ← Nat.mul_assoc]
    exact Nat.mul_le_mul_right _ hstep

/-- The whole part of a number has digits only, and one at least. -/
theorem isDigit_of_wholePart {text whole : List Char} (h : wholePart? text = some whole) :
    whole ≠ [] ∧ ∀ c ∈ whole, c.isDigit = true := by
  unfold wholePart? at h
  split at h
  · cases h
    exact ⟨List.cons_ne_nil _ _, fun c hc => List.mem_singleton.1 hc ▸ rfl⟩
  · split at h
    · cases h
    · next hne =>
      cases h
      exact ⟨hne, List.all_eq_true.1 List.all_takeWhile⟩

/-- The whole part of a number has at least as many digits as the number it writes. -/
theorem length_toDigits_digitsValue {text whole : List Char} (h : wholePart? text = some whole) :
    (Nat.toDigits 10 (digitsValue whole)).length ≤ whole.length := by
  obtain ⟨hne, hdigits⟩ := isDigit_of_wholePart h
  have hlt : digitsValue whole < 10 ^ whole.length := by
    simpa [digitsValue] using foldl_digits_lt hdigits 0
  exact (Nat.length_toDigits_le_iff (by decide) (List.length_pos_iff.2 hne)).2 hlt

/-- A number that is read can be spelled. -/
theorem spellable_of_readNumber {i j : Input} {s : Scalar} (h : readNumber i = .ok (s, j)) :
    s.spellable = true := by
  unfold readNumber at h
  extract_lets negative unsigned at h
  split at h
  · cases h
  · next whole hwhole =>
    extract_lets behind fraction behindFraction exponent rest value at h
    split at h
    · split at h
      · cases h
      · next hlimit =>
        rw [Except.ok.injEq, Prod.mk.injEq] at h
        have habs : (if negative then -value else value).natAbs = digitsValue whole := by
          split <;> simp [value]
        simpa [← h.1, Scalar.spellable, habs] using
          Nat.le_trans (length_toDigits_digitsValue hwhole) (Nat.not_lt.1 hlimit)
    · rw [Except.ok.injEq, Prod.mk.injEq] at h
      rw [← h.1]
      rfl

/-- A word or a number that is read can be spelled. -/
theorem spellable_of_readWord {i j : Input} {s : Scalar} (h : readWord i = .ok (s, j)) :
    s.spellable = true := by
  unfold readWord at h
  split at h
  · next w s' hfind =>
    rw [Except.ok.injEq, Prod.mk.injEq] at h
    have hwords : ∀ w ∈ words, w.2.spellable = true := by decide
    exact h.1 ▸ hwords _ (List.mem_of_find?_eq_some hfind)
  · exact spellable_of_readNumber h

/-! ## Documents -/

/-- All scalars of a document can be spelled. -/
inductive Spellable : Json → Prop
  | scalar {s : Scalar} : s.spellable = true → Spellable (.scalar s)
  | arr {items : List Json} : (∀ j ∈ items, Spellable j) → Spellable (.arr items)
  | obj {members : List (String × Json)} : (∀ m ∈ members, Spellable m.2) →
      Spellable (.obj members)

/-- What the three readers of documents read within some rounds can be spelled, if what they took
before can be. -/
structure ReadsSpellable (rounds : Nat) : Prop where
  document {i j : Input} {d : Json} : readDocument rounds i = .ok (d, j) → d.Spellable
  items {i j : Input} {taken : List Json} {d : Json} : (∀ x ∈ taken, x.Spellable) →
    readItems rounds i taken = .ok (d, j) → d.Spellable
  members {i j : Input} {taken : List (String × Json)} {d : Json} :
    (∀ m ∈ taken, m.2.Spellable) → readMembers rounds i taken = .ok (d, j) → d.Spellable

namespace ReadsSpellable

variable {rounds : Nat} {i j : Input} {d : Json}

/-- A document is read in one round more. -/
theorem document_succ (hr : ReadsSpellable rounds)
    (h : readDocument (rounds + 1) i = .ok (d, j)) : d.Spellable := by
  unfold readDocument at h
  split at h
  · obtain ⟨⟨text, i⟩, -, h⟩ := ok_of_bind h
    cases h
    exact .scalar rfl
  · extract_lets inner at h
    split at h
    · cases h
      exact .obj (by simp)
    · exact hr.members (by simp) h
  · extract_lets inner at h
    split at h
    · cases h
      exact .arr (by simp)
    · exact hr.items (by simp) h
  · obtain ⟨⟨s, i⟩, hs, h⟩ := ok_of_bind h
    cases h
    exact .scalar (spellable_of_readWord hs)

/-- One more item of an array is read, and then the rest. -/
theorem items_succ (hr : ReadsSpellable rounds) {taken : List Json}
    (htaken : ∀ x ∈ taken, x.Spellable) (h : readItems (rounds + 1) i taken = .ok (d, j)) :
    d.Spellable := by
  unfold readItems at h
  obtain ⟨⟨item, i⟩, hitem, h⟩ := ok_of_bind h
  have hall := List.forall_mem_cons.2 ⟨hr.document hitem, htaken⟩
  dsimp only at h
  split at h
  · cases h
    exact .arr fun x hx => hall x (List.mem_reverse.1 hx)
  · exact hr.items hall h
  · cases h

/-- One more member of an object is read, and then the rest. -/
theorem members_succ (hr : ReadsSpellable rounds) {taken : List (String × Json)}
    (htaken : ∀ m ∈ taken, m.2.Spellable) (h : readMembers (rounds + 1) i taken = .ok (d, j)) :
    d.Spellable := by
  unfold readMembers at h
  split at h
  · obtain ⟨⟨key, i⟩, -, h⟩ := ok_of_bind h
    dsimp only at h
    split at h
    · cases h
    · obtain ⟨⟨value, i⟩, hvalue, h⟩ := ok_of_bind h
      dsimp only at h
      have hall : ∀ m ∈ setEntry key value taken, m.2.Spellable :=
        forall_mem_alterEntry htaken fun _ _ => hr.document hvalue
      split at h
      · cases h
        exact .obj hall
      · exact hr.members hall h
      · cases h
  · cases h

end ReadsSpellable

/-- However many rounds there are, what is read can be spelled. -/
theorem readsSpellable (rounds : Nat) : ReadsSpellable rounds := by
  induction rounds with
  | zero =>
    refine ⟨fun h => ?_, fun _ h => ?_, fun _ h => ?_⟩
    · rw [readDocument] at h
      cases h
    · rw [readItems] at h
      cases h
    · rw [readMembers] at h
      cases h
  | succ rounds ih => exact ⟨ih.document_succ, ih.items_succ, ih.members_succ⟩

/-- A document that is read from a text can be spelled. -/
theorem spellable_of_read {text : List Char} {d : Json} (h : read text = .ok d) : d.Spellable := by
  unfold read at h
  split at h
  · cases h
  · obtain ⟨⟨j, i⟩, hread, h⟩ := ok_of_bind h
    dsimp only at h
    split at h
    · cases h
      exact (readsSpellable _).document hread
    · cases h

end Json

/-! ## Trees -/

namespace Value

mutual

/-- Whether all scalars of a value can be spelled. -/
def spellable : Value → Bool
  | .scalar s => s.spellable
  | .list items => allSpellable items
  | .node _ fields => allSpellable fields

/-- Whether all scalars of several values can be spelled. -/
def allSpellable : List Value → Bool
  | [] => true
  | v :: rest => v.spellable && allSpellable rest

end

/-- Several values can be spelled if each of them can be. -/
theorem allSpellable_iff {vs : List Value} :
    allSpellable vs = true ↔ ∀ v ∈ vs, v.spellable = true := by
  induction vs with
  | nil => simp [allSpellable]
  | cons v rest ih => rw [allSpellable, Bool.and_eq_true, ih, List.forall_mem_cons]

/-- The defaults can be spelled. -/
theorem spellable_default (k : Kind) : ∀ f ∈ k.fields, f.default.all spellable = true := by
  cases k <;> decide

/-- What is loaded from a document that can be spelled can be spelled. -/
theorem spellable_of_load {p : Path} {j : Json} {v : Value} (hj : j.Spellable)
    (h : load p j = .ok v) : v.spellable = true := by
  induction hj generalizing p v with
  | scalar hs =>
    rw [load] at h
    cases h
    rw [spellable, hs]
  | arr _ ih =>
    rw [load] at h
    obtain ⟨vs, hvs, h⟩ := ok_of_bind h
    cases h
    rw [spellable, allSpellable_iff]
    intro v hv
    obtain ⟨j, hj, q, hq⟩ := exists_left (loadItems_eq_ok hvs) hv
    exact ih j hj hq
  | obj _ ih =>
    obtain ⟨k, fields, rfl, -, -, hf⟩ := load_obj.1 h
    rw [spellable, allSpellable_iff]
    intro v hv
    obtain ⟨f, hmem, ⟨j, hj, hload⟩ | ⟨-, hd⟩⟩ := exists_left hf hv
    · exact ih _ (mem_of_lookup hj) hload
    · simpa [hd] using spellable_default k f hmem

/-- A tree that is read from a text can be spelled: no whole number in it has more than
`digitLimit` digits. -/
theorem spellable_of_ofText {text : String} {v : Value} (h : ofText text = .ok v) :
    v.spellable = true := by
  unfold ofText at h
  split at h
  · next j hread =>
    obtain ⟨w, hw, h⟩ := ok_of_bind h
    have hspell : w.spellable = true := by
      unfold ofJson at hw
      split at hw
      · exact spellable_of_load (Json.spellable_of_read hread) hw
      · cases hw
    split at h
    · cases h
      exact hspell
    · cases h
    · cases h
  · cases h
  · cases h

end Value

end LastUse
