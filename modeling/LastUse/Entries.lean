/-!
# Entries by keys

A list of keys with values in which each key stands once, in the order in which the keys came in.
-/

namespace LastUse

/-- The entries with the value of a key changed: an old key keeps its place, a new one comes
last. -/
def alterEntry {κ β : Type} [DecidableEq κ] (key : κ) (change : Option β → β) :
    List (κ × β) → List (κ × β)
  | [] => [(key, change none)]
  | (k, value) :: rest =>
    if k = key then (k, change (some value)) :: rest
    else (k, value) :: alterEntry key change rest

/-- The entries with the value of a key set. -/
def setEntry {κ β : Type} [DecidableEq κ] (key : κ) (value : β) : List (κ × β) → List (κ × β) :=
  alterEntry key fun _ => value

section

variable {κ β : Type} [DecidableEq κ] {key k : κ} {change : Option β → β} {entries : List (κ × β)}

/-- The keys stay as they are, but for a new one behind them. -/
theorem map_fst_alterEntry : (alterEntry key change entries).map (·.1)
    = if key ∈ entries.map (·.1) then entries.map (·.1) else entries.map (·.1) ++ [key] := by
  induction entries with
  | nil => simp [alterEntry]
  | cons e rest ih =>
    by_cases he : e.1 = key
    · simp [alterEntry, he]
    · have hne : key ≠ e.1 := Ne.symm he
      simp only [alterEntry, if_neg he, List.map_cons, ih, List.mem_cons, hne, false_or]
      split <;> rfl

/-- Only the value of the one key is another. -/
theorem lookup_alterEntry : (alterEntry key change entries).lookup k
    = if k = key then some (change (entries.lookup key)) else entries.lookup k := by
  induction entries with
  | nil => by_cases hk : k = key <;> simp [alterEntry, hk]
  | cons e rest ih =>
    obtain ⟨k', value⟩ := e
    by_cases he : k' = key
    · subst he
      by_cases hk : k = k'
      · simp [alterEntry, hk]
      · simp [alterEntry, List.lookup_cons, beq_false_of_ne hk, hk]
    · have hne : key ≠ k' := Ne.symm he
      rw [alterEntry, if_neg he, List.lookup_cons, List.lookup_cons, List.lookup_cons, ih,
        beq_false_of_ne hne]
      by_cases hk : k = k'
      · simp [hk, he]
      · simp [beq_false_of_ne hk]

/-- What holds of all entries holds of the changed ones, if the change keeps it. -/
theorem forall_mem_alterEntry {P : κ × β → Prop} (h : ∀ e ∈ entries, P e)
    (hchange : ∀ value, (∀ old ∈ value, P (key, old)) → P (key, change value)) :
    ∀ e ∈ alterEntry key change entries, P e := by
  induction entries with
  | nil =>
    have hnew : P (key, change none) := hchange none (by simp)
    simpa [alterEntry] using hnew
  | cons e rest ih =>
    rw [List.forall_mem_cons] at h
    by_cases he : e.1 = key
    · have hold : P (key, e.2) := he ▸ h.1
      have hnew : P (key, change (some e.2)) := hchange (some e.2) (by simpa using hold)
      rw [alterEntry, if_pos he, he]
      exact List.forall_mem_cons.2 ⟨hnew, h.2⟩
    · rw [alterEntry, if_neg he]
      exact List.forall_mem_cons.2 ⟨h.1, ih h.2⟩

/-- Where each of some keys has its value, one of them gets another or a new one comes last. -/
theorem alterEntry_map {keys : List κ} (hn : keys.Nodup) {value : κ → β} :
    alterEntry key change (keys.map fun k => (k, value k))
      = if key ∈ keys then
          keys.map fun k => (k, if k = key then change (some (value key)) else value k)
        else keys.map (fun k => (k, value k)) ++ [(key, change none)] := by
  induction keys with
  | nil => simp [alterEntry]
  | cons k rest ih =>
    obtain ⟨hk, hrest⟩ := List.nodup_cons.1 hn
    by_cases he : k = key
    · subst he
      have hsame : ∀ k' ∈ rest, (k', value k')
          = (k', if k' = k then change (some (value k)) else value k') := by
        intro k' hk'
        have hne : k' ≠ k := fun h => hk (h ▸ hk')
        rw [if_neg hne]
      simpa [alterEntry] using hsame
    · have hne : key ≠ k := Ne.symm he
      rw [List.map_cons, alterEntry, if_neg he, ih hrest]
      by_cases hm : key ∈ rest <;> simp [hm, he, hne]

end

end LastUse
