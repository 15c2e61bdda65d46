import LastUse.Sweep

/-!
# What a sweep ends with

The candidates and the frozen sites of a sweep access the binding and, unless they belong to a
`return`, do not repeat (`sweepAll_lasts`).
-/

namespace LastUse

/-- The arms of a branch are swept one by one. -/
theorem sweepArms_eq_map (gr : Ground) (arms : List (List Region)) (candidate : Option Nat) :
    sweepArms gr arms candidate = arms.map fun arm => sweepAll gr arm candidate := by
  induction arms with
  | nil => rfl
  | cons arm rest ih => rw [sweepArms, ih, List.map_cons]

/-- A site whose access may be the last one. -/
def Ground.Lasts (gr : Ground) (o : Nat) : Prop :=
  (gr.access o).accesses = true ∧ ((gr.access o).inReturn = true ∨ gr.repeats o = false)

/-- All sites that a sweep ends with may be the last to access the binding. -/
structure Sweep.Lasts (gr : Ground) (s : Sweep) : Prop where
  candidate : ∀ c ∈ s.candidate, gr.Lasts c
  frozen : ∀ c ∈ s.frozen, gr.Lasts c

namespace Sweep.Lasts

variable {gr : Ground} {candidate : Option Nat}

/-- A sweep over nothing ends with what it began with. -/
theorem still (hc : ∀ c ∈ candidate, gr.Lasts c) : (Sweep.still candidate).Lasts gr :=
  ⟨hc, by simp [Sweep.still]⟩

/-- A site is a candidate only if its access may be the last one. -/
theorem site (o : Nat) (hc : ∀ c ∈ candidate, gr.Lasts c) :
    (Sweep.site gr o candidate).Lasts gr := by
  rw [Sweep.site]
  split
  · exact .still hc
  · next ha =>
    have ha : (gr.access o).accesses = true := by simpa using ha
    split
    · next hr => exact ⟨by simpa using ⟨ha, .inl hr⟩, by simp⟩
    · split
      · exact ⟨by simp, by simp⟩
      · next hr => exact ⟨by simpa using ⟨ha, .inr (by simpa using hr)⟩, by simp⟩

/-- What a `return` freezes was a candidate. -/
theorem leave (stmt : Path) (hc : ∀ c ∈ candidate, gr.Lasts c) :
    (Sweep.leave gr stmt candidate).Lasts gr := by
  unfold Sweep.leave
  split
  · split
    · exact ⟨by simp, by simpa using hc⟩
    · exact .still hc
  · exact .still hc

/-- Two sweeps, one after the other, end with what the second leaves and what both froze. -/
theorem andThen {a b : Sweep} (ha : a.Lasts gr) (hb : b.Lasts gr) : (a.andThen b).Lasts gr where
  candidate := hb.candidate
  frozen c hm := (List.mem_append.1 hm).elim (ha.frozen c) (hb.frozen c)

/-- The candidate behind a branch is that of an arm or the one before it. -/
theorem ofArms {arms : List Sweep} (hc : ∀ c ∈ candidate, gr.Lasts c)
    (ha : ∀ arm ∈ arms, arm.Lasts gr) : (Sweep.ofArms candidate arms).Lasts gr where
  candidate c hm := by
    simp only [Sweep.ofArms, survivor] at hm
    split at hm
    · split at hm
      · next arm hf =>
        have hin : arm ∈ arms.filter (·.accessed) := by simp [hf]
        exact (ha arm (List.mem_filter.1 hin).1).candidate c hm
      · simp at hm
    · exact hc c hm
  frozen c hm := by
    obtain ⟨arm, hin, hm⟩ := List.mem_flatMap.1 hm
    exact (ha arm hin).frozen c hm

end Sweep.Lasts

mutual

/-- The sites that a sweep over a region ends with may be the last to access the binding. -/
theorem Region.sweep_lasts (gr : Ground) : ∀ (r : Region) {candidate : Option Nat},
    (∀ c ∈ candidate, gr.Lasts c) → (r.sweep gr candidate).Lasts gr
  | .site o, _, hc => by
    rw [Region.sweep]
    exact .site o hc
  | .branch _ arms, candidate, hc => by
    rw [Region.sweep]
    exact .ofArms hc (sweepArms_lasts gr arms hc)
  | .loop _ body, _, hc => by
    rw [Region.sweep]
    exact sweepAll_lasts gr body hc
  | .ret stmt, _, hc => by
    rw [Region.sweep]
    exact .leave stmt hc

/-- The sites that a sweep ends with may be the last to access the binding. -/
theorem sweepAll_lasts (gr : Ground) : ∀ (rs : List Region) {candidate : Option Nat},
    (∀ c ∈ candidate, gr.Lasts c) → (sweepAll gr rs candidate).Lasts gr
  | [], _, hc => by
    rw [sweepAll]
    exact .still hc
  | r :: rest, _, hc => by
    rw [sweepAll]
    have hr := Region.sweep_lasts gr r hc
    exact hr.andThen (sweepAll_lasts gr rest hr.candidate)

/-- The sites that the sweeps over the arms of a branch end with may be the last to access the
binding. -/
theorem sweepArms_lasts (gr : Ground) : ∀ (arms : List (List Region)) {candidate : Option Nat},
    (∀ c ∈ candidate, gr.Lasts c) → ∀ s ∈ sweepArms gr arms candidate, s.Lasts gr
  | [], _, _, s, hs => by simp [sweepArms] at hs
  | arm :: rest, _, hc, s, hs => by
    rw [sweepArms] at hs
    rcases List.mem_cons.1 hs with rfl | hs
    · exact sweepAll_lasts gr arm hc
    · exact sweepArms_lasts gr rest hc s hs

end

end LastUse
