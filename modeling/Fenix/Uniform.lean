import Mathlib.Tactic.Common

/-- For each `k`, either all of several parties have the property `P k` or none of them has it. -/
def Uniform {ι : Type} (P : ι → Int → Prop) : Prop := ∀ k, (∀ i, P i k) ∨ ∀ i, ¬P i k

theorem uniform_congr {ι : Type} {P Q : ι → Int → Prop} (h : ∀ i k, P i k ↔ Q i k) : Uniform P ↔ Uniform Q := by
  unfold Uniform
  simp only [h]

variable {ι : Type} {replays active : ι → Int → Prop} {next : ι → Int} {stuck : ι → Prop} {least : Int}

/-- Parties that each carry out what they replay from the least next index on, what is active with
them, and everything from their own next index on, do so alike exactly when nothing is missing below
a next index and what is active below the least one is active with all. -/
theorem uniform_iff (hleast : ∃ i, next i = least) (hle : ∀ i, least ≤ next i)
    (hrep : ∀ i k, replays i k → least ≤ k) :
    Uniform (fun i k => replays i k ∨ active i k ∨ next i ≤ k) ↔
      (∀ i k, least ≤ k → k < next i → replays i k ∨ active i k) ∧
      ∀ i k, active i k → k < least → ∀ j, active j k := by
  constructor
  · intro h
    refine ⟨?_, ?_⟩
    · intro i k hk hlt
      rcases h k with hall | hnone
      · rcases hall i with hr | ha | hn
        · exact Or.inl hr
        · exact Or.inr ha
        · omega
      · obtain ⟨j, hj⟩ := hleast
        exact absurd (Or.inr (Or.inr (by omega))) (hnone j)
    · intro i k ha hk j
      rcases h k with hall | hnone
      · rcases hall j with hr | ha' | hn
        · have hge := hrep j k hr
          omega
        · exact ha'
        · have hge := hle j
          omega
      · exact absurd (Or.inr (Or.inl ha)) (hnone i)
  · rintro ⟨hmiss, hact⟩ k
    by_cases hk : least ≤ k
    · refine Or.inl fun i => ?_
      by_cases hn : next i ≤ k
      · exact Or.inr (Or.inr hn)
      · rcases hmiss i k hk (by omega) with hr | ha
        · exact Or.inl hr
        · exact Or.inr (Or.inl ha)
    · by_cases hex : ∃ i, active i k
      · obtain ⟨i, ha⟩ := hex
        exact Or.inl fun j => Or.inr (Or.inl (hact i k ha (by omega) j))
      · refine Or.inr fun i => ?_
        rintro (hr | ha | hn)
        · have hge := hrep i k hr
          omega
        · exact hex ⟨i, ha⟩
        · have hge := hle i
          omega

/-- Parties of which some are stuck once they have replayed do alike exactly when all are stuck and there is
nothing to replay. -/
theorem uniform_stuck_iff (hleast : ∃ i, next i = least) (hfrom : ∀ i k, replays i k → replays i least)
    (hbelow : ∀ i k, replays i k → k < next i) (hs : ∃ i, stuck i) :
    Uniform (fun i k => replays i k ∨ ¬stuck i ∧ (active i k ∨ next i ≤ k)) ↔
      (∀ i, stuck i) ∧ ∀ i, ¬replays i least := by
  obtain ⟨i₀, hi₀⟩ := hs
  constructor
  · intro h
    have hall : ∀ i, stuck i := by
      intro i
      by_contra hno
      have hi := h (max (next i) (next i₀))
      rcases hi with hi | hi
      · rcases hi i₀ with hr | ⟨hn, _⟩
        · have hlt := hbelow i₀ _ hr
          omega
        · exact hn hi₀
      · exact hi i (Or.inr ⟨hno, Or.inr (by omega)⟩)
    refine ⟨hall, fun i hr => ?_⟩
    obtain ⟨j, hj⟩ := hleast
    rcases h least with hi | hi
    · rcases hi j with hrj | ⟨hn, _⟩
      · have hlt := hbelow j _ hrj
        omega
      · exact hn (hall j)
    · exact hi i (Or.inl hr)
  · rintro ⟨hall, hnone⟩ k
    refine Or.inr fun i => ?_
    rintro (hr | ⟨hn, _⟩)
    · exact hnone i (hfrom i k hr)
    · exact hn (hall i)
