import Fenix.Fallible

/-- Parties that act in any order: which actions are possible in a state, and what comes of one. -/
structure Schedule (σ α ε : Type) where
  Enabled : σ → α → Prop
  act : σ → α → Except ε σ

namespace Schedule

variable {σ α ε : Type} (S : Schedule σ α ε) [∀ s a, Decidable (S.Enabled s a)]

/-- An action that is not possible changes nothing. -/
def step (s : σ) (a : α) : Except ε σ := if S.Enabled s a then S.act s a else .ok s

def run (s : σ) (as : List α) : Except ε σ := as.foldlM S.step s

/-- In whatever order the actions come, none fails, and the end can be reached from where they lead. -/
def Completes (Done : σ → Prop) (s : σ) : Prop :=
  ∀ as, ∃ t, S.run s as = .ok t ∧ ∃ bs u, S.run t bs = .ok u ∧ Done u

variable {S} {s t u : σ} {a : α} {as bs : List α} {Done : σ → Prop}

theorem step_enabled (h : S.Enabled s a) : S.step s a = S.act s a := if_pos h

theorem step_cases (h : S.step s a = .ok t) : S.Enabled s a ∧ S.act s a = .ok t ∨ ¬S.Enabled s a ∧ t = s := by
  unfold step at h
  split at h
  next he => exact Or.inl ⟨he, h⟩
  next he => exact Or.inr ⟨he, (Except.ok.inj h).symm⟩

theorem run_cons_ok_iff : S.run s (a :: as) = .ok u ↔ ∃ t, S.step s a = .ok t ∧ S.run t as = .ok u := by
  unfold run
  rw [List.foldlM_cons]
  exact Except.bind_eq_ok_iff

theorem run_append_ok_iff : S.run s (as ++ bs) = .ok u ↔ ∃ t, S.run s as = .ok t ∧ S.run t bs = .ok u := by
  unfold run
  rw [List.foldlM_append]
  exact Except.bind_eq_ok_iff

theorem run_single (h : S.step s a = .ok t) : S.run s [a] = .ok t := run_cons_ok_iff.mpr ⟨t, h, rfl⟩

/-- What every action keeps holds after any of them. -/
theorem run_invariant {I : σ → Prop} (hact : ∀ s a t, I s → S.Enabled s a → S.act s a = .ok t → I t) (hs : I s)
    (h : S.run s as = .ok t) : I t := by
  induction as generalizing s with
  | nil =>
    cases Except.ok.inj h
    exact hs
  | cons a as ih =>
    obtain ⟨m, hm, hrest⟩ := run_cons_ok_iff.mp h
    rcases step_cases hm with ⟨he, ha⟩ | ⟨_, heq⟩
    · exact ih (hact s a m hs he ha) hrest
    · exact ih (heq ▸ hs) hrest

theorem Completes.run (h : S.Completes Done s) (hr : S.run s as = .ok t) : S.Completes Done t := by
  intro bs
  obtain ⟨u, hu, hend⟩ := h (as ++ bs)
  obtain ⟨m, hm, hmu⟩ := run_append_ok_iff.mp hu
  cases Except.ok.inj (hr.symm.trans hm)
  exact ⟨u, hmu, hend⟩

theorem Completes.step (h : S.Completes Done s) (a : α) : ∃ t, S.step s a = .ok t ∧ S.Completes Done t := by
  obtain ⟨t, ht, _⟩ := h [a]
  obtain ⟨m, hm, hmt⟩ := run_cons_ok_iff.mp ht
  exact ⟨m, hm, h.run (run_single hm)⟩

theorem Completes.act (h : S.Completes Done s) (he : S.Enabled s a) : ∃ t, S.act s a = .ok t ∧ S.Completes Done t := by
  obtain ⟨t, ht, hc⟩ := h.step a
  exact ⟨t, (step_enabled he).symm.trans ht, hc⟩

theorem Completes.exists_done (h : S.Completes Done s) : ∃ as t, S.run s as = .ok t ∧ Done t := by
  obtain ⟨t, ht, bs, u, hu, hd⟩ := h []
  cases Except.ok.inj ht
  exact ⟨bs, u, hu, hd⟩

/-- A system completes if no action fails, some action is possible as long as the end is not reached, and
each of them leaves less to be done. -/
theorem completes_of_progress {I : σ → Prop} (m : σ → Nat)
    (hact : ∀ s a, I s → S.Enabled s a → ∃ t, S.act s a = .ok t ∧ I t ∧ m t < m s)
    (hprogress : ∀ s, I s → ¬Done s → ∃ a, S.Enabled s a) (hs : I s) : S.Completes Done s := by
  have hend : ∀ k s, I s → m s = k → ∃ bs u, S.run s bs = .ok u ∧ Done u := by
    intro k
    induction k using Nat.strong_induction_on with
    | h k ih =>
      intro s hs hk
      by_cases hd : Done s
      · exact ⟨[], s, rfl, hd⟩
      · obtain ⟨a, he⟩ := hprogress s hs hd
        obtain ⟨t, ht, hti, hlt⟩ := hact s a hs he
        obtain ⟨bs, u, hu, hdone⟩ := ih (m t) (by omega) t hti rfl
        exact ⟨a :: bs, u, run_cons_ok_iff.mpr ⟨t, (step_enabled he).trans ht, hu⟩, hdone⟩
  intro as
  induction as generalizing s with
  | nil => exact ⟨s, rfl, hend _ s hs rfl⟩
  | cons a as ih =>
    by_cases he : S.Enabled s a
    · obtain ⟨t, ht, hti, _⟩ := hact s a hs he
      obtain ⟨u, hu, hdone⟩ := ih hti
      exact ⟨u, run_cons_ok_iff.mpr ⟨t, (step_enabled he).trans ht, hu⟩, hdone⟩
    · obtain ⟨u, hu, hdone⟩ := ih hs
      exact ⟨u, run_cons_ok_iff.mpr ⟨s, if_neg he, hu⟩, hdone⟩

end Schedule
