import Mathlib.Tactic.Common

/-- The naturals in the blocks `[a, b]`, `[a + s, b + s]` and so on, `n + 1` of them. -/
def InBlocks (a b s n x : Nat) : Prop := ∃ k, k ≤ n ∧ a + k * s ≤ x ∧ x ≤ b + k * s

namespace InBlocks

variable {a b c d s m n k x : Nat}

theorem step_le (h : k < m) : k * s + s ≤ m * s := by
  have hmul := Nat.mul_le_mul_right s (Nat.succ_le_of_lt h)
  rw [Nat.succ_mul] at hmul
  exact hmul

@[simp] theorem zero_iff : InBlocks a b s 0 x ↔ a ≤ x ∧ x ≤ b := by
  constructor
  · rintro ⟨k, hk, h⟩
    rw [Nat.le_zero.mp hk] at h
    omega
  · intro h
    exact ⟨0, Nat.le_refl 0, by omega, by omega⟩

theorem lower (h : InBlocks a b s n x) : a ≤ x := by
  obtain ⟨k, _, hlo, _⟩ := h
  omega

theorem upper (h : InBlocks a b s n x) : x ≤ b + n * s := by
  obtain ⟨k, hk, _, hhi⟩ := h
  have hmul := Nat.mul_le_mul_right s hk
  omega

theorem first (h : a ≤ b) : InBlocks a b s n a := ⟨0, Nat.zero_le n, by omega, by omega⟩

/-- The block that an element is in, if it is in one, is told by division. -/
theorem div_eq (hs : b < a + s) (hlo : a + k * s ≤ x) (hhi : x ≤ b + k * s) : (x - a) / s = k :=
  Nat.div_eq_of_lt_le (by omega) (by rw [Nat.succ_mul]; omega)

/-- In a range of whole periods an element is in a block by its place in the period. -/
theorem iff_mod (hab : a ≤ b) (hs : b < a + s) (hlo : a ≤ x) (hhi : x ≤ b + n * s) :
    InBlocks a b s n x ↔ (x - a) % s ≤ b - a := by
  have hdiv := Nat.div_add_mod' (x - a) s
  constructor
  · rintro ⟨k, _, hlo', hhi'⟩
    rw [div_eq hs hlo' hhi'] at hdiv
    omega
  · intro hmod
    refine ⟨(x - a) / s, ?_, by omega, by omega⟩
    by_contra hlt
    have hstep := step_le (s := s) (Nat.lt_of_not_le hlt)
    omega

/-- The blocks from one on are a row of their own. -/
theorem from_iff (hm : m ≤ n) : InBlocks (a + m * s) (b + m * s) s (n - m) x ↔
    ∃ k, m ≤ k ∧ k ≤ n ∧ a + k * s ≤ x ∧ x ≤ b + k * s := by
  constructor
  · rintro ⟨k, hk, hlo, hhi⟩
    refine ⟨m + k, by omega, by omega, ?_⟩
    rw [Nat.add_mul]
    omega
  · rintro ⟨k, hk, hk', hlo, hhi⟩
    refine ⟨k - m, by omega, ?_⟩
    have hmul : k * s = m * s + (k - m) * s := by rw [← Nat.add_mul, Nat.add_sub_cancel' hk]
    omega

/-- A row of blocks that continues another makes one row with it. -/
theorem append : InBlocks a b s (m + n + 1) x ↔
    InBlocks a b s m x ∨ InBlocks (a + (m + 1) * s) (b + (m + 1) * s) s n x := by
  constructor
  · rintro ⟨k, hk, hlo, hhi⟩
    rcases Nat.lt_or_ge m k with h | h
    · refine Or.inr ⟨k - (m + 1), by omega, ?_⟩
      have hmul : k * s = (m + 1) * s + (k - (m + 1)) * s := by rw [← Nat.add_mul, Nat.add_sub_cancel' h]
      omega
    · exact Or.inl ⟨k, h, hlo, hhi⟩
  · rintro (⟨k, hk, h⟩ | ⟨k, hk, hlo, hhi⟩)
    · exact ⟨k, by omega, h⟩
    · refine ⟨m + 1 + k, by omega, ?_⟩
      rw [Nat.add_mul]
      omega

/-- Blocks that touch are one interval. -/
theorem collapse (hab : a ≤ b) (hs : b + 1 = a + s) : InBlocks a b s n x ↔ a ≤ x ∧ x ≤ b + n * s := by
  constructor
  · exact fun h => ⟨h.lower, h.upper⟩
  · rintro ⟨hlo, hhi⟩
    refine (iff_mod hab (by omega) hlo hhi).mpr ?_
    have hlt := Nat.mod_lt (x - a) (show s > 0 by omega)
    omega

/-- Two rows of blocks that touch pairwise are one row. -/
theorem join (hab : a ≤ b + 1) (hcd : b + 1 ≤ d + 1) : InBlocks a d s n x ↔
    InBlocks a b s n x ∨ InBlocks (b + 1) d s n x := by
  constructor
  · rintro ⟨k, hk, hlo, hhi⟩
    by_cases h : x ≤ b + k * s
    · exact Or.inl ⟨k, hk, hlo, h⟩
    · exact Or.inr ⟨k, hk, by omega, hhi⟩
  · rintro (⟨k, hk, hlo, hhi⟩ | ⟨k, hk, hlo, hhi⟩)
    · exact ⟨k, hk, hlo, by omega⟩
    · exact ⟨k, hk, by omega, hhi⟩

/-- Between the first and the last block an element is in a block or in a gap. -/
theorem gap_iff (hab : a ≤ b) (hs : b < a + s) (hlo : a ≤ x) (hhi : x ≤ b + (n + 1) * s) :
    InBlocks (b + 1) (a + s - 1) s n x ↔ ¬InBlocks a b s (n + 1) x := by
  rw [iff_mod hab hs hlo hhi]
  have hdiv := Nat.div_add_mod' (x - a) s
  have hlt := Nat.mod_lt (x - a) (show s > 0 by omega)
  constructor
  · rintro ⟨k, _, hlo', hhi'⟩
    have hk : (x - a) / s = k := Nat.div_eq_of_lt_le (by omega) (by rw [Nat.succ_mul]; omega)
    rw [hk] at hdiv
    omega
  · intro hmod
    refine ⟨(x - a) / s, ?_, by omega, by omega⟩
    by_contra hlarge
    have hstep := step_le (s := s) (Nat.lt_of_not_le hlarge)
    rw [Nat.succ_mul] at hhi
    omega

/-- Within a period the quotient grows by one at most. -/
theorem div_or_succ {o : Nat} (hc : c ≤ o) (hlo : o ≤ x) (hhi : x < o + s) :
    (x - c) / s = (o - c) / s ∨ (x - c) / s = (o - c) / s + 1 := by
  have hmono : (o - c) / s ≤ (x - c) / s := Nat.div_le_div_right (by omega)
  have hmono' : (x - c) / s ≤ (o - c + s) / s := Nat.div_le_div_right (by omega)
  rw [Nat.add_div_right _ (by omega)] at hmono'
  omega

/-- An element may be moved back by whole periods, up to the first block. -/
theorem move_back (hab : a ≤ b) (hs : b < a + s) (h : InBlocks a b s n x) (hlo : a ≤ x - k * s) (hk : k * s ≤ x) :
    InBlocks a b s n (x - k * s) := by
  have hup := h.upper
  have hmod := (iff_mod hab hs h.lower hup).mp h
  refine (iff_mod hab hs hlo (by omega)).mpr ?_
  have hsub : x - a = x - k * s - a + k * s := by omega
  rwa [hsub, Nat.add_mul_mod_self_right] at hmod

end InBlocks
