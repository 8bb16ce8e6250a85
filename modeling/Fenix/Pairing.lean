import Mathlib.Algebra.Order.Group.Int
import Mathlib.Data.Int.DivMod

namespace Pairing

/-- The place that a place is paired with, `d` further on in the first half of a block of `2 * d` places and `d` back in
the second. -/
def partner (d e : Int) : Int := if e / d % 2 = 0 then e + d else e - d

variable {d e k : Int}

theorem partner_forward (h : e / d % 2 = 0) : partner d e = e + d := if_pos h

theorem partner_back (h : ¬e / d % 2 = 0) : partner d e = e - d := if_neg h

theorem partner_ne (hd : 0 < d) : partner d e ≠ e := by
  unfold partner
  split <;> omega

theorem forward_div (hd : 0 < d) : (e + d) / d = e / d + 1 := by
  rw [Int.add_ediv_of_dvd_right (Int.dvd_refl d), Int.ediv_self (by omega)]

theorem back_div (hd : 0 < d) : (e - d) / d = e / d - 1 := by
  have h := forward_div (e := e - d) hd
  rw [Int.sub_add_cancel] at h
  omega

theorem partner_partner (hd : 0 < d) : partner d (partner d e) = e := by
  by_cases h : e / d % 2 = 0
  · have hodd : ¬(e + d) / d % 2 = 0 := by
      rw [forward_div hd]
      omega
    rw [partner_forward h, partner_back hodd]
    omega
  · have heven : (e - d) / d % 2 = 0 := by
      rw [back_div hd]
      omega
    rw [partner_back h, partner_forward heven]
    omega

theorem partner_nonneg (hd : 0 < d) (he : 0 ≤ e) : 0 ≤ partner d e := by
  by_cases h : e / d % 2 = 0
  · rw [partner_forward h]
    omega
  · rw [partner_back h]
    have hpos : 1 ≤ e / d := by
      have := Int.ediv_nonneg he hd.le
      omega
    have := (Int.le_ediv_iff_mul_le hd).mp hpos
    omega

/-- A whole number of blocks has the partners of its places. -/
theorem partner_lt (hd : 0 < d) (he : e < k * d * 2) : partner d e < k * d * 2 := by
  have hswap : k * d * 2 = k * 2 * d := Int.mul_right_comm k d 2
  by_cases h : e / d % 2 = 0
  · rw [partner_forward h]
    have hlt : e / d < k * 2 := (Int.ediv_lt_iff_lt_mul hd).mpr (hswap ▸ he)
    have hnext : (e + d) / d < k * 2 := by
      rw [forward_div hd]
      omega
    rw [hswap]
    exact (Int.ediv_lt_iff_lt_mul hd).mp hnext
  · rw [partner_back h]
    omega

/-- The first of the `s` places, `d` apart, that a place is one of. -/
def base (d s e : Int) : Int := e - d * (e / d % s)

theorem base_nonneg {s : Int} (hd : 0 < d) (hs : 0 < s) (he : 0 ≤ e) : 0 ≤ base d s e := by
  have hquot := Int.ediv_nonneg (Int.ediv_nonneg he hd.le) hs.le
  have hdigit : e / d % s ≤ e / d := by
    have := Int.emod_add_mul_ediv (e / d) s
    have := Int.mul_nonneg hs.le hquot
    omega
  have hle : d * (e / d % s) ≤ d * (e / d) := Int.mul_le_mul_of_nonneg_left hdigit hd.le
  have := Int.mul_ediv_self_le (x := e) (k := d) hd.ne'
  unfold base
  omega

theorem base_add_div {s i : Int} (hd : 0 < d) : (base d s e + d * i) / d = s * (e / d / s) + i := by
  have hshift : base d s e + d * i = e + d * (i - e / d % s) := by
    unfold base
    rw [Int.mul_sub]
    omega
  rw [hshift, Int.add_mul_ediv_left _ _ hd.ne']
  have := Int.emod_add_mul_ediv (e / d) s
  omega

theorem base_base {s i : Int} (hd : 0 < d) (h0 : 0 ≤ i) (hi : i < s) : base d s (base d s e + d * i) = base d s e := by
  have hdigit : (base d s e + d * i) / d % s = i := by
    rw [base_add_div hd, Int.add_comm, Int.add_mul_emod_self_left, Int.emod_eq_of_lt h0 hi]
  unfold base at hdigit ⊢
  rw [hdigit]
  omega

theorem base_add_digit {s : Int} : base d s e + d * (e / d % s) = e := Int.sub_add_cancel _ _

theorem base_add_lt {s i m : Int} (hd : 0 < d) (hs : 0 < s) (he : e < d * s * m) (hi : i < s) :
    base d s e + d * i < d * s * m := by
  have hquot : e / d / s < m := by
    refine (Int.ediv_lt_iff_lt_mul hs).mpr ((Int.ediv_lt_iff_lt_mul hd).mpr ?_)
    rwa [Int.mul_comm m s, Int.mul_comm (s * m) d, ← Int.mul_assoc]
  have hblock : s * (e / d / s) + s ≤ s * m := by
    have hmul := Int.mul_le_mul_of_nonneg_left hquot hs.le
    rw [Int.mul_add, Int.mul_one] at hmul
    exact hmul
  have hdiv : (base d s e + d * i) / d < s * m := by
    rw [base_add_div hd]
    omega
  rw [Int.mul_assoc, Int.mul_comm d (s * m)]
  exact (Int.ediv_lt_iff_lt_mul hd).mp hdiv

/-- Sets that their elements agree on are pairwise disjoint and cover what they are drawn from. -/
theorem existsUnique_class {α β : Type} [Membership α β] {P : α → Prop} {c : α → β} (self : ∀ r, P r → r ∈ c r)
    (agree : ∀ r q, P r → q ∈ c r → P q ∧ c q = c r) {q : α} (hq : P q) :
    ∃! b, (∃ r, P r ∧ c r = b) ∧ q ∈ b := by
  refine ⟨c q, ⟨⟨q, hq, rfl⟩, self q hq⟩, fun b hb => ?_⟩
  obtain ⟨⟨r, hr, rfl⟩, hmem⟩ := hb
  exact (agree r q hr hmem).2.symm

end Pairing
