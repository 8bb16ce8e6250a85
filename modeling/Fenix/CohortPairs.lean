import Fenix.Cohort
import Fenix.Pairing

namespace Fenix
namespace PairLayout

variable {l : PairLayout} {p : CohortPolicy} {size sep full r e : Int}

/-- The layout of a size: `full` ranks of each half are in full groups, the others in the smaller group or among the
three set aside. -/
structure Fits (l : PairLayout) (size sep full : Int) : Prop where
  blocks : ∃ k, 0 ≤ k ∧ full = k * sep
  miniGroupSize_nonneg : 0 ≤ l.miniGroupSize
  odd : l.isOdd = true → size = 2 * full + 2 * l.miniGroupSize + 3 ∧ l.startMiniGroupStart = 1 ∧
    l.midRank = l.startRank + full
  even : l.isOdd = false → size = 2 * full + 2 * l.miniGroupSize ∧ l.startMiniGroupStart = 0
  startRank_eq : l.startRank = l.miniGroupSize + l.startMiniGroupStart
  endMiniGroupStart_eq : l.endMiniGroupStart = size - l.startRank

/-- The position of a rank among those of the full groups. -/
def position (l : PairLayout) (r : Int) : Int :=
  if l.isOdd ∧ l.midRank < r then r - l.startRank - 1 else r - l.startRank

/-- The rank at a position of the full groups. -/
def rankAt (l : PairLayout) (e : Int) : Int :=
  if l.isOdd ∧ l.midRank ≤ l.startRank + e then l.startRank + e + 1 else l.startRank + e

/-- One of the three ranks that an odd size sets aside. -/
def Three (l : PairLayout) (size r : Int) : Prop := l.isOdd = true ∧ (r = 0 ∨ r = l.midRank ∨ r = size - 1)

/-- A rank of the full groups. -/
def Full (l : PairLayout) (r : Int) : Prop :=
  l.startRank ≤ r ∧ r < l.endMiniGroupStart ∧ ¬(l.isOdd = true ∧ r = l.midRank)

instance : Decidable (l.Three size r) := inferInstanceAs (Decidable (_ ∧ _))

instance : Decidable (l.Full r) := inferInstanceAs (Decidable (_ ∧ _))

/-- The rank that a rank not set aside is paired with. -/
def partner (l : PairLayout) (sep r : Int) : Int :=
  if l.Full r then l.rankAt (Pairing.partner sep (l.position r))
  else if r < l.startRank then l.endMiniGroupStart + (r - l.startMiniGroupStart)
  else l.startMiniGroupStart + (r - l.endMiniGroupStart)

theorem Fits.full_nonneg (hl : l.Fits size sep full) (hsep : 0 < sep) : 0 ≤ full := by
  obtain ⟨k, hk, rfl⟩ := hl.blocks
  exact Int.mul_nonneg hk hsep.le

theorem Fits.bounds (hl : l.Fits size sep full) (hsep : 0 < sep) :
    0 ≤ l.startMiniGroupStart ∧ l.startRank ≤ l.endMiniGroupStart := by
  have h₁ := hl.startRank_eq
  have h₂ := hl.endMiniGroupStart_eq
  have h₃ := hl.full_nonneg hsep
  cases hodd : l.isOdd with
  | true =>
    have := hl.odd hodd
    omega
  | false =>
    have := hl.even hodd
    omega

theorem Fits.position_bounds (hl : l.Fits size sep full) (hf : l.Full r) :
    0 ≤ l.position r ∧ l.position r < full * 2 ∧ l.rankAt (l.position r) = r := by
  obtain ⟨hstart, hstop, hmid⟩ := hf
  have h₁ := hl.startRank_eq
  have h₂ := hl.endMiniGroupStart_eq
  unfold position rankAt
  cases hodd : l.isOdd with
  | true =>
    obtain ⟨h₃, h₄, h₅⟩ := hl.odd hodd
    have hne : r ≠ l.midRank := fun h => hmid ⟨hodd, h⟩
    simp only [true_and]
    split_ifs <;> omega
  | false =>
    obtain ⟨h₃, h₄⟩ := hl.even hodd
    simp only [Bool.false_eq_true, false_and, if_false]
    omega

theorem Fits.rankAt_full (hl : l.Fits size sep full) (he : 0 ≤ e) (hlt : e < full * 2) :
    l.Full (l.rankAt e) ∧ l.position (l.rankAt e) = e := by
  have h₁ := hl.startRank_eq
  have h₂ := hl.endMiniGroupStart_eq
  unfold Full position rankAt
  cases hodd : l.isOdd with
  | true =>
    obtain ⟨h₃, h₄, h₅⟩ := hl.odd hodd
    simp only [true_and]
    split_ifs <;> omega
  | false =>
    obtain ⟨h₃, h₄⟩ := hl.even hodd
    simp only [Bool.false_eq_true, false_and, if_false, not_false_iff, and_true]
    omega

/-- What the partner of a rank of the full groups is at. -/
theorem Fits.partner_full (hl : l.Fits size sep full) (hsep : 0 < sep) (hf : l.Full r) :
    l.Full (l.rankAt (Pairing.partner sep (l.position r))) ∧
      l.position (l.rankAt (Pairing.partner sep (l.position r))) = Pairing.partner sep (l.position r) := by
  obtain ⟨hnonneg, hlt, _⟩ := hl.position_bounds hf
  obtain ⟨k, _, hk⟩ := hl.blocks
  refine hl.rankAt_full (Pairing.partner_nonneg hsep hnonneg) ?_
  rw [hk] at hlt ⊢
  exact Pairing.partner_lt hsep hlt

/-- A rank that is neither in the full groups nor set aside is in one of the two halves of the smaller group. -/
theorem Fits.mini (hl : l.Fits size sep full) (hsep : 0 < sep) (h0 : 0 ≤ r) (hr : r < size) (hf : ¬l.Full r)
    (ht : ¬l.Three size r) :
    l.startMiniGroupStart ≤ r ∧ r < l.startRank ∨ l.endMiniGroupStart ≤ r ∧ r < size - l.startMiniGroupStart := by
  have h₁ := hl.startRank_eq
  have h₂ := hl.endMiniGroupStart_eq
  have h₃ := hl.full_nonneg hsep
  unfold Full at hf
  unfold Three at ht
  cases hodd : l.isOdd with
  | true =>
    obtain ⟨h₄, h₅, h₆⟩ := hl.odd hodd
    simp only [hodd, true_and] at hf ht
    omega
  | false =>
    obtain ⟨h₄, h₅⟩ := hl.even hodd
    simp only [hodd, Bool.false_eq_true, false_and, not_false_iff, and_true] at hf
    omega

theorem Fits.not_three_of_full (hl : l.Fits size sep full) (hf : l.Full r) : ¬l.Three size r := by
  rintro ⟨hodd, h⟩
  obtain ⟨hstart, hstop, hmid⟩ := hf
  obtain ⟨h₄, h₅, h₆⟩ := hl.odd hodd
  have h₁ := hl.startRank_eq
  have h₂ := hl.endMiniGroupStart_eq
  have h₃ := hl.miniGroupSize_nonneg
  have hne : r ≠ l.midRank := fun heq => hmid ⟨hodd, heq⟩
  omega

/-- Pairing takes a rank to another one, which it takes back. -/
theorem Fits.partner_spec (hl : l.Fits size sep full) (hsep : 0 < sep) (h0 : 0 ≤ r) (hr : r < size)
    (ht : ¬l.Three size r) : 0 ≤ l.partner sep r ∧ l.partner sep r < size ∧ ¬l.Three size (l.partner sep r) ∧
      l.partner sep r ≠ r ∧ l.partner sep (l.partner sep r) = r := by
  have h₁ := hl.startRank_eq
  have h₂ := hl.endMiniGroupStart_eq
  have h₃ := hl.miniGroupSize_nonneg
  have hbounds := hl.bounds hsep
  by_cases hf : l.Full r
  · have hpartner : l.partner sep r = l.rankAt (Pairing.partner sep (l.position r)) := if_pos hf
    obtain ⟨hfull, hpos⟩ := hl.partner_full hsep hf
    obtain ⟨_, _, hback⟩ := hl.position_bounds hf
    rw [hpartner]
    refine ⟨?_, ?_, hl.not_three_of_full hfull, fun heq => ?_, ?_⟩
    · have := hfull.1
      omega
    · have := hfull.2.1
      omega
    · rw [heq] at hpos
      exact Pairing.partner_ne hsep hpos.symm
    · unfold partner
      rw [if_pos hfull, hpos, Pairing.partner_partner hsep, hback]
  · have hmini := hl.mini hsep h0 hr hf ht
    have hthree : ∀ x, l.startMiniGroupStart ≤ x ∧ x < l.startRank ∨
        l.endMiniGroupStart ≤ x ∧ x < size - l.startMiniGroupStart → ¬l.Full x ∧ ¬l.Three size x := by
      intro x hx
      refine ⟨fun hfull => ?_, fun hthree => ?_⟩
      · have := hfull.1
        have := hfull.2.1
        omega
      · have := hl.odd hthree.1
        have := hthree.2
        omega
    unfold partner
    rw [if_neg hf]
    rcases hmini with ⟨hlow, hhigh⟩ | ⟨hlow, hhigh⟩
    · rw [if_pos hhigh]
      obtain ⟨hnf, hnt⟩ := hthree (l.endMiniGroupStart + (r - l.startMiniGroupStart)) (by omega)
      refine ⟨by omega, by omega, hnt, by omega, ?_⟩
      rw [if_neg hnf, if_neg (by omega)]
      omega
    · rw [if_neg (by omega)]
      obtain ⟨hnf, hnt⟩ := hthree (l.startMiniGroupStart + (r - l.endMiniGroupStart)) (by omega)
      refine ⟨by omega, by omega, hnt, by omega, ?_⟩
      rw [if_neg hnf, if_pos (by omega)]
      omega

end PairLayout

namespace CohortPolicy

open PairLayout

variable {l : PairLayout} {p : CohortPolicy} {size full r : Int}

theorem pairLayout_spec (hsize : 2 ≤ size) (hmax : size ≤ intMax) (hsep : 1 ≤ p.rankSeparation)
    (htwice : p.rankSeparation * 2 ≤ intMax) :
    ∃ l full, p.pairLayout size = .ok l ∧ l.Fits size p.rankSeparation full ∧ (l.isOdd = true ↔ size % 2 = 1) ∧
      l.midRank = size / 2 := by
  obtain ⟨odd, hodd⟩ : ∃ odd, odd = decide (size.tmod 2 ≠ 0) := ⟨_, rfl⟩
  obtain ⟨remaining, hremaining⟩ : ∃ x, x = if odd = true then size - 3 else size := ⟨_, rfl⟩
  have hiff : odd = true ↔ size % 2 = 1 := by
    rw [hodd, decide_eq_true_iff, Int.tmod_eq_emod_of_nonneg (by omega)]
    omega
  have hnonneg : 0 ≤ remaining := by
    rw [hremaining]
    split_ifs with h
    · have := hiff.mp h
      omega
    · omega
  have hquot : remaining.tdiv (p.rankSeparation * 2) = remaining / (p.rankSeparation * 2) :=
    Int.tdiv_eq_ediv_of_nonneg hnonneg
  have hk : 0 ≤ remaining / (p.rankSeparation * 2) := Int.ediv_nonneg hnonneg (by omega)
  have hle : remaining / (p.rankSeparation * 2) * p.rankSeparation * 2 ≤ remaining := by
    rw [Int.mul_assoc]
    exact Int.ediv_mul_le remaining (by omega)
  have hfull := Int.mul_nonneg hk (show 0 ≤ p.rankSeparation by omega)
  have hmini : (remaining - remaining / (p.rankSeparation * 2) * p.rankSeparation * 2).tdiv 2 =
      remaining / 2 - remaining / (p.rankSeparation * 2) * p.rankSeparation := by
    rw [Int.tdiv_eq_ediv_of_nonneg (by omega)]
    omega
  have hmid : size.tdiv 2 = size / 2 := Int.tdiv_eq_ediv_of_nonneg (by omega)
  have hbound : remaining ≤ size := by
    rw [hremaining]
    split_ifs <;> omega
  unfold pairLayout
  dsimp only
  rw [← hodd, ← hremaining, toInt_ok (by unfold intMax; omega) htwice, Except.ok_bind, hquot,
    toInt_ok (by unfold intMax; omega) (by omega), Except.ok_bind, hmini, hmid]
  refine ⟨_, remaining / (p.rankSeparation * 2) * p.rankSeparation, rfl, ?_, hiff, rfl⟩
  refine ⟨⟨_, hk, rfl⟩, by dsimp only; omega, fun h => ?_, fun h => ?_, rfl, by dsimp only; omega⟩
  · dsimp only at h
    have hsize2 := hiff.mp h
    rw [if_pos h] at hremaining
    dsimp only
    rw [if_pos h]
    omega
  · dsimp only at h
    have hsize2 := mt hiff.mpr (ne_true_of_eq_false h)
    rw [if_neg (ne_true_of_eq_false h)] at hremaining
    dsimp only
    rw [if_neg (ne_true_of_eq_false h)]
    omega

theorem fullPartner_spec (hl : l.Fits size p.rankSeparation full) (hmax : size ≤ intMax) (hsep : 0 < p.rankSeparation)
    (hf : l.Full r) : p.fullPartner l r = .ok (l.partner p.rankSeparation r) := by
  obtain ⟨hpos, hposlt, hback⟩ := hl.position_bounds hf
  obtain ⟨hfull, hpartner⟩ := hl.partner_full hsep hf
  have hpair : l.partner p.rankSeparation r = l.rankAt (Pairing.partner p.rankSeparation (l.position r)) := if_pos hf
  have hhalf : ((l.position r).tdiv p.rankSeparation).tmod 2 = l.position r / p.rankSeparation % 2 := by
    rw [Int.tdiv_eq_ediv_of_nonneg hpos, Int.tmod_eq_emod_of_nonneg (Int.ediv_nonneg hpos hsep.le)]
  have h₁ := hl.startRank_eq
  have h₂ := hl.endMiniGroupStart_eq
  have hmid : l.isOdd = true → r ≠ l.midRank := fun hodd heq => hf.2.2 ⟨hodd, heq⟩
  have hstart := hfull.1
  have hstop := hfull.2.1
  have hstartr := hf.1
  have hnonneg := hl.miniGroupSize_nonneg
  have hbounds := hl.bounds hsep
  rw [hpair]
  unfold fullPartner
  change (if ((l.position r).tdiv p.rankSeparation).tmod 2 = 0 then _ else _) = _
  rw [hhalf]
  by_cases h : l.position r / p.rankSeparation % 2 = 0
  · rw [Pairing.partner_forward h] at hstart hstop hpartner ⊢
    have hplace : l.rankAt (l.position r + p.rankSeparation) =
        if l.isOdd ∧ r < l.midRank ∧ l.midRank ≤ r + p.rankSeparation then r + p.rankSeparation + 1
        else r + p.rankSeparation := by
      unfold rankAt position
      cases hodd : l.isOdd with
      | true =>
        have := hmid hodd
        simp only [true_and]
        split_ifs <;> omega
      | false =>
        simp only [Bool.false_eq_true, false_and, if_false]
        omega
    have hle : r + p.rankSeparation ≤ l.rankAt (l.position r + p.rankSeparation) := by
      rw [hplace]
      split_ifs <;> omega
    rw [if_pos h, toInt_ok (by unfold intMax; omega) (by omega), Except.ok_bind, hplace]
    rfl
  · rw [Pairing.partner_back h] at hstart hstop hpartner ⊢
    have hplace : l.rankAt (l.position r - p.rankSeparation) =
        if l.isOdd ∧ l.midRank < r ∧ r - p.rankSeparation ≤ l.midRank then r - p.rankSeparation - 1
        else r - p.rankSeparation := by
      unfold rankAt position
      cases hodd : l.isOdd with
      | true =>
        have := hmid hodd
        simp only [true_and]
        split_ifs <;> omega
      | false =>
        simp only [Bool.false_eq_true, false_and, if_false]
        omega
    have hle : l.rankAt (l.position r - p.rankSeparation) ≤ r - p.rankSeparation := by
      rw [hplace]
      split_ifs <;> omega
    have hr := hf.2.1
    rw [if_neg h, toInt_ok (by unfold intMax; omega) (by omega), Except.ok_bind, hplace]
    rfl

theorem three_sorted {a b c : Int} (hab : a < b) (hbc : b < c) : [a, b, c].Pairwise (· < ·) := by
  simp [hab, hbc, hab.trans hbc]

/-- The cohort of a rank. -/
def cohortOf (l : PairLayout) (sep size r : Int) : OrdSet Int :=
  if l.Three size r then OrdSet.ofList [0, l.midRank, size - 1] else OrdSet.ofList [r, l.partner sep r]

theorem pairCohort_spec (hl : l.Fits size p.rankSeparation full) (hmax : size ≤ intMax) (hsep : 0 < p.rankSeparation)
    (h0 : 0 ≤ r) (hr : r < size) : p.pairCohort l size r = .ok (cohortOf l p.rankSeparation size r) := by
  have hpair : ∀ {x}, l.partner p.rankSeparation r = x → ({r} : OrdSet Int).insert x =
      OrdSet.ofList [r, l.partner p.rankSeparation r] := by
    rintro x rfl
    refine OrdSet.ext_mem fun y => ?_
    simp [or_comm]
  have hodd : (if l.isOdd = true then 1 else 0) = l.startMiniGroupStart := by
    split
    next h => exact (hl.odd h).2.1.symm
    next h => exact (hl.even (eq_false_of_ne_true h)).2.symm
  have h₁ := hl.startRank_eq
  have h₂ := hl.endMiniGroupStart_eq
  have hbounds := hl.bounds hsep
  unfold pairCohort cohortOf
  dsimp only
  rw [hodd]
  split
  next hf =>
    rw [p.fullPartner_spec hl hmax hsep hf, if_neg (hl.not_three_of_full hf)]
    exact congrArg Except.ok (hpair rfl)
  next hf =>
    by_cases ht : l.Three size r
    · obtain ⟨hisOdd, hthree⟩ := ht
      obtain ⟨h₃, h₄, h₅⟩ := hl.odd hisOdd
      have h₆ := hl.full_nonneg hsep
      have h₇ := hl.miniGroupSize_nonneg
      have hset : ((({r} : OrdSet Int).insert 0).insert l.midRank).insert (size - 1) =
          OrdSet.ofList [0, l.midRank, size - 1] := by
        refine OrdSet.ext_mem fun y => ?_
        simp only [OrdSet.mem_insert, OrdSet.mem_singleton, OrdSet.mem_ofList, List.mem_cons, List.not_mem_nil, or_false]
        omega
      have hlength : (OrdSet.ofList [0, l.midRank, size - 1]).entries.length = 3 :=
        congrArg List.length (OrdSet.entries_ofList (three_sorted (by omega) (by omega)))
      rw [if_neg (by omega), if_neg (by omega), hset, if_pos (Or.inl hlength), if_pos ⟨hisOdd, hthree⟩]
    · have hmini := hl.mini hsep h0 hr hf ht
      have hpartner : l.partner p.rankSeparation r = if r < l.startRank then _ else _ := if_neg hf
      rw [if_neg ht]
      split
      next hs =>
        rw [if_pos (show r < l.startRank by omega)] at hpartner
        rw [hpair hpartner]
      next hs =>
        rw [if_neg (show ¬r < l.startRank by omega)] at hpartner
        rw [if_pos (by omega), hpair hpartner]

end CohortPolicy
end Fenix
