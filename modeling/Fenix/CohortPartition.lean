import Fenix.CohortPairs

namespace Fenix
namespace CohortPolicy

open PairLayout

variable {l : PairLayout} {p : CohortPolicy} {size full r q m : Int}

/-- A rank of a communicator. -/
def InRange (size r : Int) : Prop := 0 ≤ r ∧ r < size

/-- The cohorts that the ranks compute, each for itself, are agreed on by their ranks, and every rank is in exactly
one of them. -/
structure Agreed (p : CohortPolicy) (size : Int) (cohort : Int → OrdSet Int) : Prop where
  created : ∀ r, InRange size r → p.createCohort size r = .ok (cohort r)
  self : ∀ r, InRange size r → r ∈ cohort r
  symmetric : ∀ r q, InRange size r → q ∈ cohort r → InRange size q ∧ cohort q = cohort r
  partition : ∀ q, InRange size q → ∃! c, (∃ r, InRange size r ∧ cohort r = c) ∧ q ∈ c

/-- Pairs, but for the first, middle and last ranks of an odd size. -/
def Dyadic (size : Int) (cohort : Int → OrdSet Int) : Prop :=
  ∀ r, InRange size r →
    if size % 2 = 1 ∧ (r = 0 ∨ r = size / 2 ∨ r = size - 1) then (cohort r).entries = [0, size / 2, size - 1]
    else (cohort r).entries.length = 2

/-- Each cohort is `setSize` ranks, `sep` apart. -/
def Strided (size sep setSize : Int) (cohort : Int → OrdSet Int) : Prop :=
  ∀ r, InRange size r → ∃ b, ∀ q, q ∈ cohort r ↔ ∃ i, 0 ≤ i ∧ i < setSize ∧ q = b + i * sep

theorem agreed_of {cohort : Int → OrdSet Int} (hcreated : ∀ r, InRange size r → p.createCohort size r = .ok (cohort r))
    (hself : ∀ r, InRange size r → r ∈ cohort r)
    (hsym : ∀ r q, InRange size r → q ∈ cohort r → InRange size q ∧ cohort q = cohort r) : p.Agreed size cohort where
  created := hcreated
  self := hself
  symmetric := hsym
  partition := fun _ hq => Pairing.existsUnique_class hself hsym hq

theorem mem_cohortOf_three (ht : l.Three size r) : q ∈ cohortOf l p.rankSeparation size r ↔ l.Three size q := by
  unfold cohortOf
  rw [if_pos ht, OrdSet.mem_ofList]
  simp [Three, ht.1]

theorem mem_cohortOf_pair (ht : ¬l.Three size r) :
    q ∈ cohortOf l p.rankSeparation size r ↔ q = r ∨ q = l.partner p.rankSeparation r := by
  unfold cohortOf
  rw [if_neg ht, OrdSet.mem_ofList]
  simp

theorem self_mem_cohortOf : r ∈ cohortOf l p.rankSeparation size r := by
  by_cases ht : l.Three size r
  · exact (mem_cohortOf_three ht).mpr ht
  · exact (mem_cohortOf_pair ht).mpr (Or.inl rfl)

theorem cohortOf_symmetric (hl : l.Fits size p.rankSeparation full) (hsep : 0 < p.rankSeparation)
    (hr : InRange size r) (hq : q ∈ cohortOf l p.rankSeparation size r) :
    InRange size q ∧ cohortOf l p.rankSeparation size q = cohortOf l p.rankSeparation size r := by
  by_cases ht : l.Three size r
  · have htq := (mem_cohortOf_three ht).mp hq
    refine ⟨?_, OrdSet.ext_mem fun x => by rw [mem_cohortOf_three htq, mem_cohortOf_three ht]⟩
    obtain ⟨hodd, hthree⟩ := htq
    obtain ⟨h₁, h₂, h₃⟩ := hl.odd hodd
    have h₄ := hl.startRank_eq
    have h₅ := hl.full_nonneg hsep
    have h₆ := hl.miniGroupSize_nonneg
    unfold InRange
    omega
  · obtain ⟨hnonneg, hlt, hnot, _, hback⟩ := hl.partner_spec hsep hr.1 hr.2 ht
    rcases (mem_cohortOf_pair ht).mp hq with rfl | rfl
    · exact ⟨hr, rfl⟩
    · refine ⟨⟨hnonneg, hlt⟩, OrdSet.ext_mem fun x => ?_⟩
      rw [mem_cohortOf_pair hnot, mem_cohortOf_pair ht, hback, or_comm]

theorem dyadic_cohortOf (hl : l.Fits size p.rankSeparation full) (hsep : 0 < p.rankSeparation)
    (hodd : l.isOdd = true ↔ size % 2 = 1) (hmid : l.midRank = size / 2) :
    Dyadic size (cohortOf l p.rankSeparation size) := by
  intro r hr
  split
  next h =>
    have hthree : l.Three size r := ⟨hodd.mpr h.1, hmid.symm ▸ h.2⟩
    obtain ⟨h₁, h₂, h₃⟩ := hl.odd hthree.1
    have h₄ := hl.full_nonneg hsep
    have h₅ := hl.miniGroupSize_nonneg
    unfold cohortOf
    rw [if_pos hthree, hmid, OrdSet.entries_ofList (three_sorted (by omega) (by omega))]
  next h =>
    have ht : ¬l.Three size r := fun ht => h ⟨hodd.mp ht.1, hmid ▸ ht.2⟩
    obtain ⟨_, _, _, hne, _⟩ := hl.partner_spec hsep hr.1 hr.2 ht
    unfold cohortOf
    rw [if_neg ht, OrdSet.length_ofList (by simp [hne.symm])]
    rfl

/-- Mode 1, for a separation whose double is an `int`. -/
theorem pairs_agreed (hmode : p.mode = 1) (hsize : 2 ≤ size) (hmax : size ≤ intMax) (hsep : 1 ≤ p.rankSeparation)
    (htwice : p.rankSeparation * 2 ≤ intMax) : ∃ cohort, p.Agreed size cohort ∧ Dyadic size cohort := by
  obtain ⟨l, full, hlayout, hl, hodd, hmid⟩ := pairLayout_spec hsize hmax hsep htwice
  refine ⟨cohortOf l p.rankSeparation size, ?_, dyadic_cohortOf hl hsep hodd hmid⟩
  refine agreed_of (fun r hr => ?_) (fun r _ => self_mem_cohortOf) fun r q hr hq => cohortOf_symmetric hl hsep hr hq
  unfold createCohort
  rw [if_pos hmode, hlayout]
  exact pairCohort_spec hl hmax hsep hr.1 hr.2

theorem pairs_overflow (hmode : p.mode = 1) (htwice : intMax < p.rankSeparation * 2) {c : OrdSet Int} :
    ¬p.createCohort size r = .ok c := by
  intro h
  unfold createCohort at h
  rw [if_pos hmode] at h
  obtain ⟨l, hl, _⟩ := Except.bind_eq_ok_iff.mp h
  obtain ⟨g, hg, _⟩ := Except.bind_eq_ok_iff.mp hl
  have := (toInt_eq_ok hg).2
  omega

theorem stridedPartner_spec (hsep : 0 < p.rankSeparation) (hset : 0 < p.setSizePolicy)
    (hdvd : size = p.rankSeparation * p.setSizePolicy * m) (hmax : size * 2 - 1 ≤ intMax) (hr : InRange size r)
    {i : Nat} (hi : (i : Int) < p.setSizePolicy) :
    p.stridedPartner size r (r / p.rankSeparation % p.setSizePolicy) i =
      .ok (Pairing.base p.rankSeparation p.setSizePolicy r + p.rankSeparation * i) := by
  have hnonneg := Pairing.base_nonneg hsep hset hr.1
  have hlt := Pairing.base_add_lt hsep hset (hdvd ▸ hr.2) hi
  have hterm := Int.mul_nonneg hsep.le (Int.natCast_nonneg i)
  have hself := Pairing.base_add_digit (d := p.rankSeparation) (e := r) (s := p.setSizePolicy)
  have hdigit := Int.mul_nonneg hsep.le (Int.emod_nonneg (r / p.rankSeparation) hset.ne')
  obtain ⟨h0, hrlt⟩ := hr
  rw [← hdvd] at hlt
  unfold stridedPartner
  rw [toInt_ok (by unfold intMax; omega) (by omega), Except.ok_bind, Int.mul_sub,
    toInt_ok (by unfold intMax at *; omega) (by omega), Except.ok_bind,
    toInt_ok (by unfold intMax; omega) (by omega), Except.ok_bind]
  have hplace : size + r - (p.rankSeparation * (r / p.rankSeparation % p.setSizePolicy) - p.rankSeparation * i) =
      Pairing.base p.rankSeparation p.setSizePolicy r + p.rankSeparation * i + size := by omega
  rw [hplace, Int.tmod_eq_emod_of_nonneg (by omega), Int.add_emod_right, Int.emod_eq_of_lt (by omega) hlt]
  rfl

theorem stridedCohort_spec (hsep : 0 < p.rankSeparation) (hset : 0 < p.setSizePolicy)
    (hdvd : size = p.rankSeparation * p.setSizePolicy * m) (hmax : size * 2 - 1 ≤ intMax) (hr : InRange size r) :
    ∃ c, p.stridedCohort size r = .ok c ∧ ∀ q, q ∈ c ↔ ∃ i, 0 ≤ i ∧ i < p.setSizePolicy ∧
      q = Pairing.base p.rankSeparation p.setSizePolicy r + i * p.rankSeparation := by
  have hpos : (r.tdiv p.rankSeparation).tmod p.setSizePolicy = r / p.rankSeparation % p.setSizePolicy := by
    rw [Int.tdiv_eq_ediv_of_nonneg hr.1, Int.tmod_eq_emod_of_nonneg (Int.ediv_nonneg hr.1 hsep.le)]
  unfold stridedCohort
  dsimp only
  rw [hpos, List.foldlM_map_ok fun i hi =>
    stridedPartner_spec hsep hset hdvd hmax hr (by have := List.mem_range.mp hi; omega)]
  refine ⟨_, rfl, fun q => ?_⟩
  rw [← List.foldl_map, OrdSet.mem_foldl_insert, OrdSet.mem_singleton, List.mem_map]
  constructor
  · rintro (rfl | ⟨i, hi, rfl⟩)
    · refine ⟨q / p.rankSeparation % p.setSizePolicy, Int.emod_nonneg _ hset.ne', Int.emod_lt_of_pos _ hset, ?_⟩
      rw [Int.mul_comm, Pairing.base_add_digit]
    · have := List.mem_range.mp hi
      exact ⟨i, Int.natCast_nonneg i, by omega, by rw [Int.mul_comm]⟩
  · rintro ⟨i, h0, hi, rfl⟩
    refine Or.inr ⟨i.toNat, List.mem_range.mpr (by omega), ?_⟩
    rw [Int.toNat_of_nonneg h0, Int.mul_comm]

/-- Mode 5, for a size whose double is within the range of `int`. -/
theorem strided_agreed (hmode : p.mode = 5) (hsep : 0 < p.rankSeparation) (hset : 0 < p.setSizePolicy)
    (hdvd : p.rankSeparation * p.setSizePolicy ∣ size) (hmax : size * 2 - 1 ≤ intMax) :
    ∃ cohort, p.Agreed size cohort ∧ Strided size p.rankSeparation p.setSizePolicy cohort := by
  obtain ⟨m, hm⟩ := hdvd
  have hexists : ∀ r, ∃ c, InRange size r → p.stridedCohort size r = .ok c ∧ ∀ q, q ∈ c ↔
      ∃ i, 0 ≤ i ∧ i < p.setSizePolicy ∧
        q = Pairing.base p.rankSeparation p.setSizePolicy r + i * p.rankSeparation := by
    intro r
    by_cases hr : InRange size r
    · obtain ⟨c, hc⟩ := stridedCohort_spec hsep hset hm hmax hr
      exact ⟨c, fun _ => hc⟩
    · exact ⟨∅, fun h => absurd h hr⟩
  obtain ⟨cohort, hcohort⟩ := Classical.skolem.mp hexists
  have hmem := fun r hr => (hcohort r hr).2
  refine ⟨cohort, agreed_of (fun r hr => ?_) (fun r hr => ?_) fun r q hr hq => ?_, fun r hr => ⟨_, hmem r hr⟩⟩
  · unfold createCohort
    rw [if_neg (by omega), if_pos hmode]
    exact (hcohort r hr).1
  · refine (hmem r hr r).mpr ⟨_, Int.emod_nonneg (r / p.rankSeparation) hset.ne', Int.emod_lt_of_pos _ hset, ?_⟩
    rw [Int.mul_comm, Pairing.base_add_digit]
  · obtain ⟨i, h0, hi, rfl⟩ := (hmem r hr q).mp hq
    have hnonneg := Pairing.base_nonneg hsep hset hr.1
    have hlt := Pairing.base_add_lt hsep hset (hm ▸ hr.2) hi
    have hterm := Int.mul_nonneg hsep.le h0
    have hbase := Pairing.base_base (e := r) hsep h0 hi
    rw [Int.mul_comm i] at *
    have hq : InRange size (Pairing.base p.rankSeparation p.setSizePolicy r + p.rankSeparation * i) :=
      ⟨by omega, hm ▸ hlt⟩
    refine ⟨hq, OrdSet.ext_mem fun x => ?_⟩
    rw [hmem _ hq, hmem r hr, hbase]

theorem strided_overflow (hmode : p.mode = 5) (hset : 0 < p.setSizePolicy) (hmax : intMax < size + r) {c : OrdSet Int} :
    ¬p.createCohort size r = .ok c := by
  intro h
  obtain ⟨n, hn⟩ : ∃ n, p.setSizePolicy.toNat = n + 1 := ⟨p.setSizePolicy.toNat - 1, by omega⟩
  unfold createCohort at h
  rw [if_neg (by omega), if_pos hmode] at h
  unfold stridedCohort at h
  dsimp only at h
  rw [hn, List.range_succ_eq_map, List.foldlM_cons] at h
  obtain ⟨s, hs, _⟩ := Except.bind_eq_ok_iff.mp h
  obtain ⟨q, hq, _⟩ := Except.map_eq_ok_iff.mp hs
  obtain ⟨total, htotal, _⟩ := Except.bind_eq_ok_iff.mp hq
  have := (toInt_eq_ok htotal).2
  omega

/-- The ranks form consistent cohorts of mode 1 just when twice the separation is an `int`, and of mode 5 just when the
sum of two ranks and one is. -/
theorem cohorts_iff (hsize : 2 ≤ size) (hmax : size ≤ intMax) {sep : Int} (hsep : 1 ≤ sep) :
    (∀ setSize, (∃ cohort, Agreed ⟨1, sep, setSize⟩ size cohort ∧ Dyadic size cohort) ↔ sep ≤ 1073741823) ∧
      ∀ setSize, 1 ≤ setSize → sep * setSize ∣ size →
        ((∃ cohort, Agreed ⟨5, sep, setSize⟩ size cohort ∧ Strided size sep setSize cohort) ↔ size ≤ 1073741824) := by
  refine ⟨fun setSize => ⟨?_, fun h => ?_⟩, fun setSize hset hdvd => ⟨?_, fun h => ?_⟩⟩
  · rintro ⟨cohort, hagreed, _⟩
    by_contra hlt
    have htwice : intMax < sep * 2 := by
      unfold intMax
      omega
    exact pairs_overflow rfl htwice (hagreed.created 0 ⟨le_refl 0, by omega⟩)
  · exact pairs_agreed rfl hsize hmax hsep (by unfold intMax; dsimp only; omega)
  · rintro ⟨cohort, hagreed, _⟩
    by_contra hlt
    have hsum : intMax < size + (size - 1) := by
      unfold intMax
      omega
    exact strided_overflow (p := ⟨5, sep, setSize⟩) rfl hset hsum (hagreed.created (size - 1) ⟨by omega, by omega⟩)
  · exact strided_agreed (p := ⟨5, sep, setSize⟩) rfl hsep hset hdvd (by unfold intMax; omega)

theorem cohorts_iff_seven : (∃ cohort, Agreed ⟨1, 2, 0⟩ 7 cohort ∧ Dyadic 7 cohort) ∧
    ∃ cohort, Agreed ⟨5, 1, 7⟩ 7 cohort ∧ Strided 7 1 7 cohort :=
  ⟨((cohorts_iff (by decide) (by decide) (by decide)).1 0).mpr (by decide),
    ((cohorts_iff (by decide) (by decide) (by decide)).2 7 (by decide) (by decide)).mpr (by decide)⟩

/-- The greatest separation there is leaves two ranks without cohorts. -/
theorem pair_overflow : createCohort ⟨1, 2147483647, 0⟩ 2 0 = .error .overflow ∧
    ¬∃ cohort, Agreed ⟨1, 2147483647, 0⟩ 2 cohort :=
  ⟨by decide, fun ⟨_, h⟩ => pairs_overflow rfl (by decide) (h.created 0 ⟨by decide, by decide⟩)⟩

end CohortPolicy
end Fenix
