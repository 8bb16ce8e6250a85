import Fenix.DataRegion

namespace Fenix.DataRegion

/-- The indices of a region. -/
def Mem (r : DataRegion) (x : Nat) : Prop := InBlocks r.start r.stop r.stride r.reps x

/-- A region of indices that there are, with stride `s` if it is strided at all. -/
structure Fits (s : Nat) (r : DataRegion) : Prop where
  end_le : r.stop + r.reps * r.stride ≤ sizeMax
  strided : r.reps ≠ 0 → r.stride = s

/-- Regions of stride `s` that stand for disjoint parts of `P` and for all of it. -/
abbrev StrideTiles (s : Nat) (S : OrdSet DataRegion) (P : Nat → Prop) : Prop := Tiles Mem (Fits s) S P

variable {a b r : DataRegion} {s n first second reps stride x : Nat}

theorem mem_block (h : r.reps = 0) : r.Mem x ↔ r.start ≤ x ∧ x ≤ r.stop := by
  unfold Mem
  rw [h, InBlocks.zero_iff]

theorem stride_pos (r : DataRegion) (h : r.reps ≠ 0) : r.stop + 1 < r.start + r.stride := by
  have hshape := r.shape
  omega

theorem lt_stride (r : DataRegion) (h : r.reps ≠ 0) : r.stop < r.start + r.stride := by
  have hgap := r.stride_pos h
  omega

/-- The region of a single block. -/
def interval (first second : Nat) (h : first ≤ second) : DataRegion :=
  ⟨first, second, 0, sizeMax, h, block_shape first second⟩

theorem ofBlock_eq (h : first ≤ second) : ofBlock first second = .ok (interval first second h) := dif_pos h

theorem mem_interval {h : first ≤ second} : (interval first second h).Mem x ↔ first ≤ x ∧ x ≤ second := mem_block rfl

theorem fits_block (hr : r.reps = 0) (h : r.stop ≤ sizeMax) : r.Fits s := by
  refine ⟨?_, fun hne => absurd hr hne⟩
  rw [hr]
  omega

theorem make_start (h : make first second reps stride = .ok r) : r.start = first := by
  unfold make ofBlock at h
  split at h
  next =>
    split at h
    next => cases Except.ok.inj h; rfl
    next => cases h
  next =>
    split at h
    next =>
      split at h
      next => cases Except.ok.inj h; rfl
      next => cases h
    next =>
      split at h
      next => cases Except.ok.inj h; rfl
      next => cases h

theorem make_spec (h : first ≤ second) (hend : second + reps * stride ≤ sizeMax)
    (hgap : reps = 0 ∨ stride ≠ sizeMax ∧ second < first + stride) :
    ∃ r, make first second reps stride = .ok r ∧ (∀ x, r.Mem x ↔ InBlocks first second stride reps x) ∧
      r.Fits stride ∧ r.reps ≤ reps := by
  unfold make
  split
  next htouch =>
    have hle : first ≤ second + reps * stride := by omega
    rw [ofBlock_eq hle]
    exact ⟨_, rfl, fun x => mem_interval.trans (InBlocks.collapse h htouch.2).symm, fits_block rfl hend,
      Nat.zero_le _⟩
  next =>
    split
    next hblock =>
      rw [ofBlock_eq h]
      have hzero : reps = 0 := by
        rcases hgap with hz | ⟨_, hlt⟩
        · exact hz
        · refine hblock.elim (fun hmax => ?_) id
          have hmul : reps * stride = 0 := by omega
          exact (Nat.mul_eq_zero.mp hmul).resolve_right (by omega)
      refine ⟨_, rfl, fun x => mem_interval.trans ?_, fits_block rfl (by change second ≤ _; omega), Nat.zero_le _⟩
      rw [hzero, InBlocks.zero_iff]
    next hne =>
      obtain ⟨hs, hlt⟩ := hgap.resolve_left fun hz => hne (Or.inr hz)
      rw [dif_pos ⟨h, hs, by omega⟩]
      exact ⟨_, rfl, fun x => Iff.rfl, ⟨hend, fun _ => rfl⟩, Nat.le_refl _⟩

/-- A region of another with the same shape, without the first repetitions or the last ones. -/
theorem fits_reps (h : r.Fits s) (hn : n ≤ r.reps) : r.stop + n * r.stride ≤ sizeMax := by
  have hend := h.end_le
  have hmul := Nat.mul_le_mul_right r.stride hn
  omega

theorem stop_le (r : DataRegion) (h : r.Fits s) : r.stop ≤ sizeMax := (Nat.le_add_right _ _).trans h.end_le

theorem reps_ne_max (h : r.Fits s) : r.reps ≠ sizeMax := by
  intro hmax
  have hgap := r.stride_pos (by rw [hmax]; decide)
  have hblock := r.block
  have hend := h.end_le
  rw [hmax] at hend
  have hmul := Nat.mul_le_mul_left sizeMax (show 2 ≤ r.stride by omega)
  have hpos : 0 < sizeMax := by decide
  omega

theorem rangeEnd_eq (h : r.Fits s) : r.rangeEnd = r.stop + r.reps * r.stride := by
  unfold rangeEnd
  rw [Nat.mul_comm]
  exact if_neg (reps_ne_max h)

theorem le_rangeEnd (h : r.Fits s) (hx : r.Mem x) : x ≤ r.rangeEnd := by
  rw [rangeEnd_eq h]
  exact hx.upper

theorem rangeEnd_mem (h : r.Fits s) : r.Mem r.rangeEnd := by
  rw [rangeEnd_eq h]
  have hblock := r.block
  exact ⟨r.reps, Nat.le_refl _, by omega, Nat.le_refl _⟩

theorem meets_iff : a.meets b = true ↔ a.start ≤ b.rangeEnd ∧ b.start ≤ a.rangeEnd := by
  unfold meets
  simp only [Bool.not_eq_true', Bool.or_eq_false_iff, decide_eq_false_iff_not]
  omega

/-- One repetition of a region. -/
def repetition (r : DataRegion) (n : Nat) : DataRegion :=
  ⟨r.start + n * r.stride, r.stop + n * r.stride, 0, sizeMax, by have hblock := r.block; omega, Or.inl ⟨rfl, rfl⟩⟩

theorem getRep_eq (hn : n ≤ r.reps) : r.getRep n = .ok (r.repetition n) := by
  unfold getRep
  rw [if_pos hn]
  exact ofBlock_eq _

theorem mem_repetition : (r.repetition n).Mem x ↔ r.start + n * r.stride ≤ x ∧ x ≤ r.stop + n * r.stride :=
  mem_block rfl

theorem repetition_fits (h : r.Fits s) (hn : n ≤ r.reps) : (r.repetition n).Fits s :=
  fits_block rfl (fits_reps h hn)

theorem getReps_spec {last : Nat} (h : r.Fits s) (hfirst : first ≤ last) (hlast : last ≤ r.reps) :
    ∃ r', r.getReps first last = .ok r' ∧
      (∀ x, r'.Mem x ↔ ∃ k, first ≤ k ∧ k ≤ last ∧ r.start + k * r.stride ≤ x ∧ x ≤ r.stop + k * r.stride) ∧
      r'.Fits s ∧ r'.reps ≤ last - first ∧ r'.start = r.start + first * r.stride := by
  unfold getReps
  rw [if_pos ⟨hfirst, hlast⟩, sizeDiff_eq hfirst, Except.ok_bind]
  have hblock := r.block
  have hend := fits_reps h hlast
  have hmul : last * r.stride = first * r.stride + (last - first) * r.stride := by
    rw [← Nat.add_mul, Nat.add_sub_cancel' hfirst]
  have hgap : last - first = 0 ∨ r.stride ≠ sizeMax ∧
      r.stop + first * r.stride < r.start + first * r.stride + r.stride := by
    have hshape := r.shape
    omega
  obtain ⟨r', hr', hmem, hfits, hreps⟩ := make_spec (by omega) (by omega) hgap
  refine ⟨r', hr', fun x => (hmem x).trans (InBlocks.from_iff hfirst), ⟨hfits.end_le, fun hne => ?_⟩, hreps,
    make_start hr'⟩
  rw [hfits.strided hne]
  exact h.strided (by omega)

/-- The ranges of regions that share an index meet. -/
theorem meets_of_mem {s' : Nat} (ha : a.Fits s) (hb : b.Fits s') (hx : a.Mem x) (hx' : b.Mem x) :
    a.meets b = true := by
  have hae := le_rangeEnd ha hx
  have hbe := le_rangeEnd hb hx'
  have hal := hx.lower
  have hbl := hx'.lower
  exact meets_iff.mpr ⟨by omega, by omega⟩

/-- Strided regions of one stride that share an index do so in the period from the later start on. -/
theorem common_early (ha : a.Fits s) (hb : b.Fits s) (hra : a.reps ≠ 0) (hrb : b.reps ≠ 0) (hx : a.Mem x)
    (hx' : b.Mem x) : ∃ y, a.Mem y ∧ b.Mem y ∧ max a.start b.start ≤ y ∧ y < max a.start b.start + s := by
  have hsa := ha.strided hra
  have hsb := hb.strided hrb
  have hga := a.stride_pos hra
  have hgb := b.stride_pos hrb
  have hba := a.block
  have hbb := b.block
  unfold Mem at *
  rw [hsa] at hx hga ⊢
  rw [hsb] at hx' hgb ⊢
  have hlo := hx.lower
  have hlo' := hx'.lower
  have hdiv := Nat.div_add_mod' (x - max a.start b.start) s
  have hlt := Nat.mod_lt (x - max a.start b.start) (show s > 0 by omega)
  refine ⟨x - (x - max a.start b.start) / s * s, hx.move_back hba (by omega) (by omega) (by omega),
    hx'.move_back hbb (by omega) (by omega) (by omega), by omega, by omega⟩

theorem div_le_reps (h : r.Fits s) (hr : r.reps ≠ 0) (hx : x ≤ r.rangeEnd) : (x - r.start) / r.stride ≤ r.reps := by
  have hgap := r.stride_pos hr
  have hblock := r.block
  rw [rangeEnd_eq h] at hx
  refine Nat.le_of_lt_succ ((Nat.div_lt_iff_lt_mul (by omega)).mpr ?_)
  rw [Nat.succ_mul]
  omega

theorem nextMeets_spec (h : r.Fits s) (n : Nat) (t : DataRegion) : ∃ v, r.nextMeets n t = .ok v ∧
    (v = false → n < r.reps → ∀ x, t.start ≤ x → x ≤ t.rangeEnd → ¬(r.repetition (n + 1)).Mem x) := by
  unfold nextMeets
  split
  next hn =>
    rw [getRep_eq hn]
    refine ⟨_, rfl, fun hv _ x hlo hhi hx => ?_⟩
    have hfits : (r.repetition (n + 1)).Fits s := repetition_fits h hn
    have hxlo := hx.lower
    have hxhi := le_rangeEnd hfits hx
    have hmeets := meets_iff.mpr (And.intro (show t.start ≤ (r.repetition (n + 1)).rangeEnd by omega)
      (show (r.repetition (n + 1)).start ≤ t.rangeEnd by omega))
    rw [hv] at hmeets
    cases hmeets
  next hn => exact ⟨false, rfl, fun _ hlt => absurd hlt hn⟩

/-- The check for an intersection fails for no two regions of one stride, and says no only of regions
that share no index. -/
theorem intersects_spec (ha : a.Fits s) (hb : b.Fits s) : ∃ hit, a.intersects b = .ok hit ∧
    (hit = true → a.meets b = true) ∧ (hit = false → ∀ x, a.Mem x → ¬b.Mem x) := by
  unfold intersects
  by_cases hmeet : a.meets b = true
  · rw [if_neg (not_not.mpr hmeet)]
    by_cases hblock : a.reps = 0 ∨ b.reps = 0
    · rw [if_pos hblock]
      exact ⟨true, rfl, fun _ => hmeet, nofun⟩
    · obtain ⟨hra, hrb⟩ := not_or.mp hblock
      have hsa := ha.strided hra
      have hsb := hb.strided hrb
      have hga := a.stride_pos hra
      have hgb := b.stride_pos hrb
      obtain ⟨hlo, hhi⟩ := meets_iff.mp hmeet
      have hsize : a.start ≤ a.rangeEnd := le_rangeEnd ha (InBlocks.first a.block)
      have hsize' : b.start ≤ b.rangeEnd := le_rangeEnd hb (InBlocks.first b.block)
      have harep := div_le_reps ha hra (x := max a.start b.start) (by omega)
      have hbrep := div_le_reps hb hrb (x := max a.start b.start) (by omega)
      rw [if_neg hblock, if_neg (by rw [hsa, hsb]; exact not_not.mpr rfl)]
      dsimp only
      rw [hsb, ← hsa] at hbrep
      rw [sizeDiff_eq (Nat.le_max_left _ _), Except.ok_bind, sizeDiff_eq (Nat.le_max_right _ _), Except.ok_bind,
        getRep_eq harep, Except.ok_bind, getRep_eq hbrep, Except.ok_bind]
      by_cases hfirst : (a.repetition ((max a.start b.start - a.start) / a.stride)).meets
          (b.repetition ((max a.start b.start - b.start) / a.stride)) = true
      · rw [if_pos hfirst]
        exact ⟨true, rfl, fun _ => hmeet, nofun⟩
      rw [if_neg hfirst]
      obtain ⟨anext, hanext, hafalse⟩ := nextMeets_spec ha ((max a.start b.start - a.start) / a.stride)
        (b.repetition ((max a.start b.start - b.start) / a.stride))
      obtain ⟨bnext, hbnext, hbfalse⟩ := nextMeets_spec hb ((max a.start b.start - b.start) / a.stride)
        (a.repetition ((max a.start b.start - a.start) / a.stride))
      rw [hanext, Except.ok_bind, hbnext, Except.ok_bind]
      refine ⟨anext || bnext, rfl, fun _ => hmeet, fun hfalse x hx hx' => ?_⟩
      obtain ⟨hfa, hfb⟩ := Bool.or_eq_false_iff.mp hfalse
      -- a common index early on is in the repetitions at the later start, or in the next one of one region
      obtain ⟨y, ⟨i, hi, hilo, hihi⟩, ⟨j, hj, hjlo, hjhi⟩, hylo, hyhi⟩ := common_early ha hb hra hrb hx hx'
      have hia := InBlocks.div_eq (a.lt_stride hra) hilo hihi
      have hjb := InBlocks.div_eq (b.lt_stride hrb) hjlo hjhi
      have hya : (a.repetition i).Mem y := mem_repetition.mpr ⟨hilo, hihi⟩
      have hyb : (b.repetition j).Mem y := mem_repetition.mpr ⟨hjlo, hjhi⟩
      have hfita := repetition_fits ha hi
      have hfitb := repetition_fits hb hj
      rw [hsa] at hia hfirst hafalse hbfalse
      rw [hsb] at hjb
      have hai := InBlocks.div_or_succ (Nat.le_max_left a.start b.start) hylo hyhi
      have hbj := InBlocks.div_or_succ (Nat.le_max_right a.start b.start) hylo hyhi
      rw [hia] at hai
      rw [hjb] at hbj
      rcases hai with hai | hai
      · rw [← hai] at hfirst hbfalse
        rcases hbj with hbj | hbj
        · rw [← hbj] at hfirst
          exact hfirst (meets_of_mem hfita hfitb hya hyb)
        · rw [hbj] at hyb
          exact hbfalse hfb (by omega) y hya.lower (le_rangeEnd hfita hya) hyb
      · rcases hbj with hbj | hbj
        · rw [hai] at hya
          rw [← hbj] at hafalse
          exact hafalse hfa (by omega) y hyb.lower (le_rangeEnd hfitb hyb) hya
        · -- one of the regions starts in this period
          exfalso
          have hpos : 0 < s := by omega
          rcases Nat.le_total b.start a.start with hle | hle
          · rw [Nat.max_eq_left hle] at hylo hyhi
            have hzero : (y - a.start) / s = 0 := Nat.div_eq_of_lt (by omega)
            exact Nat.succ_ne_zero _ (hai.symm.trans (hia.symm.trans hzero))
          · rw [Nat.max_eq_right hle] at hylo hyhi
            have hzero : (y - b.start) / s = 0 := Nat.div_eq_of_lt (by omega)
            exact Nat.succ_ne_zero _ (hbj.symm.trans (hjb.symm.trans hzero))
  · rw [if_pos hmeet]
    exact ⟨false, rfl, nofun, fun _ x hx hx' => hmeet (meets_of_mem ha hb hx hx')⟩

section Inter

theorem mem_iff : a.Mem x ↔ ∃ k, k ≤ a.reps ∧ (a.repetition k).Mem x := by
  simp only [mem_repetition]
  rfl

theorem repetition_eq (h : a.reps ≠ 0) {k : Nat} (hx : (a.repetition k).Mem x) : (x - a.start) / a.stride = k := by
  obtain ⟨hlo, hhi⟩ := mem_repetition.mp hx
  exact InBlocks.div_eq (a.lt_stride h) hlo hhi

/-- An index that is not before another is not in a repetition before that of the other. -/
theorem rep_le (h : a.reps ≠ 0) {k : Nat} (hx : (a.repetition k).Mem x) {y : Nat} (hy : y ≤ x) :
    (y - a.start) / a.stride ≤ k := by
  rw [← repetition_eq h hx]
  exact Nat.div_le_div_right (by omega)

theorem le_rep (h : a.reps ≠ 0) {k : Nat} (hx : (a.repetition k).Mem x) {y : Nat} (hy : x ≤ y) :
    k ≤ (y - a.start) / a.stride := by
  rw [← repetition_eq h hx]
  exact Nat.div_le_div_right (by omega)

theorem interBlocks_spec (ha : a.reps = 0) (hb : b.reps = 0) (hfits : a.stop ≤ sizeMax) :
    ∃ S, a.interBlocks b = .ok S ∧ StrideTiles s S (fun x => a.Mem x ∧ b.Mem x) ∧
      (a ∈ S ↔ b.start ≤ a.start ∧ a.stop ≤ b.stop) ∧ ∀ r ∈ S, r.reps = 0 := by
  have hblock := a.block
  have hblock' := b.block
  have hea : a.rangeEnd = a.stop := (rangeEnd_eq (fits_block (s := s) ha hfits)).trans (by rw [ha]; omega)
  have heb : b.rangeEnd = b.stop := by
    unfold rangeEnd
    rw [hb, if_neg (by decide)]
    omega
  unfold interBlocks
  split
  next hmeet =>
    obtain ⟨hlo, hhi⟩ := meets_iff.mp hmeet
    rw [ofBlock_eq (by omega), Except.ok_bind]
    refine ⟨_, rfl, (Tiles.singleton (fits_block rfl (by change min a.stop b.stop ≤ _; omega))).congr fun x => ?_,
      ?_, fun r hr => OrdSet.mem_singleton.mp hr ▸ rfl⟩
    · rw [mem_block rfl, mem_block ha, mem_block hb]
      change max a.start b.start ≤ x ∧ x ≤ min a.stop b.stop ↔ _
      omega
    · rw [OrdSet.mem_singleton, DataRegion.ext_iff]
      change (a.start = max a.start b.start ∧ a.stop = min a.stop b.stop ∧ a.reps = 0 ∧ a.stride = sizeMax) ↔ _
      have hshape := a.shape
      omega
  next hmeet =>
    have hapart : ¬(a.start ≤ b.stop ∧ b.start ≤ a.stop) := fun h => hmeet (meets_iff.mpr (by rw [hea, heb]; exact h))
    refine ⟨∅, rfl, Tiles.empty.congr fun x => ?_, ?_, fun r hr => absurd hr (OrdSet.not_mem_empty r)⟩
    · rw [mem_block ha, mem_block hb]
      exact ⟨False.elim, fun h => hapart (by omega)⟩
    · exact ⟨fun h => absurd h (OrdSet.not_mem_empty a), fun h => absurd (by omega) hapart⟩

theorem interFirst_spec (ha : a.Fits s) (hra : a.reps ≠ 0) (hb : b.reps = 0) (hlo : b.start ≤ a.rangeEnd) :
    ∃ S o, a.interFirst b = .ok (S, o) ∧ (∀ r ∈ S, r.reps = 0) ∧ match o with
      | none => StrideTiles s S fun x => a.Mem x ∧ b.Mem x
      | some m => m ≤ a.reps ∧ StrideTiles s S (fun x => (∃ k < m, (a.repetition k).Mem x) ∧ b.Mem x) ∧
          ∀ k, m ≤ k → b.start ≤ a.start + k * a.stride := by
  have hgap := a.stride_pos hra
  have hblock := a.block
  have hnone : ∀ r ∈ (∅ : OrdSet DataRegion), r.reps = 0 := fun r hr => absurd hr (OrdSet.not_mem_empty r)
  unfold interFirst
  split
  next hlt =>
    have hrep := div_le_reps ha hra hlo
    have hdiv := Nat.div_add_mod' (b.start - a.start) a.stride
    have hmod := Nat.mod_lt (b.start - a.start) (show a.stride > 0 by omega)
    set rep := (b.start - a.start) / a.stride with hdef
    obtain ⟨S, hS, htiles, hwhole, hblocks⟩ :=
      interBlocks_spec (s := s) (a := a.repetition rep) (b := b) rfl hb (fits_reps ha hrep)
    have hfirst : ∀ k x, (a.repetition k).Mem x → b.Mem x → rep ≤ k := fun k x hx hbx => rep_le hra hx hbx.lower
    rw [sizeDiff_eq (Nat.le_of_lt hlt), Except.ok_bind]
    dsimp only
    rw [← hdef, getRep_eq hrep, Except.ok_bind, hS, Except.ok_bind]
    by_cases hin : a.repetition rep ∈ S
    · rw [if_pos hin]
      obtain ⟨hle, _⟩ := hwhole.mp hin
      refine ⟨∅, some rep, rfl, hnone, hrep, Tiles.empty.congr fun x => ⟨False.elim, ?_⟩, fun k hk => ?_⟩
      · rintro ⟨⟨k, hk, hx⟩, hbx⟩
        have hge := hfirst k x hx hbx
        omega
      · have hmul := Nat.mul_le_mul_right a.stride hk
        change b.start ≤ a.start + rep * a.stride at hle
        omega
    · rw [if_neg hin]
      by_cases hlast : rep = a.reps
      · rw [if_pos hlast]
        refine ⟨S, none, rfl, hblocks, htiles.congr fun x => and_congr_left fun hbx => Iff.trans ?_ (mem_iff (a := a)).symm⟩
        constructor
        · exact fun hx => ⟨rep, hrep, hx⟩
        · rintro ⟨k, hk, hx⟩
          have hge := hfirst k x hx hbx
          have hkr : k = rep := by omega
          rwa [← hkr]
      · rw [if_neg hlast]
        refine ⟨S, some (rep + 1), rfl, hblocks, by omega, htiles.congr fun x => and_congr_left fun hbx => ?_, fun k hk => ?_⟩
        · constructor
          · exact fun hx => ⟨rep, Nat.lt_succ_self rep, hx⟩
          · rintro ⟨k, hk, hx⟩
            have hge := hfirst k x hx hbx
            have hkr : k = rep := by omega
            rwa [← hkr]
        · have hstep := InBlocks.step_le (s := a.stride) (show rep < k by omega)
          omega
  next hge =>
    refine ⟨∅, some 0, rfl, hnone, Nat.zero_le _, Tiles.empty.congr fun x => ?_, fun k _ => by omega⟩
    exact ⟨False.elim, fun ⟨⟨k, hk, _⟩, _⟩ => Nat.not_lt_zero k hk⟩

theorem interLast_spec {m : Nat} (ha : a.Fits s) (hra : a.reps ≠ 0) (hb : b.reps = 0) (hhi : a.start ≤ b.stop)
    (hm : m ≤ a.reps) :
    ∃ S o, a.interLast b m = .ok (S, o) ∧ (∀ r ∈ S, r.reps = 0) ∧ match o with
      | none => StrideTiles s S fun x => (∃ k, m ≤ k ∧ k ≤ a.reps ∧ (a.repetition k).Mem x) ∧ b.Mem x
      | some e => m ≤ e ∧ e ≤ a.reps ∧ a.stop + e * a.stride ≤ b.stop ∧
          StrideTiles s S fun x => (∃ k, e < k ∧ k ≤ a.reps ∧ (a.repetition k).Mem x) ∧ b.Mem x := by
  have hgap := a.stride_pos hra
  have hblock := a.block
  have hupper : ∀ x, b.Mem x → x ≤ b.stop := fun x hx => ((mem_block hb).mp hx).2
  have hnone : ∀ r ∈ (∅ : OrdSet DataRegion), r.reps = 0 := fun r hr => absurd hr (OrdSet.not_mem_empty r)
  unfold interLast
  split
  next hlt =>
    have hrep := div_le_reps ha hra (Nat.le_of_lt hlt)
    have hdiv := Nat.div_add_mod' (b.stop - a.start) a.stride
    set rep := (b.stop - a.start) / a.stride with hdef
    obtain ⟨S, hS, htiles, hwhole, hblocks⟩ :=
      interBlocks_spec (s := s) (a := a.repetition rep) (b := b) rfl hb (fits_reps ha hrep)
    have hlast : ∀ k x, (a.repetition k).Mem x → b.Mem x → k ≤ rep := fun k x hx hbx => le_rep hra hx (hupper x hbx)
    rw [sizeDiff_eq hhi, Except.ok_bind]
    dsimp only
    rw [← hdef]
    by_cases hbefore : rep < m
    · rw [if_pos hbefore]
      refine ⟨∅, none, rfl, hnone, Tiles.empty.congr fun x => ⟨False.elim, ?_⟩⟩
      rintro ⟨⟨k, hk, _, hx⟩, hbx⟩
      have hle := hlast k x hx hbx
      omega
    · rw [if_neg hbefore, getRep_eq hrep, Except.ok_bind, hS, Except.ok_bind]
      by_cases hin : a.repetition rep ∈ S
      · rw [if_pos hin]
        obtain ⟨_, hle⟩ := hwhole.mp hin
        refine ⟨∅, some rep, rfl, hnone, by omega, hrep, hle, Tiles.empty.congr fun x => ⟨False.elim, ?_⟩⟩
        rintro ⟨⟨k, hk, _, hx⟩, hbx⟩
        have hle := hlast k x hx hbx
        omega
      · rw [if_neg hin]
        by_cases hone : rep = m
        · rw [if_pos hone]
          refine ⟨S, none, rfl, hblocks, htiles.congr fun x => and_congr_left fun hbx => ?_⟩
          constructor
          · exact fun hx => ⟨rep, by omega, hrep, hx⟩
          · rintro ⟨k, hk, _, hx⟩
            have hle := hlast k x hx hbx
            have hkr : k = rep := by omega
            rwa [← hkr]
        · rw [if_neg hone, sizeDiff_eq (show 1 ≤ rep by omega), Except.ok_bind]
          have hstep := InBlocks.step_le (s := a.stride) (show rep - 1 < rep by omega)
          refine ⟨S, some (rep - 1), rfl, hblocks, by omega, by omega, by omega, htiles.congr fun x => and_congr_left fun hbx => ?_⟩
          constructor
          · exact fun hx => ⟨rep, by omega, hrep, hx⟩
          · rintro ⟨k, hk, _, hx⟩
            have hle := hlast k x hx hbx
            have hkr : k = rep := by omega
            rwa [← hkr]
  next hge =>
    rw [rangeEnd_eq ha] at hge
    refine ⟨∅, some a.reps, rfl, hnone, hm, Nat.le_refl _, by omega, Tiles.empty.congr fun x => ⟨False.elim, ?_⟩⟩
    rintro ⟨⟨k, hk, hk', _⟩, _⟩
    omega

/-- No two regions are strided. -/
def OneStrided (S : OrdSet DataRegion) : Prop := ∀ r ∈ S, ∀ t ∈ S, r.reps ≠ 0 → t.reps ≠ 0 → r = t

/-- Two repetitions in a row are in an interval. -/
def TwoIn (r : DataRegion) (lo hi : Nat) : Prop :=
  ∃ k, k < r.reps ∧ lo ≤ r.start + k * r.stride ∧ r.stop + (k + 1) * r.stride ≤ hi

/-- A region is repetitions of `r` in a row, all of them in an interval. -/
def RowIn (r t : DataRegion) (lo hi : Nat) : Prop :=
  ∃ m, t.start = r.start + m * r.stride ∧ t.stride = r.stride ∧ m + t.reps ≤ r.reps ∧ lo ≤ r.start + m * r.stride ∧
    r.stop + (m + t.reps) * r.stride ≤ hi

theorem RowIn.twoIn {t : DataRegion} {lo hi : Nat} (h : r.RowIn t lo hi) (hne : t.reps ≠ 0) : r.TwoIn lo hi := by
  obtain ⟨m, _, _, hreps, hlo, hhi⟩ := h
  have hmul := Nat.mul_le_mul_right r.stride (show m + 1 ≤ m + t.reps by omega)
  exact ⟨m, by omega, hlo, by omega⟩

/-- What a block leaves of a strided region: parts of two repetitions at most, and what is between them. -/
theorem interStrided_spec (ha : a.Fits s) (hra : a.reps ≠ 0) (hb : b.reps = 0) (hlo : b.start ≤ a.rangeEnd)
    (hhi : a.start ≤ b.stop) : ∃ S, a.interStrided b = .ok S ∧ (StrideTiles s S fun x => a.Mem x ∧ b.Mem x) ∧
      OneStrided S ∧ ∀ r ∈ S, r.reps ≠ 0 → a.RowIn r b.start b.stop := by
  obtain ⟨head, first, hhead, hheads, hfirst⟩ := interFirst_spec ha hra hb hlo
  unfold interStrided
  rw [hhead, Except.ok_bind]
  cases first with
  | none =>
    exact ⟨head, rfl, hfirst, fun r hr _ _ hne => absurd (hheads r hr) hne, fun r hr hne => absurd (hheads r hr) hne⟩
  | some m =>
    obtain ⟨hm, hhead', hlow⟩ := hfirst
    obtain ⟨tail, last, htail, htails, hlast⟩ := interLast_spec ha hra hb hhi hm
    -- an index is in one repetition only, so that the parts do not overlap
    have honly : ∀ {x k l}, (a.repetition k).Mem x → (a.repetition l).Mem x → k = l := fun hk hl =>
      (repetition_eq hra hk).symm.trans (repetition_eq hra hl)
    have hparts : ∀ r ∈ head.merge tail, r.reps = 0 := fun r hr =>
      (OrdSet.mem_merge.mp hr).elim (hheads r) (htails r)
    dsimp only
    rw [htail, Except.ok_bind]
    cases last with
    | none =>
      refine ⟨_, rfl, (hhead'.merge hlast fun x hx hx' => ?_).congr fun x => ?_,
        fun r hr _ _ hne => absurd (hparts r hr) hne, fun r hr hne => absurd (hparts r hr) hne⟩
      · obtain ⟨⟨k, hk, hxk⟩, _⟩ := hx
        obtain ⟨⟨l, hl, _, hxl⟩, _⟩ := hx'
        have heq := honly hxk hxl
        omega
      · rw [mem_iff (a := a)]
        constructor
        · rintro (⟨⟨k, hk, hx⟩, hbx⟩ | ⟨⟨k, _, hk, hx⟩, hbx⟩)
          · exact ⟨⟨k, by omega, hx⟩, hbx⟩
          · exact ⟨⟨k, hk, hx⟩, hbx⟩
        · rintro ⟨⟨k, hk, hx⟩, hbx⟩
          rcases Nat.lt_or_ge k m with h | h
          · exact Or.inl ⟨⟨k, h, hx⟩, hbx⟩
          · exact Or.inr ⟨⟨k, h, hk, hx⟩, hbx⟩
    | some e =>
      obtain ⟨hme, he, hstop, htail'⟩ := hlast
      obtain ⟨whole, hwhole, hmem, hfits, hreps, hstart⟩ := getReps_spec ha hme he
      simp only [← mem_repetition] at hmem
      dsimp only
      rw [hwhole, Except.ok_bind]
      have hwholes : ∀ r ∈ (head.merge tail).insert whole, r.reps ≠ 0 → r = whole := fun r hr hne =>
        (OrdSet.mem_insert.mp hr).resolve_right fun hr => hne (hparts r hr)
      refine ⟨_, rfl, ((hhead'.merge htail' fun x hx hx' => ?_).insert hfits fun x hx hx' => ?_).congr fun x => ?_,
        fun r hr t ht hne hne' => (hwholes r hr hne).trans (hwholes t ht hne').symm, fun r hr hne => ?_⟩
      · obtain ⟨⟨k, hk, hxk⟩, _⟩ := hx
        obtain ⟨⟨l, hl, _, hxl⟩, _⟩ := hx'
        have heq := honly hxk hxl
        omega
      · obtain ⟨l, hl, hl', hxl⟩ := (hmem x).mp hx'
        rcases hx with ⟨⟨k, hk, hxk⟩, _⟩ | ⟨⟨k, hk, _, hxk⟩, _⟩
        · have heq := honly hxk hxl
          omega
        · have heq := honly hxk hxl
          omega
      · rw [hmem, mem_iff (a := a)]
        constructor
        · rintro ((⟨⟨k, hk, hx⟩, hbx⟩ | ⟨⟨k, _, hk, hx⟩, hbx⟩) | ⟨k, hk, hk', hx⟩)
          · exact ⟨⟨k, by omega, hx⟩, hbx⟩
          · exact ⟨⟨k, hk, hx⟩, hbx⟩
          · obtain ⟨hxlo, hxhi⟩ := mem_repetition.mp hx
            have hblo := hlow k hk
            have hmul := Nat.mul_le_mul_right a.stride hk'
            exact ⟨⟨k, by omega, hx⟩, (mem_block hb).mpr ⟨by omega, by omega⟩⟩
        · rintro ⟨⟨k, hk, hx⟩, hbx⟩
          rcases Nat.lt_or_ge k m with h | h
          · exact Or.inl (Or.inl ⟨⟨k, h, hx⟩, hbx⟩)
          · rcases Nat.lt_or_ge e k with h' | h'
            · exact Or.inl (Or.inr ⟨⟨k, h', hk, hx⟩, hbx⟩)
            · exact Or.inr ⟨k, h, h', hx⟩
      · have heq := hwholes r hr hne
        rw [heq] at hne ⊢
        have hmul := Nat.mul_le_mul_right a.stride (show m + whole.reps ≤ e by omega)
        exact ⟨m, hstart, (hfits.strided hne).trans (ha.strided hra).symm, by omega, hlow m (Nat.le_refl m), by omega⟩

/-- The intersection of a region and a block is exact. -/
theorem inter_spec (ha : a.Fits s) (hb : b.Fits s) (h : a.reps = 0 ∨ b.reps = 0) :
    ∃ S, a.inter b = .ok S ∧ (StrideTiles s S fun x => a.Mem x ∧ b.Mem x) ∧ OneStrided S ∧
      ∀ r ∈ S, r.reps ≠ 0 → a.RowIn r b.start b.stop ∨ b.RowIn r a.start a.stop := by
  obtain ⟨hit, hhit, htrue, hfalse⟩ := intersects_spec ha hb
  unfold inter
  rw [if_neg (by omega), hhit, Except.ok_bind]
  cases hit with
  | false =>
    exact ⟨∅, rfl, Tiles.empty.congr fun x => ⟨False.elim, fun hx => hfalse rfl x hx.1 hx.2⟩,
      fun r hr => absurd hr (OrdSet.not_mem_empty r), fun r hr => absurd hr (OrdSet.not_mem_empty r)⟩
  | true =>
    obtain ⟨hlo, hhi⟩ := meets_iff.mp (htrue rfl)
    have hend : ∀ {r : DataRegion}, r.Fits s → r.reps = 0 → r.rangeEnd = r.stop := fun hr hz => by
      rw [rangeEnd_eq hr, hz]
      omega
    rw [if_neg (by simp)]
    by_cases hzb : b.reps = 0
    · rw [if_neg (by omega)]
      by_cases hza : a.reps = 0
      · rw [if_neg (by omega)]
        obtain ⟨S, hS, htiles, _, hblocks⟩ := interBlocks_spec (s := s) hza hzb (by have hend := ha.end_le; omega)
        exact ⟨S, hS, htiles, fun r hr _ _ hne => absurd (hblocks r hr) hne, fun r hr hne => absurd (hblocks r hr) hne⟩
      · rw [if_pos hza]
        obtain ⟨S, hS, htiles, hone, htwo⟩ := interStrided_spec ha hza hzb hhi (hend hb hzb ▸ hlo)
        exact ⟨S, hS, htiles, hone, fun r hr hne => Or.inl (htwo r hr hne)⟩
    · rw [if_pos hzb]
      have hza := h.resolve_right hzb
      obtain ⟨S, hS, htiles, hone, htwo⟩ := interStrided_spec hb hzb hza hlo (hend ha hza ▸ hhi)
      exact ⟨S, hS, htiles.congr fun x => and_comm, hone, fun r hr hne => Or.inr (htwo r hr hne)⟩

end Inter

end Fenix.DataRegion
