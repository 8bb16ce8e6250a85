import Fenix.DataRegionSub
import Fenix.RegionSubset

namespace Fenix

namespace DataRegion

variable {c i r t : DataRegion} {s idx first second reps stride x : Nat}

theorem pos_stride (r : DataRegion) : 0 < r.stride := by
  have hblock := r.block
  have hpos : 0 < sizeMax := by decide
  rcases r.shape with ⟨_, hs⟩ | ⟨_, _, hgap⟩
  · rw [hs]
    exact hpos
  · omega

/-- A strided region of the stride of another and in it. -/
def PartOf (r t : DataRegion) : Prop := r.reps ≠ 0 ∧ t.stride = r.stride ∧ ∀ x, t.Mem x → r.Mem x

/-- A region may stand in place of two if it is a block, a part of one of them, or of the stride of both. -/
structure PieceOf (c i r : DataRegion) : Prop where
  fits : r.Fits r.stride
  strided : r.reps ≠ 0 → c.PartOf r ∨ i.PartOf r ∨ c.reps ≠ 0 ∧ i.reps ≠ 0 ∧ c.stride = i.stride ∧ r.stride = c.stride

theorem repetition_unique {k l : Nat} (hk : k ≤ r.reps) (hl : l ≤ r.reps) (hx : (r.repetition k).Mem x)
    (hx' : (r.repetition l).Mem x) : k = l := by
  by_cases hr : r.reps = 0
  · omega
  · exact (repetition_eq hr hx).symm.trans (repetition_eq hr hx')

theorem le_make_stop (h : make first second reps stride = .ok r) : second ≤ r.stop := by
  unfold make ofBlock at h
  split at h
  next =>
    split at h
    next =>
      cases Except.ok.inj h
      exact Nat.le_add_right second (reps * stride)
    next => cases h
  next =>
    split at h
    next =>
      split at h
      next =>
        cases Except.ok.inj h
        exact Nat.le_refl second
      next => cases h
    next =>
      split at h
      next =>
        cases Except.ok.inj h
        exact Nat.le_refl second
      next => cases h

/-- The repetitions of a region from one on, up to another. -/
theorem some_reps {last : Nat} (h : r.Fits r.stride) (hfirst : first ≤ last) (hlast : last ≤ r.reps) :
    ∃ t, make (r.start + first * r.stride) (r.stop + first * r.stride) (last - first) r.stride = .ok t ∧
      (∀ x, t.Mem x ↔ ∃ k, first ≤ k ∧ k ≤ last ∧ (r.repetition k).Mem x) ∧ t.Fits t.stride ∧
      (t.reps ≠ 0 → r.PartOf t) := by
  obtain ⟨t, ht, hmem, hfits, hreps, _⟩ := getReps_spec h hfirst hlast
  unfold getReps at ht
  rw [if_pos ⟨hfirst, hlast⟩, sizeDiff_eq hfirst, Except.ok_bind] at ht
  simp only [← mem_repetition] at hmem
  refine ⟨t, ht, hmem, fits_self hfits, fun hne => ⟨by omega, hfits.strided hne, fun x hx => ?_⟩⟩
  obtain ⟨k, _, hk, hx⟩ := (hmem x).mp hx
  exact mem_iff.mpr ⟨k, by omega, hx⟩

theorem tiles_one {Q : DataRegion → Prop} (h : Q r) : Tiles Mem Q (OrdSet.ofList [r]) r.Mem :=
  (Tiles.singleton h).of_mem_iff fun t => by rw [OrdSet.mem_ofList, List.mem_singleton, OrdSet.mem_singleton]

/-- In one of the blocks of `c` that come before the block with a number. -/
def InBefore (c : DataRegion) (idx x : Nat) : Prop := ∃ k, k < idx ∧ (c.repetition k).Mem x

/-- In one of the blocks that are merged: those of `c` from a number on, and as many of `i` from the first on. -/
def InMerged (c i : DataRegion) (idx reps x : Nat) : Prop :=
  (∃ k, idx ≤ k ∧ k ≤ idx + reps ∧ (c.repetition k).Mem x) ∨ ∃ k, k ≤ reps ∧ (i.repetition k).Mem x

/-- In one of the blocks that come after these. -/
def InAfter (c i : DataRegion) (idx reps x : Nat) : Prop :=
  (∃ k, idx + reps < k ∧ k ≤ c.reps ∧ (c.repetition k).Mem x) ∨ ∃ k, reps < k ∧ k ≤ i.reps ∧ (i.repetition k).Mem x

theorem mergeBefore_spec (hc : c.Fits c.stride) (hidx : idx ≤ c.reps) : ∃ l, c.mergeBefore idx = .ok l ∧
    Tiles Mem (PieceOf c i) (OrdSet.ofList l) (c.InBefore idx) ∧
    ∀ r ∈ l, ¬c < r := by
  unfold mergeBefore
  split
  next hpos =>
    obtain ⟨t, ht, hmem, hfits, hpart⟩ := some_reps hc (Nat.zero_le (idx - 1)) (by omega)
    rw [Nat.zero_mul, Nat.add_zero, Nat.add_zero, Nat.sub_zero] at ht
    rw [ht]
    refine ⟨[t], rfl, (tiles_one ⟨hfits, fun hne => Or.inl (hpart hne)⟩).congr fun x => (hmem x).trans ?_,
      fun r hr hlt => ?_⟩
    · constructor
      · rintro ⟨k, _, hk, hx⟩
        exact ⟨k, by omega, hx⟩
      · rintro ⟨k, hk, hx⟩
        exact ⟨k, Nat.zero_le k, by omega, hx⟩
    · cases List.mem_singleton.mp hr
      have hgap := c.stride_pos (by omega)
      unfold make at ht
      rw [if_neg (by omega)] at ht
      split at ht
      next =>
        rw [ofBlock_eq c.block] at ht
        cases Except.ok.inj ht
        rcases lt_cases hlt with h | ⟨_, h | ⟨_, h | ⟨h, _⟩⟩⟩
        · exact Nat.lt_irrefl _ h
        · exact Nat.lt_irrefl _ h
        · exact Nat.not_lt_zero _ h
        · change c.reps = 0 at h
          omega
      next =>
        split at ht
        next =>
          cases Except.ok.inj ht
          rcases lt_cases hlt with h | ⟨_, h | ⟨_, h | ⟨h, _⟩⟩⟩
          · exact Nat.lt_irrefl _ h
          · exact Nat.lt_irrefl _ h
          · change c.reps < idx - 1 at h
            omega
          · change c.reps = idx - 1 at h
            omega
        next => cases ht
  next hpos =>
    refine ⟨[], rfl, Tiles.empty.congr fun x => ⟨False.elim, ?_⟩, fun _ hr => absurd hr List.not_mem_nil⟩
    rintro ⟨k, hk, _⟩
    omega

theorem mergeAfter_spec (hc : c.Fits c.stride) (hi : i.Fits i.stride) (hidx : idx ≤ c.reps)
    (hreps : reps = min (c.reps - idx) i.reps) : ∃ l, c.mergeAfter i idx reps = .ok l ∧
    Tiles Mem (PieceOf c i) (OrdSet.ofList l) (c.InAfter i idx reps) := by
  unfold mergeAfter
  split
  next hlt =>
    obtain ⟨t, ht, hmem, hfits, hpart⟩ := some_reps hc (show idx + reps + 1 ≤ c.reps by omega) (Nat.le_refl _)
    dsimp only
    rw [ht]
    refine ⟨[t], rfl, (tiles_one ⟨hfits, fun hne => Or.inl (hpart hne)⟩).congr fun x => (hmem x).trans ?_⟩
    refine Iff.symm (or_iff_left ?_)
    rintro ⟨k, hk, hk', _⟩
    omega
  next hge =>
    split
    next hlt =>
      obtain ⟨t, ht, hmem, hfits, hpart⟩ := some_reps hi (show reps + 1 ≤ i.reps by omega) (Nat.le_refl _)
      dsimp only
      rw [ht]
      refine ⟨[t], rfl, (tiles_one ⟨hfits, fun hne => Or.inr (Or.inl (hpart hne))⟩).congr fun x => (hmem x).trans ?_⟩
      refine Iff.symm (or_iff_right ?_)
      rintro ⟨k, hk, hk', _⟩
      omega
    next hge' =>
      refine ⟨[], rfl, Tiles.empty.congr fun x => ⟨False.elim, ?_⟩⟩
      rintro (⟨k, hk, hk', _⟩ | ⟨k, hk, hk', _⟩)
      · omega
      · omega

/-- The regions that were put in place of two stand for both. One of them has blocks of each, and none that comes
after the first region ends with it. -/
structure Replaces (Q : DataRegion → Prop) (c i : DataRegion) (ms : List DataRegion) : Prop where
  tiles : Tiles Mem Q (OrdSet.ofList ms) fun x => c.Mem x ∨ i.Mem x
  joins : ∃ m ∈ ms, (∃ x, m.Mem x ∧ c.Mem x) ∧ ∃ x, m.Mem x ∧ i.Mem x
  later : ∀ m ∈ ms, c < m → c.stop < m.stop

theorem mem_of_repetition {k : Nat} (hk : k ≤ r.reps) (hx : (r.repetition k).Mem x) : r.Mem x :=
  mem_iff.mpr ⟨k, hk, hx⟩

/-- The merged blocks are those of the two regions, if their strides are the same where there is more than one. -/
theorem inMerged_iff (hs : reps ≠ 0 → c.stride = i.stride) : c.InMerged i idx reps x ↔
    InBlocks (c.start + idx * c.stride) (c.stop + idx * c.stride) c.stride reps x ∨
      InBlocks i.start i.stop c.stride reps x := by
  refine or_congr ?_ ?_
  · have hfrom := InBlocks.from_iff (a := c.start) (b := c.stop) (s := c.stride) (x := x) (Nat.le_add_right idx reps)
    rw [Nat.add_sub_cancel_left] at hfrom
    simp only [mem_repetition]
    exact hfrom.symm
  · simp only [mem_repetition]
    by_cases hzero : reps = 0
    · rw [hzero, InBlocks.zero_iff]
      constructor
      · rintro ⟨k, hk, hx⟩
        rw [Nat.le_zero.mp hk] at hx
        omega
      · exact fun hx => ⟨0, Nat.le_refl 0, by omega⟩
    · rw [hs hzero]
      rfl

theorem InMerged.not_before (hd : ∀ x, c.Mem x → ¬i.Mem x) (hidx : idx ≤ c.reps)
    (hreps : min (c.reps - idx) i.reps = reps) (h : c.InMerged i idx reps x) : ¬c.InBefore idx x := by
  rintro ⟨k, hk, hxk⟩
  rcases h with ⟨l, hl, hl', hxl⟩ | ⟨l, hl, hxl⟩
  · have heq := repetition_unique (by omega) (by omega) hxl hxk
    omega
  · exact hd x (mem_of_repetition (by omega) hxk) (mem_of_repetition (by omega) hxl)

theorem InAfter.not_earlier (hd : ∀ x, c.Mem x → ¬i.Mem x) (hidx : idx ≤ c.reps)
    (hreps : min (c.reps - idx) i.reps = reps) (h : c.InAfter i idx reps x) :
    ¬c.InMerged i idx reps x ∧ ¬c.InBefore idx x := by
  rcases h with ⟨k, hk, hk', hxk⟩ | ⟨k, hk, hk', hxk⟩
  · refine ⟨?_, ?_⟩
    · rintro (⟨l, hl, hl', hxl⟩ | ⟨l, hl, hxl⟩)
      · have heq := repetition_unique (by omega) (by omega) hxl hxk
        omega
      · exact hd x (mem_of_repetition hk' hxk) (mem_of_repetition (by omega) hxl)
    · rintro ⟨l, hl, hxl⟩
      have heq := repetition_unique (by omega) (by omega) hxl hxk
      omega
  · refine ⟨?_, ?_⟩
    · rintro (⟨l, hl, hl', hxl⟩ | ⟨l, hl, hxl⟩)
      · exact hd x (mem_of_repetition (by omega) hxl) (mem_of_repetition hk' hxk)
      · have heq := repetition_unique (by omega) (by omega) hxl hxk
        omega
    · rintro ⟨l, hl, hxl⟩
      exact hd x (mem_of_repetition (by omega) hxl) (mem_of_repetition hk' hxk)

/-- All blocks of the two regions are before the merged ones, among them or after them. -/
theorem inMerged_cover (hidx : idx ≤ c.reps) (hreps : min (c.reps - idx) i.reps = reps) :
    (c.InMerged i idx reps x ∨ c.InBefore idx x) ∨ c.InAfter i idx reps x ↔ c.Mem x ∨ i.Mem x := by
  rw [mem_iff (a := c), mem_iff (a := i)]
  constructor
  · rintro (((⟨k, _, hk, hx⟩ | ⟨k, hk, hx⟩) | ⟨k, hk, hx⟩) | ⟨k, _, hk, hx⟩ | ⟨k, _, hk, hx⟩)
    · exact Or.inl ⟨k, by omega, hx⟩
    · exact Or.inr ⟨k, by omega, hx⟩
    · exact Or.inl ⟨k, by omega, hx⟩
    · exact Or.inl ⟨k, hk, hx⟩
    · exact Or.inr ⟨k, hk, hx⟩
  · rintro (⟨k, hk, hx⟩ | ⟨k, hk, hx⟩)
    · rcases Nat.lt_or_ge k idx with hlt | hge
      · exact Or.inl (Or.inr ⟨k, hlt, hx⟩)
      · rcases Nat.lt_or_ge (idx + reps) k with hlt | hge'
        · exact Or.inr (Or.inl ⟨k, hlt, hk, hx⟩)
        · exact Or.inl (Or.inl (Or.inl ⟨k, hge, hge', hx⟩))
    · rcases Nat.lt_or_ge reps k with hlt | hge
      · exact Or.inr (Or.inr ⟨k, hlt, hk, hx⟩)
      · exact Or.inl (Or.inl (Or.inr ⟨k, hge, hx⟩))

/-- What comes after the merged blocks ends past the first block of the first region. -/
theorem InAfter.stop_lt (hstart : c.stop < i.start) (h : c.InAfter i idx reps x) : c.stop < x := by
  rcases h with ⟨k, hk, hk', hx⟩ | ⟨k, _, _, hx⟩
  · have hlo := (mem_repetition.mp hx).1
    have hgap := c.lt_stride (by omega)
    have hmul := Nat.le_mul_of_pos_left c.stride (show 0 < k by omega)
    omega
  · have hlo := (mem_repetition.mp hx).1
    omega

theorem mergeAt_spec (hc : c.Fits c.stride) (hi : i.Fits i.stride) (hd : ∀ x, c.Mem x → ¬i.Mem x)
    (hstart : c.stop < i.start) (hidx : idx ≤ c.reps) (hs : idx < c.reps → i.reps ≠ 0 → c.stride = i.stride)
    (hfs : first ≤ second) (hend : second + min (c.reps - idx) i.reps * c.stride ≤ sizeMax)
    (hgap : min (c.reps - idx) i.reps = 0 ∨ second < first + c.stride) (hstop : c.stop < second)
    (hjoin : ∀ {n x}, InBlocks first second c.stride n x ↔
      InBlocks (c.start + idx * c.stride) (c.stop + idx * c.stride) c.stride n x ∨ InBlocks i.start i.stop c.stride n x) :
    ∃ ms, c.mergeAt i idx first second = .ok ms ∧ Replaces (PieceOf c i) c i ms := by
  have hsub : sizeSub c.reps idx = c.reps - idx := if_pos hidx
  unfold mergeAt
  rw [hsub]
  dsimp only
  generalize hn : min (c.reps - idx) i.reps = n at *
  have hboth : n ≠ 0 → c.reps ≠ 0 ∧ i.reps ≠ 0 ∧ c.stride = i.stride := fun hne =>
    ⟨by omega, by omega, hs (by omega) (by omega)⟩
  have hgap' : n = 0 ∨ c.stride ≠ sizeMax ∧ second < first + c.stride := by
    by_cases hzero : n = 0
    · exact Or.inl hzero
    · have hshape := c.shape
      have hcr := (hboth hzero).1
      exact Or.inr ⟨by omega, hgap.resolve_left hzero⟩
  obtain ⟨m, hm, hmem, hfits, hreps⟩ := make_spec hfs hend hgap'
  obtain ⟨before, hbefore, hbtiles, hearly⟩ := mergeBefore_spec (i := i) hc hidx
  obtain ⟨after, hafter, hatiles⟩ := mergeAfter_spec hc hi hidx hn.symm
  rw [hm, Except.ok_bind, hbefore, Except.ok_bind, hafter, Except.ok_bind]
  have hmerged : ∀ x, m.Mem x ↔ c.InMerged i idx n x := fun x =>
    ((hmem x).trans hjoin).trans (inMerged_iff fun hne => (hboth hne).2.2).symm
  have hpiece : PieceOf c i m := ⟨fits_self hfits, fun hne => Or.inr (Or.inr (by
    obtain ⟨hcr, hir, heq⟩ := hboth (by omega)
    exact ⟨hcr, hir, heq, hfits.strided hne⟩))⟩
  have hearlier := (tiles_one hpiece).merge hbtiles fun x hx =>
    ((hmerged x).mp hx).not_before hd hidx hn
  have htiles := hearlier.merge hatiles fun x hx hx' =>
    hx.elim (fun hx => (hx'.not_earlier hd hidx hn).1 ((hmerged x).mp hx)) (hx'.not_earlier hd hidx hn).2
  refine ⟨_, rfl, (htiles.of_mem_iff fun r => ?_).congr fun x => ?_, ⟨m, List.mem_cons_self, ?_, ?_⟩, fun r hr hlt => ?_⟩
  · simp only [OrdSet.mem_ofList, OrdSet.mem_merge, List.mem_cons, List.mem_append, List.not_mem_nil, or_false, or_assoc]
  · rw [hmerged]
    exact inMerged_cover hidx hn
  · have hx : (c.repetition idx).Mem (c.start + idx * c.stride) := (c.repetition idx).start_mem
    exact ⟨_, (hmerged _).mpr (Or.inl ⟨idx, Nat.le_refl _, by omega, hx⟩), mem_of_repetition hidx hx⟩
  · have hx : (i.repetition 0).Mem (i.start + 0 * i.stride) := (i.repetition 0).start_mem
    exact ⟨_, (hmerged _).mpr (Or.inr ⟨0, Nat.zero_le _, hx⟩), mem_of_repetition (Nat.zero_le _) hx⟩
  · rcases List.mem_cons.mp hr with rfl | hr
    · exact lt_of_lt_of_le hstop (le_make_stop hm)
    · rcases List.mem_append.mp hr with hr | hr
      · exact absurd hlt (hearly r hr)
      · exact lt_of_lt_of_le ((hatiles.part (OrdSet.mem_ofList.mpr hr) r.start_mem).stop_lt hstart) r.block

theorem sizeSub_eq {a b : Nat} (h : b ≤ a) : sizeSub a b = a - b := if_pos h

theorem past_first_block (hlt : c < i) (hd : ∀ x, c.Mem x → ¬i.Mem x) : c.stop < i.start := by
  have hle := start_le_of_lt hlt
  by_contra hin
  exact hd i.start ⟨0, Nat.zero_le _, by omega, by omega⟩ i.start_mem

/-- A block of the first region and the first block of the second are apart. -/
theorem not_mem_first {k : Nat} (hd : ∀ x, c.Mem x → ¬i.Mem x) (hk : k ≤ c.reps) (hlo : c.start + k * c.stride ≤ x)
    (hhi : x ≤ c.stop + k * c.stride) : ¬(i.start ≤ x ∧ x ≤ i.stop) :=
  fun hx => hd x ⟨k, hk, hlo, hhi⟩ ⟨0, Nat.zero_le _, by omega, by omega⟩

/-- The second region starts right after a block of the first. -/
theorem mergeAt_end (hc : c.Fits c.stride) (hi : i.Fits i.stride) (hlt : c < i) (hd : ∀ x, c.Mem x → ¬i.Mem x)
    (hnear : i.start ≤ c.rangeEnd + 1)
    (hs : c.reps ≠ 0 → i.reps ≠ 0 → c.stride = i.stride ∨ c.rangeEnd < i.start)
    (hend : (i.start - 1 - c.stop) % c.stride = 0) : ∃ ms,
    c.mergeAt i ((i.start - 1 - c.stop) / c.stride)
      (sizeWrap (c.start + (i.start - 1 - c.stop) / c.stride * c.stride)) i.stop = .ok ms ∧
      Replaces (PieceOf c i) c i ms := by
  have hstart := past_first_block hlt hd
  have hcb := c.block
  have hib := i.block
  have hiend := hi.end_le
  have hrange := rangeEnd_eq hc
  have hdiv := Nat.div_add_mod' (i.start - 1 - c.stop) c.stride
  generalize (i.start - 1 - c.stop) / c.stride = idx at *
  have hidx : idx ≤ c.reps := Nat.le_of_mul_le_mul_right (show idx * c.stride ≤ c.reps * c.stride by omega) c.pos_stride
  have hgap : min (c.reps - idx) i.reps = 0 ∨ i.stop < c.start + idx * c.stride + c.stride := by
    by_contra hno
    obtain ⟨hne, hge⟩ := not_or.mp hno
    have hlts := c.lt_stride (by omega)
    have hmul : (idx + 1) * c.stride = idx * c.stride + c.stride := Nat.succ_mul idx c.stride
    exact not_mem_first hd (show idx + 1 ≤ c.reps by omega) (Nat.le_refl _) (by omega) ⟨by omega, by omega⟩
  have hstrides : idx < c.reps → i.reps ≠ 0 → c.stride = i.stride := fun hlt hir => by
    refine (hs (by omega) hir).resolve_right fun hpast => ?_
    have hstep := InBlocks.step_le (s := c.stride) hlt
    omega
  have hfit : i.stop + min (c.reps - idx) i.reps * c.stride ≤ sizeMax := by
    by_cases hzero : min (c.reps - idx) i.reps = 0
    · rw [hzero]
      omega
    · rw [hstrides (by omega) (by omega)]
      exact fits_reps hi (Nat.min_le_right _ _)
  rw [sizeWrap_eq (by omega)]
  exact mergeAt_spec hc hi hd hstart hidx hstrides (show c.start + idx * c.stride ≤ i.stop by omega) hfit hgap (by omega)
    fun {n x} => by
      rw [InBlocks.join (b := c.stop + idx * c.stride) (by omega) (by omega),
        show c.stop + idx * c.stride + 1 = i.start by omega]

/-- A block of the first region starts right after the first block of the second. -/
theorem mergeAt_start (hc : c.Fits c.stride) (hi : i.Fits i.stride) (hlt : c < i) (hd : ∀ x, c.Mem x → ¬i.Mem x)
    (hnear : i.start ≤ c.rangeEnd + 1)
    (hs : c.reps ≠ 0 → i.reps ≠ 0 → c.stride = i.stride ∨ c.rangeEnd < i.start)
    (hend : ¬(i.start - 1 - c.stop) % c.stride = 0)
    (hbegin : sizeSub (sizeWrap (i.stop + 1)) c.start % c.stride = 0) : ∃ ms,
    c.mergeAt i (sizeSub (sizeWrap (i.stop + 1)) c.start / c.stride) i.start
      (sizeWrap (c.stop + sizeSub (sizeWrap (i.stop + 1)) c.start / c.stride * c.stride)) = .ok ms ∧
      Replaces (PieceOf c i) c i ms := by
  have hstart := past_first_block hlt hd
  have hcb := c.block
  have hib := i.block
  have hcend := hc.end_le
  have hrange := rangeEnd_eq hc
  have hin : i.start ≤ c.rangeEnd := by
    by_contra hpast
    refine hend ?_
    rw [show i.start - 1 - c.stop = c.reps * c.stride by omega, Nat.mul_mod_left]
  have hcr : c.reps ≠ 0 := fun hzero => by
    rw [hzero] at hrange
    omega
  have hbefore : i.stop < c.start + c.reps * c.stride := by
    by_contra hge
    exact not_mem_first (x := max i.start (c.start + c.reps * c.stride)) hd (Nat.le_refl _) (by omega) (by omega)
      ⟨by omega, by omega⟩
  rw [sizeWrap_eq (show i.stop + 1 ≤ sizeMax by omega), sizeSub_eq (show c.start ≤ i.stop + 1 by omega)] at hbegin ⊢
  have hdiv := Nat.div_add_mod' (i.stop + 1 - c.start) c.stride
  generalize (i.stop + 1 - c.start) / c.stride = idx at *
  have hidx : idx ≤ c.reps := Nat.le_of_mul_le_mul_right (show idx * c.stride ≤ c.reps * c.stride by omega) c.pos_stride
  have hmul := Nat.mul_le_mul_right c.stride hidx
  have hpred : 1 ≤ idx := by
    by_contra hzero
    rw [show idx = 0 by omega] at hdiv
    omega
  have hsplit : idx * c.stride = (idx - 1) * c.stride + c.stride := by
    rw [← Nat.succ_mul, Nat.succ_eq_add_one, Nat.sub_add_cancel hpred]
  have hgap : c.stop + idx * c.stride < i.start + c.stride := by
    by_contra hge
    have hlts := c.stride_pos hcr
    exact not_mem_first (x := max i.start (c.start + (idx - 1) * c.stride)) hd (show idx - 1 ≤ c.reps by omega)
      (by omega) (by omega) ⟨by omega, by omega⟩
  have hfit : c.stop + idx * c.stride + min (c.reps - idx) i.reps * c.stride ≤ sizeMax := by
    have hreps := Nat.mul_le_mul_right c.stride (show idx + min (c.reps - idx) i.reps ≤ c.reps by omega)
    rw [Nat.add_mul] at hreps
    omega
  rw [sizeWrap_eq (by omega)]
  exact mergeAt_spec hc hi hd hstart hidx (fun _ hir => (hs hcr hir).resolve_right (by omega))
    (show i.start ≤ c.stop + idx * c.stride by omega) hfit (Or.inr hgap) (by omega) fun {n x} => by
      rw [InBlocks.join (b := i.stop) (by omega) (by omega), show i.stop + 1 = c.start + idx * c.stride by omega, or_comm]

/-- What is put in place of two regions that do not overlap, of which one comes no later than right after the other,
stands for both. -/
theorem mergePair_spec (hc : c.Fits c.stride) (hi : i.Fits i.stride) (hlt : c < i) (hd : ∀ x, c.Mem x → ¬i.Mem x)
    (hnear : i.start ≤ c.rangeEnd + 1)
    (hs : c.reps ≠ 0 → i.reps ≠ 0 → c.stride = i.stride ∨ c.rangeEnd < i.start) :
    ∃ o, c.mergePair i = .ok o ∧ ∀ ms, o = some ms → Replaces (PieceOf c i) c i ms := by
  have hstart := past_first_block hlt hd
  unfold mergePair
  rw [sizeSub_eq (show 1 ≤ i.start by omega), sizeSub_eq (show c.stop ≤ i.start - 1 by omega)]
  dsimp only
  split
  next hend =>
    obtain ⟨ms, hms, hrep⟩ := mergeAt_end hc hi hlt hd hnear hs hend
    rw [hms]
    exact ⟨some ms, rfl, fun ms' h => Option.some.inj h ▸ hrep⟩
  next hend =>
    split
    next hbegin =>
      obtain ⟨ms, hms, hrep⟩ := mergeAt_start hc hi hlt hd hnear hs hend hbegin
      rw [hms]
      exact ⟨some ms, rfl, fun ms' h => Option.some.inj h ▸ hrep⟩
    next => exact ⟨none, rfl, nofun⟩

theorem Replaces.not_mem {Q : DataRegion → Prop} {ms : List DataRegion} (h : Replaces Q c i ms)
    (hd : ∀ x, c.Mem x → ¬i.Mem x) : c ∉ ms ∧ i ∉ ms := by
  obtain ⟨m, hm, ⟨x, hx, hxc⟩, y, hy, hyi⟩ := h.joins
  replace hm := OrdSet.mem_ofList.mpr hm
  constructor
  · intro hin
    cases h.tiles.disjoint m hm c (OrdSet.mem_ofList.mpr hin) x hx hxc
    exact hd y hy hyi
  · intro hin
    cases h.tiles.disjoint m hm i (OrdSet.mem_ofList.mpr hin) y hy hyi
    exact hd x hxc hx

/-- Any two regions of a kind that do not overlap are merged into regions of that kind. -/
def Merges (Q : DataRegion → Prop) : Prop :=
  ∀ c i, Q c → Q i → c < i → (∀ x, c.Mem x → ¬i.Mem x) → i.start ≤ c.rangeEnd + 1 →
    ∃ o, c.mergePair i = .ok o ∧ ∀ ms, o = some ms → Replaces Q c i ms

theorem findMerge_spec {Q : DataRegion → Prop} {l : List DataRegion} (hQ : Merges Q) (hc : Q c)
    (hl : ∀ i ∈ l, Q i ∧ c < i ∧ ∀ x, c.Mem x → ¬i.Mem x) : ∃ o, c.findMerge l = .ok o ∧
      ∀ i ms, o = some (i, ms) → i ∈ l ∧ Replaces Q c i ms := by
  induction l with
  | nil => exact ⟨none, rfl, nofun⟩
  | cons i rest ih =>
    obtain ⟨hi, hlt, hd⟩ := hl i List.mem_cons_self
    obtain ⟨o, ho, hfound⟩ := ih fun r hr => hl r (List.mem_cons_of_mem _ hr)
    have hstart := past_first_block hlt hd
    unfold findMerge
    rw [sizeSub_eq (show 1 ≤ i.start by omega)]
    split
    next => exact ⟨none, rfl, nofun⟩
    next hnear =>
      obtain ⟨p, hp, hmerged⟩ := hQ c i hc hi hlt hd (by omega)
      rw [hp, Except.ok_bind]
      cases p with
      | some ms =>
        refine ⟨some (i, ms), rfl, fun i' ms' h => ?_⟩
        cases Option.some.inj h
        exact ⟨List.mem_cons_self, hmerged ms rfl⟩
      | none =>
        refine ⟨o, ho, fun i' ms' h => ?_⟩
        obtain ⟨hin, hrep⟩ := hfound i' ms' h
        exact ⟨List.mem_cons_of_mem _ hin, hrep⟩

end DataRegion

namespace RegionSubset

open DataRegion

variable {Q : DataRegion → Prop} {S : RegionSubset} {P : Nat → Prop}

/-- Merging goes on for no longer than there are indices, since the first block of the region that is checked ends
later each time. -/
theorem mergeFrom_spec {fuel : Nat} {o : Option DataRegion} (hQ : Merges Q) (hbound : ∀ r, Q r → r.stop ≤ sizeMax)
    (hs : Tiles Mem Q S P) (ho : ∀ c, o = some c → c ∈ S ∧ sizeMax < c.stop + fuel) :
    ∃ T, mergeFrom fuel S o = .ok T ∧ Tiles Mem Q T P := by
  induction fuel generalizing S o with
  | zero =>
    cases o with
    | none => exact ⟨S, rfl, hs⟩
    | some c =>
      obtain ⟨hc, hlt⟩ := ho c rfl
      have hle := hbound c (hs.all c hc)
      omega
  | succ fuel ih =>
    cases o with
    | none => exact ⟨S, rfl, hs⟩
    | some c =>
      obtain ⟨hc, hfuel⟩ := ho c rfl
      have hapart : ∀ i ∈ S, c < i → ∀ x, c.Mem x → ¬i.Mem x := fun i hi hlt x hx hx' =>
        ne_of_lt hlt (hs.disjoint c hc i hi x hx hx')
      have hlater : ∀ i ∈ S, c < i → c.stop < i.stop := fun i hi hlt =>
        lt_of_lt_of_le (past_first_block hlt (hapart i hi hlt)) i.block
      obtain ⟨found, hfound, hrep⟩ := findMerge_spec hQ (hs.all c hc) fun i hi => by
        obtain ⟨hi, hlt⟩ := OrdSet.mem_after.mp hi
        exact ⟨hs.all i hi, hlt, hapart i hi hlt⟩
      unfold mergeFrom
      rw [hfound, Except.ok_bind]
      cases found with
      | none =>
        refine ih hs fun y hy => ?_
        obtain ⟨hy, hlt⟩ := OrdSet.next_mem hy
        have hgrows := hlater y hy hlt
        exact ⟨hy, by omega⟩
      | some found =>
        obtain ⟨i, ms⟩ := found
        obtain ⟨hi, hrep⟩ := hrep i ms rfl
        obtain ⟨hi, hlt⟩ := OrdSet.mem_after.mp hi
        obtain ⟨hcnot, hinot⟩ := hrep.not_mem (hapart i hi hlt)
        have hleft := (hs.erase hc).erase (r := i) (OrdSet.mem_erase.mpr ⟨hi, (ne_of_lt hlt).symm⟩)
        have hmerged := hleft.merge hrep.tiles fun x hx hx' => hx'.elim hx.1.2 hx.2
        have htiles : Tiles Mem Q (((S.erase c).erase i).merge (OrdSet.ofList ms)) P := hmerged.congr fun x => by
          have hcP : c.Mem x → P x := hs.part hc
          have hiP : i.Mem x → P x := hs.part hi
          tauto
        refine ih (htiles.of_mem_iff fun r => ?_) fun y hy => ?_
        · simp only [OrdSet.mem_erase, OrdSet.mem_merge, OrdSet.mem_ofList]
          have hrc : r ∈ ms → r ≠ c := fun hr heq => hcnot (heq ▸ hr)
          have hri : r ∈ ms → r ≠ i := fun hr heq => hinot (heq ▸ hr)
          tauto
        · obtain ⟨hy, hlty⟩ := OrdSet.next_mem hy
          refine ⟨OrdSet.mem_erase.mpr ⟨hy, (ne_of_lt hlty).symm⟩, ?_⟩
          have hgrows : c.stop < y.stop := by
            rcases OrdSet.mem_merge.mp (OrdSet.mem_erase.mp hy).1 with hy | hy
            · exact hlater y hy hlty
            · exact hrep.later y (OrdSet.mem_ofList.mp hy) hlty
          omega

/-- Merging regions that touch changes none of the indices. -/
theorem mergeRegions_spec (hQ : Merges Q) (hbound : ∀ r, Q r → r.stop ≤ sizeMax) (hs : Tiles Mem Q S P) :
    ∃ T, S.mergeRegions = .ok T ∧ Tiles Mem Q T P :=
  mergeFrom_spec hQ hbound hs fun c hc => ⟨OrdSet.first_mem hc, by omega⟩

/-- Regions of one stride stay so. -/
theorem merges_fits (s : Nat) : Merges (Fits s) := by
  intro c i hc hi hlt hd hnear
  obtain ⟨o, ho, hrep⟩ := mergePair_spec (fits_self hc) (fits_self hi) hlt hd hnear fun hcr hir =>
    Or.inl ((hc.strided hcr).trans (hi.strided hir).symm)
  refine ⟨o, ho, fun ms hms => ⟨⟨(hrep ms hms).tiles.cover, (hrep ms hms).tiles.disjoint, fun r hr => ?_⟩,
    (hrep ms hms).joins, (hrep ms hms).later⟩⟩
  have hpiece := (hrep ms hms).tiles.all r hr
  refine ⟨hpiece.fits.end_le, fun hne => ?_⟩
  rcases hpiece.strided hne with ⟨hcr, heq, _⟩ | ⟨hir, heq, _⟩ | ⟨hcr, _, _, heq⟩
  · rw [heq, hc.strided hcr]
  · rw [heq, hi.strided hir]
  · rw [heq, hc.strided hcr]

end RegionSubset

end Fenix
