import Fenix.DataRegionMerge

namespace Fenix

open DataRegion

variable {a b r t inv : DataRegion} {s u n x lo hi : Nat} {P P' : Nat → Prop}

namespace DataRegion

/-- There is room for one more repetition of a region. -/
def Short (r : DataRegion) : Prop := r.reps ≠ 0 → r.stride * (r.reps + 1) ≤ sizeMax

/-- Tiles that do not wrap around. -/
abbrev ShortTiles (s : Nat) (S : OrdSet DataRegion) (P : Nat → Prop) : Prop :=
  Tiles Mem (fun r => r.Fits s ∧ r.Short) S P

theorem short_of_le (hr : r.Fits s) (hstride : t.stride = r.stride) (hreps : t.reps + 1 ≤ r.reps) : t.Short := by
  intro _
  have hmul := Nat.mul_le_mul_left r.stride hreps
  have hend := hr.end_le
  rw [Nat.mul_comm r.reps] at hend
  rw [hstride]
  omega

theorem RowIn.short_of_short (h : r.RowIn t lo hi) (hr : r.Short) : t.Short := by
  obtain ⟨m, _, hstride, hreps, _⟩ := h
  intro hne
  rw [hstride]
  exact (Nat.mul_le_mul_left r.stride (by omega)).trans (hr (by omega))

/-- Repetitions that are not all of a region leave room for one more. -/
theorem RowIn.short (h : r.RowIn t lo hi) (hr : r.Fits s) (hless : r.start < lo ∨ hi < r.rangeEnd) : t.Short := by
  obtain ⟨m, _, hstride, hreps, hlo, hhi⟩ := h
  refine short_of_le hr hstride ?_
  rcases hless with hless | hless
  · have hpos : m ≠ 0 := by
      rintro rfl
      omega
    omega
  · by_contra hall
    have heq : m + t.reps = r.reps := by omega
    rw [rangeEnd_eq hr] at hless
    rw [heq] at hhi
    omega

theorem Tiles.apart {S : OrdSet DataRegion} (h : StrideTiles s S P) (hshort : ∀ r ∈ S, r.Short) : Apart S := by
  intro v hv w hw hlt
  refine ⟨lt_of_le_of_ne (start_le_of_lt hlt) fun heq => ?_, fun hne => Or.inl (hshort v hv hne)⟩
  have hmem := w.start_mem
  rw [← heq] at hmem
  exact ne_of_lt hlt (h.disjoint v hv w hw v.start v.start_mem hmem)

/-- The gaps of a strided region are all that is between its ends and not in it. -/
theorem inverted_spec (hb : b.Fits s) (hrb : b.reps ≠ 0) : ∃ inv, b.inverted = .ok inv ∧ inv.Fits s ∧
    (∀ x, inv.Mem x ↔ (b.start ≤ x ∧ x ≤ b.rangeEnd) ∧ ¬b.Mem x) ∧ inv.Short := by
  have hgap := b.stride_pos hrb
  have hblock := b.block
  have hend := hb.end_le
  have hshape := b.shape
  have hmax := reps_ne_max hb
  have hsucc : b.reps - 1 + 1 = b.reps := by omega
  have hmul : b.reps * b.stride = (b.reps - 1) * b.stride + b.stride := by rw [← Nat.succ_mul, Nat.succ_eq_add_one, hsucc]
  unfold inverted
  rw [if_neg hrb, sizeDiff_eq (by omega), Except.ok_bind, if_neg hmax, sizeDiff_eq (by omega), Except.ok_bind]
  obtain ⟨inv, hinv, hmem, hfits, hreps⟩ := make_spec (show b.stop + 1 ≤ b.start + b.stride - 1 by omega)
    (show _ + (b.reps - 1) * b.stride ≤ sizeMax by omega) (Or.inr (by omega))
  refine ⟨inv, hinv, hb.strided hrb ▸ hfits, fun x => (hmem x).trans ?_, fun hne =>
    short_of_le hb (hfits.strided hne) (by omega) hne⟩
  rw [rangeEnd_eq hb]
  have hgaps : ∀ h : b.start ≤ x ∧ x ≤ b.stop + b.reps * b.stride,
      (InBlocks (b.stop + 1) (b.start + b.stride - 1) b.stride (b.reps - 1) x ↔ ¬b.Mem x) := fun h => by
    have hiff := InBlocks.gap_iff hblock (b.lt_stride hrb) h.1 (n := b.reps - 1) (by rw [hsucc]; exact h.2)
    rwa [hsucc] at hiff
  constructor
  · intro hx
    have hlo := hx.lower
    have hhi := hx.upper
    have hin : b.start ≤ x ∧ x ≤ b.stop + b.reps * b.stride := ⟨by omega, by omega⟩
    exact ⟨hin, (hgaps hin).mp hx⟩
  · exact fun hx => (hgaps hx.1).mpr hx.2

theorem repetition_shift {k j : Nat} : (a.repetition (k + j)).Mem (x + j * a.stride) ↔ (a.repetition k).Mem x := by
  rw [mem_repetition, mem_repetition, Nat.add_mul]
  omega

/-- A strided region is longer than its stride. -/
theorem block_of_short (hr : r.Fits s) {lo hi : Nat} (hin : ∀ x, r.Mem x → lo ≤ x ∧ x ≤ hi) (hlen : hi < lo + s) :
    r.reps = 0 := by
  by_contra hne
  have hblock := r.block
  have hlo := (hin r.start r.start_mem).1
  have hhi := (hin (r.start + 1 * r.stride) ⟨1, by omega, by omega, by omega⟩).2
  rw [hr.strided hne] at hhi
  omega

/-- What is left of one repetition in the middle, repeated as often as that repetition. -/
theorem repeat_spec (ha : a.Fits s) (hra : 1 < a.reps) (hr : r.Fits s)
    (hin : ∀ x, r.Mem x → (a.repetition 1).Mem x) :
    ∃ m, (if r.reps ≠ 0 then .error .assertion else make r.start r.stop (a.reps - 2) s) = (.ok m : Except Abort DataRegion) ∧
      (m.Fits s ∧ m.Short) ∧ ∀ x, m.Mem x ↔ ∃ j y, j ≤ a.reps - 2 ∧ r.Mem y ∧ x = y + j * s := by
  have hlt := a.lt_stride (by omega)
  have hshape := a.shape
  have hend := end_le_stride ha
  rw [ha.strided (by omega)] at hlt hshape
  have hrep : ∀ x, r.Mem x → a.start + s ≤ x ∧ x ≤ a.stop + s := fun x hx => by
    have hx := mem_repetition.mp (hin x hx)
    rwa [ha.strided (by omega), Nat.one_mul] at hx
  have hblock := block_of_short hr hrep (by omega)
  have hlo := (hrep r.start r.start_mem).1
  have hhi := (hrep r.stop ((mem_block hblock).mpr ⟨r.block, Nat.le_refl _⟩)).2
  have hmul : a.reps * s = (a.reps - 2) * s + 2 * s := by rw [← Nat.add_mul, Nat.sub_add_cancel hra]
  obtain ⟨m, hm, hmem, hfits, hreps⟩ := make_spec r.block (show _ + (a.reps - 2) * s ≤ sizeMax by omega) (Or.inr (by omega))
  rw [if_neg (not_not.mpr hblock)]
  refine ⟨m, hm, ⟨hfits, fun hne => short_of_le ha ?_ (by omega) hne⟩, fun x => (hmem x).trans ?_⟩
  · exact (hfits.strided hne).trans (ha.strided (by omega)).symm
  constructor
  · rintro ⟨j, hj, hxlo, hxhi⟩
    exact ⟨j, x - j * s, hj, (mem_block hblock).mpr (by omega), by omega⟩
  · rintro ⟨j, y, hj, hy, rfl⟩
    have hy := (mem_block hblock).mp hy
    exact ⟨j, hj, by omega, by omega⟩

/-- What a row of gaps leaves of a block. It is strided only if there are two gaps in the block. -/
theorem interGaps_spec (hr : r.Fits s) (hzero : r.reps = 0) (hinv : inv.Fits s) (hshort : inv.Short) :
    ∃ T, r.inter inv = .ok T ∧ (ShortTiles s T fun x => r.Mem x ∧ inv.Mem x) ∧
      ∀ t ∈ T, t.reps ≠ 0 → inv.TwoIn r.start r.stop := by
  obtain ⟨T, hT, htiles, _, hrows⟩ := inter_spec hr hinv (Or.inl hzero)
  have hrow : ∀ t ∈ T, t.reps ≠ 0 → inv.RowIn t r.start r.stop := fun t ht hne => by
    rcases hrows t ht hne with ⟨m, _, _, hreps, _⟩ | hrow
    · omega
    · exact hrow
  exact ⟨T, hT, htiles.imp fun t ht hfits => ⟨hfits, fun hne => (hrow t ht hne).short_of_short hshort hne⟩,
    fun t ht hne => (hrow t ht hne).twoIn hne⟩

/-- What a row of gaps leaves of the repetitions between the first and the last, given what it leaves of the
second. -/
theorem middle_spec {V : OrdSet DataRegion} (ha : a.Fits s) (hra : 1 < a.reps)
    (hV : StrideTiles s V fun x => (a.repetition 1).Mem x ∧ inv.Mem x)
    (hper : ∀ x j, (a.repetition 1).Mem x → j ≤ a.reps - 2 → (inv.Mem (x + j * s) ↔ inv.Mem x)) :
    ∃ ms, (V.entries.mapM fun block =>
        if block.reps ≠ 0 then .error .assertion else make block.start block.stop (a.reps - 2) s) =
          (.ok ms : Except Abort (List DataRegion)) ∧
      ShortTiles s (OrdSet.ofList ms) fun x => (∃ k, 1 ≤ k ∧ k < a.reps ∧ (a.repetition k).Mem x) ∧ inv.Mem x := by
  have hs := ha.strided (show a.reps ≠ 0 by omega)
  have hspec := fun r (hr : r ∈ V.entries) => repeat_spec ha hra (hV.all r hr) fun x hx => (hV.part hr hx).1
  obtain ⟨ms, hms, hmem⟩ := List.mapM_ok_of_forall fun r hr => (hspec r hr).imp fun m hm => hm.1
  have hparts : ∀ m ∈ OrdSet.ofList ms, ∃ r ∈ V,
      (if r.reps ≠ 0 then .error .assertion else make r.start r.stop (a.reps - 2) s) = (.ok m : Except Abort DataRegion) ∧
      (m.Fits s ∧ m.Short) ∧ ∀ x, m.Mem x ↔ ∃ j y, j ≤ a.reps - 2 ∧ r.Mem y ∧ x = y + j * s := fun m hm => by
    obtain ⟨r, hr, hm⟩ := (hmem m).mp (OrdSet.mem_ofList.mp hm)
    obtain ⟨m', hm', hspec⟩ := hspec r hr
    cases Except.ok.inj (hm.symm.trans hm')
    exact ⟨r, hr, hm, hspec⟩
  have hshift : ∀ {r x j y}, r ∈ V → r.Mem y → x = y + j * s → (a.repetition (1 + j)).Mem x := by
    intro r x j y hr hy hx
    rw [hx, ← hs]
    exact repetition_shift.mpr (hV.part hr hy).1
  refine ⟨ms, hms, fun x => ?_, fun m hm m' hm' x hx hx' => ?_, fun m hm => ?_⟩
  · constructor
    · rintro ⟨m, hm, hx⟩
      obtain ⟨r, hr, _, _, hiff⟩ := hparts m hm
      obtain ⟨j, y, hj, hy, rfl⟩ := (hiff x).mp hx
      obtain ⟨hrep, hinv⟩ := hV.part hr hy
      exact ⟨⟨1 + j, by omega, by omega, hshift hr hy rfl⟩, (hper y j hrep hj).mpr hinv⟩
    · rintro ⟨⟨k, hk, hk', hx⟩, hinv⟩
      obtain ⟨j, rfl⟩ := Nat.exists_eq_add_of_le hk
      have hlo := (mem_repetition.mp hx).1
      rw [Nat.add_mul] at hlo
      obtain ⟨y, rfl⟩ : ∃ y, x = y + j * a.stride := ⟨x - j * a.stride, by omega⟩
      have hrep := repetition_shift.mp hx
      rw [hs] at hinv ⊢
      obtain ⟨r, hr, hy⟩ := (hV.cover y).mpr ⟨hrep, (hper y j hrep (by omega)).mp hinv⟩
      obtain ⟨m, hm, _, hiff⟩ := hspec r hr
      exact ⟨m, OrdSet.mem_ofList.mpr ((hmem m).mpr ⟨r, hr, hm⟩), (hiff _).mpr ⟨j, y, by omega, hy, rfl⟩⟩
  · obtain ⟨r, hr, hrm, _, hiff⟩ := hparts m hm
    obtain ⟨r', hr', hrm', _, hiff'⟩ := hparts m' hm'
    obtain ⟨j, y, _, hy, heq⟩ := (hiff x).mp hx
    obtain ⟨j', y', _, hy', heq'⟩ := (hiff' x).mp hx'
    have hrep := repetition_eq (by omega) (hshift hr hy heq)
    have hrep' := repetition_eq (by omega) (hshift hr' hy' heq')
    have hjj : j = j' := by omega
    subst hjj
    have hyy : y = y' := by omega
    subst hyy
    cases hV.disjoint r hr r' hr' y hy hy'
    exact Except.ok.inj (hrm.symm.trans hrm')
  · obtain ⟨_, _, _, hfits, _⟩ := hparts m hm
    exact hfits

/-- What a row of gaps leaves of a row of blocks with the same stride that are in its range. -/
theorem subStrided_spec (ha : a.Fits s) (hra : a.reps ≠ 0) (hinv : inv.Fits s) (hshort : inv.Short)
    (hper : ∀ x j, (a.repetition 1).Mem x → 1 < a.reps → j ≤ a.reps - 2 → (inv.Mem (x + j * s) ↔ inv.Mem x)) :
    ∃ S, a.subStrided inv s = .ok S ∧ ShortTiles s S fun x => a.Mem x ∧ inv.Mem x := by
  have hone : ∀ {x k l}, (a.repetition k).Mem x → (a.repetition l).Mem x → k = l := fun hk hl =>
    (repetition_eq hra hk).symm.trans (repetition_eq hra hl)
  obtain ⟨F, hF, hfirst, _⟩ := interGaps_spec (repetition_fits ha (Nat.zero_le _)) rfl hinv hshort
  obtain ⟨L, hL, hlast, _⟩ := interGaps_spec (repetition_fits ha (Nat.le_refl _)) rfl hinv hshort
  unfold subStrided
  rw [getRep_eq (Nat.zero_le _), Except.ok_bind, hF, Except.ok_bind, getRep_eq (Nat.le_refl _), Except.ok_bind, hL,
    Except.ok_bind]
  split
  next hra' =>
    obtain ⟨V, hV, hvalid, _⟩ := inter_spec (repetition_fits ha (show 1 ≤ a.reps by omega)) hinv (Or.inl rfl)
    obtain ⟨ms, hms, hmiddle⟩ := middle_spec ha hra' hvalid fun x j hx hj => hper x j hx hra' hj
    rw [sizeDiff_eq hra', Except.ok_bind, getRep_eq (by omega), Except.ok_bind, hV, Except.ok_bind, hms,
      Except.ok_bind]
    refine ⟨_, rfl, ((hfirst.merge hmiddle fun x hx hx' => ?_).merge hlast fun x hx hx' => ?_).congr fun x => ?_⟩
    · obtain ⟨⟨k, hk, _, hxk⟩, _⟩ := hx'
      have heq := hone hx.1 hxk
      omega
    · rcases hx with hx | ⟨⟨k, _, hk, hxk⟩, _⟩
      · have heq := hone hx.1 hx'.1
        omega
      · have heq := hone hxk hx'.1
        omega
    · rw [mem_iff (a := a)]
      constructor
      · rintro ((⟨hx, hi⟩ | ⟨⟨k, _, hk, hx⟩, hi⟩) | ⟨hx, hi⟩)
        · exact ⟨⟨0, Nat.zero_le _, hx⟩, hi⟩
        · exact ⟨⟨k, by omega, hx⟩, hi⟩
        · exact ⟨⟨a.reps, Nat.le_refl _, hx⟩, hi⟩
      · rintro ⟨⟨k, hk, hx⟩, hi⟩
        rcases Nat.eq_zero_or_pos k with rfl | hpos
        · exact Or.inl (Or.inl ⟨hx, hi⟩)
        · rcases Nat.lt_or_eq_of_le hk with hlt | rfl
          · exact Or.inl (Or.inr ⟨⟨k, hpos, hlt, hx⟩, hi⟩)
          · exact Or.inr ⟨hx, hi⟩
  next hra' =>
    have hreps : a.reps = 1 := by omega
    refine ⟨_, rfl, (hfirst.merge hlast fun x hx hx' => ?_).congr fun x => ?_⟩
    · have heq := hone hx.1 hx'.1
      omega
    · rw [mem_iff (a := a)]
      constructor
      · rintro (⟨hx, hi⟩ | ⟨hx, hi⟩)
        · exact ⟨⟨0, Nat.zero_le _, hx⟩, hi⟩
        · exact ⟨⟨a.reps, Nat.le_refl _, hx⟩, hi⟩
      · rintro ⟨⟨k, hk, hx⟩, hi⟩
        rcases Nat.eq_zero_or_pos k with rfl | hpos
        · exact Or.inl ⟨hx, hi⟩
        · have heq : k = a.reps := by omega
          exact Or.inr ⟨heq ▸ hx, hi⟩

theorem StrideTiles.blocks {S : OrdSet DataRegion} (h : StrideTiles s S P) (hb : ∀ r ∈ S, r.reps = 0) (u : Nat) :
    StrideTiles u S P :=
  h.imp fun r hr hfits => fits_block (hb r hr) (r.stop_le hfits)

theorem TwoIn.mono {lo' hi' : Nat} (h : r.TwoIn lo hi) (hlo : lo' ≤ lo) (hhi : hi ≤ hi') : r.TwoIn lo' hi' := by
  obtain ⟨k, hk, h, h'⟩ := h
  exact ⟨k, hk, by omega, by omega⟩

/-- Over the range of a strided region its gaps are periodic. -/
theorem inverted_periodic (hb : b.Fits s) (hrb : b.reps ≠ 0) {j : Nat}
    (hmem : ∀ x, inv.Mem x ↔ (b.start ≤ x ∧ x ≤ b.rangeEnd) ∧ ¬b.Mem x) (hx : b.start ≤ x ∧ x ≤ b.rangeEnd)
    (hx' : x + j * s ≤ b.rangeEnd) : inv.Mem (x + j * s) ↔ inv.Mem x := by
  have hlt := b.lt_stride hrb
  have hend := rangeEnd_eq hb
  rw [hb.strided hrb] at hlt hend
  rw [hmem, hmem, mem_iff_stride hb, mem_iff_stride hb, InBlocks.iff_mod b.block hlt hx.1 (by omega),
    InBlocks.iff_mod b.block hlt (by omega) (by omega), show x + j * s - b.start = x - b.start + j * s by omega,
    Nat.add_mul_mod_self_right]
  have hin : b.start ≤ x + j * s := by omega
  tauto

/-- Two gaps in a row of a strided region are in a block. -/
def SpansGaps (a b : DataRegion) : Prop := ∃ inv, b.inverted = .ok inv ∧ inv.TwoIn a.start a.stop

theorem mem_strided {S : OrdSet DataRegion} :
    r ∈ (S.entries.filter fun r => decide (r.reps ≠ 0)) ↔ r ∈ S ∧ r.reps ≠ 0 := by
  rw [List.mem_filter, decide_eq_true_iff]
  rfl

theorem mem_blocks {S : OrdSet DataRegion} :
    r ∈ (S.entries.filter fun r => decide (r.reps = 0)) ↔ r ∈ S ∧ r.reps = 0 := by
  rw [List.mem_filter, decide_eq_true_iff]
  rfl

theorem OneStrided.filter_cases {S : OrdSet DataRegion} (h : OneStrided S) :
    (S.entries.filter fun r => decide (r.reps ≠ 0)) = [] ∨
      ∃ r, (S.entries.filter fun r => decide (r.reps ≠ 0)) = [r] := by
  have hnodup := S.nodup.filter fun r => decide (r.reps ≠ 0)
  cases hlist : S.entries.filter fun r => decide (r.reps ≠ 0) with
  | nil => exact Or.inl rfl
  | cons r rs =>
    cases rs with
    | nil => exact Or.inr ⟨r, rfl⟩
    | cons t ts =>
      rw [hlist] at hnodup
      have hr := mem_strided.mp (show r ∈ S.entries.filter fun r => decide (r.reps ≠ 0) by rw [hlist]; simp)
      have ht := mem_strided.mp (show t ∈ S.entries.filter fun r => decide (r.reps ≠ 0) by rw [hlist]; simp)
      cases h r hr.1 t ht.1 hr.2 ht.2
      exact absurd List.mem_cons_self (List.nodup_cons.mp hnodup).1

/-- What gaps leave of a block of a region fits any stride that the region does, unless two gaps in a row are in
the region. -/
theorem interGaps_fits (hau : a.Fits u) (ha : a.Fits s) (hinv : b.inverted = .ok inv) (hfits : inv.Fits s)
    (hshort : inv.Short) (hu : u = s ∨ ¬a.SpansGaps b) (hr : r.Fits s) (hzero : r.reps = 0) (hin : ∀ x, r.Mem x → a.Mem x) :
    ∃ T, r.inter inv = .ok T ∧ ShortTiles u T fun x => r.Mem x ∧ inv.Mem x := by
  obtain ⟨T, hT, htiles, htwo⟩ := interGaps_spec hr hzero hfits hshort
  refine ⟨T, hT, ?_⟩
  rcases eq_or_ne u s with rfl | hne
  · exact htiles
  · refine htiles.imp fun t ht hfits => ⟨fits_block ?_ (t.stop_le hfits.1), hfits.2⟩
    by_contra hstrided
    have hblock : a.reps = 0 := by
      by_contra hra
      exact hne ((hau.strided hra).symm.trans (ha.strided hra))
    have hstart := (mem_block hblock).mp (hin _ r.start_mem)
    have hstop := (mem_block hblock).mp (hin _ ((mem_block hzero).mpr ⟨r.block, Nat.le_refl _⟩))
    exact hu.resolve_left hne ⟨inv, hinv, (htwo t ht hstrided).mono hstart.1 hstop.2⟩

/-- What is removed from a region over the range of a strided one is what the strided region has. What is left
is strided only if the region is, or has two gaps of the other in a row. -/
theorem subMiddle_spec (ha : a.Fits s) (hau : a.Fits u) (hb : b.Fits s) (hrb : b.reps ≠ 0)
    (hu : u = s ∨ ¬a.SpansGaps b) : ∃ S, a.subMiddle b = .ok S ∧
      ShortTiles u S fun x => a.Mem x ∧ (b.start ≤ x ∧ x ≤ b.rangeEnd) ∧ ¬b.Mem x := by
  obtain ⟨inv, hinv, hfits, hmem, hshort⟩ := inverted_spec hb hrb
  have hrange : b.start ≤ b.rangeEnd := (rangeEnd_mem hb).lower
  have hend : b.rangeEnd ≤ sizeMax := (rangeEnd_eq hb).trans_le hb.end_le
  obtain ⟨parts, hparts, htiles, hone, htwo⟩ :=
    inter_spec (b := interval b.start b.rangeEnd hrange) ha (fits_block rfl hend) (Or.inr rfl)
  simp only [mem_interval] at htiles
  have hsome : ∀ x, (∃ r ∈ parts, r.Mem x ∧ inv.Mem x) ↔ a.Mem x ∧ (b.start ≤ x ∧ x ≤ b.rangeEnd) ∧ ¬b.Mem x := by
    intro x
    rw [← and_assoc, ← htiles.cover x, hmem]
    constructor
    · rintro ⟨r, hr, hx, _, hnot⟩
      exact ⟨⟨r, hr, hx⟩, hnot⟩
    · rintro ⟨⟨r, hr, hx⟩, hnot⟩
      exact ⟨r, hr, hx, (htiles.part hr hx).2, hnot⟩
  have hblocks : ∀ r ∈ parts.entries.filter fun r => decide (r.reps = 0), ∃ T, r.inter inv = .ok T ∧
      ShortTiles u T fun x => r.Mem x ∧ inv.Mem x := fun r hr => by
    obtain ⟨hr, hzero⟩ := mem_blocks.mp hr
    exact interGaps_fits hau ha hinv hfits hshort hu (htiles.all r hr) hzero fun x hx => (htiles.part hr hx).1
  have hapart := (htiles.pairwise (List.filter_sublist (p := fun r => decide (r.reps = 0)))).imp fun {p q} h =>
    show ∀ x, (p.Mem x ∧ inv.Mem x) → ¬(q.Mem x ∧ inv.Mem x) from fun x hx hx' => h x hx.1 hx'.1
  obtain ⟨ts, hts, hmid⟩ := Tiles.mapM_merge hblocks hapart
  unfold subMiddle
  rw [hinv, Except.ok_bind, ofBlock_eq hrange, Except.ok_bind, hparts, Except.ok_bind, hts, Except.ok_bind]
  rcases hone.filter_cases with hnil | ⟨r, hr⟩
  · rw [hnil]
    refine ⟨_, rfl, hmid.congr fun x => Iff.trans ?_ (hsome x)⟩
    have hall : ∀ r ∈ parts, r.reps = 0 := fun r hr => by
      by_contra hne
      have hr' := mem_strided.mpr ⟨hr, hne⟩
      rw [hnil] at hr'
      exact List.not_mem_nil hr'
    constructor
    · rintro ⟨r, hr, hx⟩
      exact ⟨r, (mem_blocks.mp hr).1, hx⟩
    · rintro ⟨r, hr, hx⟩
      exact ⟨r, mem_blocks.mpr ⟨hr, hall r hr⟩, hx⟩
  · rw [hr]
    have honly : ∀ t, t ∈ parts ∧ t.reps ≠ 0 ↔ t = r := fun t => by
      rw [← mem_strided, hr, List.mem_singleton]
    obtain ⟨hin, hne⟩ := (honly r).mpr rfl
    have hra : a.reps ≠ 0 := by
      rcases htwo r hin hne with ⟨m, _, _, hreps, _⟩ | ⟨m, _, _, hreps, _⟩
      · omega
      · change m + r.reps ≤ 0 at hreps
        omega
    have hus : u = s := (hau.strided hra).symm.trans (ha.strided hra)
    subst hus
    have hpart := fun x (hx : r.Mem x) => (htiles.part hin hx).2
    obtain ⟨R, hR, hleft⟩ := subStrided_spec (htiles.all r hin) hne hfits hshort fun x j hx hlt hj => by
      refine inverted_periodic hb hrb hmem (hpart x (mem_iff.mpr ⟨1, by omega, hx⟩)) ?_
      rw [← (htiles.all r hin).strided hne]
      exact (hpart _ (mem_iff.mpr ⟨1 + j, by omega, repetition_shift.mpr hx⟩)).2
    dsimp only
    rw [hb.strided hrb, hR, Except.ok_bind]
    refine ⟨_, rfl, (hmid.merge hleft fun x hx hx' => ?_).congr fun x => Iff.trans ?_ (hsome x)⟩
    · obtain ⟨t, ht, hxt, _⟩ := hx
      obtain ⟨ht, hzero⟩ := mem_blocks.mp ht
      cases htiles.disjoint t ht r hin x hxt hx'.1
      exact hne hzero
    · constructor
      · rintro (⟨t, ht, hx⟩ | hx)
        · exact ⟨t, (mem_blocks.mp ht).1, hx⟩
        · exact ⟨r, hin, hx⟩
      · rintro ⟨t, ht, hx⟩
        by_cases hzero : t.reps = 0
        · exact Or.inl ⟨t, mem_blocks.mpr ⟨ht, hzero⟩, hx⟩
        · cases (honly t).mp ⟨ht, hzero⟩
          exact Or.inr hx

/-- What is cut off a region leaves room for one more repetition. -/
theorem interRange_spec (ha : a.Fits s) (h : lo ≤ hi) (hhi : hi ≤ sizeMax) (hless : a.start < lo ∨ hi < a.rangeEnd) :
    ∃ S, a.inter (interval lo hi h) = .ok S ∧ ShortTiles s S fun x => a.Mem x ∧ lo ≤ x ∧ x ≤ hi := by
  obtain ⟨S, hS, htiles, _, hrows⟩ := inter_spec ha (fits_block (s := s) (r := interval lo hi h) rfl hhi) (Or.inr rfl)
  simp only [mem_interval] at htiles
  refine ⟨S, hS, htiles.imp fun t ht hfits => ⟨hfits, fun hne => ?_⟩⟩
  rcases hrows t ht hne with hrow | ⟨m, _, _, hreps, _⟩
  · exact hrow.short ha hless hne
  · change m + t.reps ≤ 0 at hreps
    omega

theorem subBefore_spec (ha : a.Fits u) (hb : b.Fits s) (hmeet : b.start ≤ a.rangeEnd) :
    ∃ S, a.subBefore b = .ok S ∧ ShortTiles u S fun x => a.Mem x ∧ x < b.start := by
  have hblock := b.block
  have hstop := b.stop_le hb
  unfold subBefore
  split
  next hpos =>
    obtain ⟨S, hS, htiles⟩ := interRange_spec ha (Nat.zero_le (b.start - 1)) (by omega) (Or.inr (by omega))
    rw [sizeDiff_eq hpos, Except.ok_bind, ofBlock_eq (Nat.zero_le _), Except.ok_bind]
    exact ⟨S, hS, htiles.congr fun x => and_congr_right fun _ => by omega⟩
  next hzero => exact ⟨∅, rfl, Tiles.empty.congr fun x => ⟨False.elim, fun hx => by omega⟩⟩

theorem subWithin_spec {pre : OrdSet DataRegion} (ha : a.Fits s) (hau : a.Fits u) (hb : b.Fits s)
    (hu : u = s ∨ ¬a.SpansGaps b) (hpre : ShortTiles u pre fun x => a.Mem x ∧ x < b.start) :
    ∃ S, a.subWithin b pre = .ok S ∧ (StrideTiles u S fun x => (a.Mem x ∧ ¬b.Mem x) ∧ x ≤ b.rangeEnd) ∧ Apart S := by
  have hbefore : StrideTiles u pre fun x => a.Mem x ∧ x < b.start := hpre.imp fun _ _ h => h.1
  have hapart := Tiles.apart hbefore fun r hr => (hpre.all r hr).2
  have hrange := rangeEnd_eq hb
  unfold subWithin
  split
  next hrb =>
    obtain ⟨mid, hmid, hwithin⟩ := subMiddle_spec ha hau hb hrb hu
    have hmiddle : StrideTiles u mid fun x => a.Mem x ∧ (b.start ≤ x ∧ x ≤ b.rangeEnd) ∧ ¬b.Mem x :=
      hwithin.imp fun _ _ h => h.1
    have hcross : ∀ v ∈ pre, ∀ w ∈ mid, v.Ahead w := fun v hv w hw => by
      have hlo := (hbefore.part hv v.start_mem).2
      have hhi := (hmiddle.part hw w.start_mem).2.1.1
      exact ⟨by omega, fun hne => Or.inl ((hpre.all v hv).2 hne)⟩
    obtain ⟨S, hS, htiles, hend⟩ := mergeAdjacentSets_spec hbefore hmiddle (fun x hx hx' => by omega) hapart
      (Tiles.apart hmiddle fun r hr => (hwithin.all r hr).2) hcross
    rw [hmid, Except.ok_bind]
    refine ⟨S, hS, htiles.congr fun x => ?_, hend⟩
    have hlo : b.Mem x → b.start ≤ x := fun hx => hx.lower
    have hsize : b.start ≤ b.rangeEnd := (rangeEnd_mem hb).lower
    constructor
    · rintro (⟨hx, hlt⟩ | ⟨hx, hin, hnot⟩)
      · exact ⟨⟨hx, fun hbx => Nat.not_lt.mpr (hlo hbx) hlt⟩, by omega⟩
      · exact ⟨⟨hx, hnot⟩, hin.2⟩
    · rintro ⟨⟨hx, hnot⟩, hle⟩
      rcases Nat.lt_or_ge x b.start with hlt | hge
      · exact Or.inl ⟨hx, hlt⟩
      · exact Or.inr ⟨hx, ⟨hge, hle⟩, hnot⟩
  next hrb =>
    refine ⟨pre, rfl, hbefore.congr fun x => ?_, hapart⟩
    have hblock := b.block
    rw [mem_block (not_not.mp hrb), hrange, not_not.mp hrb, and_assoc]
    exact and_congr_right fun _ => by omega

theorem subAfter_spec {ret : OrdSet DataRegion} (ha : a.Fits u) (hb : b.Fits s) (hmeet : a.start ≤ b.rangeEnd)
    (hret : StrideTiles u ret fun x => (a.Mem x ∧ ¬b.Mem x) ∧ x ≤ b.rangeEnd) (hapart : Apart ret) :
    ∃ S, a.subAfter b ret = .ok S ∧ StrideTiles u S fun x => a.Mem x ∧ ¬b.Mem x := by
  have hle : ∀ x, a.Mem x → x ≤ sizeMax := fun x hx => (le_rangeEnd ha hx).trans ((rangeEnd_eq ha).trans_le ha.end_le)
  have hend : b.rangeEnd ≤ sizeMax := (rangeEnd_eq hb).trans_le hb.end_le
  unfold subAfter
  split
  next hmax =>
    obtain ⟨post, hpost, hshort⟩ := interRange_spec ha (show b.rangeEnd + 1 ≤ sizeMax by omega) (Nat.le_refl sizeMax)
      (Or.inl (by omega))
    have hafter : StrideTiles u post fun x => a.Mem x ∧ b.rangeEnd + 1 ≤ x ∧ x ≤ sizeMax := hshort.imp fun _ _ h => h.1
    have hcross : ∀ v ∈ ret, ∀ w ∈ post, v.Ahead w := fun v hv w hw => by
      have hlate := (hafter.part hw w.start_mem).2.1
      have hfirst := (hret.part hv v.start_mem).2
      refine ⟨by omega, fun hne => Or.inr ?_⟩
      have hlast := (hret.part hv (rangeEnd_mem (hret.all v hv))).2
      have hmul := Nat.mul_le_mul_right v.stride (Nat.one_le_iff_ne_zero.mpr hne)
      have hblock := v.block
      rw [rangeEnd_eq (hret.all v hv)] at hlast
      omega
    obtain ⟨S, hS, htiles, _⟩ := mergeAdjacentSets_spec hret hafter (fun x hx hx' => by omega) hapart
      (Tiles.apart hafter fun r hr => (hshort.all r hr).2) hcross
    rw [ofBlock_eq (by omega), Except.ok_bind, hpost, Except.ok_bind]
    refine ⟨S, hS, htiles.congr fun x => ?_⟩
    have hhi : b.Mem x → x ≤ b.rangeEnd := le_rangeEnd hb
    constructor
    · rintro (⟨hx, _⟩ | ⟨hx, hin⟩)
      · exact hx
      · exact ⟨hx, fun hbx => absurd (hhi hbx) (by omega)⟩
    · rintro ⟨hx, hnot⟩
      rcases Nat.lt_or_ge b.rangeEnd x with hlt | hge
      · exact Or.inr ⟨hx, hlt, hle x hx⟩
      · exact Or.inl ⟨⟨hx, hnot⟩, hge⟩
  next hmax =>
    refine ⟨ret, rfl, hret.congr fun x => and_iff_left_of_imp fun hx => ?_⟩
    rw [not_not.mp hmax]
    exact hle x hx.1

/-- What is left of a region without another is exact. It has the stride of both, and is strided only if the
region is, or has two gaps of the other in a row. -/
theorem sub_spec (ha : a.Fits s) (hau : a.Fits u) (hb : b.Fits s) (hu : u = s ∨ ¬a.SpansGaps b) :
    ∃ S, a.sub b = .ok S ∧ StrideTiles u S fun x => a.Mem x ∧ ¬b.Mem x := by
  obtain ⟨hit, hhit, htrue, hfalse⟩ := intersects_spec ha hb
  unfold sub
  rw [hhit, Except.ok_bind]
  cases hit with
  | false =>
    refine ⟨{a}, rfl, (Tiles.singleton hau).congr fun x => ?_⟩
    exact ⟨fun hx => ⟨hx, hfalse rfl x hx⟩, And.left⟩
  | true =>
    obtain ⟨hearly, hlate⟩ := meets_iff.mp (htrue rfl)
    have hstride : ¬(a.reps ≠ 0 ∧ b.reps ≠ 0 ∧ a.stride ≠ b.stride) := fun ⟨hra, hrb, hne⟩ =>
      hne ((ha.strided hra).trans (hb.strided hrb).symm)
    obtain ⟨pre, hpre, hbefore⟩ := subBefore_spec hau hb hlate
    obtain ⟨ret, hret, hupto, hapart⟩ := subWithin_spec ha hau hb hu hbefore
    rw [if_neg (by simp), if_neg hstride, hpre, Except.ok_bind, hret, Except.ok_bind]
    exact subAfter_spec hau hb hearly hupto hapart

end DataRegion

end Fenix
