import Fenix.RegionSubsetMerge
import Fenix.TileCount

namespace Fenix.RegionSubset

open DataRegion

variable {Q : DataRegion → Prop} {S T : RegionSubset} {P : Nat → Prop} {r : DataRegion} {s lo hi x : Nat}

/-- The indices of a subset. -/
def Mem (S : RegionSubset) (x : Nat) : Prop := ∃ r ∈ S, r.Mem x

/-- Regions that do not overlap, the strided ones with one stride. -/
structure WellFormed (S : RegionSubset) : Prop where
  disjoint : ∀ r ∈ S, ∀ t ∈ S, ∀ x, r.Mem x → t.Mem x → r = t
  stride : ∀ r ∈ S, ∀ t ∈ S, r.reps ≠ 0 → t.reps ≠ 0 → r.stride = t.stride
  bounded : ∀ r ∈ S, r.stop + r.reps * r.stride ≤ sizeMax

theorem stride_cases (S : RegionSubset) :
    (∃ r ∈ S, r.reps ≠ 0 ∧ S.stride = r.stride) ∨ (∀ r ∈ S, r.reps = 0) ∧ S.stride = 0 := by
  have hlist : ∀ {l : List DataRegion} {n}, (∃ r ∈ l, r.reps ≠ 0 ∧
      l.foldl (fun n r => if r.reps ≠ 0 then r.stride else n) n = r.stride) ∨
      (∀ r ∈ l, r.reps = 0) ∧ l.foldl (fun n r => if r.reps ≠ 0 then r.stride else n) n = n := by
    intro l
    induction l with
    | nil => exact fun {n} => Or.inr ⟨nofun, rfl⟩
    | cons t ts ih =>
      intro n
      rw [List.foldl_cons]
      rcases @ih (if t.reps ≠ 0 then t.stride else n) with ⟨r, hr, hne, heq⟩ | ⟨hzero, heq⟩
      · exact Or.inl ⟨r, List.mem_cons_of_mem _ hr, hne, heq⟩
      · by_cases ht : t.reps = 0
        · rw [if_neg (not_not.mpr ht)] at heq
          exact Or.inr ⟨List.forall_mem_cons.mpr ⟨ht, hzero⟩, by rw [if_neg (not_not.mpr ht)]; exact heq⟩
        · rw [if_pos ht] at heq
          exact Or.inl ⟨t, List.mem_cons_self, ht, by rw [if_pos ht]; exact heq⟩
  exact hlist

/-- Well-formed subsets are those that stand for their indices with one stride. -/
theorem WellFormed.tiles (h : S.WellFormed) : StrideTiles S.stride S S.Mem := by
  refine ⟨fun x => Iff.rfl, h.disjoint, fun r hr => ⟨h.bounded r hr, fun hne => ?_⟩⟩
  rcases S.stride_cases with ⟨t, ht, htne, heq⟩ | ⟨hzero, _⟩
  · rw [heq, h.stride r hr t ht hne htne]
  · exact absurd (hzero r hr) hne

theorem wellFormed (h : StrideTiles s S P) : S.WellFormed :=
  ⟨h.disjoint, fun r hr t ht hne hne' => ((h.all r hr).strided hne).trans ((h.all t ht).strided hne').symm,
    fun r hr => (h.all r hr).end_le⟩

theorem wellFormed_singleton (h : r.Fits s) : ({r} : RegionSubset).WellFormed := wellFormed (Tiles.singleton h)

theorem mem_singleton : ({r} : RegionSubset).Mem x ↔ r.Mem x := (Tiles.singleton (Q := fun _ => True) trivial).cover x

theorem mem_iff_of_tiles (h : Tiles DataRegion.Mem Q S P) : S.Mem x ↔ P x := h.cover x

theorem isEmpty_iff : S.isEmpty = true ↔ ∀ r, ¬r ∈ S := by
  unfold isEmpty
  rw [List.isEmpty_iff, List.eq_nil_iff_forall_not_mem]
  rfl

/-- A subset has no regions if it has no indices. -/
theorem isEmpty_iff_mem : S.isEmpty = true ↔ ∀ x, ¬S.Mem x := by
  rw [isEmpty_iff]
  constructor
  · exact fun h x ⟨r, hr, _⟩ => h r hr
  · exact fun h r hr => h r.start ⟨r, hr, r.start_mem⟩

theorem start_le (hx : S.Mem x) : S.start ≤ x := by
  obtain ⟨r, hr, hx⟩ := hx
  have hlo : r.start ≤ x := hx.lower
  unfold start
  cases hfirst : S.first with
  | none => exact (OrdSet.first_le hr (by rw [hfirst]; exact nofun)).elim
  | some t =>
    have hle : t ≤ r := by
      by_contra hlt
      exact OrdSet.first_le hr fun z hz => by
        cases Option.some.inj (hfirst.symm.trans hz)
        exact not_le.mp hlt
    change t.start ≤ x
    rcases lt_or_eq_of_le hle with hlt | rfl
    · exact (start_le_of_lt hlt).trans hlo
    · exact hlo

theorem start_mem (h : ¬S.isEmpty = true) : S.Mem S.start := by
  unfold start
  cases hfirst : S.first with
  | none =>
    refine absurd (isEmpty_iff.mpr fun r hr => ?_) h
    exact OrdSet.first_le hr (by rw [hfirst]; exact nofun)
  | some t => exact ⟨t, OrdSet.first_mem hfirst, t.start_mem⟩

theorem foldl_rangeEnd {l : List DataRegion} {n : Nat} :
    (∀ r ∈ l, r.rangeEnd ≤ l.foldl (fun n r => max n r.rangeEnd) n) ∧ n ≤ l.foldl (fun n r => max n r.rangeEnd) n ∧
      (l.foldl (fun n r => max n r.rangeEnd) n = n ∨ ∃ r ∈ l, l.foldl (fun n r => max n r.rangeEnd) n = r.rangeEnd) := by
  induction l generalizing n with
  | nil => exact ⟨nofun, Nat.le_refl n, Or.inl rfl⟩
  | cons t ts ih =>
    obtain ⟨hall, hle, hsome⟩ := @ih (max n t.rangeEnd)
    rw [List.foldl_cons]
    refine ⟨List.forall_mem_cons.mpr ⟨(Nat.le_max_right _ _).trans hle, hall⟩, (Nat.le_max_left _ _).trans hle, ?_⟩
    rcases hsome with heq | ⟨r, hr, heq⟩
    · rw [heq]
      rcases Nat.le_total n t.rangeEnd with h | h
      · exact Or.inr ⟨t, List.mem_cons_self, Nat.max_eq_right h⟩
      · exact Or.inl (Nat.max_eq_left h)
    · exact Or.inr ⟨r, List.mem_cons_of_mem _ hr, heq⟩

theorem le_stop (hr : r ∈ S) : r.rangeEnd ≤ S.stop := by
  unfold stop
  rw [if_neg fun h => isEmpty_iff.mp h r hr]
  exact foldl_rangeEnd.1 r hr

theorem stop_mem (hself : ∀ r ∈ S, r.Fits r.stride) (h : ¬S.isEmpty = true) : S.Mem S.stop := by
  obtain ⟨r, hr, _⟩ := start_mem h
  unfold stop
  rw [if_neg h]
  rcases foldl_rangeEnd (l := S.entries) (n := 0) with ⟨hall, _, heq | ⟨t, ht, heq⟩⟩
  · have hzero : r.rangeEnd = 0 := Nat.le_zero.mp (heq ▸ hall r hr)
    rw [heq, ← hzero]
    exact ⟨r, hr, rangeEnd_mem (hself r hr)⟩
  · rw [heq]
    exact ⟨t, ht, rangeEnd_mem (hself t ht)⟩

/-- What is in a range is found as it is, or cut out of the regions that meet the range. -/
theorem boundedRegions_spec {K : DataRegion → Prop} (hs : Tiles DataRegion.Mem Q S P)
    (hself : ∀ r, Q r → r.Fits r.stride) (h : lo ≤ hi) (hwhole : ∀ r ∈ S, lo ≤ r.start → r.rangeEnd ≤ hi → K r)
    (hinter : ∀ r ∈ S, ∃ T, r.inter (interval lo hi h) = .ok T ∧
      Tiles DataRegion.Mem K T fun x => r.Mem x ∧ lo ≤ x ∧ x ≤ hi) :
    ∃ T, S.boundedRegions lo hi = .ok T ∧ Tiles DataRegion.Mem K T fun x => P x ∧ lo ≤ x ∧ x ≤ hi := by
  have hend : ∀ r ∈ S, ∀ x, r.Mem x → r.start ≤ x ∧ x ≤ r.rangeEnd := fun r hr x hx =>
    ⟨hx.lower, le_rangeEnd (hself r (hs.all r hr)) hx⟩
  unfold boundedRegions
  split
  next hempty =>
    refine ⟨∅, rfl, Tiles.empty.congr fun x => ⟨False.elim, fun hx => ?_⟩⟩
    exact isEmpty_iff_mem.mp hempty x ((hs.cover x).mpr hx.1)
  next hne =>
    split
    next hin =>
      have hinside : Tiles DataRegion.Mem K S P := hs.imp fun r hr _ =>
        hwhole r hr (hin.1.trans (start_le ⟨r, hr, r.start_mem⟩)) ((le_stop hr).trans hin.2)
      refine ⟨S, rfl, hinside.congr fun x => (and_iff_left_of_imp fun hx => ?_).symm⟩
      obtain ⟨r, hr, hx⟩ := (hs.cover x).mpr hx
      exact ⟨hin.1.trans (start_le ⟨r, hr, hx⟩), ((hend r hr x hx).2.trans (le_stop hr)).trans hin.2⟩
    next hout =>
      have hmem : ∀ r ∈ (S.entries.takeWhile fun r => decide (r.start ≤ hi)).filter fun r => decide (lo ≤ r.rangeEnd),
          r ∈ S := fun r hr => (List.takeWhile_prefix _).subset (List.mem_filter.mp hr).1
      obtain ⟨ts, hts, htiles⟩ := Tiles.mapM_merge
        (fun r hr => hinter r (hmem r hr))
        ((hs.pairwise (List.filter_sublist.trans (List.takeWhile_prefix _).sublist)).imp
          fun {p q} hd x (hx : p.Mem x ∧ _) (hx' : q.Mem x ∧ _) => hd x hx.1 hx'.1)
      rw [ofBlock_eq h, Except.ok_bind]
      dsimp only
      rw [hts]
      refine ⟨_, rfl, htiles.congr fun x => ?_⟩
      rw [← hs.cover]
      constructor
      · rintro ⟨r, hr, hx, hin⟩
        exact ⟨⟨r, hmem r hr, hx⟩, hin⟩
      · rintro ⟨⟨r, hr, hx⟩, hin⟩
        obtain ⟨hlo, hhi⟩ := hend r hr x hx
        refine ⟨r, List.mem_filter.mpr ⟨OrdSet.mem_takeWhile hr (decide_eq_true (by omega)) fun t ht => ?_, ?_⟩, hx, hin⟩
        · have hle := start_le_of_lt ht
          exact decide_eq_true (by omega)
        · exact decide_eq_true (by omega)

/-- The regions of a subset may have any strides, each of its own. -/
def Sound (r : DataRegion) : Prop := r.Fits r.stride

theorem inter_interval (hr : r.Fits s) (h : lo ≤ hi) (hhi : hi ≤ sizeMax) : ∃ T, r.inter (interval lo hi h) = .ok T ∧
    StrideTiles s T fun x => r.Mem x ∧ lo ≤ x ∧ x ≤ hi := by
  obtain ⟨T, hT, htiles, _⟩ := inter_spec (b := interval lo hi h) hr (fits_block rfl hhi) (Or.inr rfl)
  exact ⟨T, hT, htiles.congr fun x => and_congr_right fun _ => mem_interval⟩

theorem boundedRegions_fits (hs : StrideTiles s S P) (h : lo ≤ hi) (hhi : hi ≤ sizeMax) :
    ∃ T, S.boundedRegions lo hi = .ok T ∧ StrideTiles s T fun x => P x ∧ lo ≤ x ∧ x ≤ hi :=
  boundedRegions_spec hs (fun _ hr => fits_self hr) h (fun r hr _ _ => hs.all r hr)
    fun r hr => inter_interval (hs.all r hr) h hhi

theorem boundedRegions_sound (hs : Tiles DataRegion.Mem Sound S P) (h : lo ≤ hi) (hhi : hi ≤ sizeMax) :
    ∃ T, S.boundedRegions lo hi = .ok T ∧ Tiles DataRegion.Mem Sound T fun x => P x ∧ lo ≤ x ∧ x ≤ hi := by
  refine boundedRegions_spec hs (fun _ hr => hr) h (fun r hr _ _ => hs.all r hr) fun r hr => ?_
  obtain ⟨T, hT, htiles⟩ := inter_interval (hs.all r hr) h hhi
  exact ⟨T, hT, htiles.imp fun _ _ ht => fits_self ht⟩

/-- An index is found in the regions if one of them has it. -/
theorem includes_spec (hs : Tiles DataRegion.Mem Sound S P) (hx : x ≤ sizeMax) :
    ∃ v, S.includes x = .ok v ∧ (v = true ↔ P x) := by
  obtain ⟨T, hT, htiles⟩ := boundedRegions_sound hs (Nat.le_refl x) hx
  unfold includes
  rw [hT, Except.ok_bind]
  refine ⟨_, rfl, ?_⟩
  rw [Bool.not_eq_true', ← Bool.not_eq_true, isEmpty_iff_mem, not_forall]
  simp only [not_not, mem_iff_of_tiles htiles]
  constructor
  · rintro ⟨y, hy, hlo, hhi⟩
    rwa [← Nat.le_antisymm hhi hlo]
  · exact fun hx => ⟨x, hx, Nat.le_refl x, Nat.le_refl x⟩

theorem subAll_spec {l : List DataRegion} (hs : StrideTiles s S P) (hl : ∀ r ∈ l, r.Fits s) :
    ∃ T, subAll S l = .ok T ∧ StrideTiles s T fun x => P x ∧ ∀ r ∈ l, ¬r.Mem x := by
  induction l generalizing S P with
  | nil => exact ⟨S, rfl, hs.congr fun x => (and_iff_left nofun).symm⟩
  | cons r rest ih =>
    obtain ⟨hr, hrest⟩ := List.forall_mem_cons.mp hl
    obtain ⟨R, hR, hleft⟩ := hs.sweep Abort.assertion r.Mem DataRegion.start sizeMax
      (fun rem => (rem.sub r).map Visit.replace) DataRegion.start_mem (fun _ _ => start_le_of_lt)
      (fun t ht => by have hend := ht.end_le; have hblock := t.block; omega) fun t ht => by
        obtain ⟨T, hT, htiles⟩ := sub_spec ht ht hr (Or.inl rfl)
        rw [hT]
        exact ⟨_, rfl, htiles⟩
    obtain ⟨T, hT, htiles⟩ := ih hleft hrest
    unfold subAll
    rw [hR, Except.ok_bind]
    refine ⟨T, hT, htiles.congr fun x => ?_⟩
    rw [List.forall_mem_cons, and_assoc]

/-- All indices up to one are found if the regions have them all. -/
theorem includesAll_spec {stop : Nat} (hs : StrideTiles s S P) (hstop : stop ≤ sizeMax) :
    ∃ v, S.includesAll stop = .ok v ∧ (v = true ↔ ∀ x ≤ stop, P x) := by
  have hall : StrideTiles s {interval 0 stop (Nat.zero_le _)} fun x => x ≤ stop :=
    (Tiles.singleton (fits_block rfl hstop)).congr fun x => mem_interval.trans (and_iff_right (Nat.zero_le x))
  have hmem : ∀ r ∈ S.entries.takeWhile fun r => decide (r.start ≤ stop), r ∈ S := fun r hr =>
    (List.takeWhile_prefix _).subset hr
  obtain ⟨T, hT, htiles⟩ := subAll_spec hall fun r hr => hs.all r (hmem r hr)
  unfold includesAll
  rw [ofBlock_eq (Nat.zero_le _), Except.ok_bind, hT, Except.ok_bind]
  refine ⟨_, rfl, ?_⟩
  rw [isEmpty_iff_mem]
  simp only [mem_iff_of_tiles htiles]
  constructor
  · intro h x hx
    by_contra hno
    exact h x ⟨hx, fun r hr hxr => hno (hs.part (hmem r hr) hxr)⟩
  · rintro h x ⟨hx, hnone⟩
    obtain ⟨r, hr, hxr⟩ := (hs.cover x).mpr (h x hx)
    have hlo : r.start ≤ x := hxr.lower
    refine hnone r (OrdSet.mem_takeWhile hr (decide_eq_true (by omega)) fun t ht => ?_) hxr
    have hle := start_le_of_lt ht
    exact decide_eq_true (by omega)

theorem count_eq (h : r.Fits r.stride) (hlt : r.rangeEnd < sizeMax) : r.count = {x | r.Mem x}.ncard := by
  have hend := rangeEnd_eq h
  have hreps := reps_ne_max h
  unfold DataRegion.count DataRegion.Mem
  rw [if_neg (by omega)]
  by_cases hzero : r.reps = 0
  · rw [hzero]
    simp only [InBlocks.zero_iff]
    rw [InBlocks.ncard_interval r.block, Nat.zero_add, Nat.mul_one]
  · rw [InBlocks.ncard r.block (r.lt_stride hzero)]

theorem foldl_count {l : List DataRegion} {n : Nat} :
    l.foldl (fun n r => n + r.count) n = n + (l.map DataRegion.count).sum := by
  induction l generalizing n with
  | nil => rfl
  | cons r rs ih => rw [List.foldl_cons, ih, List.map_cons, List.sum_cons, Nat.add_assoc]

/-- A region has all indices but the greatest, which is as many as stand for no bound. -/
def AllButLast (r : DataRegion) : Prop := r.reps = 0 ∧ r.start = 0 ∧ sizeMax - 1 ≤ r.stop

theorem allButLast_of_mem (h : r.Fits r.stride) (hall : ∀ x < sizeMax, r.Mem x) : AllButLast r := by
  have hpos : 0 < sizeMax := by decide
  have hlo : r.start ≤ 0 := (hall 0 hpos).lower
  have hzero : r.reps = 0 := by
    by_contra hne
    have hgap := r.stride_pos hne
    have hend := h.end_le
    have hmul := Nat.le_mul_of_pos_left r.stride (show 0 < r.reps by omega)
    have hblock := r.block
    obtain ⟨k, hk, hklo, hkhi⟩ := hall (r.stop + 1) (by omega)
    rcases Nat.eq_zero_or_pos k with rfl | hkpos
    · omega
    · have hstep := Nat.le_mul_of_pos_left r.stride hkpos
      omega
  exact ⟨hzero, by omega, ((mem_block hzero).mp (hall (sizeMax - 1) (by omega))).2⟩

/-- The count of the indices up to one that is not the greatest is right, unless it is that of all of them but the
greatest, in one region. -/
theorem count_spec {e : Nat} (hs : Tiles DataRegion.Mem Sound S P) (he : e < sizeMax) :
    ∃ T, S.boundedRegions 0 e = .ok T ∧
      (S.count e = .ok {x | P x ∧ x ≤ e}.ncard ↔ ∀ r ∈ T, r.count ≠ sizeMax) ∧
      ∀ r ∈ T, r.count = sizeMax → e = sizeMax - 1 ∧ AllButLast r := by
  obtain ⟨T, hT, htiles⟩ := boundedRegions_sound hs (Nat.zero_le e) (Nat.le_of_lt he)
  have hupto : {x | 0 ≤ x ∧ x ≤ e}.ncard = e + 1 := by rw [InBlocks.ncard_interval (Nat.zero_le e), Nat.sub_zero]
  have hfinite : {x | 0 ≤ x ∧ x ≤ e}.Finite := Set.finite_Icc 0 e
  have hin : ∀ r ∈ T, {x | r.Mem x} ⊆ {x | 0 ≤ x ∧ x ≤ e} := fun r hr x hx => (htiles.part hr hx).2
  have hcount : ∀ r ∈ T, r.count = {x | r.Mem x}.ncard := fun r hr =>
    count_eq (htiles.all r hr) (lt_of_le_of_lt (hin r hr (rangeEnd_mem (htiles.all r hr))).2 he)
  have hset : {x | P x ∧ x ≤ e} = {x | P x ∧ 0 ≤ x ∧ x ≤ e} := by
    ext x
    exact and_congr_right fun _ => (and_iff_right (Nat.zero_le x)).symm
  have hle : {x | P x ∧ x ≤ e}.ncard ≤ e + 1 := by
    rw [hset, ← hupto]
    exact Set.ncard_le_ncard (fun x hx => hx.2) hfinite
  have hsum : T.entries.foldl (fun n r => n + r.count) 0 = {x | P x ∧ x ≤ e}.ncard := by
    rw [hset, htiles.ncard fun r hr => hfinite.subset (hin r hr), foldl_count, Nat.zero_add]
    exact congrArg List.sum (List.map_congr_left hcount)
  refine ⟨T, hT, ?_, fun r hr hmax => ?_⟩
  · unfold RegionSubset.count
    rw [hT, Except.ok_bind]
    by_cases hany : ∀ r ∈ T, r.count ≠ sizeMax
    · have hnone : ¬(T.entries.any fun r => decide (r.count = sizeMax)) = true := fun h => by
        obtain ⟨r, hr, heq⟩ := List.any_eq_true.mp h
        exact hany r hr (of_decide_eq_true heq)
      rw [if_neg hnone, hsum, Nat.mod_eq_of_lt (by omega)]
      exact iff_of_true rfl hany
    · refine iff_of_false (fun h => ?_) hany
      obtain ⟨r, hr, hmax⟩ : ∃ r ∈ T, r.count = sizeMax := by
        by_contra hno
        exact hany fun r hr heq => hno ⟨r, hr, heq⟩
      rw [if_pos (List.any_eq_true.mpr ⟨r, hr, decide_eq_true hmax⟩)] at h
      have hzero : 0 = {x | P x ∧ x ≤ e}.ncard := Except.ok.inj h
      have hpos : 0 < sizeMax := by decide
      have hge : {x | r.Mem x}.ncard ≤ {x | P x ∧ x ≤ e}.ncard := by
        rw [hset]
        exact Set.ncard_le_ncard (fun x hx => htiles.part hr hx) (hfinite.subset fun x hx => hx.2)
      rw [← hcount r hr] at hge
      omega
  · have hcard := Set.ncard_le_ncard (hin r hr) hfinite
    rw [hupto, ← hcount r hr, hmax] at hcard
    have hall := Set.eq_of_subset_of_ncard_le (hin r hr) (by rw [hupto, ← hcount r hr]; omega) hfinite
    refine ⟨by omega, allButLast_of_mem (htiles.all r hr) fun x hx => ?_⟩
    have hx' : x ∈ {x | 0 ≤ x ∧ x ≤ e} := ⟨Nat.zero_le x, by omega⟩
    rw [← hall] at hx'
    exact hx'

theorem AllButLast.count (h : AllButLast r) (hend : r.stop ≤ sizeMax) : r.count = sizeMax := by
  obtain ⟨hzero, hstart, hstop⟩ := h
  unfold DataRegion.count
  split
  next => rfl
  next hlt =>
    rw [hzero, hstart, Nat.zero_add, Nat.mul_one]
    have hpos : 0 < sizeMax := by decide
    omega

/-- A block that has a range leaves it whole. -/
theorem inter_inside {a b : DataRegion} (ha : a.reps = 0) (hb : b.reps = 0) (hlo : a.start ≤ b.start)
    (hhi : b.stop ≤ a.stop) : a.inter b = .ok {interval b.start b.stop b.block} := by
  have hblock := b.block
  have hmeet : a.meets b = true := by
    refine meets_iff.mpr ?_
    unfold DataRegion.rangeEnd
    rw [ha, hb, if_neg (by decide), if_neg (by decide)]
    omega
  have hhit : a.intersects b = .ok true := by
    unfold intersects
    rw [if_neg (not_not.mpr hmeet), if_pos (Or.inl ha)]
  have hmax : max a.start b.start = b.start := Nat.max_eq_right hlo
  have hmin : min a.stop b.stop = b.stop := Nat.min_eq_right hhi
  unfold inter
  rw [if_neg (by omega), hhit, Except.ok_bind, if_neg (by simp), if_neg (by omega), if_neg (by omega)]
  unfold interBlocks
  rw [if_pos hmeet, hmax, hmin, ofBlock_eq hblock]
  rfl

theorem count_allButLast (hself : ∀ t ∈ S, t.Fits t.stride) (hr : r ∈ S) (hall : AllButLast r)
    (hT : S.boundedRegions 0 (sizeMax - 1) = .ok T) : ∃ t ∈ T, t.count = sizeMax := by
  obtain ⟨hzero, hstart, hstop⟩ := hall
  have hend := (rangeEnd_eq (hself r hr)).trans (by rw [hzero, Nat.zero_mul, Nat.add_zero])
  have hle : r.stop ≤ sizeMax := (Nat.le_add_right _ _).trans (hself r hr).end_le
  unfold boundedRegions at hT
  split at hT
  next hempty => exact absurd hr (isEmpty_iff.mp hempty r)
  next =>
    split at hT
    next hin =>
      cases Except.ok.inj hT
      exact ⟨r, hr, AllButLast.count ⟨hzero, hstart, hstop⟩ hle⟩
    next =>
      rw [ofBlock_eq (Nat.zero_le _), Except.ok_bind] at hT
      obtain ⟨ts, hts, hT⟩ := Except.bind_eq_ok_iff.mp hT
      cases Except.ok.inj hT
      have hcut : r ∈ (S.entries.takeWhile fun r => decide (r.start ≤ sizeMax - 1)).filter
          fun r => decide (0 ≤ r.rangeEnd) := by
        refine List.mem_filter.mpr ⟨OrdSet.mem_takeWhile hr (decide_eq_true (by omega)) fun t ht => ?_,
          decide_eq_true (Nat.zero_le _)⟩
        have hle := start_le_of_lt ht
        exact decide_eq_true (by omega)
      obtain ⟨R, hR, hinter⟩ := List.exists_right_of_forall₂ (List.mapM_eq_ok_iff.mp hts) hcut
      rw [inter_inside hzero rfl (by rw [hstart]; exact Nat.zero_le _) hstop] at hinter
      cases Except.ok.inj hinter
      exact ⟨_, OrdSet.mem_foldl_merge.mpr (Or.inr ⟨_, hR, OrdSet.mem_singleton.mpr rfl⟩), by decide⟩

/-- A part of a subset has its regions in those of the subset. -/
theorem boundedRegions_part (hs : Tiles DataRegion.Mem Sound S P) (h : lo ≤ hi) (hhi : hi ≤ sizeMax)
    (hT : S.boundedRegions lo hi = .ok T) : ∀ t ∈ T, ∃ r ∈ S, ∀ x, t.Mem x → r.Mem x := by
  obtain ⟨T', hT', htiles⟩ := boundedRegions_spec (K := fun t => ∃ r ∈ S, ∀ x, t.Mem x → r.Mem x) hs (fun _ hr => hr) h
    (fun r hr _ _ => ⟨r, hr, fun _ hx => hx⟩) fun r hr => by
    obtain ⟨R, hR, htiles⟩ := inter_interval (hs.all r hr) h hhi
    exact ⟨R, hR, htiles.imp fun q hq _ => ⟨r, hr, fun x hx => (htiles.part hq hx).1⟩⟩
  cases Except.ok.inj (hT.symm.trans hT')
  exact htiles.all

theorem not_mem_empty (x : Nat) : ¬(∅ : RegionSubset).Mem x := fun ⟨r, hr, _⟩ => OrdSet.not_mem_empty r hr

theorem wellFormed_empty : (∅ : RegionSubset).WellFormed := by
  have hmem : (∅ : RegionSubset).Mem = fun _ => False := funext fun x => propext (iff_false_intro (not_mem_empty x))
  exact wellFormed (s := 0) (hmem ▸ Tiles.empty)

/-- What the queries of a subset say of the indices in a range. -/
structure QueriesAgree (S : RegionSubset) (lo hi : Nat) : Prop where
  bounds : ∃ T, S.boundedRegions lo hi = .ok T ∧ T.WellFormed ∧ ∀ x, T.Mem x ↔ S.Mem x ∧ lo ≤ x ∧ x ≤ hi
  bounded : ∃ T, S.bounded hi = .ok T ∧ T.WellFormed ∧ ∀ x, T.Mem x ↔ S.Mem x ∧ x ≤ hi
  includes : ∀ x ≤ sizeMax, ∃ v, S.includes x = .ok v ∧ (v = true ↔ S.Mem x)
  count : hi < sizeMax → S.count hi = .ok {x | S.Mem x ∧ x ≤ hi}.ncard
  all : ∃ v, S.includesAll hi = .ok v ∧ (v = true ↔ ∀ x ≤ hi, S.Mem x)

theorem WellFormed.sound (h : S.WellFormed) : Tiles DataRegion.Mem Sound S S.Mem := h.tiles.imp fun _ _ hr => fits_self hr

theorem WellFormed.stop_mem (h : S.WellFormed) (hne : ¬S.isEmpty = true) : S.Mem S.stop :=
  RegionSubset.stop_mem (fun r hr => h.sound.all r hr) hne

theorem WellFormed.le_stop (h : S.WellFormed) (hx : S.Mem x) : x ≤ S.stop := by
  obtain ⟨r, hr, hx⟩ := hx
  exact (le_rangeEnd (h.sound.all r hr) hx).trans (RegionSubset.le_stop hr)

/-- The queries of a subset agree, the count apart: it is 0 if all indices but the greatest are in one region, and
these are counted. -/
theorem queriesAgree_iff (hS : S.WellFormed) (h : lo ≤ hi) (hhi : hi ≤ sizeMax) :
    S.QueriesAgree lo hi ↔ ¬(hi = sizeMax - 1 ∧ ∃ r ∈ S, AllButLast r) := by
  constructor
  · rintro hagree ⟨heq, r, hr, hall⟩
    have hpos : 0 < sizeMax := by decide
    obtain ⟨T, hT, hcount, _⟩ := count_spec hS.sound (show hi < sizeMax by omega)
    rw [heq] at hT
    obtain ⟨t, ht, hmax⟩ := count_allButLast (fun t ht => hS.sound.all t ht) hr hall hT
    exact hcount.mp (hagree.count (by omega)) t ht hmax
  · intro hno
    obtain ⟨T, hT, htiles⟩ := boundedRegions_fits hS.tiles h hhi
    obtain ⟨B, hB, hbounded⟩ := boundedRegions_fits hS.tiles (Nat.zero_le hi) hhi
    refine ⟨⟨T, hT, wellFormed htiles, fun x => htiles.cover x⟩, ⟨B, hB, wellFormed hbounded, fun x => ?_⟩,
      fun x hx => includes_spec hS.sound hx, fun hlt => ?_, includesAll_spec hS.tiles hhi⟩
    · refine (hbounded.cover x).trans (and_congr_right fun _ => and_iff_right (Nat.zero_le x))
    · obtain ⟨C, hC, hcount, hmax⟩ := count_spec hS.sound hlt
      refine hcount.mpr fun t ht heq => hno ?_
      obtain ⟨hlast, hzero, hstart, hstop⟩ := hmax t ht heq
      refine ⟨hlast, ?_⟩
      obtain ⟨r, hr, hin⟩ := boundedRegions_part hS.sound (Nat.zero_le hi) hhi hC t ht
      refine ⟨r, hr, allButLast_of_mem (hS.sound.all r hr) fun x hx => hin x ?_⟩
      exact (mem_block hzero).mpr ⟨by omega, by omega⟩

theorem full_wellFormed : ({full} : RegionSubset).WellFormed :=
  wellFormed_singleton (s := 0) (fits_block rfl (Nat.le_refl sizeMax))

theorem queriesAgree_full : ({full} : RegionSubset).QueriesAgree 2 5 ↔
    ¬(5 = sizeMax - 1 ∧ ∃ r ∈ ({full} : RegionSubset), AllButLast r) :=
  queriesAgree_iff full_wellFormed (by decide) (by decide)

/-- Of all indices but the greatest, the count in the full subset is 0. -/
theorem queries_count_zero : ¬∀ S : RegionSubset, ∀ lo hi, S.WellFormed → lo ≤ hi → hi ≤ sizeMax → S.QueriesAgree lo hi := by
  intro h
  have hcount := (h {full} 0 (sizeMax - 1) full_wellFormed (by decide) (by decide)).count (by decide)
  have hzero : ({full} : RegionSubset).count (sizeMax - 1) = .ok 0 := rfl
  rw [hzero] at hcount
  have hfinite : {x | ({full} : RegionSubset).Mem x ∧ x ≤ sizeMax - 1}.Finite :=
    (Set.finite_Icc 0 (sizeMax - 1)).subset fun x hx => ⟨Nat.zero_le x, hx.2⟩
  have hzero : {x | ({full} : RegionSubset).Mem x ∧ x ≤ sizeMax - 1} = ∅ :=
    (Set.ncard_eq_zero hfinite).mp (Except.ok.inj hcount).symm
  have hin : 0 ∈ {x | ({full} : RegionSubset).Mem x ∧ x ≤ sizeMax - 1} := ⟨mem_singleton.mpr full.start_mem, Nat.zero_le _⟩
  rw [hzero] at hin
  exact hin

end Fenix.RegionSubset
