import Fenix.RegionSubsetQuery

theorem List.mapM_ok_map {ε α β : Type} {f : α → Except ε β} {g : α → β} {l : List α} (h : ∀ x ∈ l, f x = .ok (g x)) :
    l.mapM f = .ok (l.map g) := by
  induction l with
  | nil => rfl
  | cons x xs ih =>
    obtain ⟨hx, hxs⟩ := List.forall_mem_cons.mp h
    rw [List.mapM_cons, hx, Except.ok_bind, ih hxs]
    rfl

namespace Fenix.RegionSubset

open DataRegion

variable {Q : DataRegion → Prop} {A B R S T : RegionSubset} {P N : Nat → Prop} {r b : DataRegion} {s u x : Nat}

theorem fits_start (h : r.Fits s) : r.start ≤ sizeMax := by
  have hend := h.end_le
  have hblock := r.block
  omega

theorem blocks_eq {last : Nat} (h : last ≤ r.reps) : r.blocks last = .ok ((List.range (last + 1)).map r.repetition) :=
  List.mapM_ok_map fun k hk => getRep_eq (by have hlt := List.mem_range.mp hk; omega)

/-- Repetitions as blocks of their own stand for the same indices, with any stride. -/
theorem blocks_spec {last : DataRegion → Nat} (hA : Tiles DataRegion.Mem Sound A P) (hlast : ∀ r ∈ A, last r ≤ r.reps)
    (u : Nat) : ∃ bs, A.entries.mapM (fun r => r.blocks (last r)) = .ok bs ∧
      StrideTiles u (OrdSet.ofList bs.flatten) (fun x => ∃ r ∈ A, ∃ k ≤ last r, (r.repetition k).Mem x) ∧
      ∀ t ∈ OrdSet.ofList bs.flatten, ∃ r ∈ A, ∃ k ≤ last r, t = r.repetition k := by
  have hmem : ∀ t, t ∈ OrdSet.ofList ((A.entries.map fun r => (List.range (last r + 1)).map r.repetition)).flatten ↔
      ∃ r ∈ A, ∃ k ≤ last r, t = r.repetition k := fun t => by
    rw [OrdSet.mem_ofList, List.mem_flatten]
    constructor
    · rintro ⟨l, hl, ht⟩
      obtain ⟨r, hr, rfl⟩ := List.mem_map.mp hl
      obtain ⟨k, hk, rfl⟩ := List.mem_map.mp ht
      exact ⟨r, hr, k, Nat.le_of_lt_succ (List.mem_range.mp hk), rfl⟩
    · rintro ⟨r, hr, k, hk, rfl⟩
      exact ⟨_, List.mem_map.mpr ⟨r, hr, rfl⟩, List.mem_map.mpr ⟨k, List.mem_range.mpr (by omega), rfl⟩⟩
  refine ⟨_, List.mapM_ok_map fun r hr => blocks_eq (hlast r hr), ⟨fun x => ?_, fun t ht t' ht' x hx hx' => ?_,
    fun t ht => ?_⟩, fun t ht => (hmem t).mp ht⟩
  · simp only [hmem]
    constructor
    · rintro ⟨t, ⟨r, hr, k, hk, rfl⟩, hx⟩
      exact ⟨r, hr, k, hk, hx⟩
    · rintro ⟨r, hr, k, hk, hx⟩
      exact ⟨_, ⟨r, hr, k, hk, rfl⟩, hx⟩
  · obtain ⟨r, hr, k, hk, rfl⟩ := (hmem t).mp ht
    obtain ⟨r', hr', k', hk', rfl⟩ := (hmem t').mp ht'
    have hkr := hk.trans (hlast r hr)
    have hkr' := hk'.trans (hlast r' hr')
    cases hA.disjoint r hr r' hr' x (mem_iff.mpr ⟨k, hkr, hx⟩) (mem_iff.mpr ⟨k', hkr', hx'⟩)
    rw [repetition_unique hkr hkr' hx hx']
  · obtain ⟨r, hr, k, hk, rfl⟩ := (hmem t).mp ht
    exact fits_block rfl (fits_reps (hA.all r hr) (hk.trans (hlast r hr)))

/-- A stride that both subsets have, where they do not differ in it. -/
theorem common_stride (hA : A.WellFormed) (hB : B.WellFormed) (h : ¬A.stridesDiffer B) :
    ∃ s, StrideTiles s A A.Mem ∧ StrideTiles s B B.Mem := by
  have hblocks : ∀ {S : RegionSubset}, S.WellFormed → S.stride = 0 → ∀ r ∈ S, r.reps = 0 := fun {S} hS hzero r hr => by
    rcases S.stride_cases with ⟨t, ht, hne, heq⟩ | ⟨hall, _⟩
    · have hpos := t.pos_stride
      omega
    · exact hall r hr
  by_cases hza : A.stride = 0
  · exact ⟨B.stride, hA.tiles.blocks (hblocks hA hza) B.stride, hB.tiles⟩
  · by_cases hzb : B.stride = 0
    · exact ⟨A.stride, hA.tiles, hB.tiles.blocks (hblocks hB hzb) A.stride⟩
    · have heq : A.stride = B.stride := by
        by_contra hne
        exact h ⟨hza, hzb, hne⟩
      exact ⟨A.stride, hA.tiles, heq ▸ hB.tiles⟩

/-- What is left of a region, the others being taken out of it one by one, has nothing of any of them. -/
theorem adding_spec {l : List DataRegion} (hs : StrideTiles s S N) (hl : ∀ r ∈ l, r.Fits s) (hsorted : l.Pairwise (· < ·))
    (hin : ∀ x, N x → b.start ≤ x ∧ x ≤ b.rangeEnd) :
    ∃ T, adding l b S = .ok T ∧ StrideTiles s T fun x => N x ∧ ∀ r ∈ l, ¬r.Mem x := by
  induction l generalizing S N with
  | nil => exact ⟨S, rfl, hs.congr fun x => (and_iff_left nofun).symm⟩
  | cons r rest ih =>
    obtain ⟨hr, hrest⟩ := List.forall_mem_cons.mp hl
    obtain ⟨hfirst, hsorted⟩ := List.pairwise_cons.mp hsorted
    unfold adding
    split
    next hpast =>
      refine ⟨S, rfl, hs.congr fun x => (and_iff_left_of_imp fun hx => ?_).symm⟩
      intro t ht hxt
      have hlo : t.start ≤ x := hxt.lower
      have hle : r.start ≤ t.start := by
        rcases List.mem_cons.mp ht with rfl | ht
        · exact Nat.le_refl _
        · exact start_le_of_lt (hfirst t ht)
      have hhi := (hin x hx).2
      omega
    next =>
      split
      next hbefore =>
        obtain ⟨T, hT, htiles⟩ := ih hs hrest hsorted hin
        refine ⟨T, hT, htiles.congr fun x => and_congr_right fun hx => ?_⟩
        rw [List.forall_mem_cons]
        refine (and_iff_right fun hxr => ?_).symm
        have hend := le_rangeEnd hr hxr
        have hlo := (hin x hx).1
        omega
      next =>
        obtain ⟨L, hL, hleft⟩ := hs.sweep Abort.assertion r.Mem DataRegion.start sizeMax
          (fun it : DataRegion => (it.sub r).map fun valid => if valid = {it} then .keep else .replace valid)
          DataRegion.start_mem (fun _ _ => start_le_of_lt) (fun t ht => fits_start ht) fun t ht => by
            obtain ⟨V, hV, hvalid⟩ := sub_spec ht ht hr (Or.inl rfl)
            rw [hV]
            refine ⟨_, rfl, ?_⟩
            dsimp only
            by_cases hsame : V = {t}
            · rw [if_pos hsame]
              subst hsame
              exact fun x hx => (hvalid.part (OrdSet.mem_singleton.mpr rfl) hx).2
            · rw [if_neg hsame]
              exact hvalid
        obtain ⟨T, hT, htiles⟩ := ih hleft hrest hsorted fun x hx => hin x hx.1
        dsimp only
        rw [hL, Except.ok_bind]
        refine ⟨T, hT, htiles.congr fun x => ?_⟩
        rw [List.forall_mem_cons, and_assoc]

theorem addAll_spec {l : List DataRegion} (hs : StrideTiles s S P) (hl : ∀ r ∈ l, r.Fits s) :
    ∃ T, addAll S l = .ok T ∧ StrideTiles s T fun x => P x ∨ ∃ r ∈ l, r.Mem x := by
  induction l generalizing S P with
  | nil => exact ⟨S, rfl, hs.congr fun x => by simp⟩
  | cons br rest ih =>
    obtain ⟨hbr, hrest⟩ := List.forall_mem_cons.mp hl
    obtain ⟨N, hN, hnew⟩ := adding_spec (b := br) (Tiles.singleton hbr) hs.all S.sorted
      fun x hx => ⟨hx.lower, le_rangeEnd hbr hx⟩
    have hnone : ∀ x, (∀ r ∈ S.entries, ¬r.Mem x) ↔ ¬P x := fun x => by
      rw [← hs.cover]
      exact ⟨fun h ⟨r, hr, hx⟩ => h r hr hx, fun h r hr hx => h ⟨r, hr, hx⟩⟩
    have hmerged := hs.merge hnew fun x hx hx' => (hnone x).mp hx'.2 hx
    obtain ⟨T, hT, htiles⟩ := ih hmerged hrest
    unfold addAll
    rw [hN, Except.ok_bind]
    refine ⟨T, hT, htiles.congr fun x => ?_⟩
    rw [List.exists_mem_cons_iff, hnone]
    tauto

/-- The blocks from the one on at which an `int` counter of blocks overflows. -/
def Overflow (A B : RegionSubset) (x : Nat) : Prop :=
  A.stridesDiffer B ∧ ∃ r ∈ A, ∃ k, 2147483647 < k ∧ k ≤ r.reps ∧ (r.repetition k).Mem x

theorem addable_spec (hA : A.WellFormed) (hB : B.WellFormed) : ∃ s R, A.addable B = .ok R ∧
    StrideTiles s R (fun x => A.Mem x ∧ ¬A.Overflow B x) ∧ StrideTiles s B B.Mem := by
  unfold addable
  split
  next hdiffer =>
    have hnone : ¬(A.entries.any fun r => decide (r.reps = sizeMax)) = true := fun h => by
      obtain ⟨r, hr, heq⟩ := List.any_eq_true.mp h
      exact reps_ne_max (hA.tiles.all r hr) (of_decide_eq_true heq)
    obtain ⟨bs, hbs, htiles, _⟩ := blocks_spec hA.sound (fun r _ => Nat.min_le_left r.reps 2147483647) B.stride
    rw [if_neg hnone, hbs, Except.ok_bind]
    refine ⟨B.stride, _, rfl, htiles.congr fun x => ?_, hB.tiles⟩
    constructor
    · rintro ⟨r, hr, k, hk, hx⟩
      have hmem : r.Mem x := mem_iff.mpr ⟨k, by omega, hx⟩
      refine ⟨⟨r, hr, hmem⟩, ?_⟩
      rintro ⟨_, r', hr', k', hlt, hk', hx'⟩
      cases hA.disjoint r hr r' hr' x hmem (mem_iff.mpr ⟨k', hk', hx'⟩)
      have heq := repetition_unique (by omega) hk' hx hx'
      omega
    · rintro ⟨⟨r, hr, hmem⟩, hno⟩
      obtain ⟨k, hk, hx⟩ := mem_iff.mp hmem
      refine ⟨r, hr, k, ?_, hx⟩
      by_contra hlt
      exact hno ⟨hdiffer, r, hr, k, by omega, hk, hx⟩
  next hsame =>
    obtain ⟨s, hs, hs'⟩ := common_stride hA hB hsame
    exact ⟨s, A, rfl, hs.congr fun x => (and_iff_left fun h => hsame h.1).symm, hs'⟩

theorem mem_full {x : Nat} : full.Mem x ↔ x ≤ sizeMax := (mem_block rfl).trans (and_iff_right (Nat.zero_le x))

theorem le_sizeMax (hS : S.WellFormed) (hx : S.Mem x) : x ≤ sizeMax := by
  obtain ⟨r, hr, hx⟩ := hx
  exact (le_rangeEnd (hS.tiles.all r hr) hx).trans ((rangeEnd_eq (hS.tiles.all r hr)).trans_le (hS.bounded r hr))

/-- A subset that has the full region has no other. -/
theorem stride_of_full (hS : S.WellFormed) (h : full ∈ S) : S.stride = 0 := by
  rcases S.stride_cases with ⟨r, hr, hne, _⟩ | ⟨_, hzero⟩
  · cases hS.disjoint r hr full h r.start r.start_mem (mem_full.mpr (fits_start (hS.tiles.all r hr)))
    exact absurd rfl hne
  · exact hzero

/-- The union of two subsets has the indices of both, but for those that the counter of blocks does not reach. -/
theorem add_spec (hA : A.WellFormed) (hB : B.WellFormed) :
    ∃ C, A.add B = .ok C ∧ C.WellFormed ∧ ∀ x, C.Mem x ↔ A.Mem x ∧ ¬A.Overflow B x ∨ B.Mem x := by
  have hnone : ∀ {S : RegionSubset}, S.isEmpty = true → ∀ x, ¬S.Mem x := fun h => isEmpty_iff_mem.mp h
  unfold add
  split
  next hempty => exact ⟨B, rfl, hB, fun x => (or_iff_right fun hx => hnone hempty x hx.1).symm⟩
  next =>
    split
    next hempty =>
      refine ⟨A, rfl, hA, fun x => ?_⟩
      rw [or_iff_left (hnone hempty x)]
      refine (and_iff_left fun hover => ?_).symm
      obtain ⟨⟨_, hstride, _⟩, _⟩ := hover
      rcases B.stride_cases with ⟨r, hr, _⟩ | ⟨_, hzero⟩
      · exact isEmpty_iff.mp hempty r hr
      · exact hstride hzero
    next =>
      split
      next hfull =>
        have hfits : full.Fits 0 := fits_block rfl (Nat.le_refl sizeMax)
        refine ⟨{full}, rfl, wellFormed (Tiles.singleton hfits), fun x => ?_⟩
        rw [mem_singleton, mem_full]
        rcases hfull with hin | hin
        · have hno : ¬A.Overflow B x := fun hover => hover.1.1 (stride_of_full hA hin)
          exact ⟨fun hx => Or.inl ⟨⟨full, hin, mem_full.mpr hx⟩, hno⟩,
            fun hx => hx.elim (fun hx => le_sizeMax hA hx.1) (le_sizeMax hB)⟩
        · exact ⟨fun hx => Or.inr ⟨full, hin, mem_full.mpr hx⟩,
            fun hx => hx.elim (fun hx => le_sizeMax hA hx.1) (le_sizeMax hB)⟩
      next =>
        obtain ⟨s, R, hR, hleft, hright⟩ := addable_spec hA hB
        obtain ⟨N, hN, hall⟩ := addAll_spec hleft hright.all
        obtain ⟨C, hC, htiles⟩ := mergeRegions_spec (merges_fits s) (fun r hr => r.stop_le hr) hall
        rw [hR, Except.ok_bind, hN, Except.ok_bind]
        exact ⟨C, hC, wellFormed htiles, fun x => htiles.cover x⟩

/-- The union of two subsets includes what one of them does. -/
def UnionExact (A B : RegionSubset) : Prop := ∃ C, A.add B = .ok C ∧ C.WellFormed ∧ ∀ i ≤ sizeMax, ∃ v a b,
  C.includes i = .ok v ∧ A.includes i = .ok a ∧ B.includes i = .ok b ∧ (v = true ↔ a = true ∨ b = true)

theorem overflow_covered (hA : A.WellFormed) (hB : B.WellFormed) (h : A.UnionExact B) (hover : A.Overflow B x) : B.Mem x := by
  obtain ⟨C, hC, hwf, hmem⟩ := add_spec hA hB
  obtain ⟨C', hC', _, hexact⟩ := h
  cases Except.ok.inj (hC.symm.trans hC')
  have hx : A.Mem x := by
    obtain ⟨_, r, hr, k, _, hk, hx⟩ := hover
    exact ⟨r, hr, mem_iff.mpr ⟨k, hk, hx⟩⟩
  have hle := le_sizeMax hA hx
  obtain ⟨v, a, b, hv, ha, _, hiff⟩ := hexact x hle
  obtain ⟨v', hv', hvmem⟩ := includes_spec hwf.sound hle
  obtain ⟨a', ha', hamem⟩ := includes_spec hA.sound hle
  cases Except.ok.inj (hv.symm.trans hv')
  cases Except.ok.inj (ha.symm.trans ha')
  have hin := (hmem x).mp (hvmem.mp (hiff.mpr (Or.inl (hamem.mpr hx))))
  exact hin.resolve_left fun hno => hno.2 hover

/-- The union is exact unless the counter of blocks overflows before an index that only the first subset has. -/
theorem unionExact_iff (hA : A.WellFormed) (hB : B.WellFormed) :
    A.UnionExact B ↔ ∀ x, A.Overflow B x → B.Mem x := by
  refine ⟨fun h x => overflow_covered hA hB h, fun hcovered => ?_⟩
  obtain ⟨C, hC, hwf, hmem⟩ := add_spec hA hB
  refine ⟨C, hC, hwf, fun i hi => ?_⟩
  obtain ⟨v, hv, hvmem⟩ := includes_spec hwf.sound hi
  obtain ⟨a, ha, hamem⟩ := includes_spec hA.sound hi
  obtain ⟨b, hb, hbmem⟩ := includes_spec hB.sound hi
  refine ⟨v, a, b, hv, ha, hb, ?_⟩
  rw [hvmem, hamem, hbmem, hmem]
  have hover := hcovered i
  tauto

/-- The even indices up to 2 ^ 32. -/
def evens : RegionSubset := {⟨0, 0, 2147483648, 2, by decide, by decide⟩}

def zeroAndThree : RegionSubset := {⟨0, 0, 1, 3, by decide, by decide⟩}

theorem evens_wellFormed : evens.WellFormed := wellFormed_singleton (s := 2) ⟨by decide, fun _ => rfl⟩

theorem zeroAndThree_wellFormed : zeroAndThree.WellFormed := wellFormed_singleton (s := 3) ⟨by decide, fun _ => rfl⟩

theorem unionExact_iff_zeroAndThree :
    zeroAndThree.UnionExact evens ↔ ∀ x, zeroAndThree.Overflow evens x → evens.Mem x :=
  unionExact_iff zeroAndThree_wellFormed evens_wellFormed

/-- The last of the even indices is not in their union with a subset of another stride. -/
theorem union_overflow : ¬∀ A B : RegionSubset, A.WellFormed → B.WellFormed → A.UnionExact B := by
  intro h
  have hover : evens.Overflow zeroAndThree 4294967296 := by
    refine ⟨by decide, _, OrdSet.mem_singleton.mpr rfl, 2147483648, by decide, by decide, ?_⟩
    exact mem_repetition.mpr (by decide)
  have hin := overflow_covered evens_wellFormed zeroAndThree_wellFormed (h _ _ evens_wellFormed zeroAndThree_wellFormed) hover
  obtain ⟨k, hk, hlo, hhi⟩ := mem_singleton.mp hin
  change k ≤ 1 at hk
  change 4294967296 ≤ 0 + k * 3 at hhi
  omega

end Fenix.RegionSubset
