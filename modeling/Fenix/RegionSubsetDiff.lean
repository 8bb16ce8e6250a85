import Fenix.RegionSubsetUnion

namespace Fenix.RegionSubset

open DataRegion

variable {Q : DataRegion → Prop} {A B C R S T : RegionSubset} {P : Nat → Prop} {c i r b : DataRegion} {s t u e x : Nat}

/-- Up to an index the strided regions have one stride, past it another; a block may have indices of both. -/
structure Halves (s t e : Nat) (r : DataRegion) : Prop where
  fits : r.Fits r.stride
  strided : r.reps ≠ 0 → (r.stride = s ∧ r.rangeEnd ≤ e) ∨ (r.stride = t ∧ e < r.start)

theorem le_rangeEnd_self (h : r.Fits s) : r.start ≤ r.rangeEnd := (rangeEnd_mem h).lower

/-- Of two strides, one up to an index and one past it, merging makes no others, nor regions with blocks of both. -/
theorem merges_halves (hne : s ≠ t) : Merges (Halves s t e) := by
  intro c i hc hi hlt hd hnear
  have hle := start_le_of_lt hlt
  have hcend := le_rangeEnd_self hc.fits
  have hiend := le_rangeEnd_self hi.fits
  obtain ⟨o, ho, hrep⟩ := mergePair_spec hc.fits hi.fits hlt hd hnear fun hcr hir => by
    have hcs := hc.strided hcr
    have his := hi.strided hir
    omega
  refine ⟨o, ho, fun ms hms => ⟨⟨(hrep ms hms).tiles.cover, (hrep ms hms).tiles.disjoint, fun r hr => ?_⟩,
    (hrep ms hms).joins, (hrep ms hms).later⟩⟩
  have hpiece := (hrep ms hms).tiles.all r hr
  refine ⟨hpiece.fits, fun hrr => ?_⟩
  have hfirst := (hrep ms hms).tiles.part hr r.start_mem
  have hlast := (hrep ms hms).tiles.part hr (rangeEnd_mem hpiece.fits)
  have hbounds : ∀ {q : DataRegion} {x}, q.Fits q.stride → q.Mem x → q.start ≤ x ∧ x ≤ q.rangeEnd := fun hq hx =>
    ⟨hx.lower, le_rangeEnd hq hx⟩
  rcases hpiece.strided hrr with ⟨hcr, heq, hin⟩ | ⟨hir, heq, hin⟩ | ⟨hcr, hir, hsame, heq⟩
  · have hcs := hc.strided hcr
    have hlo := hbounds hc.fits (hin _ r.start_mem)
    have hhi := hbounds hc.fits (hin _ (rangeEnd_mem hpiece.fits))
    omega
  · have his := hi.strided hir
    have hlo := hbounds hi.fits (hin _ r.start_mem)
    have hhi := hbounds hi.fits (hin _ (rangeEnd_mem hpiece.fits))
    omega
  · have hcs := hc.strided hcr
    have his := hi.strided hir
    have hlo : c.start ≤ r.start := hfirst.elim (fun hx => (hbounds hc.fits hx).1) fun hx =>
      hle.trans (hbounds hi.fits hx).1
    have hhi : r.rangeEnd ≤ max c.rangeEnd i.rangeEnd := hlast.elim
      (fun hx => (hbounds hc.fits hx).2.trans (Nat.le_max_left _ _)) fun hx =>
      (hbounds hi.fits hx).2.trans (Nat.le_max_right _ _)
    omega

/-- Each region of the subtrahend is taken out of those that meet its range. -/
theorem subEach_spec {l : List DataRegion} (hs : Tiles DataRegion.Mem Q S P) (hself : ∀ r, Q r → r.Fits r.stride)
    (hl : ∀ b ∈ l, b.Fits b.stride) (hsub : ∀ b ∈ l, ∀ r, Q r → r.start ≤ b.rangeEnd → b.start ≤ r.rangeEnd →
      ∃ T, r.sub b = .ok T ∧ Tiles DataRegion.Mem Q T fun x => r.Mem x ∧ ¬b.Mem x) :
    ∃ T, subEach S l = .ok T ∧ Tiles DataRegion.Mem Q T fun x => P x ∧ ∀ b ∈ l, ¬b.Mem x := by
  induction l generalizing S P with
  | nil => exact ⟨S, rfl, hs.congr fun x => (and_iff_left nofun).symm⟩
  | cons b rest ih =>
    obtain ⟨hb, hrest⟩ := List.forall_mem_cons.mp hl
    obtain ⟨hsubb, hsubrest⟩ := List.forall_mem_cons.mp hsub
    obtain ⟨L, hL, hleft⟩ := hs.sweep Abort.assertion b.Mem DataRegion.start sizeMax
      (fun it : DataRegion =>
        if it.rangeEnd < b.start then .ok .keep
        else if b.rangeEnd < it.start then .ok .stop
        else (it.sub b).map Visit.replace)
      DataRegion.start_mem (fun _ _ => start_le_of_lt) (fun t ht => fits_start (hself t ht)) fun t ht => by
        split
        next hbefore =>
          refine ⟨_, rfl, fun x hx hx' => ?_⟩
          have hhi := le_rangeEnd (hself t ht) hx
          have hlo : b.start ≤ x := hx'.lower
          omega
        next hmeet =>
          split
          next hpast =>
            refine ⟨_, rfl, fun q hq x hx hx' => ?_⟩
            have hhi := le_rangeEnd hb hx'
            have hlo : q.start ≤ x := hx.lower
            have hle : t.start ≤ q.start := by
              rcases lt_or_eq_of_le hq with hlt | rfl
              · exact start_le_of_lt hlt
              · exact Nat.le_refl _
            omega
          next hmeet' =>
            obtain ⟨T, hT, htiles⟩ := hsubb t ht (by omega) (by omega)
            rw [hT]
            exact ⟨_, rfl, htiles⟩
    obtain ⟨T, hT, htiles⟩ := ih hleft hrest hsubrest
    unfold subEach
    dsimp only
    rw [hL, Except.ok_bind]
    refine ⟨T, hT, htiles.congr fun x => ?_⟩
    rw [List.forall_mem_cons, and_assoc]

/-- A block in a strided region is in one repetition of it. -/
theorem in_repetition (hr : r.reps = 0) (hin : ∀ x, r.Mem x → c.Mem x) :
    ∃ k ≤ c.reps, c.start + k * c.stride ≤ r.start ∧ r.stop ≤ c.stop + k * c.stride := by
  obtain ⟨k, hk, hlo, hhi⟩ := hin r.start r.start_mem
  refine ⟨k, hk, hlo, ?_⟩
  by_contra hlt
  obtain ⟨l, hl, hlo', hhi'⟩ := hin (c.stop + k * c.stride + 1) ((mem_block hr).mpr ⟨by omega, by omega⟩)
  have hkl : k < l := by
    by_contra hge
    have hmul := Nat.mul_le_mul_right c.stride (Nat.le_of_not_lt hge)
    omega
  have hgap := c.stride_pos (by omega)
  have hstep := InBlocks.step_le (s := c.stride) hkl
  omega

/-- Where the strides differ, the minuend is the blocks up to the end of the subtrahend, and what is beyond as it was. -/
theorem split_spec (hA : A.WellFormed) (he : e ≤ sizeMax)
    (hhead : ∀ t : DataRegion, t.reps = 0 → t.stop ≤ e → (∃ r ∈ A, ∀ x, t.Mem x → r.Mem x) → Q t)
    (htail : ∀ t : DataRegion, t.Fits A.stride → e < t.start → (t.reps ≠ 0 → ∃ r ∈ A, r.TwoIn (e + 1) sizeMax) → Q t) :
    ∃ R, A.split e = .ok R ∧ Tiles DataRegion.Mem Q R A.Mem := by
  obtain ⟨H, hH, hheads⟩ := boundedRegions_fits hA.tiles (Nat.zero_le e) he
  have hparts := boundedRegions_part hA.sound (Nat.zero_le e) he hH
  obtain ⟨bs, hbs, hblocks, hall⟩ := blocks_spec (hheads.imp fun _ _ hr => fits_self hr) (fun r _ => Nat.le_refl r.reps) 0
  have hheadtiles : Tiles DataRegion.Mem Q (OrdSet.ofList bs.flatten) fun x => A.Mem x ∧ x ≤ e := by
    refine (hblocks.imp fun t ht _ => ?_).congr fun x => ?_
    · obtain ⟨r, hr, k, hk, rfl⟩ := hall t ht
      have hstop : (r.repetition k).Mem (r.repetition k).stop := (mem_block rfl).mpr ⟨(r.repetition k).block, Nat.le_refl _⟩
      obtain ⟨q, hq, hin⟩ := hparts r hr
      exact hhead _ rfl (hheads.part hr (mem_iff.mpr ⟨k, hk, hstop⟩)).2.2 ⟨q, hq, fun x hx => hin x (mem_iff.mpr ⟨k, hk, hx⟩)⟩
    · simp only [← mem_iff]
      exact (hheads.cover x).trans (and_congr_right fun _ => and_iff_right (Nat.zero_le x))
  unfold split
  rw [hH, Except.ok_bind, hbs, Except.ok_bind]
  dsimp only
  split
  next hmax =>
    refine ⟨_, rfl, hheadtiles.congr fun x => and_iff_left_of_imp fun hx => ?_⟩
    rw [hmax]
    exact le_sizeMax hA hx
  next hmax =>
    obtain ⟨T, hT, htails⟩ := boundedRegions_spec
      (K := fun t => t.Fits A.stride ∧ (t.reps ≠ 0 → ∃ r ∈ A, r.TwoIn (e + 1) sizeMax))
      hA.tiles (fun _ hr => fits_self hr) (show e + 1 ≤ sizeMax by omega)
      (fun r hr hlo hhi => ⟨hA.tiles.all r hr, fun hne => ⟨r, hr, 0, by omega, by omega, by
        have hend := rangeEnd_eq (hA.tiles.all r hr)
        have hmul := Nat.mul_le_mul_right r.stride (show 0 + 1 ≤ r.reps by omega)
        omega⟩⟩) fun r hr => by
        obtain ⟨R, hR, htiles, _, htwo⟩ := inter_spec (b := interval (e + 1) sizeMax (by omega)) (hA.tiles.all r hr)
          (fits_block rfl (Nat.le_refl sizeMax)) (Or.inr rfl)
        refine ⟨R, hR, (htiles.congr fun x => and_congr_right fun _ => mem_interval).imp fun q hq hfits => ⟨hfits, fun hne => ?_⟩⟩
        rcases htwo q hq hne with hrow | ⟨m, _, _, hreps, _⟩
        · exact ⟨r, hr, hrow.twoIn hne⟩
        · change m + q.reps ≤ 0 at hreps
          omega
    rw [hT, Except.ok_bind]
    have htailtiles : Tiles DataRegion.Mem Q T fun x => A.Mem x ∧ e + 1 ≤ x ∧ x ≤ sizeMax :=
      htails.imp fun t ht hq => htail t hq.1 (htails.part ht t.start_mem).2.1 hq.2
    refine ⟨_, rfl, (hheadtiles.merge htailtiles fun x hx hx' => by omega).congr fun x => ?_⟩
    have hle : A.Mem x → x ≤ sizeMax := le_sizeMax hA
    constructor
    · rintro (hx | hx)
      · exact hx.1
      · exact hx.1
    · intro hx
      rcases Nat.lt_or_ge e x with hlt | hge
      · exact Or.inr ⟨hx, hlt, hle hx⟩
      · exact Or.inl ⟨hx, hge⟩

theorem sub_of_minuend {K : DataRegion → Prop} (hA : A.isEmpty ≠ true) (hB : B.WellFormed) (hBne : B.isEmpty ≠ true)
    (hrefuse : ¬A.refused B) (hR : A.minuend B = .ok R) (hs : Tiles DataRegion.Mem Q R P)
    (hself : ∀ r, Q r → r.Fits r.stride) (hsub : ∀ b ∈ B, ∀ r, Q r → r.start ≤ b.rangeEnd → b.start ≤ r.rangeEnd →
      ∃ T, r.sub b = .ok T ∧ Tiles DataRegion.Mem Q T fun x => r.Mem x ∧ ¬b.Mem x)
    (hK : ∀ r, Q r → K r) (hmerges : Merges K) (hself' : ∀ r, K r → r.Fits r.stride) :
    ∃ C, A.sub B = .ok C ∧ Tiles DataRegion.Mem K C fun x => P x ∧ ¬B.Mem x := by
  obtain ⟨T, hT, htiles⟩ := subEach_spec hs hself (fun b hb => hB.sound.all b hb) hsub
  obtain ⟨C, hC, hmerged⟩ := mergeRegions_spec hmerges (fun r hr => r.stop_le (hself' r hr)) (htiles.imp fun r _ => hK r)
  unfold sub
  rw [if_neg (not_or.mpr ⟨hA, hBne⟩), if_neg hrefuse, hR, Except.ok_bind, hT, Except.ok_bind]
  refine ⟨C, hC, hmerged.congr fun x => and_congr_right fun _ => ?_⟩
  exact ⟨fun h ⟨b, hb, hx⟩ => h b hb hx, fun h b hb hx => h ⟨b, hb, hx⟩⟩

theorem not_empty_of_differ (h : A.stridesDiffer B) : A.isEmpty ≠ true ∧ B.isEmpty ≠ true := by
  have hne : ∀ {S : RegionSubset}, S.stride ≠ 0 → S.isEmpty ≠ true := fun {S} hstride hempty => by
    rcases S.stride_cases with ⟨r, hr, _⟩ | ⟨_, hzero⟩
    · exact isEmpty_iff.mp hempty r hr
    · exact hstride hzero
  exact ⟨hne h.1, hne h.2.1⟩

theorem stop_le_sizeMax (hB : B.WellFormed) : B.stop ≤ sizeMax := by
  by_cases hne : B.isEmpty = true
  · unfold stop
    rw [if_pos hne]
  · exact le_sizeMax hB (hB.stop_mem hne)

/-- Where the strides do not differ, the difference has the same. -/
theorem sub_same (hA : A.WellFormed) (hB : B.WellFormed) (h : ¬A.stridesDiffer B) :
    ∃ C, A.sub B = .ok C ∧ C.WellFormed ∧ ∀ x, C.Mem x ↔ A.Mem x ∧ ¬B.Mem x := by
  by_cases hempty : A.isEmpty = true ∨ B.isEmpty = true
  · refine ⟨A, if_pos hempty, hA, fun x => (and_iff_left_of_imp fun hx => ?_).symm⟩
    rcases hempty with hempty | hempty
    · exact absurd hx (isEmpty_iff_mem.mp hempty x)
    · exact isEmpty_iff_mem.mp hempty x
  · obtain ⟨hAne, hBne⟩ := not_or.mp hempty
    obtain ⟨s, hAs, hBs⟩ := common_stride hA hB h
    obtain ⟨C, hC, htiles⟩ := sub_of_minuend hAne hB hBne (fun hr => h hr.1) (if_neg h) hAs (fun r hr => fits_self hr)
      (fun b hb r hr _ _ => sub_spec hr hr (hBs.all b hb) (Or.inl rfl)) (fun r hr => hr) (merges_fits s)
      fun r hr => fits_self hr
    exact ⟨C, hC, wellFormed htiles, fun x => htiles.cover x⟩

/-- Where they differ, the difference is exact, with one stride up to the end of the subtrahend and another past it. -/
theorem sub_differ (hA : A.WellFormed) (hB : B.WellFormed) (h : A.stridesDiffer B) (hrefuse : ¬A.refused B) :
    ∃ C, A.sub B = .ok C ∧ Tiles DataRegion.Mem Sound C fun x => A.Mem x ∧ ¬B.Mem x := by
  obtain ⟨hAne, hBne⟩ := not_empty_of_differ h
  have hself : ∀ r : DataRegion, (r.Fits B.stride ∧ r.rangeEnd ≤ B.stop ∨ r.Fits A.stride ∧ B.stop < r.start) →
      r.Fits r.stride := fun r hr => hr.elim (fun hr => fits_self hr.1) fun hr => fits_self hr.1
  have hstop := stop_le_sizeMax hB
  obtain ⟨R, hR, hsplit⟩ := split_spec
    (Q := fun r => r.Fits B.stride ∧ r.rangeEnd ≤ B.stop ∨ r.Fits A.stride ∧ B.stop < r.start) hA hstop
    (fun t ht hle _ => by
      have hfits : t.Fits B.stride := fits_block ht (by omega)
      have hend := rangeEnd_eq hfits
      rw [ht] at hend
      exact Or.inl ⟨hfits, by omega⟩)
    fun t ht hlt _ => Or.inr ⟨ht, hlt⟩
  obtain ⟨C, hC, htiles⟩ := sub_of_minuend (K := Halves B.stride A.stride B.stop) hAne hB hBne hrefuse
    ((if_pos h).trans hR) hsplit hself (fun b hb r hr hstart _ => by
      have hle := le_stop hb
      obtain ⟨hfits, hend⟩ := hr.resolve_right fun hr => by omega
      obtain ⟨T, hT, htiles⟩ := sub_spec hfits hfits (hB.tiles.all b hb) (Or.inl rfl)
      refine ⟨T, hT, htiles.imp fun t ht hfit => Or.inl ⟨hfit, ?_⟩⟩
      exact (le_rangeEnd hfits (htiles.part ht (rangeEnd_mem hfit)).1).trans hend)
    (fun r hr => ⟨hself r hr, fun hne => hr.imp (fun hr => ⟨hr.1.strided hne, hr.2⟩) fun hr => ⟨hr.1.strided hne, hr.2⟩⟩)
    (merges_halves fun heq => h.2.2 heq.symm) fun r hr => hr.fits
  exact ⟨C, hC, htiles.imp fun r _ hr => hr.fits⟩

/-- The difference of two subsets that are not both without bound with different strides is exact. -/
theorem sub_exact (hA : A.WellFormed) (hB : B.WellFormed) (hrefuse : ¬A.refused B) :
    ∃ C, A.sub B = .ok C ∧ Tiles DataRegion.Mem Sound C fun x => A.Mem x ∧ ¬B.Mem x := by
  by_cases h : A.stridesDiffer B
  · exact sub_differ hA hB h hrefuse
  · obtain ⟨C, hC, hwf, hmem⟩ := sub_same hA hB h
    exact ⟨C, hC, hwf.sound.congr hmem⟩

/-- No region of the minuend has two blocks in a row past the end of the subtrahend, or none of its blocks has two
gaps in a row of a region of the subtrahend. -/
def Separable (A B : RegionSubset) : Prop := A.stridesDiffer B →
  (∀ r ∈ A, ¬r.TwoIn (B.stop + 1) sizeMax) ∨ ∀ r ∈ A, ∀ k ≤ r.reps, ∀ b ∈ B, ¬(r.repetition k).SpansGaps b

/-- Such a difference has one stride. -/
theorem sub_separable (hA : A.WellFormed) (hB : B.WellFormed) (hrefuse : ¬A.refused B) (hsep : A.Separable B) :
    ∃ C, A.sub B = .ok C ∧ C.WellFormed ∧ ∀ x, C.Mem x ↔ A.Mem x ∧ ¬B.Mem x := by
  by_cases h : A.stridesDiffer B
  · obtain ⟨hAne, hBne⟩ := not_empty_of_differ h
    have hstop := stop_le_sizeMax hB
    rcases hsep h with hnotwo | hnogaps
    · obtain ⟨R, hR, hsplit⟩ := split_spec (Q := Fits B.stride) hA hstop
        (fun t ht hle _ => fits_block ht (by omega)) fun t ht _ htwo => by
          refine fits_block ?_ (t.stop_le ht)
          by_contra hne
          obtain ⟨r, hr, htwo⟩ := htwo hne
          exact hnotwo r hr htwo
      obtain ⟨C, hC, htiles⟩ := sub_of_minuend hAne hB hBne hrefuse ((if_pos h).trans hR) hsplit (fun r hr => fits_self hr)
        (fun b hb r hr _ _ => sub_spec hr hr (hB.tiles.all b hb) (Or.inl rfl)) (fun r hr => hr) (merges_fits B.stride)
        fun r hr => fits_self hr
      exact ⟨C, hC, wellFormed htiles, fun x => htiles.cover x⟩
    · -- what is left of a block up to the end of the subtrahend is blocks again
      obtain ⟨R, hR, hsplit⟩ := split_spec
        (Q := fun r => r.Fits A.stride ∧ (B.stop < r.start ∨ r.reps = 0 ∧ ∀ b ∈ B, ¬r.SpansGaps b)) hA hstop
        (fun t ht hle ⟨r, hr, hin⟩ => by
          refine ⟨fits_block ht (by omega), Or.inr ⟨ht, fun b hb hspans => ?_⟩⟩
          obtain ⟨k, hk, hlo, hhi⟩ := in_repetition ht hin
          obtain ⟨inv, hinv, htwo⟩ := hspans
          exact hnogaps r hr k hk b hb ⟨inv, hinv, htwo.mono hlo hhi⟩)
        fun t ht hlt _ => ⟨ht, Or.inl hlt⟩
      obtain ⟨C, hC, htiles⟩ := sub_of_minuend hAne hB hBne hrefuse ((if_pos h).trans hR) hsplit
        (fun r hr => fits_self hr.1) (fun b hb r hr hstart _ => by
          have hle := le_stop hb
          obtain ⟨hzero, hspans⟩ := hr.2.resolve_left (by omega)
          obtain ⟨T, hT, htiles⟩ := sub_spec (fits_block hzero (r.stop_le hr.1)) (fits_block hzero (r.stop_le hr.1) : r.Fits sizeMax)
            (hB.tiles.all b hb) (Or.inr (hspans b hb))
          refine ⟨T, hT, htiles.imp fun t ht hfit => ?_⟩
          have htzero : t.reps = 0 := by
            by_contra hne
            have hshape := t.shape
            have hstride := hfit.strided hne
            omega
          refine ⟨fits_block htzero (t.stop_le hfit), Or.inr ⟨htzero, fun b' hb' hspans' => ?_⟩⟩
          have hlo := (mem_block hzero).mp (htiles.part ht t.start_mem).1
          have hhi := (mem_block hzero).mp (htiles.part ht ((mem_block htzero).mpr ⟨t.block, Nat.le_refl _⟩)).1
          obtain ⟨inv, hinv, htwo⟩ := hspans'
          exact hspans b' hb' ⟨inv, hinv, htwo.mono hlo.1 hhi.2⟩)
        (fun r hr => hr.1) (merges_fits A.stride) fun r hr => fits_self hr
      exact ⟨C, hC, wellFormed htiles, fun x => htiles.cover x⟩
  · exact sub_same hA hB h

/-- Subsets without bound have the greatest index. -/
theorem not_refused (hA : A.WellFormed) (hB : B.WellFormed)
    (h : ¬(A.Mem sizeMax ∧ B.Mem sizeMax ∧ A.stridesDiffer B)) : ¬A.refused B := fun ⟨hdiffer, hAstop, hBstop⟩ => by
  obtain ⟨hAne, hBne⟩ := not_empty_of_differ hdiffer
  refine h ⟨?_, ?_, hdiffer⟩
  · rw [← hAstop]
    exact hA.stop_mem hAne
  · rw [← hBstop]
    exact hB.stop_mem hBne

/-- The difference includes what the first subset does and the second does not. -/
theorem difference_exact (hA : A.WellFormed) (hB : B.WellFormed)
    (h : ¬(A.Mem sizeMax ∧ B.Mem sizeMax ∧ A.stridesDiffer B)) :
    ∃ C, A.sub B = .ok C ∧ ∀ i ≤ sizeMax, ∃ v a b, C.includes i = .ok v ∧ A.includes i = .ok a ∧ B.includes i = .ok b ∧
      (v = true ↔ a = true ∧ b = false) := by
  obtain ⟨C, hC, htiles⟩ := sub_exact hA hB (not_refused hA hB h)
  refine ⟨C, hC, fun i hi => ?_⟩
  obtain ⟨v, hv, hvmem⟩ := includes_spec htiles hi
  obtain ⟨a, ha, hamem⟩ := includes_spec hA.sound hi
  obtain ⟨b, hb, hbmem⟩ := includes_spec hB.sound hi
  refine ⟨v, a, b, hv, ha, hb, ?_⟩
  rw [hvmem, hamem, ← Bool.not_eq_true, hbmem]

theorem difference_exact_evens : ∃ C, evens.sub zeroAndThree = .ok C ∧ ∀ i ≤ sizeMax, ∃ v a b, C.includes i = .ok v ∧
    evens.includes i = .ok a ∧ zeroAndThree.includes i = .ok b ∧ (v = true ↔ a = true ∧ b = false) :=
  difference_exact evens_wellFormed zeroAndThree_wellFormed fun ⟨_, hmax, _⟩ => by
    have hup := (mem_singleton.mp hmax).upper
    revert hup
    decide

end Fenix.RegionSubset
