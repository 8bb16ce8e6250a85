import Fenix.IntRange
import Fenix.RegionSubsetUnion

namespace Fenix.DataRegion

variable {a b : DataRegion} {first second idx : Nat}

theorem make_block : DataRegion.make first second 0 sizeMax = ofBlock first second := by
  unfold DataRegion.make
  split
  next => rw [Nat.zero_mul, Nat.add_zero]
  next => rw [dif_pos (Or.inr rfl)]

theorem interval_self (h : a.reps = 0) : interval a.start a.stop a.block = a := by
  have hshape := a.shape
  exact DataRegion.ext rfl rfl h.symm (by
    change sizeMax = a.stride
    omega)

/-- Two blocks are merged into one, the first of them being kept if the one is not from its start on. -/
theorem mergeAt_blocks (ha : a.reps = 0) (hb : b.reps = 0) (hidx : idx ≤ 1) (h : first ≤ second) :
    ∃ parts, a.mergeAt b idx first second = .ok (interval first second h :: parts) ∧ ∀ r ∈ parts, r = a := by
  have hstride : a.stride = sizeMax := by
    have hshape := a.shape
    omega
  have hreps : min (sizeSub a.reps idx) b.reps = 0 := by
    rw [hb]
    exact Nat.min_zero _
  have hafter : a.mergeAfter b idx 0 = .ok [] := by
    unfold mergeAfter
    rw [if_neg (by omega), if_neg (by omega)]
  have hbefore : ∃ parts, a.mergeBefore idx = .ok parts ∧ ∀ r ∈ parts, r = a := by
    unfold mergeBefore
    split
    next hpos =>
      rw [show idx - 1 = 0 by omega, hstride, make_block, ofBlock_eq a.block, interval_self ha]
      exact ⟨[a], rfl, fun r hr => List.mem_singleton.mp hr⟩
    next => exact ⟨[], rfl, fun r hr => absurd hr List.not_mem_nil⟩
  obtain ⟨parts, hparts, hall⟩ := hbefore
  refine ⟨parts, ?_, hall⟩
  unfold mergeAt
  rw [hreps, hstride]
  dsimp only
  rw [make_block, ofBlock_eq h, Except.ok_bind, hparts, Except.ok_bind, hafter, Except.ok_bind,
    List.append_nil]
  rfl

theorem mergeAt_error (ha : a.reps = 0) (hb : b.reps = 0) (h : ¬first ≤ second) :
    a.mergeAt b idx first second = .error .assertion := by
  have hstride : a.stride = sizeMax := by
    have hshape := a.shape
    omega
  have hreps : min (sizeSub a.reps idx) b.reps = 0 := by
    rw [hb]
    exact Nat.min_zero _
  unfold mergeAt
  rw [hreps, hstride]
  dsimp only
  rw [make_block]
  unfold ofBlock
  rw [dif_neg h]
  rfl

theorem toStart_cases {first last : Nat} (hle : first ≤ last) (hlast : last ≤ sizeMax)
    (h : sizeSub (sizeWrap (last + 1)) first % sizeMax = 0) :
    sizeSub (sizeWrap (last + 1)) first / sizeMax = 0 ∧ first = 0 ∧ last = sizeMax ∨
      sizeSub (sizeWrap (last + 1)) first / sizeMax = 1 ∧ last = first + (sizeMax - 1) := by
  unfold sizeSub sizeWrap sizeMax at h ⊢
  unfold sizeMax at hlast
  split at h
  next hin =>
    rw [if_pos hin]
    omega
  next hin =>
    have hmax : last = 18446744073709551615 := by omega
    subst hmax
    rw [if_neg hin]
    omega

/-- A merge of two blocks makes a block of some bounds, or fails. -/
theorem mergeAt_wrong {idx first second : Nat} (ha : a.reps = 0) (hb : b.reps = 0) (hidx : idx ≤ 1)
    (hsecond : second ≤ sizeMax) (hwrong : first < a.start ∨ a.start < first ∨ second < b.stop) :
    (∃ e, (a.mergeAt b idx first second).map some = .error e) ∨
      ∃ m parts, (a.mergeAt b idx first second).map some = .ok (some (m :: parts)) ∧ (∀ r ∈ parts, r = a) ∧
        m.reps = 0 ∧ m.stop ≤ sizeMax ∧ (m.start < a.start ∨ a.start < m.start ∨ m.stop < b.stop) := by
  by_cases h : first ≤ second
  · obtain ⟨parts, hparts, hall⟩ := mergeAt_blocks ha hb hidx h
    rw [hparts]
    exact Or.inr ⟨_, parts, rfl, hall, rfl, hsecond, hwrong⟩
  · rw [mergeAt_error ha hb h]
    exact Or.inl ⟨_, rfl⟩

/-- Blocks that overlap are never merged into one that stands for both. -/
theorem mergePair_overlap (ha : a.reps = 0) (hb : b.reps = 0) (hle : a.start ≤ b.start) (hover : b.start ≤ a.stop)
    (hpos : 0 < b.start) (hamax : a.stop ≤ sizeMax) (hbmax : b.stop ≤ sizeMax) :
    (∃ e, a.mergePair b = .error e) ∨ a.mergePair b = .ok none ∨
      ∃ m parts, a.mergePair b = .ok (some (m :: parts)) ∧ (∀ r ∈ parts, r = a) ∧ m.reps = 0 ∧ m.stop ≤ sizeMax ∧
        (m.start < a.start ∨ a.start < m.start ∨ m.stop < b.stop) := by
  have hbb := b.block
  have hstride : a.stride = sizeMax := by
    have hshape := a.shape
    omega
  have htoEnd : sizeSub (sizeSub b.start 1) a.stop = sizeMax - (a.stop - b.start) := by
    unfold sizeSub
    rw [if_pos (show 1 ≤ b.start by omega), if_neg (by omega)]
    omega
  unfold mergePair
  dsimp only
  rw [hstride, htoEnd]
  split
  next hend =>
    -- they have just one index in common
    have heq : a.stop = b.start := by
      unfold sizeMax at hend hamax
      omega
    have hidx : (sizeMax - (a.stop - b.start)) / sizeMax = 1 := by
      rw [heq, Nat.sub_self, Nat.sub_zero]
      exact Nat.div_self (by decide)
    rw [hidx, Nat.one_mul]
    refine (mergeAt_wrong ha hb (Nat.le_refl 1) hbmax ?_).imp_right Or.inr
    by_cases hzero : a.start = 0
    · have hwrap : sizeWrap (a.start + sizeMax) = sizeMax := by
        rw [hzero]
        rfl
      rw [hwrap, hzero]
      exact Or.inr (Or.inl (by decide))
    · have hwrap : sizeWrap (a.start + sizeMax) = a.start - 1 := by
        unfold sizeWrap sizeMax
        unfold sizeMax at hamax
        omega
      rw [hwrap]
      omega
  next hend =>
    split
    next hstart =>
      rcases toStart_cases (hle.trans hbb) hbmax hstart with ⟨hidx, hzero, hmax⟩ | ⟨hidx, hmax⟩
      · have hwrap : sizeWrap (a.stop + 0 * sizeMax) = a.stop := by
          rw [Nat.zero_mul, Nat.add_zero, sizeWrap_eq hamax]
        rw [hidx, hwrap]
        exact (mergeAt_wrong ha hb (Nat.zero_le 1) hamax (Or.inr (Or.inl (by omega)))).imp_right Or.inr
      · have hwrap : sizeWrap (a.stop + 1 * sizeMax) = a.stop - 1 := by
          unfold sizeWrap sizeMax
          unfold sizeMax at hamax
          omega
        rw [hidx, hwrap]
        refine (mergeAt_wrong ha hb (Nat.le_refl 1) (by omega) ?_).imp_right Or.inr
        unfold sizeMax at hmax hamax hbmax
        omega
    next => exact Or.inr (Or.inl rfl)

end Fenix.DataRegion

namespace Fenix.RegionSubset

open DataRegion

/-- The region of one pair of bounds. -/
def boundsRegion (b : Nat × Nat) : Except Abort DataRegion :=
  if b.1 ≤ b.2 then DataRegion.make b.1 b.2 0 sizeMax else .error .assertion

/-- The subset of a list of intervals. -/
def ofBounds (bounds : List (Nat × Nat)) : Except Abort RegionSubset := do
  let regions ← bounds.mapM boundsRegion
  mergeRegions (OrdSet.ofList regions)

/-- The subset of intervals that are told as two arrays of `int`. -/
def ofArrays (num_blocks : Int) (firsts seconds : List Int) : Except Abort RegionSubset :=
  if 0 < num_blocks then
    ofBounds (((firsts.map castSize).zip (seconds.map castSize)).take num_blocks.toNat)
  else .error .assertion

variable {a b : Nat × Nat} {bounds : List (Nat × Nat)} {S : RegionSubset} {x : Nat}

/-- Some interval of a list has an index. -/
def InSome (bounds : List (Nat × Nat)) (x : Nat) : Prop := ∃ b ∈ bounds, b.1 ≤ x ∧ x ≤ b.2

/-- Intervals that are not the same have no index in common. -/
def Apart (bounds : List (Nat × Nat)) : Prop := ∀ a ∈ bounds, ∀ b ∈ bounds, a ≠ b → a.2 < b.1 ∨ b.2 < a.1

/-- A subset is the union of intervals, in disjoint regions. The count is that of the indices up to one that is not
the greatest. -/
structure Denotes (S : RegionSubset) (bounds : List (Nat × Nat)) : Prop where
  includes : ∀ x ≤ sizeMax, ∃ v, S.includes x = .ok v ∧ (v = true ↔ InSome bounds x)
  disjoint : ∀ r ∈ S, ∀ t ∈ S, ∀ x, r.Mem x → t.Mem x → r = t
  count : ∀ e < sizeMax, S.count e = .ok {x | InSome bounds x ∧ x ≤ e}.ncard

/-- The block of a pair of bounds. -/
theorem boundsRegion_eq (h : b.1 ≤ b.2) : boundsRegion b = .ok (interval b.1 b.2 h) := by
  unfold boundsRegion
  rw [if_pos h, make_block, ofBlock_eq h]

/-- The blocks of a list of pairs. -/
theorem bounds_regions (hle : ∀ b ∈ bounds, b.1 ≤ b.2) : ∃ regions, bounds.mapM boundsRegion = .ok regions ∧
    ∀ r, r ∈ regions ↔ ∃ b ∈ bounds, ∃ h : b.1 ≤ b.2, r = interval b.1 b.2 h := by
  induction bounds with
  | nil => exact ⟨[], rfl, fun r => by simp⟩
  | cons b bs ih =>
    obtain ⟨hb, hbs⟩ := List.forall_mem_cons.mp hle
    obtain ⟨regions, hregions, hmem⟩ := ih hbs
    rw [List.mapM_cons, boundsRegion_eq hb, Except.ok_bind, hregions]
    refine ⟨_, rfl, fun r => ?_⟩
    rw [List.mem_cons, hmem, List.exists_mem_cons_iff]
    exact or_congr_left ⟨fun h => ⟨hb, h⟩, fun h => h.elim fun _ heq => heq⟩

/-- Of intervals that are apart a subset is made that is their union. -/
theorem ofBounds_apart (hle : ∀ b ∈ bounds, b.1 ≤ b.2 ∧ b.2 ≤ sizeMax) (hapart : Apart bounds)
    (hsome : ∃ x < sizeMax, ¬InSome bounds x) : ∃ S, ofBounds bounds = .ok S ∧ S.Denotes bounds := by
  obtain ⟨regions, hregions, hmem⟩ := bounds_regions fun b hb => (hle b hb).1
  have htiles : StrideTiles 0 (OrdSet.ofList regions) (InSome bounds) := by
    refine ⟨fun x => ?_, fun r hr t ht x hx hx' => ?_, fun r hr => ?_⟩
    · simp only [OrdSet.mem_ofList, hmem]
      constructor
      · rintro ⟨r, ⟨b, hb, h, rfl⟩, hx⟩
        exact ⟨b, hb, mem_interval.mp hx⟩
      · rintro ⟨b, hb, hx⟩
        exact ⟨_, ⟨b, hb, (hle b hb).1, rfl⟩, mem_interval.mpr hx⟩
    · obtain ⟨a, ha, _, rfl⟩ := (hmem r).mp (OrdSet.mem_ofList.mp hr)
      obtain ⟨b, hb, _, rfl⟩ := (hmem t).mp (OrdSet.mem_ofList.mp ht)
      by_cases heq : a = b
      · subst heq
        rfl
      · have hin := mem_interval.mp hx
        have hin' := mem_interval.mp hx'
        have := hapart a ha b hb heq
        omega
    · obtain ⟨b, hb, _, rfl⟩ := (hmem r).mp (OrdSet.mem_ofList.mp hr)
      exact fits_block rfl (hle b hb).2
  obtain ⟨S, hS, hunion⟩ := mergeRegions_spec (merges_fits 0)
    (fun r hr => (Nat.le_add_right _ _).trans hr.end_le) htiles
  have hsound : Tiles DataRegion.Mem Sound S (InSome bounds) := hunion.imp fun _ _ hr => fits_self hr
  refine ⟨S, ?_, fun x hx => includes_spec hsound hx, hunion.disjoint, fun e he => ?_⟩
  · unfold ofBounds
    rw [hregions, Except.ok_bind, hS]
  · obtain ⟨T, hT, hcount, hmax⟩ := count_spec hsound he
    refine hcount.mpr fun t ht heq => ?_
    obtain ⟨_, hzero, hstart, hstop⟩ := hmax t ht heq
    obtain ⟨y, hy, hno⟩ := hsome
    obtain ⟨r, hr, hin⟩ := boundedRegions_part hsound (Nat.zero_le e) (Nat.le_of_lt he) hT t ht
    exact hno (hsound.part hr (hin y ((mem_block hzero).mpr ⟨by omega, by omega⟩)))

/-- A region that is alone is not merged. -/
theorem mergeFrom_alone {m : DataRegion} {o : Option DataRegion} (fuel : Nat) (h : ∀ r ∈ S, r = m)
    (ho : ∀ c, o = some c → c ∈ S) : mergeFrom (fuel + 1) S o = .ok S := by
  have hafter : S.after m = [] := List.eq_nil_iff_forall_not_mem.mpr fun r hr => by
    obtain ⟨hr, hlt⟩ := OrdSet.mem_after.mp hr
    exact ne_of_lt hlt (h r hr).symm
  cases o with
  | none => rfl
  | some c =>
    cases h c (ho c rfl)
    have hnext : S.next m = none := by
      unfold OrdSet.next
      rw [hafter]
      rfl
    unfold mergeFrom
    rw [hafter]
    change mergeFrom fuel S (S.next m) = _
    rw [hnext]
    cases fuel <;> rfl

theorem first_pair {r t : DataRegion} (hlt : r < t) : (OrdSet.ofList [r, t]).first = some r := by
  unfold OrdSet.first
  rw [OrdSet.entries_ofList (List.pairwise_pair.mpr hlt)]
  rfl

/-- Two regions that cannot be merged are left as they are: the walk goes on to the second one, after which there is
none. -/
theorem mergeRegions_kept {r t : DataRegion} (hlt : r < t) (hnone : r.findMerge [t] = .ok none) :
    mergeRegions (OrdSet.ofList [r, t]) = .ok (OrdSet.ofList [r, t]) := by
  obtain ⟨hafter, hlast⟩ := OrdSet.after_pair hlt
  have hstep : mergeFrom sizeMax (OrdSet.ofList [r, t]) (some t) = .ok (OrdSet.ofList [r, t]) := by
    rw [show sizeMax = sizeMax - 1 + 1 from rfl]
    unfold mergeFrom OrdSet.next
    rw [hlast]
    rfl
  unfold mergeRegions
  rw [first_pair hlt]
  unfold mergeFrom OrdSet.next
  rw [hafter, hnone]
  exact hstep

/-- Two regions are merged into one and parts that are the first again. -/
theorem mergeRegions_merged {r t m : DataRegion} {parts : List DataRegion} (hlt : r < t)
    (hfind : r.findMerge [t] = .ok (some (t, m :: parts))) (hparts : ∀ u ∈ parts, u = r) :
    ∃ T, mergeRegions (OrdSet.ofList [r, t]) = .ok T ∧ ∀ u ∈ T, u = m := by
  have hall : ∀ u ∈ (((OrdSet.ofList [r, t]).merge (OrdSet.ofList (m :: parts))).erase t).erase r, u = m := by
    intro u hu
    simp only [OrdSet.mem_erase, OrdSet.mem_merge, OrdSet.mem_ofList, List.mem_cons, List.not_mem_nil, or_false] at hu
    obtain ⟨⟨hu, hut⟩, hur⟩ := hu
    rcases hu with (hu | hu) | hu | hu
    · exact absurd hu hur
    · exact absurd hu hut
    · exact hu
    · exact absurd (hparts u hu) hur
  refine ⟨_, ?_, hall⟩
  unfold mergeRegions
  rw [first_pair hlt]
  unfold mergeFrom
  rw [(OrdSet.after_pair hlt).1, hfind]
  refine mergeFrom_alone (sizeMax - 1) hall fun c hc => ?_
  obtain ⟨hc, hlt⟩ := OrdSet.next_mem hc
  exact OrdSet.mem_erase.mpr ⟨hc, (ne_of_lt hlt).symm⟩

/-- A second block that starts at 0 is taken to be far from the first. -/
theorem findMerge_zero {r t : DataRegion} (hr : r.reps = 0) (ht : t.reps = 0) (hlt : r < t) (htmax : t.stop ≤ sizeMax)
    (hzero : t.start = 0) : r.findMerge [t] = .ok none := by
  have hrange : r.rangeEnd = r.stop := by
    unfold DataRegion.rangeEnd
    rw [hr, if_neg (by decide), Nat.mul_zero, Nat.add_zero]
  have hstop : r.rangeEnd < sizeSub t.start 1 := by
    rcases lt_cases hlt with h | ⟨_, h | ⟨_, h⟩⟩
    · omega
    · rw [hrange, hzero]
      exact Nat.lt_of_lt_of_le h htmax
    · rw [hr, ht] at h
      have hrs := r.shape
      have hts := t.shape
      omega
  unfold findMerge
  rw [if_pos hstop]

/-- Of two blocks that overlap, both are left as they are, or what is left is at most one that does not stand for both,
or merging them fails. -/
theorem mergeRegions_overlap {r t : DataRegion} (hr : r.reps = 0) (ht : t.reps = 0) (hlt : r < t)
    (hover : t.start ≤ r.stop) (hrmax : r.stop ≤ sizeMax) (htmax : t.stop ≤ sizeMax) :
    (∃ e, mergeRegions (OrdSet.ofList [r, t]) = .error e) ∨
      mergeRegions (OrdSet.ofList [r, t]) = .ok (OrdSet.ofList [r, t]) ∨
      ∃ m T, mergeRegions (OrdSet.ofList [r, t]) = .ok T ∧ (∀ u ∈ T, u = m) ∧ m.reps = 0 ∧ m.stop ≤ sizeMax ∧
        (m.start < r.start ∨ r.start < m.start ∨ m.stop < t.stop) := by
  by_cases hzero : t.start = 0
  · exact Or.inr (Or.inl (mergeRegions_kept hlt (findMerge_zero hr ht hlt htmax hzero)))
  · have hnear : ¬r.rangeEnd < sizeSub t.start 1 := by
      unfold DataRegion.rangeEnd
      rw [hr, if_neg (by decide), Nat.mul_zero, Nat.add_zero, sizeSub_eq (by omega)]
      omega
    have hfind : ∀ o, r.mergePair t = .ok o → r.findMerge [t] = .ok (o.map (Prod.mk t)) := fun o ho => by
      unfold findMerge
      rw [if_neg hnear, ho]
      cases o <;> rfl
    rcases mergePair_overlap hr ht (start_le_of_lt hlt) hover (Nat.pos_of_ne_zero hzero) hrmax htmax with
      ⟨e, he⟩ | hnone | ⟨m, parts, hsome, hparts, hm, hmax, hwrong⟩
    · refine Or.inl ⟨e, ?_⟩
      unfold mergeRegions
      rw [first_pair hlt]
      unfold mergeFrom findMerge
      rw [(OrdSet.after_pair hlt).1]
      dsimp only
      rw [if_neg hnear, he]
      rfl
    · exact Or.inr (Or.inl (mergeRegions_kept hlt (hfind none hnone)))
    · obtain ⟨T, hT, hall⟩ := mergeRegions_merged hlt (hfind _ hsome) hparts
      exact Or.inr (Or.inr ⟨m, T, hT, hall, hm, hmax, hwrong⟩)

/-- A subset whose regions are all one block denotes two overlapping intervals only if the block is their union. -/
theorem denotes_alone {m : DataRegion} (ha : a.1 ≤ a.2 ∧ a.2 ≤ sizeMax) (hb : b.1 ≤ b.2 ∧ b.2 ≤ sizeMax) (hab : a.1 ≤ b.1)
    (hall : ∀ r ∈ S, r = m) (hm : m.reps = 0) (hmax : m.stop ≤ sizeMax) (h : S.Denotes [a, b]) :
    m.start = a.1 ∧ b.2 ≤ m.stop := by
  have htiles : Tiles DataRegion.Mem Sound S S.Mem := by
    refine ⟨fun x => Iff.rfl, fun r hr t ht _ _ _ => (hall r hr).trans (hall t ht).symm, fun r hr => ?_⟩
    rw [hall r hr]
    exact fits_block hm hmax
  have hmem : ∀ x ≤ sizeMax, S.Mem x ↔ InSome [a, b] x := fun x hx => by
    obtain ⟨v, hv, hin⟩ := includes_spec htiles hx
    obtain ⟨v', hv', hin'⟩ := h.includes x hx
    cases Except.ok.inj (hv.symm.trans hv')
    exact hin.symm.trans hin'
  have hblock : ∀ x, S.Mem x → m.start ≤ x ∧ x ≤ m.stop := fun x ⟨r, hr, hx⟩ => by
    rw [hall r hr] at hx
    exact (mem_block hm).mp hx
  have hfirst := hblock a.1 ((hmem a.1 (ha.1.trans ha.2)).mpr ⟨a, List.mem_cons_self, Nat.le_refl _, ha.1⟩)
  have hlast := hblock b.2 ((hmem b.2 hb.2).mpr ⟨b, List.mem_cons_of_mem _ List.mem_cons_self, hb.1, Nat.le_refl _⟩)
  obtain ⟨r, hr, _⟩ := (hmem a.1 (ha.1.trans ha.2)).mpr ⟨a, List.mem_cons_self, Nat.le_refl _, ha.1⟩
  obtain ⟨c, hc, hin⟩ := (hmem m.start (m.block.trans hmax)).mp ⟨m, hall r hr ▸ hr, m.start_mem⟩
  refine ⟨?_, hlast.2⟩
  rcases List.mem_pair.mp hc with rfl | rfl <;> omega

/-- The subset of two different intervals that overlap is not their union. -/
theorem overlap_not_denotes (ha : a.1 ≤ a.2 ∧ a.2 ≤ sizeMax) (hb : b.1 ≤ b.2 ∧ b.2 ≤ sizeMax)
    (hlt : interval a.1 a.2 ha.1 < interval b.1 b.2 hb.1) (hover : b.1 ≤ a.2) :
    ¬∃ S, ofBounds [a, b] = .ok S ∧ S.Denotes [a, b] := by
  rintro ⟨S, hS, h⟩
  have hregions : ofBounds [a, b] = mergeRegions (OrdSet.ofList [interval a.1 a.2 ha.1, interval b.1 b.2 hb.1]) := by
    unfold ofBounds
    rw [List.mapM_cons, boundsRegion_eq ha.1, Except.ok_bind, List.mapM_cons, boundsRegion_eq hb.1]
    rfl
  rw [hregions] at hS
  rcases mergeRegions_overlap rfl rfl hlt hover ha.2 hb.2 with ⟨e, he⟩ | hkept | ⟨m, T, hT, hall, hm, hmax, hwrong⟩
  · rw [he] at hS
    cases hS
  · rw [hkept] at hS
    cases Except.ok.inj hS
    have heq := h.disjoint _ (OrdSet.mem_ofList.mpr List.mem_cons_self) _
      (OrdSet.mem_ofList.mpr (List.mem_cons_of_mem _ List.mem_cons_self)) b.1
      (mem_interval.mpr ⟨start_le_of_lt hlt, hover⟩) (mem_interval.mpr ⟨Nat.le_refl _, hb.1⟩)
    exact ne_of_lt hlt heq
  · rw [hT] at hS
    cases Except.ok.inj hS
    obtain ⟨hstart, hstop⟩ := denotes_alone ha hb (start_le_of_lt hlt) hall hm hmax h
    have hstart' : m.start = (interval a.1 a.2 ha.1).start := hstart
    have hstop' : (interval b.1 b.2 hb.1).stop ≤ m.stop := hstop
    omega

/-- Arrays of the bounds of intervals make the subset that the intervals make. -/
theorem ofArrays_eq (hne : bounds ≠ []) (hle : ∀ b ∈ bounds, b.1 ≤ b.2) (hint : ∀ b ∈ bounds, b.2 ≤ 2147483647) :
    ofArrays bounds.length (bounds.map fun b => (b.1 : Int)) (bounds.map fun b => (b.2 : Int)) = ofBounds bounds := by
  have hpairs : ((bounds.map fun b => (b.1 : Int)).map castSize).zip ((bounds.map fun b => (b.2 : Int)).map castSize) =
      bounds := by
    rw [List.map_map, List.map_map, List.zip_map']
    refine (List.map_congr_left fun b hb => ?_).trans (List.map_id bounds)
    have hb1 := hle b hb
    have hb2 := hint b hb
    exact Prod.ext (castSize_natCast (by omega)) (castSize_natCast (by omega))
  have hpos := List.length_pos_iff.mpr hne
  unfold ofArrays
  rw [if_pos (by omega), hpairs, Int.toNat_natCast, List.take_length]

/-- A list of intervals that are apart or the same makes a subset that is their union, unless all indices below the
greatest are in it. Of any other list already two of the intervals make a subset that is not their union. Arrays of
`int` make the same subset. -/
theorem ofBounds_denotes (bounds : List (Nat × Nat)) (hle : ∀ b ∈ bounds, b.1 ≤ b.2 ∧ b.2 ≤ sizeMax) :
    (Apart bounds → (∃ x < sizeMax, ¬InSome bounds x) → ∃ S, ofBounds bounds = .ok S ∧ S.Denotes bounds) ∧
      (¬Apart bounds → ∃ a ∈ bounds, ∃ b ∈ bounds, ¬∃ S, ofBounds [a, b] = .ok S ∧ S.Denotes [a, b]) ∧
      (bounds ≠ [] → (∀ b ∈ bounds, b.2 ≤ 2147483647) →
        ofArrays bounds.length (bounds.map fun b => (b.1 : Int)) (bounds.map fun b => (b.2 : Int)) = ofBounds bounds) := by
  refine ⟨ofBounds_apart hle, fun hapart => ?_, fun hne => ofArrays_eq hne fun b hb => (hle b hb).1⟩
  unfold Apart at hapart
  push Not at hapart
  obtain ⟨a, ha, b, hb, hne, hab, hba⟩ := hapart
  have hregions : interval a.1 a.2 (hle a ha).1 ≠ interval b.1 b.2 (hle b hb).1 := fun heq =>
    hne (Prod.ext (congrArg DataRegion.start heq) (congrArg DataRegion.stop heq))
  rcases lt_or_gt_of_ne hregions with hlt | hlt
  · exact ⟨a, ha, b, hb, overlap_not_denotes (hle a ha) (hle b hb) hlt hab⟩
  · exact ⟨b, hb, a, ha, overlap_not_denotes (hle b hb) (hle a ha) hlt hba⟩

theorem ofBounds_denotes_three : ∃ S, ofBounds [(8, 9), (0, 5), (8, 9)] = .ok S ∧ S.Denotes [(8, 9), (0, 5), (8, 9)] := by
  refine (ofBounds_denotes [(8, 9), (0, 5), (8, 9)] (by decide)).1 ?_ ⟨7, by decide, ?_⟩
  · unfold Apart
    decide
  · unfold InSome
    decide

/-- Two intervals with one index in common fail, and of two where one is inside the other both are kept. -/
theorem bounds_overlap : ofBounds [(0, 5), (5, 9)] = .error .assertion ∧
    ¬∃ S, ofBounds [(0, 5), (3, 4)] = .ok S ∧ S.Denotes [(0, 5), (3, 4)] := by
  refine ⟨rfl, ?_⟩
  rintro ⟨S, hS, h⟩
  have hkept : ofBounds [(0, 5), (3, 4)] =
      .ok (OrdSet.ofList [interval 0 5 (by decide), interval 3 4 (by decide)]) := rfl
  rw [hkept] at hS
  cases Except.ok.inj hS
  have heq := h.disjoint (interval 0 5 (by decide)) (OrdSet.mem_ofList.mpr List.mem_cons_self)
    (interval 3 4 (by decide)) (OrdSet.mem_ofList.mpr (List.mem_cons_of_mem _ List.mem_cons_self)) 3
    (mem_interval.mpr (by decide)) (mem_interval.mpr (by decide))
  exact absurd (congrArg DataRegion.start heq) (by decide)

end Fenix.RegionSubset
