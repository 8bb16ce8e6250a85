import Fenix.RegionPack

namespace Fenix

/-- The greatest distance between two pointers, which no allocation is larger than. -/
def ptrdiffMax : Nat := 9223372036854775807

/-- A buffer in memory. -/
structure Allocation extends DataBuffer where
  size_le : toDataBuffer.size ≤ ptrdiffMax

namespace RegionSubset

open DataRegion

variable {s T : RegionSubset} {elmSize e size : Nat} {src dst : DataBuffer}

/-- All elements of a subset are in a buffer of a size. -/
def Inside (s : RegionSubset) (elmSize size : Nat) : Prop := ∀ x, s.Mem x → (x + 1) * elmSize ≤ size

/-- What is packed from a source comes back to a destination, which is else left as it was. -/
def RoundTrip (s : RegionSubset) (elmSize : Nat) (src dst : DataBuffer) : Prop :=
  ∀ buf, ∃ packed, s.packData elmSize src buf = .ok packed ∧ ∃ out, s.unpackData elmSize packed dst = .ok out ∧
    (∀ y < src.size, s.Mem (y / elmSize) → y < out.size ∧ out.bytes y = src.bytes y) ∧
    (dst.size ≠ 0 → out.size = dst.size ∧ ∀ y, ¬(y < src.size ∧ s.Mem (y / elmSize)) → out.bytes y = dst.bytes y)

/-- The blocks that are packed are those of the datatype, in its order. -/
def SameBlocks (s : RegionSubset) (elmSize : Nat) (src : DataBuffer) : Prop :=
  ∃ T blocks t, s.boundedRegions 0 (src.size / elmSize - 1) = .ok T ∧ T.blockIter = .ok blocks ∧ s.toDatatype = .ok t ∧
    t.count = blocks.length ∧ (t.blocklengths = blocks.map fun b => (b.length : Int)) ∧
    t.displacements = blocks.map fun b => (b.start : Int)

/-- The number of blocks, their lengths and where they start are within the range of `int`. -/
def Narrow (s : RegionSubset) : Prop :=
  (s.entries.map fun r => r.reps + 1).sum ≤ 2147483647 ∧
    ∀ r ∈ s, r.length ≤ 2147483647 ∧ r.start + r.reps * r.stride ≤ 2147483647

theorem boundedRegions_whole (hs : s.WellFormed) (h : ∀ x, s.Mem x → x ≤ e) : s.boundedRegions 0 e = .ok s := by
  unfold boundedRegions
  split
  next hempty =>
    have hentries : s.entries = [] := List.isEmpty_iff.mp hempty
    exact congrArg Except.ok (OrdSet.ext hentries.symm)
  next hne => rw [if_pos ⟨Nat.zero_le _, h _ (hs.stop_mem hne)⟩]

theorem Inside.le (hin : s.Inside elmSize ((e + 1) * elmSize)) (helm : 0 < elmSize) {x : Nat} (hx : s.Mem x) : x ≤ e :=
  Nat.le_of_succ_le_succ (Nat.le_of_mul_le_mul_right (hin x hx) helm)

/-- The destination of the size of the source is used as it is, one without elements is made to fit. -/
theorem unpackTarget_spec (hs : s.WellFormed) (hne : ¬s.isEmpty = true) (helm : 0 < elmSize) (he : e < sizeMax - 1)
    (hmax : (e + 1) * elmSize ≤ sizeMax)
    (hdst : dst.size = (e + 1) * elmSize ∨ dst.size = 0 ∧ s.Inside elmSize ((e + 1) * elmSize)) :
    ∃ f target, s.unpackTarget elmSize dst = .ok (f, target) ∧ f ≤ e ∧ target.size = (f + 1) * elmSize ∧
      target.bytes = dst.bytes ∧ (dst.size ≠ 0 → target.size = dst.size) ∧ (∀ x, s.Mem x → x ≤ e → x ≤ f) ∧
      s.boundedRegions 0 f = s.boundedRegions 0 e := by
  unfold unpackTarget
  rcases hdst with hsize | ⟨hzero, hin⟩
  · have hlast : sizeSub (dst.size / elmSize) 1 = e := by
      rw [hsize, Nat.mul_div_cancel _ helm]
      exact if_pos (Nat.le_add_left 1 e)
    rw [hlast, if_neg (by omega)]
    exact ⟨e, dst, rfl, Nat.le_refl e, hsize, rfl, fun _ => rfl, fun _ _ h => h, rfl⟩
  · have hstop := hs.stop_mem hne
    have hle := hin.le helm hstop
    have hupto : ∀ x, s.Mem x → x ≤ s.stop := fun x hx => hs.le_stop hx
    have hlast : sizeSub (dst.size / elmSize) 1 = sizeMax := by
      rw [hzero, Nat.zero_div]
      rfl
    have hmul : (s.stop + 1) * elmSize ≤ (e + 1) * elmSize := Nat.mul_le_mul_right elmSize (by omega)
    have hwrap : sizeWrap ((s.stop + 1) * elmSize) = (s.stop + 1) * elmSize := Nat.mod_eq_of_lt (by omega)
    rw [hlast, if_pos rfl, if_pos (by omega), hwrap]
    refine ⟨s.stop, _, rfl, hle, rfl, rfl, fun h => absurd hzero h, fun x hx _ => hupto x hx, ?_⟩
    rw [boundedRegions_whole hs hupto, boundedRegions_whole hs fun x hx => hin.le helm hx]

theorem roundTrip (hs : s.WellFormed) (helm : 0 < elmSize) (hsize : src.size = (e + 1) * elmSize) (he : e < sizeMax - 1)
    (hmax : src.size ≤ sizeMax) (hdst : dst.size = src.size ∨ dst.size = 0 ∧ s.Inside elmSize src.size) :
    s.RoundTrip elmSize src dst := by
  intro buf
  by_cases hempty : s.isEmpty = true
  · have hnone := isEmpty_iff_mem.mp hempty
    exact ⟨_, if_pos hempty, dst, if_pos hempty, fun y _ hy => absurd hy (hnone _), fun _ => ⟨rfl, fun _ _ => rfl⟩⟩
  · rw [hsize] at hdst hmax
    obtain ⟨T, bs, hT, hbs, hcount, hle, hcover, hpack⟩ := packData_spec hs.sound hempty helm hsize he (hsize ▸ hmax)
    obtain ⟨f, target, htarget, hfe, htsize, htbytes, hkeep, hreach, hsame⟩ :=
      unpackTarget_spec hs hempty helm he hmax hdst
    obtain ⟨T', bs', hT', hbs', hcount', _, _⟩ := count_lengths hs.sound (show f < sizeMax - 1 by omega)
    cases Except.ok.inj (hT'.symm.trans (hsame.trans hT))
    cases Except.ok.inj (hbs'.symm.trans hbs)
    have hbytes := Nat.mul_le_mul_right elmSize hle
    have hmod : dst.size % elmSize = 0 := by
      rcases hdst with h | h
      · rw [h, Nat.mul_mod_left]
      · rw [h.1, Nat.zero_mod]
    have helem : ∀ y, y < src.size ↔ y / elmSize ≤ e := fun y => by
      rw [hsize, ← Nat.div_lt_iff_lt_mul helm, Nat.lt_succ_iff]
    have hcover' : ∀ x, (∃ b ∈ bs, b.start ≤ x ∧ x ≤ b.stop) ↔ s.Mem x ∧ x ≤ f := fun x =>
      (hcover x).trans (and_congr_right fun hx => ⟨hreach x hx, fun h => h.trans hfe⟩)
    obtain ⟨out, hout, hosize, hin, hother⟩ := unpackData_spec hempty helm hmod htarget hT' hbs' hcount' (by omega)
      hcover' (by rw [htsize])
    refine ⟨_, hpack, out, hout, fun y hy hmem => ?_, fun hne => ⟨hosize.trans (hkeep hne), fun y hy => ?_⟩⟩
    · have hyf := hreach _ hmem ((helem y).mp hy)
      refine ⟨?_, hin y ⟨hmem, hyf⟩⟩
      rw [hosize, htsize, ← Nat.div_lt_iff_lt_mul helm]
      omega
    · rw [← htbytes]
      refine hother y fun h => hy ⟨(helem y).mpr (h.2.trans hfe), h.1⟩

/-- The datatype has the blocks of the subset, but for what `int` makes of them. -/
theorem sameBlocks_iff (hs : s.WellFormed) (helm : 0 < elmSize) (hsize : src.size = (e + 1) * elmSize)
    (he : e < sizeMax - 1) (hin : s.Inside elmSize src.size) : s.SameBlocks elmSize src ↔ s.Narrow := by
  have hlast : src.size / elmSize - 1 = e := by
    rw [hsize, Nat.mul_div_cancel _ helm, Nat.add_sub_cancel]
  rw [hsize] at hin
  have hle : ∀ x, s.Mem x → x ≤ e := fun x hx => hin.le helm hx
  have hbounded : s.isEmpty = true ∨ s.stop ≠ sizeMax := by
    by_cases hempty : s.isEmpty = true
    · exact Or.inl hempty
    · have := hle _ (hs.stop_mem hempty)
      exact Or.inr (by omega)
  have hdatatype : s.toDatatype = .ok { count := castInt (repetitions s.entries).length
                                        blocklengths := (repetitions s.entries).map fun b => castInt b.length
                                        displacements := (repetitions s.entries).map fun b => castInt b.start } := by
    unfold toDatatype
    rw [if_pos hbounded, blockIter_eq]
    rfl
  have hsame : s.SameBlocks elmSize src ↔ castInt (repetitions s.entries).length = (repetitions s.entries).length ∧
      (((repetitions s.entries).map fun b => castInt b.length) = (repetitions s.entries).map fun b => (b.length : Int)) ∧
      ((repetitions s.entries).map fun b => castInt b.start) = (repetitions s.entries).map fun b => (b.start : Int) := by
    unfold SameBlocks
    rw [hlast, boundedRegions_whole hs hle]
    constructor
    · rintro ⟨T, blocks, t, hT, hblocks, ht, h⟩
      cases Except.ok.inj hT
      cases Except.ok.inj ((blockIter_eq s).symm.trans hblocks)
      cases Except.ok.inj (hdatatype.symm.trans ht)
      dsimp only at h
      exact h
    · intro h
      refine ⟨s, _, _, rfl, blockIter_eq s, hdatatype, ?_⟩
      dsimp only
      exact h
  rw [hsame, castInt_eq_iff, length_repetitions, List.map_inj_left, List.map_inj_left]
  simp only [castInt_eq_iff, mem_repetitions]
  refine and_congr_right fun _ => ⟨fun h r hr => ?_, fun h => ⟨?_, ?_⟩⟩
  · refine ⟨?_, h.2 _ ⟨r, hr, r.reps, Nat.le_refl _, rfl⟩⟩
    have hlen := h.1 _ ⟨r, hr, r.reps, Nat.le_refl _, rfl⟩
    rwa [repetition_length] at hlen
  · rintro b ⟨r, hr, k, hk, rfl⟩
    rw [repetition_length]
    exact (h r hr).1
  · rintro b ⟨r, hr, k, hk, rfl⟩
    have hmul := Nat.mul_le_mul_right r.stride hk
    have hend := (h r hr).2
    change r.start + k * r.stride ≤ _
    omega

/-- Packing and unpacking always undo each other; the blocks are those of the datatype just when these are within the
range of `int`. -/
theorem roundTrip_iff {src : Allocation} (hs : s.WellFormed) (helm : 0 < elmSize) (hpos : 0 < src.size)
    (hdvd : elmSize ∣ src.size) (hdst : dst.size = src.size ∨ dst.size = 0 ∧ s.Inside elmSize src.size) :
    (s.RoundTrip elmSize src.toDataBuffer dst ∧ (s.Inside elmSize src.size → s.SameBlocks elmSize src.toDataBuffer)) ↔
      (s.Inside elmSize src.size → s.Narrow) := by
  obtain ⟨n, hn⟩ := hdvd
  have hnpos : 0 < n := by
    rcases Nat.eq_zero_or_pos n with rfl | h
    · rw [Nat.mul_zero] at hn
      omega
    · exact h
  have hsize : src.size = (n - 1 + 1) * elmSize := by
    rw [Nat.sub_add_cancel hnpos, hn, Nat.mul_comm]
  have hle : n ≤ src.size := hn ▸ Nat.le_mul_of_pos_left n helm
  have hmax := src.size_le
  have he : n - 1 < sizeMax - 1 := by
    unfold sizeMax
    unfold ptrdiffMax at hmax
    omega
  have hwide : src.size ≤ sizeMax := by
    unfold sizeMax
    unfold ptrdiffMax at hmax
    omega
  rw [and_iff_right (roundTrip hs helm hsize he hwide hdst)]
  exact forall_congr' fun hin => sameBlocks_iff hs helm hsize he hin

/-- Four bytes of memory. -/
def fourBytes : Allocation := ⟨⟨4, fun _ => 0⟩, by decide⟩

theorem roundTrip_fourBytes : (zeroAndThree.RoundTrip 1 fourBytes.toDataBuffer fourBytes.toDataBuffer ∧
    (zeroAndThree.Inside 1 fourBytes.size → zeroAndThree.SameBlocks 1 fourBytes.toDataBuffer)) ↔
      (zeroAndThree.Inside 1 fourBytes.size → zeroAndThree.Narrow) :=
  roundTrip_iff zeroAndThree_wellFormed (by decide) (by decide) (by decide) (Or.inl rfl)

/-- The one element past the range of `int`. -/
def far : RegionSubset := {interval 2147483648 2147483648 (Nat.le_refl _)}

/-- The datatype of an element past the range of `int` has another one in its place. -/
theorem datatype_overflow : ¬∀ s : RegionSubset, ∀ elmSize, ∀ src : Allocation, s.WellFormed → 0 < elmSize →
    0 < src.size → elmSize ∣ src.size → s.Inside elmSize src.size → s.SameBlocks elmSize src.toDataBuffer := by
  intro h
  have hwf : far.WellFormed := wellFormed_singleton (s := 0) (fits_block rfl (by decide))
  have hin : far.Inside 1 2147483649 := fun x hx => by
    have hmem := mem_interval.mp (mem_singleton.mp hx)
    omega
  have hsame := h far 1 ⟨⟨2147483649, fun _ => 0⟩, by decide⟩ hwf Nat.one_pos (by decide) (Nat.one_dvd _) hin
  have hnarrow := (sameBlocks_iff (e := 2147483648) hwf Nat.one_pos rfl (by decide) hin).mp hsame
  have hstart := (hnarrow.2 _ (OrdSet.mem_singleton.mpr rfl)).2
  change 2147483648 + 0 * sizeMax ≤ 2147483647 at hstart
  omega

end RegionSubset

end Fenix
