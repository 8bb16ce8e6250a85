import Fenix.RegionRoundTrip
import Fenix.RegionStage
import Mathlib.Data.List.Range

namespace Fenix

/-- The elements that an indexed datatype has, in its order. -/
def Indexed.places (t : Indexed) : List Int :=
  ((t.blocklengths.zip t.displacements).take t.count.toNat).flatMap fun block =>
    (List.range block.1.toNat).map fun j : Nat => block.2 + j

namespace RegionSubset

open DataRegion

variable {s : RegionSubset} {elmSize x : Nat}

/-- The indices of a subset as its blocks have them, region by region. -/
def indices (s : RegionSubset) : List Nat :=
  (repetitions s.entries).flatMap fun b => List.range' b.start b.length

theorem mem_block_range {b : DataRegion} : x ∈ List.range' b.start b.length ↔ b.start ≤ x ∧ x ≤ b.stop := by
  have hblock := b.block
  rw [List.mem_range'_1]
  unfold DataRegion.length
  omega

theorem mem_indices : x ∈ s.indices ↔ s.Mem x := by
  unfold indices
  simp only [List.mem_flatMap, mem_repetitions, mem_block_range]
  constructor
  · rintro ⟨b, ⟨r, hr, k, hk, rfl⟩, hx⟩
    exact ⟨r, hr, mem_iff.mpr ⟨k, hk, mem_repetition.mpr hx⟩⟩
  · rintro ⟨r, hr, hx⟩
    obtain ⟨k, hk, hx⟩ := mem_iff.mp hx
    exact ⟨r.repetition k, ⟨r, hr, k, hk, rfl⟩, mem_repetition.mp hx⟩

/-- No two blocks of a subset have an index in common. -/
theorem repetitions_disjoint (hs : s.WellFormed) :
    (repetitions s.entries).Pairwise fun b c => ∀ x, ¬(b.start ≤ x ∧ x ≤ b.stop ∧ c.start ≤ x ∧ x ≤ c.stop) := by
  unfold repetitions
  refine List.pairwise_flatMap.mpr ⟨fun r _ => List.pairwise_map.mpr ?_, ?_⟩
  · refine List.pairwise_lt_range.imp_of_mem fun {k l} hk hl hlt x hx => ?_
    have heq := repetition_unique (r := r) (x := x) (Nat.lt_succ_iff.mp (List.mem_range.mp hk))
      (Nat.lt_succ_iff.mp (List.mem_range.mp hl)) (mem_repetition.mpr ⟨hx.1, hx.2.1⟩) (mem_repetition.mpr hx.2.2)
    omega
  · refine s.sorted.imp_of_mem fun {r t} hr ht hlt b hb c hc x hx => ?_
    obtain ⟨k, hk, rfl⟩ := List.mem_map.mp hb
    obtain ⟨l, hl, rfl⟩ := List.mem_map.mp hc
    have hxr : r.Mem x := mem_iff.mpr ⟨k, Nat.lt_succ_iff.mp (List.mem_range.mp hk), mem_repetition.mpr ⟨hx.1, hx.2.1⟩⟩
    have hxt : t.Mem x := mem_iff.mpr ⟨l, Nat.lt_succ_iff.mp (List.mem_range.mp hl), mem_repetition.mpr hx.2.2⟩
    rw [hs.disjoint r hr t ht x hxr hxt] at hlt
    exact lt_irrefl _ hlt

theorem nodup_indices (hs : s.WellFormed) : s.indices.Nodup := by
  refine List.nodup_flatMap.mpr ⟨fun b _ => List.nodup_range', (repetitions_disjoint hs).imp ?_⟩
  intro b c hdisjoint x hb hc
  have hxb := mem_block_range.mp hb
  have hxc := mem_block_range.mp hc
  exact hdisjoint x ⟨hxb.1, hxb.2, hxc⟩

/-- Subsets with the same indices have them equally often, in whatever order. -/
theorem indices_perm {t : RegionSubset} (hs : s.WellFormed) (ht : t.WellFormed) (h : ∀ x, s.Mem x ↔ t.Mem x) :
    s.indices.Perm t.indices :=
  (List.perm_ext_iff_of_nodup (nodup_indices hs) (nodup_indices ht)).mpr fun x => by rw [mem_indices, mem_indices, h]

theorem Inside.lt (hin : s.Inside elmSize 2147483647) (helm : 0 < elmSize) (hx : s.Mem x) : x < 2147483647 := by
  have hle := Nat.le_mul_of_pos_right (x + 1) helm
  have hbytes := hin x hx
  omega

theorem Inside.of_stop {size : Nat} (hs : s.WellFormed) (h : (s.stop + 1) * elmSize ≤ size) : s.Inside elmSize size :=
  fun _ hx => (Nat.mul_le_mul_right elmSize (Nat.succ_le_succ (hs.le_stop hx))).trans h

/-- The union of subsets is exact as long as byte offsets are within the range of `int`. -/
theorem add_inside {t : RegionSubset} (hs : s.WellFormed) (ht : t.WellFormed) (hin : s.Inside elmSize 2147483647)
    (helm : 0 < elmSize) : ∃ u, s.add t = .ok u ∧ u.WellFormed ∧ ∀ x, u.Mem x ↔ s.Mem x ∨ t.Mem x := by
  obtain ⟨u, hu, hwf, hmem⟩ := add_spec hs ht
  refine ⟨u, hu, hwf, fun x => (hmem x).trans (or_congr_left (and_iff_left_of_imp fun hx hover => ?_))⟩
  obtain ⟨_, r, _, k, hk, _, hxk⟩ := hover
  have hlt := hin.lt helm hx
  have hlo := (mem_repetition.mp hxk).1
  have hmul := Nat.le_mul_of_pos_right k r.pos_stride
  omega

theorem length_indices_le (hs : s.WellFormed) (hin : s.Inside elmSize 2147483647) (helm : 0 < elmSize) :
    s.indices.length ≤ 2147483647 := by
  have hsub : s.indices ⊆ List.range 2147483647 := fun x hx =>
    List.mem_range.mpr (hin.lt helm (mem_indices.mp hx))
  have hle := (List.subperm_of_subset (nodup_indices hs) hsub).length_le
  rwa [List.length_range] at hle

/-- There are no more blocks than elements. -/
theorem length_repetitions_le (s : RegionSubset) : (repetitions s.entries).length ≤ s.indices.length := by
  have hle := List.length_le_sum_of_one_le ((repetitions s.entries).map DataRegion.length) fun n hn => by
    obtain ⟨b, _, rfl⟩ := List.mem_map.mp hn
    exact Nat.succ_pos _
  unfold indices
  rw [List.length_flatMap]
  simp only [List.length_range']
  rwa [List.length_map] at hle

/-- Nothing of a subset is lost in its datatype where all byte offsets are within the range of `int`. -/
theorem toDatatype_places (hs : s.WellFormed) (hin : s.Inside elmSize 2147483647) (helm : 0 < elmSize) :
    ∃ t, s.toDatatype = .ok t ∧ t.places = s.indices.map Nat.cast := by
  have hbounded : s.isEmpty = true ∨ s.stop ≠ sizeMax := by
    by_cases hempty : s.isEmpty = true
    · exact Or.inl hempty
    · have hlt := hin.lt helm (hs.stop_mem hempty)
      refine Or.inr fun heq => ?_
      rw [heq] at hlt
      exact absurd hlt (by decide)
  have hblock : ∀ b ∈ repetitions s.entries, castInt b.length = b.length ∧ castInt b.start = b.start := fun b hb => by
    have hmem : ∀ y, b.start ≤ y → y ≤ b.stop → s.Mem y := fun y hlo hhi =>
      mem_indices.mp (List.mem_flatMap.mpr ⟨b, hb, mem_block_range.mpr ⟨hlo, hhi⟩⟩)
    have hstop := hin.lt helm (hmem b.stop b.block (Nat.le_refl _))
    have hstart := b.block
    rw [castInt_eq_iff, castInt_eq_iff]
    unfold DataRegion.length
    omega
  have hcount : castInt (repetitions s.entries).length = (repetitions s.entries).length :=
    castInt_eq_iff.mpr ((length_repetitions_le s).trans (length_indices_le hs hin helm))
  unfold toDatatype
  rw [if_pos hbounded, blockIter_eq]
  refine ⟨_, rfl, ?_⟩
  unfold Indexed.places indices
  dsimp only
  rw [hcount, Int.toNat_natCast, List.zip_map', List.take_of_length_le (by rw [List.length_map]), List.flatMap_map,
    List.map_flatMap]
  refine List.flatMap_congr fun b hb => ?_
  obtain ⟨hlength, hstart⟩ := hblock b hb
  rw [hlength, hstart, Int.toNat_natCast, List.range'_eq_map_range, List.map_map]
  exact List.map_congr_left fun j _ => (Int.natCast_add b.start j).symm

end RegionSubset

end Fenix
