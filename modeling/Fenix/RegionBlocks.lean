import Fenix.DataSnapshot
import Fenix.RegionSubsetUnion

namespace Fenix

/-- The number of indices of a block. -/
def DataRegion.length (b : DataRegion) : Nat := b.stop - b.start + 1

namespace RegionSubset

open DataRegion

variable {S T : RegionSubset} {P : Nat → Prop} {r : DataRegion} {bs : List DataRegion} {e x : Nat}

/-- The blocks of a subset, region by region. -/
def blockIter (s : RegionSubset) : Except Abort (List DataRegion) := do
  let blocks ← s.entries.mapM fun r => r.blocks r.reps
  return blocks.flatten

/-- The number of indices of several blocks. -/
def lengths (bs : List DataRegion) : Nat := (bs.map DataRegion.length).sum

theorem lengths_cons {b : DataRegion} : lengths (b :: bs) = b.length + lengths bs := rfl

theorem repetition_length {k : Nat} : (r.repetition k).length = r.length := by
  change r.stop + k * r.stride - (r.start + k * r.stride) + 1 = r.stop - r.start + 1
  rw [Nat.add_sub_add_right]

/-- The blocks of several regions. -/
def repetitions (l : List DataRegion) : List DataRegion :=
  l.flatMap fun r => (List.range (r.reps + 1)).map r.repetition

theorem lengths_repetitions {l : List DataRegion} :
    lengths (repetitions l) = (l.map fun r => r.length * (r.reps + 1)).sum := by
  unfold repetitions
  induction l with
  | nil => rfl
  | cons r rs ih =>
    have hregion : lengths ((List.range (r.reps + 1)).map r.repetition) = r.length * (r.reps + 1) := by
      have hsame : (List.range (r.reps + 1)).map (DataRegion.length ∘ r.repetition) =
          (List.range (r.reps + 1)).map fun _ => r.length := List.map_congr_left fun k _ => repetition_length
      unfold lengths
      rw [List.map_map, hsame]
      simp [Nat.mul_comm]
    rw [List.flatMap_cons, List.map_cons, List.sum_cons, ← ih, ← hregion]
    unfold lengths
    rw [List.map_append, List.sum_append]

theorem mem_repetitions {l : List DataRegion} {b : DataRegion} :
    b ∈ repetitions l ↔ ∃ r ∈ l, ∃ k ≤ r.reps, r.repetition k = b := by
  unfold repetitions
  simp only [List.mem_flatMap, List.mem_map, List.mem_range, Nat.lt_succ_iff]

theorem length_repetitions {l : List DataRegion} : (repetitions l).length = (l.map fun r => r.reps + 1).sum := by
  unfold repetitions
  rw [List.length_flatMap]
  simp only [List.length_map, List.length_range]

theorem blockIter_eq (S : RegionSubset) : S.blockIter = .ok (repetitions S.entries) := by
  unfold blockIter
  rw [List.mapM_ok_map fun r _ => blocks_eq (Nat.le_refl r.reps)]
  rfl

/-- The blocks of a subset have its indices. -/
theorem blockIter_spec (hs : Tiles DataRegion.Mem Sound S P) : ∃ bs, S.blockIter = .ok bs ∧
    (∀ x, (∃ b ∈ bs, b.start ≤ x ∧ x ≤ b.stop) ↔ P x) ∧
    lengths bs = (S.entries.map fun r => r.length * (r.reps + 1)).sum := by
  refine ⟨repetitions S.entries, blockIter_eq S, fun x => ?_, lengths_repetitions⟩
  rw [← hs.cover]
  constructor
  · rintro ⟨b, hb, hx⟩
    obtain ⟨r, hr, k, hk, rfl⟩ := mem_repetitions.mp hb
    exact ⟨r, hr, mem_iff.mpr ⟨k, hk, mem_repetition.mpr hx⟩⟩
  · rintro ⟨r, hr, hx⟩
    obtain ⟨k, hk, hx⟩ := mem_iff.mp hx
    exact ⟨r.repetition k, mem_repetitions.mpr ⟨r, hr, k, hk, rfl⟩, mem_repetition.mp hx⟩

/-- The count of the indices up to one is that of the blocks there. -/
theorem count_lengths (hs : Tiles DataRegion.Mem Sound S P) (he : e < sizeMax - 1) : ∃ T bs,
    S.boundedRegions 0 e = .ok T ∧ T.blockIter = .ok bs ∧ S.count e = .ok (lengths bs) ∧ lengths bs ≤ e + 1 ∧
      ∀ x, (∃ b ∈ bs, b.start ≤ x ∧ x ≤ b.stop) ↔ P x ∧ x ≤ e := by
  have hlt : e < sizeMax := by omega
  obtain ⟨T, hT, hcount, hmax⟩ := count_spec hs hlt
  obtain ⟨T', hT', htiles⟩ := boundedRegions_sound hs (Nat.zero_le e) hlt.le
  cases Except.ok.inj (hT.symm.trans hT')
  obtain ⟨bs, hbs, hcover, hlengths⟩ := blockIter_spec htiles
  have hin : ∀ r ∈ T, {x | r.Mem x} ⊆ {x | 0 ≤ x ∧ x ≤ e} := fun r hr x hx => (htiles.part hr hx).2
  have hfinite : {x | 0 ≤ x ∧ x ≤ e}.Finite := Set.finite_Icc 0 e
  have hregion : ∀ r ∈ T, r.length * (r.reps + 1) = {x | r.Mem x}.ncard := fun r hr => by
    have hend := hin r hr (rangeEnd_mem (htiles.all r hr))
    have hle : r.rangeEnd ≤ e := hend.2
    rw [← count_eq (htiles.all r hr) (by omega)]
    have heq := rangeEnd_eq (htiles.all r hr)
    have hreps := reps_ne_max (htiles.all r hr)
    unfold DataRegion.count DataRegion.length
    rw [if_neg (by omega)]
  have hset : {x | P x ∧ x ≤ e} = {x | P x ∧ 0 ≤ x ∧ x ≤ e} := by
    ext x
    exact and_congr_right fun _ => (and_iff_right (Nat.zero_le x)).symm
  have hsum : lengths bs = {x | P x ∧ x ≤ e}.ncard := by
    rw [hlengths, hset, htiles.ncard fun r hr => hfinite.subset (hin r hr)]
    exact congrArg List.sum (List.map_congr_left hregion)
  refine ⟨T, bs, hT, hbs, ?_, ?_, fun x => (hcover x).trans (and_congr_right fun _ => and_iff_right (Nat.zero_le x))⟩
  · rw [hsum]
    refine hcount.mpr fun r hr heq => ?_
    have hlast := (hmax r hr heq).1
    omega
  · have hcard := Set.ncard_le_ncard (show {x | P x ∧ x ≤ e} ⊆ {x | 0 ≤ x ∧ x ≤ e} from
      fun x hx => ⟨Nat.zero_le x, hx.2⟩) hfinite
    rw [InBlocks.ncard_interval (Nat.zero_le e)] at hcard
    omega

end RegionSubset

end Fenix
