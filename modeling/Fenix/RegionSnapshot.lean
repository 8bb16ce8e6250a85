import Fenix.DataGroup
import Fenix.IntRange
import Fenix.RegionBlocks
import Fenix.UserMember

namespace Fenix

/-- Why a stage or a load fails. -/
inductive TransferError where
  | lookup (reason : DataError)
  | overflow
  | abort (reason : Abort)
  deriving DecidableEq

/-- One version of the data of a member, with the subsets of the rank itself. -/
structure RegionSnapshot where
  timestamp : Int := -2
  buf : DataBuffer
  elmSize : Nat
  elmMaxCount : Nat
  stagedSubset : RegionSubset := ∅
  protectedSubset : RegionSubset := ∅

namespace RegionSnapshot

/-- The bytes of an element. -/
def element (s : RegionSnapshot) (i : Nat) : List UInt8 :=
  (List.range s.elmSize).map fun j => s.buf.bytes (i * s.elmSize + j)

/-- A snapshot has room for what it protects, all of it within the range of `int`. -/
structure Stored (s : RegionSnapshot) (extent : Nat) : Prop where
  elmSize : s.elmSize = extent
  timestamp : 0 ≤ s.timestamp
  wellFormed : s.protectedSubset.WellFormed
  fits : s.buf.size % extent = 0
  size_le : s.buf.size ≤ sizeMax
  room : ∀ x, s.protectedSubset.Mem x → (x + 1) * extent ≤ s.buf.size
  narrow : ∀ x, s.protectedSubset.Mem x → (x + 1) * extent ≤ 2147483647

end RegionSnapshot

/-- The memory that a load fills, by its elements, and the calls that fill it. -/
structure Transfer (β : Type) where
  memory : Nat → β
  calls : List (Nat × Nat)

/-- An element is written by one of the calls. -/
def Transfer.Written {β : Type} (t : Transfer β) (i : Nat) : Prop := ∃ c ∈ t.calls, c.1 ≤ i ∧ i < c.1 + c.2

/-- How elements get from a snapshot to memory: by a function of the user, or byte by byte. -/
structure Deserializer (β : Type) where
  byFunction : Bool
  decode : List UInt8 → β

namespace Deserializer

variable {β : Type}

/-- The number of bytes that are copied, which a function of the user is not told. -/
def byteCount (d : Deserializer β) (snap : RegionSnapshot) (count : Int) : Except TransferError Int :=
  if d.byFunction then .ok 0 else toInt .overflow (count * snap.elmSize)

/-- The elements of a block go over. -/
def deserializeElements (d : Deserializer β) (snap : RegionSnapshot) (maxElement : Nat) (b : DataRegion)
    (t : Transfer β) : Except TransferError (Transfer β) :=
  let first := castInt b.start
  let last := castInt b.stop
  if 0 ≤ first ∧ castSize last ≤ maxElement then do
    let count ← toInt .overflow (last - first + 1)
    let byteOffset ← toInt .overflow (first * snap.elmSize)
    let _ ← d.byteCount snap count
    if count < 0 then throw .overflow
    else
      let value := fun i => d.decode ((List.range snap.elmSize).map fun j =>
        snap.buf.bytes (byteOffset.toNat + (i - first.toNat) * snap.elmSize + j))
      return { memory := fun i => if first.toNat ≤ i ∧ i < first.toNat + count.toNat then value i else t.memory i
               calls := t.calls ++ [(first.toNat, count.toNat)] }
  else .error (.abort .assertion)

/-- The last element that a snapshot and a destination of so many bytes have. -/
def maxElement (snap : RegionSnapshot) (dst : Option Nat) : Nat :=
  sizeSub (Serializer.elements snap.elmSize snap.buf.size dst) 1

/-- `copy_data` of a subset from a snapshot to a destination. -/
def copyData (d : Deserializer β) (snap : RegionSnapshot) (dst : Option Nat) (subset : RegionSubset) (t : Transfer β) :
    Except TransferError (Transfer β) :=
  if Serializer.Fits snap.elmSize snap.buf.size dst then do
    let bounded ← (subset.boundedRegions 0 (maxElement snap dst)).mapError .abort
    let blocks ← bounded.blockIter.mapError .abort
    blocks.foldlM (fun t b => d.deserializeElements snap (maxElement snap dst) b t) t
  else .error (.abort .assertion)

variable {d : Deserializer β} {snap : RegionSnapshot} {dst : Option Nat} {subset : RegionSubset} {t : Transfer β}
  {b : DataRegion} {bs : List DataRegion} {P : Nat → Prop} {n i : Nat}

theorem deserializeElements_spec (helm : 0 < snap.elmSize) (hn : b.stop ≤ n)
    (hnarrow : (b.stop + 1) * snap.elmSize ≤ 2147483647) : ∃ t', d.deserializeElements snap n b t = .ok t' ∧
      (∀ i, t'.memory i = if b.start ≤ i ∧ i ≤ b.stop then d.decode (snap.element i) else t.memory i) ∧
      ∀ i, t'.Written i ↔ t.Written i ∨ b.start ≤ i ∧ i ≤ b.stop := by
  have hblock := b.block
  have hle : b.stop + 1 ≤ (b.stop + 1) * snap.elmSize := Nat.le_mul_of_pos_right _ helm
  have hoffset : b.start * snap.elmSize ≤ (b.stop + 1) * snap.elmSize := Nat.mul_le_mul_right _ (by omega)
  have hbytes : b.length * snap.elmSize ≤ (b.stop + 1) * snap.elmSize :=
    Nat.mul_le_mul_right _ (by unfold DataRegion.length; omega)
  have hfirst : castInt b.start = b.start := castInt_eq_iff.mpr (by omega)
  have hlast : castInt b.stop = b.stop := castInt_eq_iff.mpr (by omega)
  have hcount : (b.stop : Int) - b.start + 1 = (b.length : Int) := by
    unfold DataRegion.length
    omega
  have hcountBytes : d.byteCount snap b.length = .ok (if d.byFunction then 0 else ((b.length * snap.elmSize : Nat) : Int)) := by
    unfold byteCount
    split
    next => rfl
    next => exact toInt_ok (by unfold intMax; push_cast; omega) (by unfold intMax; omega)
  have hin : ∀ i, b.start ≤ i ∧ i < b.start + b.length ↔ b.start ≤ i ∧ i ≤ b.stop := fun i => by
    unfold DataRegion.length
    omega
  unfold deserializeElements
  dsimp only
  rw [hfirst, hlast, castSize_natCast (by omega), if_pos ⟨Int.natCast_nonneg _, hn⟩, hcount,
    toInt_ok (by unfold intMax; omega) (by unfold intMax DataRegion.length; omega), Except.ok_bind,
    toInt_ok (by unfold intMax; push_cast; omega) (by unfold intMax; omega), Except.ok_bind, hcountBytes,
    Except.ok_bind, if_neg (by omega), ← Int.natCast_mul, Int.toNat_natCast, Int.toNat_natCast, Int.toNat_natCast]
  refine ⟨_, rfl, fun i => ?_, fun i => ?_⟩
  · refine if_ctx_congr (hin i) (fun hi => ?_) fun _ => rfl
    have hplace : b.start * snap.elmSize + (i - b.start) * snap.elmSize = i * snap.elmSize := by
      rw [← Nat.add_mul, Nat.add_sub_cancel' hi.1]
    rw [hplace]
    rfl
  · unfold Transfer.Written
    simp only [List.mem_append, List.mem_singleton, or_and_right, exists_or, exists_eq_left, hin]

/-- Blocks one after the other. -/
theorem foldlM_deserialize (helm : 0 < snap.elmSize) (hn : ∀ b ∈ bs, b.stop ≤ n)
    (hnarrow : ∀ b ∈ bs, (b.stop + 1) * snap.elmSize ≤ 2147483647) : ∃ t',
    bs.foldlM (fun t b => d.deserializeElements snap n b t) t = .ok t' ∧
      (∀ i, (∃ b ∈ bs, b.start ≤ i ∧ i ≤ b.stop) → t'.memory i = d.decode (snap.element i)) ∧
      (∀ i, ¬(∃ b ∈ bs, b.start ≤ i ∧ i ≤ b.stop) → t'.memory i = t.memory i) ∧
      ∀ i, t'.Written i ↔ t.Written i ∨ ∃ b ∈ bs, b.start ≤ i ∧ i ≤ b.stop := by
  induction bs generalizing t with
  | nil => exact ⟨t, rfl, fun i ⟨b, hb, _⟩ => absurd hb List.not_mem_nil, fun _ _ => rfl, fun i => by simp⟩
  | cons b bs ih =>
    obtain ⟨hb, hbs⟩ := List.forall_mem_cons.mp hn
    obtain ⟨hnb, hnbs⟩ := List.forall_mem_cons.mp hnarrow
    obtain ⟨t₁, ht₁, hmem₁, hwritten₁⟩ := deserializeElements_spec (d := d) (t := t) helm hb hnb
    obtain ⟨t', ht', hin, hout, hwritten⟩ := ih (t := t₁) hbs hnbs
    rw [List.foldlM_cons, ht₁, Except.ok_bind]
    refine ⟨t', ht', fun i hi => ?_, fun i hi => ?_, fun i => ?_⟩
    · by_cases hrest : ∃ b ∈ bs, b.start ≤ i ∧ i ≤ b.stop
      · exact hin i hrest
      · rw [hout i hrest, hmem₁, if_pos ((List.exists_mem_cons_iff _ _ _).mp hi |>.resolve_right hrest)]
    · rw [List.exists_mem_cons_iff, not_or] at hi
      rw [hout i hi.2, hmem₁, if_neg hi.1]
    · rw [hwritten, hwritten₁, List.exists_mem_cons_iff, or_assoc]

/-- The elements of a subset that snapshot and destination have are written with their values in the snapshot. -/
theorem copyData_spec (hs : Tiles DataRegion.Mem RegionSubset.Sound subset P)
    (hfits : Serializer.Fits snap.elmSize snap.buf.size dst) (hmax : maxElement snap dst ≤ sizeMax)
    (hnarrow : ∀ i, P i → (i + 1) * snap.elmSize ≤ 2147483647) : ∃ t', d.copyData snap dst subset t = .ok t' ∧
      (∀ i, P i ∧ i ≤ maxElement snap dst → t'.memory i = d.decode (snap.element i)) ∧
      (∀ i, ¬(P i ∧ i ≤ maxElement snap dst) → t'.memory i = t.memory i) ∧
      ∀ i, t'.Written i ↔ t.Written i ∨ P i ∧ i ≤ maxElement snap dst := by
  obtain ⟨T, hT, htiles⟩ := RegionSubset.boundedRegions_sound hs (Nat.zero_le _) hmax
  obtain ⟨bs, hbs, hcover, _⟩ := RegionSubset.blockIter_spec htiles
  have hin : ∀ i, (∃ b ∈ bs, b.start ≤ i ∧ i ≤ b.stop) ↔ P i ∧ i ≤ maxElement snap dst := fun i =>
    (hcover i).trans (and_congr_right fun _ => and_iff_right (Nat.zero_le i))
  have hstop : ∀ b ∈ bs, P b.stop ∧ b.stop ≤ maxElement snap dst := fun b hb =>
    (hin b.stop).mp ⟨b, hb, b.block, Nat.le_refl _⟩
  obtain ⟨t', ht', hmem, hother, hwritten⟩ := foldlM_deserialize (d := d) (t := t) hfits.1 (fun b hb => (hstop b hb).2)
    fun b hb => hnarrow _ (hstop b hb).1
  unfold copyData
  rw [if_pos hfits, hT]
  refine ⟨t', ?_, fun i hi => hmem i ((hin i).mpr hi), fun i hi => hother i fun h => hi ((hin i).mp h), fun i => ?_⟩
  · change ((T.blockIter.mapError TransferError.abort) >>= _) = _
    rw [hbs]
    exact ht'
  · rw [hwritten, hin]

end Deserializer

end Fenix
