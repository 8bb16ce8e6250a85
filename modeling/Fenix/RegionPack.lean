import Fenix.Gather
import Fenix.IntRange
import Fenix.RegionBlocks

namespace Fenix

namespace RegionSubset

open DataRegion

/-- Blocks are copied to one place after the other. -/
def packBlocks (elmSize : Nat) (src : DataBuffer) : List DataRegion → Nat → DataBuffer → Except Abort (Nat × DataBuffer)
  | [], ptr, dst => .ok (ptr, dst)
  | b :: bs, ptr, dst =>
    let start := b.start * elmSize
    let len := b.length * elmSize
    if ptr + len ≤ dst.size ∧ start + len ≤ src.size then
      packBlocks elmSize src bs (ptr + len) (dst.write ptr len fun k => src.bytes (start + k))
    else .error .assertion

/-- The elements of a subset that a buffer has, one after the other. -/
def packData (s : RegionSubset) (elmSize : Nat) (src dst : DataBuffer) : Except Abort DataBuffer :=
  if s.isEmpty then .ok (dst.resize 0)
  else if src.size % elmSize ≠ 0 then .error .assertion
  else do
    let maxElm := sizeSub (src.size / elmSize) 1
    let n ← s.count maxElm
    let bounded ← s.boundedRegions 0 maxElm
    let blocks ← bounded.blockIter
    let (ptr, packed) ← packBlocks elmSize src blocks 0 ((dst.resize 0).resize (sizeWrap (n * elmSize)))
    if ptr = packed.size then return packed else throw .assertion

def unpackBlocks (elmSize : Nat) (src : DataBuffer) : List DataRegion → Nat → DataBuffer → Except Abort (Nat × DataBuffer)
  | [], ptr, dst => .ok (ptr, dst)
  | b :: bs, ptr, dst =>
    let start := b.start * elmSize
    let len := b.length * elmSize
    if ptr + len ≤ src.size ∧ start + len ≤ dst.size then
      unpackBlocks elmSize src bs (ptr + len) (dst.write start len fun k => src.bytes (ptr + k))
    else .error .assertion

/-- The destination along with its last element. One without elements is made to fit the subset. -/
def unpackTarget (s : RegionSubset) (elmSize : Nat) (dst : DataBuffer) : Except Abort (Nat × DataBuffer) :=
  let maxElm := sizeSub (dst.size / elmSize) 1
  if maxElm = sizeMax then
    if s.stop ≠ sizeMax then .ok (s.stop, dst.resize (sizeWrap ((s.stop + 1) * elmSize))) else .error .assertion
  else .ok (maxElm, dst)

/-- The elements of a subset are put back to where they are in a buffer. -/
def unpackData (s : RegionSubset) (elmSize : Nat) (src dst : DataBuffer) : Except Abort DataBuffer :=
  if s.isEmpty then .ok dst
  else if dst.size % elmSize ≠ 0 then .error .assertion
  else do
    let (maxElm, dst) ← s.unpackTarget elmSize dst
    let n ← s.count maxElm
    if src.size ≠ sizeWrap (n * elmSize) then throw .assertion
    else do
      let bounded ← s.boundedRegions 0 maxElm
      let blocks ← bounded.blockIter
      let (ptr, dst) ← unpackBlocks elmSize src blocks 0 dst
      if ptr = src.size then return dst else throw .assertion

end RegionSubset

/-- The arguments of an indexed datatype. -/
structure Indexed where
  count : Int
  blocklengths : List Int
  displacements : List Int
  deriving DecidableEq

namespace RegionSubset

open DataRegion

/-- The datatype of the elements of a subset. -/
def toDatatype (s : RegionSubset) : Except Abort Indexed :=
  if s.isEmpty ∨ s.stop ≠ sizeMax then do
    let blocks ← s.blockIter
    return { count := castInt blocks.length
             blocklengths := blocks.map fun b => castInt b.length
             displacements := blocks.map fun b => castInt b.start }
  else .error .assertion

variable {s : RegionSubset} {P : Nat → Prop} {bs : List DataRegion} {elmSize ptr e x : Nat} {src dst packed : DataBuffer}

/-- Where blocks of elements are in memory. -/
def byteRanges (elmSize : Nat) (bs : List DataRegion) : List (Nat × Nat) :=
  bs.map fun b => (b.start * elmSize, b.length * elmSize)

theorem packBlocks_spec (hsrc : ∀ b ∈ bs, b.start * elmSize + b.length * elmSize ≤ src.size)
    (hdst : ptr + lengths bs * elmSize ≤ dst.size) : packBlocks elmSize src bs ptr dst =
      .ok (ptr + lengths bs * elmSize, ⟨dst.size, Gather.gather src.bytes (byteRanges elmSize bs) ptr dst.bytes⟩) := by
  induction bs generalizing ptr dst with
  | nil => simp [packBlocks, lengths, byteRanges, Gather.gather]
  | cons b bs ih =>
    obtain ⟨hb, hbs⟩ := List.forall_mem_cons.mp hsrc
    rw [lengths_cons, Nat.add_mul] at hdst
    unfold packBlocks
    dsimp only
    rw [if_pos ⟨by omega, hb⟩, ih hbs (by rw [DataBuffer.size_write]; omega), lengths_cons, Nat.add_mul, Nat.add_assoc]
    rfl

theorem unpackBlocks_spec (hsrc : ptr + lengths bs * elmSize ≤ src.size)
    (hdst : ∀ b ∈ bs, b.start * elmSize + b.length * elmSize ≤ dst.size) : unpackBlocks elmSize src bs ptr dst =
      .ok (ptr + lengths bs * elmSize, ⟨dst.size, Gather.scatter src.bytes (byteRanges elmSize bs) ptr dst.bytes⟩) := by
  induction bs generalizing ptr dst with
  | nil => simp [unpackBlocks, lengths, byteRanges, Gather.scatter]
  | cons b bs ih =>
    obtain ⟨hb, hbs⟩ := List.forall_mem_cons.mp hdst
    rw [lengths_cons, Nat.add_mul] at hsrc
    unfold unpackBlocks
    dsimp only
    rw [if_pos ⟨by omega, hb⟩, ih (by omega) (by rwa [DataBuffer.size_write]), lengths_cons, Nat.add_mul, Nat.add_assoc]
    rfl

theorem packData_spec (hs : Tiles DataRegion.Mem Sound s P) (hne : ¬s.isEmpty = true) (helm : 0 < elmSize)
    (hsize : src.size = (e + 1) * elmSize) (he : e < sizeMax - 1) (hmax : src.size ≤ sizeMax) : ∃ T bs,
    s.boundedRegions 0 e = .ok T ∧ T.blockIter = .ok bs ∧ s.count e = .ok (lengths bs) ∧ lengths bs ≤ e + 1 ∧
      (∀ x, (∃ b ∈ bs, b.start ≤ x ∧ x ≤ b.stop) ↔ P x ∧ x ≤ e) ∧ s.packData elmSize src dst =
        .ok ⟨lengths bs * elmSize, Gather.gather src.bytes (byteRanges elmSize bs) 0 dst.bytes⟩ := by
  obtain ⟨T, bs, hT, hbs, hcount, hle, hcover⟩ := count_lengths hs he
  have hlast : sizeSub (src.size / elmSize) 1 = e := by
    rw [hsize, Nat.mul_div_cancel _ helm]
    exact if_pos (Nat.le_add_left 1 e)
  have hbytes : lengths bs * elmSize ≤ src.size := hsize ▸ Nat.mul_le_mul_right elmSize hle
  have hfit : ∀ b ∈ bs, b.start * elmSize + b.length * elmSize ≤ src.size := fun b hb => by
    rw [hsize, ← Nat.add_mul]
    refine Nat.mul_le_mul_right elmSize ?_
    have hstop := ((hcover b.stop).mp ⟨b, hb, b.block, Nat.le_refl _⟩).2
    have hblock := b.block
    unfold DataRegion.length
    omega
  refine ⟨T, bs, hT, hbs, hcount, hle, hcover, ?_⟩
  unfold packData
  rw [if_neg hne, if_neg (by rw [hsize, Nat.mul_mod_left]; exact not_not.mpr rfl), hlast]
  dsimp only
  rw [hcount, Except.ok_bind, hT, Except.ok_bind, hbs, Except.ok_bind]
  have hwrap : sizeWrap (lengths bs * elmSize) = lengths bs * elmSize := Nat.mod_eq_of_lt (by omega)
  rw [hwrap, packBlocks_spec hfit (by rw [Nat.zero_add]; exact Nat.le_refl _), Nat.zero_add, Except.ok_bind]
  exact if_pos rfl

/-- Blocks of elements have the bytes of the elements. -/
theorem byteRanges_mem (helm : 0 < elmSize) {y : Nat} : (∃ r ∈ byteRanges elmSize bs, r.1 ≤ y ∧ y < r.1 + r.2) ↔
    ∃ b ∈ bs, b.start ≤ y / elmSize ∧ y / elmSize ≤ b.stop := by
  have hbytes : ∀ b : DataRegion, b.start * elmSize ≤ y ∧ y < b.start * elmSize + b.length * elmSize ↔
      b.start ≤ y / elmSize ∧ y / elmSize ≤ b.stop := fun b => by
    rw [← Nat.add_mul, ← Nat.le_div_iff_mul_le helm, ← Nat.div_lt_iff_lt_mul helm]
    have hblock := b.block
    unfold DataRegion.length
    omega
  constructor
  · rintro ⟨r, hr, hy⟩
    obtain ⟨b, hb, rfl⟩ := List.mem_map.mp hr
    exact ⟨b, hb, (hbytes b).mp hy⟩
  · rintro ⟨b, hb, hy⟩
    exact ⟨_, List.mem_map.mpr ⟨b, hb, rfl⟩, (hbytes b).mpr hy⟩

/-- What was packed is unpacked to where it was. -/
theorem unpackData_spec {T : RegionSubset} {target : DataBuffer} (hne : ¬s.isEmpty = true) (helm : 0 < elmSize)
    (hmod : dst.size % elmSize = 0) (htarget : s.unpackTarget elmSize dst = .ok (e, target))
    (hT : s.boundedRegions 0 e = .ok T) (hbs : T.blockIter = .ok bs) (hcount : s.count e = .ok (lengths bs))
    (hle : lengths bs * elmSize ≤ sizeMax) (hcover : ∀ x, (∃ b ∈ bs, b.start ≤ x ∧ x ≤ b.stop) ↔ P x ∧ x ≤ e)
    (hroom : (e + 1) * elmSize ≤ target.size) :
    ∃ out, s.unpackData elmSize ⟨lengths bs * elmSize, Gather.gather src.bytes (byteRanges elmSize bs) 0 packed.bytes⟩ dst =
      .ok out ∧ out.size = target.size ∧
      (∀ y, P (y / elmSize) ∧ y / elmSize ≤ e → out.bytes y = src.bytes y) ∧
      ∀ y, ¬(P (y / elmSize) ∧ y / elmSize ≤ e) → out.bytes y = target.bytes y := by
  have hfit : ∀ b ∈ bs, b.start * elmSize + b.length * elmSize ≤ target.size := fun b hb => by
    rw [← Nat.add_mul]
    refine (Nat.mul_le_mul_right elmSize ?_).trans hroom
    have hstop := ((hcover b.stop).mp ⟨b, hb, b.block, Nat.le_refl _⟩).2
    have hblock := b.block
    unfold DataRegion.length
    omega
  have hwrap : sizeWrap (lengths bs * elmSize) = lengths bs * elmSize := Nat.mod_eq_of_lt (by omega)
  refine ⟨⟨target.size, fun y => if ∃ r ∈ byteRanges elmSize bs, r.1 ≤ y ∧ y < r.1 + r.2 then src.bytes y
    else target.bytes y⟩, ?_, rfl, fun y hy => ?_, fun y hy => ?_⟩
  · unfold unpackData
    rw [if_neg hne, if_neg (not_not.mpr hmod), htarget, Except.ok_bind]
    dsimp only
    rw [hcount, Except.ok_bind, hwrap, if_neg (not_not.mpr rfl), hT, Except.ok_bind, hbs, Except.ok_bind,
      unpackBlocks_spec (by rw [Nat.zero_add]) hfit, Nat.zero_add, Except.ok_bind]
    refine (if_pos rfl).trans (congrArg (fun f => Except.ok (DataBuffer.mk target.size f)) (funext fun y => ?_))
    exact Gather.scatter_gather
  · exact if_pos ((byteRanges_mem helm).mpr ((hcover _).mpr hy))
  · exact if_neg fun h => hy ((hcover _).mp ((byteRanges_mem helm).mp h))

end RegionSubset

end Fenix
