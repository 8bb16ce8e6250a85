import Fenix.RegionSnapshot
import Fenix.RegionSubsetDiff

namespace Fenix

/-- The timestamp that stands for all snapshots. -/
def snapshotAll : Int := -2

/-- The target count that stands for all elements. -/
def restoreFull : Nat := 2147483647

/-- A member on one rank, by the size of its elements and its committed snapshots. -/
structure RegionMember where
  extent : Nat
  commitSnapshots : IndexedSet RegionSnapshot fun s => s.timestamp

/-- What a load leaves. -/
structure RegionLoaded (β : Type) where
  transfer : Transfer β
  found : RegionSubset
  partialRestore : Bool

namespace RegionMember

variable {β : Type}

def findSnapshot (m : RegionMember) (ts : Int) : Except TransferError RegionSnapshot :=
  if ts = snapshotLatest then
    match m.commitSnapshots.last? with
    | some s => .ok s
    | none => .error (.lookup .nodataFound)
  else if ts < 0 then .error (.lookup .invalidTimestamp)
  else
    match m.commitSnapshots.find? ts with
    | some s => .ok s
    | none => .error (.lookup .nodataFound)

/-- The bytes of the destination, computed in `int`. There is no bound to them if all elements are asked for, where
what was computed is not used. -/
def dstSize (m : RegionMember) (targetCount : Nat) : Except TransferError (Option Nat) :=
  if targetCount = restoreFull then .ok none
  else (toInt .overflow (targetCount * m.extent)).map fun n => some (castSize n)

/-- One snapshot is loaded. -/
def loadOne (m : RegionMember) (d : Deserializer β) (dst : Option Nat) (targetCount : Nat) (ts : Int) (t : Transfer β) :
    Except TransferError (RegionSubset × Transfer β) := do
  let snap ← m.findSnapshot ts
  if 0 < targetCount then do
    let t ← d.copyData snap dst snap.protectedSubset t
    return (snap.protectedSubset, t)
  else return (snap.protectedSubset, t)

/-- What a snapshot has that was not found yet is loaded. -/
def loadPart (d : Deserializer β) (dst : Option Nat) (targetCount : Nat) (snap : RegionSnapshot) (found : RegionSubset)
    (t : Transfer β) : Except TransferError (Transfer β) :=
  if 0 < targetCount then do
    let part ← (snap.protectedSubset.sub found).mapError .abort
    d.copyData snap dst part t
  else .ok t

/-- Whether all elements that are asked for have been found. -/
def complete (targetCount : Nat) (found : RegionSubset) : Except TransferError Bool :=
  if 0 < targetCount then (found.includesAll (targetCount - 1)).mapError .abort else .ok false

/-- Snapshots are loaded one after the other, until all elements are found. -/
def loadEach (d : Deserializer β) (dst : Option Nat) (targetCount : Nat) :
    List RegionSnapshot → RegionSubset → Transfer β → Except TransferError (RegionSubset × Transfer β)
  | [], found, t => .ok (found, t)
  | snap :: rest, found, t =>
    if snap.timestamp < 0 then .error (.abort .assertion)
    else do
      let t ← loadPart d dst targetCount snap found t
      let found ← (found.add snap.protectedSubset).mapError .abort
      let done ← complete targetCount found
      if done then return (found, t) else loadEach d dst targetCount rest found t

/-- All snapshots are loaded, the newest first. -/
def loadAll (m : RegionMember) (d : Deserializer β) (dst : Option Nat) (targetCount : Nat) (t : Transfer β) :
    Except TransferError (RegionSubset × Transfer β) :=
  if m.commitSnapshots.entries.isEmpty then .error (.lookup .nodataFound)
  else loadEach d dst targetCount m.commitSnapshots.entries.reverse ∅ t

/-- Whether elements that were asked for are missing. -/
def missing (targetCount : Nat) (found : RegionSubset) : Except TransferError Bool :=
  let count := if targetCount = restoreFull then castInt (sizeWrap (found.stop + 1)) else targetCount
  if 0 < count then (found.includesAll (castSize (count - 1))).mapError TransferError.abort |>.map not else .ok false

def load (m : RegionMember) (d : Deserializer β) (memory : Nat → β) (targetCount : Nat) (ts : Int) :
    Except TransferError (RegionLoaded β) := do
  let dst ← m.dstSize targetCount
  let (found, t) ← if ts ≠ snapshotAll then m.loadOne d dst targetCount ts ⟨memory, []⟩
    else m.loadAll d dst targetCount ⟨memory, []⟩
  let partialRestore ← missing targetCount found
  return ⟨t, found, partialRestore⟩

/-- The destination has so many elements, or all that are asked for. -/
def Sized (dst : Option Nat) (extent targetCount : Nat) : Prop :=
  dst = some (targetCount * extent) ∨ dst = none ∧ targetCount = restoreFull

variable {m : RegionMember} {d : Deserializer β} {dst : Option Nat} {extent targetCount i : Nat} {snap : RegionSnapshot}
  {found part : RegionSubset} {t : Transfer β} {P : Nat → Prop}

/-- The elements that a snapshot protects are copied up to the target count. -/
theorem le_maxElement (hs : snap.Stored extent) (hpos : 0 < extent) (hdst : Sized dst extent targetCount)
    (htarget : 0 < targetCount) : Serializer.Fits snap.elmSize snap.buf.size dst ∧
      Deserializer.maxElement snap dst ≤ sizeMax ∧
      ∀ i, snap.protectedSubset.Mem i → (i ≤ Deserializer.maxElement snap dst ↔ i < targetCount) := by
  have hfits := hs.fits
  have hsize := hs.size_le
  have hcount : snap.buf.size = snap.buf.size / extent * extent := (Nat.div_mul_cancel (Nat.dvd_of_mod_eq_zero hfits)).symm
  have hle : snap.buf.size / extent ≤ snap.buf.size := Nat.div_le_self _ _
  have hroom : ∀ i, snap.protectedSubset.Mem i → i < snap.buf.size / extent := fun i hi =>
    (Nat.le_div_iff_mul_le hpos).mpr (hs.room i hi)
  have hlimit : ∀ i, snap.protectedSubset.Mem i → i < 2147483647 := fun i hi => by
    have hnarrow := hs.narrow i hi
    have hmul : i + 1 ≤ (i + 1) * extent := Nat.le_mul_of_pos_right _ hpos
    omega
  unfold Deserializer.maxElement Serializer.Fits
  rw [hs.elmSize]
  rcases hdst with rfl | ⟨rfl, rfl⟩
  · have helements : Serializer.elements extent snap.buf.size (some (targetCount * extent)) =
        min (snap.buf.size / extent) targetCount := by
      change min snap.buf.size (targetCount * extent) / extent = _
      rw [hcount, Nat.mul_div_cancel _ hpos, Nat.mul_min_mul_right, Nat.mul_div_cancel _ hpos]
    rw [helements]
    refine ⟨⟨hpos, hfits, fun n hn => ?_⟩, ?_, fun i hi => ?_⟩
    · cases Option.some.inj hn
      exact Nat.mul_mod_left _ _
    · unfold sizeSub
      split <;> omega
    · have := hroom i hi
      unfold sizeSub
      rw [if_pos (by omega)]
      omega
  · have helements : Serializer.elements extent snap.buf.size none = snap.buf.size / extent := rfl
    rw [helements]
    refine ⟨⟨hpos, hfits, nofun⟩, ?_, fun i hi => ?_⟩
    · unfold sizeSub
      split <;> omega
    · have := hroom i hi
      have := hlimit i hi
      unfold sizeSub restoreFull
      rw [if_pos (by omega)]
      omega

/-- What a part of a snapshot writes. -/
theorem copyData_part (hs : snap.Stored extent) (hpos : 0 < extent) (hdst : Sized dst extent targetCount)
    (htarget : 0 < targetCount) (hpart : Tiles DataRegion.Mem RegionSubset.Sound part P)
    (hsub : ∀ i, P i → snap.protectedSubset.Mem i) : ∃ t', d.copyData snap dst part t = .ok t' ∧
      (∀ i, P i ∧ i < targetCount → t'.memory i = d.decode (snap.element i)) ∧
      (∀ i, ¬(P i ∧ i < targetCount) → t'.memory i = t.memory i) ∧
      ∀ i, t'.Written i ↔ t.Written i ∨ P i ∧ i < targetCount := by
  obtain ⟨hfits, hmax, hle⟩ := le_maxElement hs hpos hdst htarget
  have hiff : ∀ i, P i ∧ i ≤ Deserializer.maxElement snap dst ↔ P i ∧ i < targetCount := fun i =>
    and_congr_right fun hi => hle i (hsub i hi)
  obtain ⟨t', ht', hin, hout, hwritten⟩ := Deserializer.copyData_spec (d := d) (t := t) hpart hfits hmax fun i hi =>
    hs.elmSize.symm ▸ hs.narrow i (hsub i hi)
  simp only [hiff] at hin hout hwritten
  exact ⟨t', ht', hin, hout, hwritten⟩

end RegionMember

end Fenix
