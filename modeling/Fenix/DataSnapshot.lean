import Mathlib.Data.Finset.Lattice.Fold
import Mathlib.Data.Finset.Range
import Mathlib.Data.Finset.Sort
import Mathlib.Order.Lattice.Nat

namespace Fenix

/-- Resizable memory. Bytes past the size are what the allocation happens to hold. -/
structure DataBuffer where
  size : Nat
  bytes : Nat → UInt8

namespace DataBuffer

def resize (b : DataBuffer) (newSize : Nat) : DataBuffer := { b with size := newSize }

def clear (b : DataBuffer) : DataBuffer := b.resize 0

/-- The buffer with `len` bytes from `start` on replaced. -/
def write (b : DataBuffer) (start len : Nat) (f : Nat → UInt8) : DataBuffer :=
  { b with bytes := fun x => if start ≤ x ∧ x < start + len then f (x - start) else b.bytes x }

/-- The whole buffer set to zero. -/
def zero (b : DataBuffer) : DataBuffer := b.write 0 b.size fun _ => 0

@[simp] theorem size_resize (b : DataBuffer) (n : Nat) : (b.resize n).size = n := rfl

@[simp] theorem bytes_resize (b : DataBuffer) (n : Nat) : (b.resize n).bytes = b.bytes := rfl

@[simp] theorem size_write (b : DataBuffer) (start len : Nat) (f : Nat → UInt8) :
    (b.write start len f).size = b.size := rfl

@[simp] theorem size_zero (b : DataBuffer) : b.zero.size = b.size := rfl

theorem bytes_zero {b : DataBuffer} {x : Nat} (h : x < b.size) : b.zero.bytes x = 0 :=
  if_pos ⟨Nat.zero_le x, by omega⟩

end DataBuffer

/-- A bounded subset of the elements of a member, by the indices that its regions cover. -/
structure DataSubset where
  idxs : Finset Nat
  deriving DecidableEq

namespace DataSubset

instance : EmptyCollection DataSubset := ⟨⟨∅⟩⟩

instance : Add DataSubset := ⟨fun a b => ⟨a.idxs ∪ b.idxs⟩⟩

/-- The number of elements up to the last one of the subset. -/
def maxCount (s : DataSubset) : Nat := s.idxs.sup (· + 1)

/-- The elements of the subset up to `maxIndex`. -/
def bound (s : DataSubset) (maxIndex : Nat) : DataSubset := ⟨s.idxs.filter (· ≤ maxIndex)⟩

/-- The indices in the order of the regions. -/
def elems (s : DataSubset) : List Nat := s.idxs.sort (· ≤ ·)

/-- The subset up to the last of `elmMaxCount` elements, all of it where there is no such bound. -/
def upTo (s : DataSubset) (elmMaxCount : Nat) : DataSubset :=
  if elmMaxCount = 0 then s else s.bound (elmMaxCount - 1)

/-- The elements of the subset, one after the other. -/
def packData (s : DataSubset) (elmSize : Nat) (src : DataBuffer) : List (Nat → UInt8) :=
  s.elems.map fun i b => src.bytes (i * elmSize + b)

/-- Elements go to their places in the subset. -/
def unpackAt (elmSize : Nat) : List Nat → List (Nat → UInt8) → DataBuffer → DataBuffer
  | i :: is, e :: es, dst => unpackAt elmSize is es (dst.write (i * elmSize) elmSize e)
  | _, _, dst => dst

/-- The greatest count among several subsets. -/
def maxCounts : List DataSubset → Nat
  | [] => 0
  | s :: rest => max s.maxCount (maxCounts rest)

@[simp] theorem maxCount_empty : (∅ : DataSubset).maxCount = 0 := rfl

@[simp] theorem maxCount_add (a b : DataSubset) : (a + b).maxCount = max a.maxCount b.maxCount :=
  Finset.sup_union

theorem maxCounts_empty (xs : List DataSubset) : maxCounts (xs.map fun _ => ∅) = 0 := by
  induction xs with
  | nil => rfl
  | cons x xs ih =>
    rw [List.map_cons, maxCounts, ih]
    rfl

theorem maxCounts_add {xs ys : List DataSubset} (h : xs.length = ys.length) :
    maxCounts (List.zipWith (· + ·) xs ys) = max (maxCounts xs) (maxCounts ys) := by
  induction xs generalizing ys with
  | nil =>
    cases ys with
    | nil => rfl
    | cons y ys => cases h
  | cons x xs ih =>
    cases ys with
    | nil => cases h
    | cons y ys =>
      rw [List.zipWith_cons_cons, maxCounts, maxCounts, maxCounts, ih (Nat.succ.inj h), maxCount_add]
      omega

end DataSubset

/-- One version of the data of a member on one rank. -/
structure DataSnapshot where
  timestamp : Int := -2
  buf : DataBuffer
  elmSize : Nat
  elmMaxCount : Nat
  cohortRank : Option Nat := none
  protectedSubsets : List DataSubset := []
  stagedSubsets : List DataSubset := []

namespace DataSnapshot

/-- What the rank itself has staged. -/
def stagedSubset (s : DataSnapshot) : Option DataSubset := s.cohortRank.bind fun rank => s.stagedSubsets[rank]?

/-- What the rank itself has protected. -/
def protectedSubset (s : DataSnapshot) : Option DataSubset :=
  s.cohortRank.bind fun rank => s.protectedSubsets[rank]?

/-- Clear the buffer and the subsets, and forget timestamp and cohort. -/
def reset (s : DataSnapshot) : DataSnapshot :=
  { s with timestamp := -2, buf := s.buf.clear, protectedSubsets := [], stagedSubsets := [], cohortRank := none }

/-- The subsets of a cohort, those of a smaller one filled up with empty ones. -/
def resizeSubsets (xs : List DataSubset) (cohortSize : Nat) : List DataSubset :=
  (xs ++ List.replicate cohortSize ∅).take cohortSize

def reinitCohort (s : DataSnapshot) (cohortRank cohortSize : Nat) : DataSnapshot :=
  { s with cohortRank := some cohortRank, protectedSubsets := resizeSubsets s.protectedSubsets cohortSize,
           stagedSubsets := resizeSubsets s.stagedSubsets cohortSize }

/-- Add what a rank stages to what it has staged, and make room for it. -/
def addAndFit (s : DataSnapshot) (subset : DataSubset) : DataSnapshot :=
  match s.cohortRank with
  | none => s
  | some rank =>
    let staged := s.stagedSubsets.modify rank fun x => (x + subset).upTo s.elmMaxCount
    let newCount := if s.elmMaxCount = 0 then (staged.getD rank ∅).maxCount else s.elmMaxCount
    let newSize := newCount * s.elmSize
    { s with stagedSubsets := staged, buf := if s.buf.size < newSize then s.buf.resize newSize else s.buf }

/-- A snapshot that has a cohort keeps it. -/
def initCohort (s : DataSnapshot) (cohortRank cohortSize : Nat) : DataSnapshot :=
  match s.cohortRank with
  | some _ => s
  | none => s.reinitCohort cohortRank cohortSize

theorem resizeSubsets_length {xs : List DataSubset} {n : Nat} (h : xs.length = n) : resizeSubsets xs n = xs := by
  subst h
  exact List.take_left

end DataSnapshot

/-- A snapshot along with what the rank keeps for a partner. -/
structure IMRSnapshot extends DataSnapshot where
  partner : DataSnapshot

namespace IMRSnapshot

/-- The reset of the base class. -/
def reset (s : IMRSnapshot) : IMRSnapshot := { s with toDataSnapshot := s.toDataSnapshot.reset }

def initCohort (s : IMRSnapshot) (cohortRank cohortSize : Nat) : IMRSnapshot :=
  { toDataSnapshot := s.toDataSnapshot.initCohort cohortRank cohortSize
    partner := s.partner.initCohort cohortRank cohortSize }

def reinitCohort (s : IMRSnapshot) (cohortRank cohortSize : Nat) : IMRSnapshot :=
  { toDataSnapshot := s.toDataSnapshot.reinitCohort cohortRank cohortSize
    partner := s.partner.reinitCohort cohortRank cohortSize }

/-- The end of `iprotect`: what was staged is protected. -/
def markProtected (s : IMRSnapshot) : IMRSnapshot :=
  { s with protectedSubsets := List.zipWith (· + ·) s.protectedSubsets s.stagedSubsets
           stagedSubsets := s.stagedSubsets.map fun _ => ∅ }

/-- A new snapshot, for elements of this size and of this number if it is bounded. -/
def create (elmSize elmMaxCount : Nat) (junk partnerJunk : Nat → UInt8) : IMRSnapshot :=
  { buf := ⟨0, junk⟩, elmSize := elmSize, elmMaxCount := elmMaxCount
    partner := { buf := ⟨0, partnerJunk⟩, elmSize := elmSize, elmMaxCount := elmMaxCount } }

end IMRSnapshot

end Fenix
