import Fenix.DataRegion
import Fenix.Sweep

namespace Fenix

/-- A subset as the set of its regions. -/
abbrev RegionSubset := OrdSet DataRegion

namespace DataRegion

def mergeBefore (check : DataRegion) (idx : Nat) : Except Abort (List DataRegion) :=
  if 0 < idx then (make check.start check.stop (idx - 1) check.stride).map fun r => [r] else .ok []

/-- The blocks that are left after the last one merged, of whichever region they are. -/
def mergeAfter (check i : DataRegion) (idx reps : Nat) : Except Abort (List DataRegion) :=
  if idx + reps < check.reps then
    let skipped := idx + reps + 1
    let offset := skipped * check.stride
    (make (check.start + offset) (check.stop + offset) (check.reps - skipped) check.stride).map fun r => [r]
  else if reps < i.reps then
    let skipped := reps + 1
    let offset := skipped * i.stride
    (make (i.start + offset) (i.stop + offset) (i.reps - skipped) i.stride).map fun r => [r]
  else .ok []

/-- The blocks of `i` are merged with those of `check` from one on. -/
def mergeAt (check i : DataRegion) (idx first second : Nat) : Except Abort (List DataRegion) := do
  let reps := min (sizeSub check.reps idx) i.reps
  let merged ← make first second reps check.stride
  let before ← check.mergeBefore idx
  let after ← check.mergeAfter i idx reps
  return merged :: (before ++ after)

/-- The regions in place of two, if a block of one touches a block of the other. -/
def mergePair (check i : DataRegion) : Except Abort (Option (List DataRegion)) :=
  let toEnd := sizeSub (sizeSub i.start 1) check.stop
  let toStart := sizeSub (sizeWrap (i.stop + 1)) check.start
  if toEnd % check.stride = 0 then
    let idx := toEnd / check.stride
    (check.mergeAt i idx (sizeWrap (check.start + idx * check.stride)) i.stop).map some
  else if toStart % check.stride = 0 then
    let idx := toStart / check.stride
    (check.mergeAt i idx i.start (sizeWrap (check.stop + idx * check.stride))).map some
  else .ok none

/-- The first of the regions that can be merged with one, up to those that start past its end. -/
def findMerge (check : DataRegion) : List DataRegion → Except Abort (Option (DataRegion × List DataRegion))
  | [] => .ok none
  | i :: rest =>
    if check.rangeEnd < sizeSub i.start 1 then .ok none
    else do
      let merged ← check.mergePair i
      match merged with
      | some parts => return some (i, parts)
      | none => check.findMerge rest

/-- Every repetition as a block of its own. -/
def blocks (r : DataRegion) (last : Nat) : Except Abort (List DataRegion) := (List.range (last + 1)).mapM r.getRep

end DataRegion

namespace RegionSubset

def mergeFrom : Nat → RegionSubset → Option DataRegion → Except Abort RegionSubset
  | _, s, none => .ok s
  | 0, _, some _ => .error .assertion
  | fuel + 1, s, some check => do
    let found ← check.findMerge (s.after check)
    match found with
    | none => mergeFrom fuel s (s.next check)
    | some (i, parts) =>
      let merged := (s.merge (OrdSet.ofList parts)).erase i
      mergeFrom fuel (merged.erase check) (merged.next check)

/-- Regions that touch are merged. A loop over regions that goes on for longer than there are indices fails. -/
def mergeRegions (s : RegionSubset) : Except Abort RegionSubset := mergeFrom (sizeMax + 1) s s.first

/-- The subset of strided blocks. -/
def ofBlocks (first second n stride : Nat) : Except Abort RegionSubset :=
  if first ≤ second ∧ 0 < n ∧ (n = 1 ∨ second < first + stride) then do
    let r ← DataRegion.make first second (n - 1) stride
    return {r}
  else .error .assertion

/-- The subset of a single range. -/
def ofRange (first second : Nat) : Except Abort RegionSubset := ofBlocks first second 1 sizeMax

def isEmpty (s : RegionSubset) : Bool := s.entries.isEmpty

def start (s : RegionSubset) : Nat := s.first.elim sizeMax DataRegion.start

def stop (s : RegionSubset) : Nat :=
  if s.isEmpty then sizeMax else s.entries.foldl (fun n r => max n r.rangeEnd) 0

/-- The stride of the strided regions, or 0. -/
def stride (s : RegionSubset) : Nat := s.entries.foldl (fun n r => if r.reps ≠ 0 then r.stride else n) 0

/-- Both subsets have strided regions, of different strides. -/
def stridesDiffer (a b : RegionSubset) : Prop := a.stride ≠ 0 ∧ b.stride ≠ 0 ∧ a.stride ≠ b.stride

instance (a b : RegionSubset) : Decidable (a.stridesDiffer b) := inferInstanceAs (Decidable (_ ∧ _ ∧ _))

/-- The part of a subset in a range. -/
def boundedRegions (s : RegionSubset) (start stop : Nat) : Except Abort RegionSubset :=
  if s.isEmpty then .ok ∅
  else if start ≤ s.start ∧ s.stop ≤ stop then .ok s
  else do
    let bounds ← DataRegion.ofBlock start stop
    let cut := (s.entries.takeWhile fun r => decide (r.start ≤ stop)).filter fun r => decide (start ≤ r.rangeEnd)
    let parts ← cut.mapM fun r => r.inter bounds
    return parts.foldl OrdSet.merge ∅

def bounded (s : RegionSubset) (max_idx : Nat) : Except Abort RegionSubset := s.boundedRegions 0 max_idx

def includes (s : RegionSubset) (idx : Nat) : Except Abort Bool := do
  let found ← s.boundedRegions idx idx
  return !found.isEmpty

/-- The number of indices up to one, or 0 if there is no bound to them. -/
def count (s : RegionSubset) (max_index : Nat) : Except Abort Nat := do
  let found ← s.boundedRegions 0 max_index
  if found.entries.any fun r => decide (r.count = sizeMax) then return 0
  else return found.entries.foldl (fun n r => n + r.count) 0 % (sizeMax + 1)

/-- What is not in any of the regions is left. -/
def subAll (remaining : RegionSubset) : List DataRegion → Except Abort RegionSubset
  | [] => .ok remaining
  | r :: rest => do
    let left ← remaining.sweep .assertion (fun rem => (rem.sub r).map Visit.replace) (sizeMax + 1) remaining.first
    subAll left rest

/-- Whether all indices up to one are in the subset. -/
def includesAll (s : RegionSubset) (stop : Nat) : Except Abort Bool := do
  let all ← DataRegion.ofBlock 0 stop
  let remaining ← subAll {all} (s.entries.takeWhile fun r => decide (r.start ≤ stop))
  return remaining.isEmpty

/-- What a region adds to a subset. -/
def adding (regions : List DataRegion) (br : DataRegion) (new : RegionSubset) : Except Abort RegionSubset :=
  match regions with
  | [] => .ok new
  | r :: rest =>
    if br.rangeEnd < r.start then .ok new
    else if r.rangeEnd < br.start then adding rest br new
    else do
      let visit := fun it : DataRegion => (it.sub r).map fun valid => if valid = {it} then .keep else .replace valid
      let left ← new.sweep .assertion visit (sizeMax + 1) new.first
      adding rest br left

def addAll (regions : RegionSubset) : List DataRegion → Except Abort RegionSubset
  | [] => .ok regions
  | br :: rest => do
    let new ← adding regions.entries br {br}
    addAll (regions.merge new) rest

/-- The regions that a subset is added to: where the strides differ, single blocks. The counter of the blocks is
an `int`. -/
def addable (a b : RegionSubset) : Except Abort RegionSubset :=
  if a.stridesDiffer b then
    if a.entries.any fun r => decide (r.reps = sizeMax) then .error .assertion
    else do
      let blocks ← a.entries.mapM fun r => r.blocks (min r.reps 2147483647)
      return OrdSet.ofList blocks.flatten
  else .ok a

def full : DataRegion := ⟨0, sizeMax, 0, sizeMax, Nat.zero_le _, Or.inl ⟨rfl, rfl⟩⟩

/-- The union of two subsets. -/
def add (a b : RegionSubset) : Except Abort RegionSubset :=
  if a.isEmpty then .ok b
  else if b.isEmpty then .ok a
  else if full ∈ a ∨ full ∈ b then .ok {full}
  else do
    let regions ← a.addable b
    let regions ← regions.addAll b.entries
    regions.mergeRegions

/-- The blocks of a subset up to the end of another, and what is beyond as it was. -/
def split (a : RegionSubset) (b_end : Nat) : Except Abort RegionSubset := do
  let head ← a.boundedRegions 0 b_end
  let blocks ← head.entries.mapM fun r => r.blocks r.reps
  let remaining := OrdSet.ofList blocks.flatten
  if b_end = sizeMax then return remaining
  else do
    let tail ← a.boundedRegions (b_end + 1) sizeMax
    return remaining.merge tail

def subEach (remaining : RegionSubset) : List DataRegion → Except Abort RegionSubset
  | [] => .ok remaining
  | br :: rest => do
    let visit := fun it : DataRegion =>
      if it.rangeEnd < br.start then .ok .keep
      else if br.rangeEnd < it.start then .ok .stop
      else (it.sub br).map Visit.replace
    let left ← remaining.sweep .assertion visit (sizeMax + 1) remaining.first
    subEach left rest

def minuend (a b : RegionSubset) : Except Abort RegionSubset := if a.stridesDiffer b then a.split b.stop else .ok a

/-- Both subsets are without bound, with strided regions of different strides. -/
def refused (a b : RegionSubset) : Prop := a.stridesDiffer b ∧ a.stop = sizeMax ∧ b.stop = sizeMax

instance (a b : RegionSubset) : Decidable (a.refused b) := inferInstanceAs (Decidable (_ ∧ _ ∧ _))

/-- The difference of two subsets. -/
def sub (a b : RegionSubset) : Except Abort RegionSubset :=
  if a.isEmpty ∨ b.isEmpty then .ok a
  else if a.refused b then .error .assertion
  else do
    let remaining ← a.minuend b
    let remaining ← remaining.subEach b.entries
    remaining.mergeRegions

/-- Whether two subsets have the same indices. -/
def equal (a b : RegionSubset) : Except Abort Bool :=
  if a.start ≠ b.start then .ok false
  else if a.isEmpty ≠ b.isEmpty then .ok false
  else if a = b then .ok true
  else if a.stop ≠ b.stop then .ok false
  else if a.stridesDiffer b ∧ a.stop = sizeMax then .ok false
  else do
    let left ← a.sub b
    if ¬left.isEmpty then return false
    else do
      let right ← b.sub a
      return right.isEmpty

end RegionSubset

end Fenix
