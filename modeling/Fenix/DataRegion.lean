import Fenix.Blocks
import Fenix.Fallible
import Fenix.OpLog
import Fenix.Tiles
import Mathlib.Data.Prod.Lex

namespace Fenix

/-- The greatest index, which also stands for no bound. -/
def sizeMax : Nat := 18446744073709551615

/-- The difference of two indices, which wraps around below zero. -/
def sizeSub (a b : Nat) : Nat := if b ≤ a then a - b else sizeMax + 1 + a - b

/-- An index that wraps around past the greatest. -/
def sizeWrap (a : Nat) : Nat := a % (sizeMax + 1)

/-- A difference of indices that is not meant to wrap around. -/
def sizeDiff (a b : Nat) : Except Abort Nat := if b ≤ a then .ok (a - b) else .error .underflow

theorem sizeDiff_eq {a b : Nat} (h : b ≤ a) : sizeDiff a b = .ok (a - b) := if_pos h

/-- A block of indices, repeated at a distance that leaves a gap. -/
@[ext] structure DataRegion where
  start : Nat
  stop : Nat
  reps : Nat
  stride : Nat
  block : start ≤ stop
  shape : reps = 0 ∧ stride = sizeMax ∨ 0 < reps ∧ stride ≠ sizeMax ∧ stop + 1 < start + stride
  deriving DecidableEq

namespace DataRegion

/-- What regions are ordered by. -/
def key (r : DataRegion) : Nat ×ₗ Nat ×ₗ Nat ×ₗ Nat := toLex (r.start, toLex (r.stop, toLex (r.reps, r.stride)))

theorem key_injective : Function.Injective key := by
  rintro ⟨_, _, _, _, _, _⟩ ⟨_, _, _, _, _, _⟩ h
  cases h
  rfl

instance : LinearOrder DataRegion := LinearOrder.lift' key key_injective

theorem block_shape (first second : Nat) :
    0 = 0 ∧ sizeMax = sizeMax ∨ 0 < 0 ∧ sizeMax ≠ sizeMax ∧ second + 1 < first + sizeMax := Or.inl ⟨rfl, rfl⟩

/-- A single block. -/
def ofBlock (first second : Nat) : Except Abort DataRegion :=
  if h : first ≤ second then .ok ⟨first, second, 0, sizeMax, h, block_shape first second⟩ else .error .assertion

/-- A region of `reps + 1` blocks. Those that touch are one block. -/
def make (first second reps stride : Nat) : Except Abort DataRegion :=
  if second ≠ sizeMax ∧ second + 1 = first + stride then ofBlock first (second + reps * stride)
  else if hblock : second = sizeMax ∨ reps = 0 then ofBlock first second
  else if h : first ≤ second ∧ stride ≠ sizeMax ∧ second + 1 < first + stride then
    .ok ⟨first, second, reps, stride, h.1, Or.inr ⟨by omega, h.2⟩⟩
  else .error .assertion

/-- The end of the overall range. -/
def rangeEnd (r : DataRegion) : Nat := if r.reps = sizeMax then sizeMax else r.stop + r.stride * r.reps

def count (r : DataRegion) : Nat :=
  if r.stop = sizeMax ∨ r.reps = sizeMax then sizeMax else (r.stop - r.start + 1) * (r.reps + 1)

/-- A single repetition. -/
def getRep (r : DataRegion) (n : Nat) : Except Abort DataRegion :=
  if n ≤ r.reps then ofBlock (r.start + n * r.stride) (r.stop + n * r.stride) else .error .assertion

/-- Several repetitions. -/
def getReps (r : DataRegion) (first last : Nat) : Except Abort DataRegion :=
  if first ≤ last ∧ last ≤ r.reps then do
    let reps ← sizeDiff last first
    make (r.start + first * r.stride) (r.stop + first * r.stride) reps r.stride
  else .error .assertion

/-- The region between the repetitions. -/
def inverted (r : DataRegion) : Except Abort DataRegion :=
  if r.reps = 0 then .error .assertion
  else do
    let last ← sizeDiff (r.start + r.stride) 1
    let reps ← if r.reps = sizeMax then .ok sizeMax else sizeDiff r.reps 1
    make (r.stop + 1) last reps r.stride

/-- The overall ranges share an index. -/
def meets (a b : DataRegion) : Bool := !(decide (b.rangeEnd < a.start) || decide (a.rangeEnd < b.start))

/-- Whether a block meets the repetition that follows one, if there is any. -/
def nextMeets (r : DataRegion) (n : Nat) (block : DataRegion) : Except Abort Bool :=
  if n < r.reps then (r.getRep (n + 1)).map block.meets else .ok false

/-- Whether two regions intersect, regions of different strides being refused. Where only one of them is
strided the answer is that of their ranges. -/
def intersects (a b : DataRegion) : Except Abort Bool :=
  if ¬a.meets b then .ok false
  else if a.reps = 0 ∨ b.reps = 0 then .ok true
  else if a.stride ≠ b.stride then .error .assertion
  else do
    let ostart := max a.start b.start
    let adist ← sizeDiff ostart a.start
    let bdist ← sizeDiff ostart b.start
    let arep := adist / a.stride
    let brep := bdist / a.stride
    let ablock ← a.getRep arep
    let bblock ← b.getRep brep
    if ablock.meets bblock then return true
    else
      let anext ← a.nextMeets arep bblock
      let bnext ← b.nextMeets brep ablock
      return anext || bnext

/-- The common part of two blocks. -/
def interBlocks (a b : DataRegion) : Except Abort (OrdSet DataRegion) :=
  if a.meets b then do
    let r ← ofBlock (max a.start b.start) (min a.stop b.stop)
    return {r}
  else .ok ∅

/-- What a block leaves of the repetition that it starts in, and the first one that it may have all of. -/
def interFirst (a b : DataRegion) : Except Abort (OrdSet DataRegion × Option Nat) :=
  if a.start < b.start then do
    let dist ← sizeDiff b.start a.start
    let rep := dist / a.stride
    let block ← a.getRep rep
    let valid ← block.interBlocks b
    if block ∈ valid then return (∅, some rep)
    else if rep = a.reps then return (valid, none)
    else return (valid, some (rep + 1))
  else .ok (∅, some 0)

/-- What a block leaves of the repetition that it ends in, and the last one that it has all of. -/
def interLast (a b : DataRegion) (first : Nat) : Except Abort (OrdSet DataRegion × Option Nat) :=
  if b.stop < a.rangeEnd then do
    let dist ← sizeDiff b.stop a.start
    let rep := dist / a.stride
    if rep < first then return (∅, none)
    else
      let block ← a.getRep rep
      let valid ← block.interBlocks b
      if block ∈ valid then return (∅, some rep)
      else if rep = first then return (valid, none)
      else
        let last ← sizeDiff rep 1
        return (valid, some last)
  else .ok (∅, some a.reps)

/-- The part of a strided region that is in a block. -/
def interStrided (a b : DataRegion) : Except Abort (OrdSet DataRegion) := do
  let (head, first) ← a.interFirst b
  match first with
  | none => return head
  | some first =>
    let (tail, last) ← a.interLast b first
    match last with
    | none => return head.merge tail
    | some last =>
      let whole ← a.getReps first last
      return (head.merge tail).insert whole

/-- The intersection of two regions, of which one at least is a block. -/
def inter (a b : DataRegion) : Except Abort (OrdSet DataRegion) :=
  if a.reps ≠ 0 ∧ b.reps ≠ 0 then .error .assertion
  else do
    let hit ← a.intersects b
    if ¬hit then return ∅
    else if b.reps ≠ 0 then b.interStrided a
    else if a.reps ≠ 0 then a.interStrided b
    else a.interBlocks b

/-- One region in place of two that follow each other. -/
def mergeNext (a b : DataRegion) : Except Abort (Option DataRegion) :=
  if a.rangeEnd = sizeMax then .ok none
  else if a.reps = 0 ∧ b.reps = 0 then
    if a.stop + 1 = b.start then (ofBlock a.start b.stop).map some else .ok none
  else
    let s := if a.reps ≠ 0 then a.stride else b.stride
    if sizeWrap (a.start + s * (a.reps + 1)) = b.start ∧ sizeWrap (a.stop + s * (a.reps + 1)) = b.stop then
      (make a.start a.stop (a.reps + b.reps + 1) s).map some
    else .ok none

def tryMerge (a b : DataRegion) : Except Abort (Option DataRegion) :=
  if b < a then b.mergeNext a else a.mergeNext b

end DataRegion

/-- The greatest regions of `a` and the least of `b` are merged as long as they follow each other. -/
def mergeAcross (a : OrdSet DataRegion) : List DataRegion → Except Abort (OrdSet DataRegion)
  | [] => .ok a
  | y :: ys =>
    match a.entries.getLast? with
    | none => .ok (OrdSet.ofList (y :: ys))
    | some x => do
      match ← x.tryMerge y with
      | none => return a.merge (OrdSet.ofList (y :: ys))
      | some m => mergeAcross ((a.erase x).insert m) ys

/-- The two greatest regions are merged as long as they follow each other. -/
def mergeLast : Nat → OrdSet DataRegion → Except Abort (OrdSet DataRegion)
  | 0, a => .ok a
  | fuel + 1, a =>
    match a.entries.reverse with
    | y :: x :: _ => do
      match ← x.tryMerge y with
      | none => return a
      | some m => mergeLast fuel (((a.erase y).erase x).insert m)
    | _ => .ok a

def mergeAdjacentSets (a b : OrdSet DataRegion) : Except Abort (OrdSet DataRegion) := do
  let merged ← mergeAcross a b.entries
  mergeLast merged.entries.length merged

namespace DataRegion

/-- What a row of gaps leaves of a row of blocks with the same stride, that of a block in the middle
repeated for all there. -/
def subStrided (a inv : DataRegion) (stride : Nat) : Except Abort (OrdSet DataRegion) := do
  let first ← (← a.getRep 0).inter inv
  let last ← (← a.getRep a.reps).inter inv
  if 1 < a.reps then
    let reps ← sizeDiff a.reps 2
    let valid ← (← a.getRep 1).inter inv
    let middle ← valid.entries.mapM fun block =>
      if block.reps ≠ 0 then .error .assertion else make block.start block.stop reps stride
    return (first.merge (OrdSet.ofList middle)).merge last
  else return first.merge last

/-- What is left of `a` over the range of a strided region. -/
def subMiddle (a b : DataRegion) : Except Abort (OrdSet DataRegion) := do
  let inv ← b.inverted
  let parts ← a.inter (← ofBlock b.start b.rangeEnd)
  let blocks ← (parts.entries.filter fun r => decide (r.reps = 0)).mapM fun r => r.inter inv
  let mid := blocks.foldl OrdSet.merge ∅
  match parts.entries.filter fun r => decide (r.reps ≠ 0) with
  | [] => return mid
  | [r] => return mid.merge (← r.subStrided inv b.stride)
  | _ => throw .assertion

def subBefore (a b : DataRegion) : Except Abort (OrdSet DataRegion) :=
  if 0 < b.start then do
    let last ← sizeDiff b.start 1
    let bounds ← ofBlock 0 last
    a.inter bounds
  else .ok ∅

def subWithin (a b : DataRegion) (ret : OrdSet DataRegion) : Except Abort (OrdSet DataRegion) :=
  if b.reps ≠ 0 then do
    let mid ← a.subMiddle b
    mergeAdjacentSets ret mid
  else .ok ret

def subAfter (a b : DataRegion) (ret : OrdSet DataRegion) : Except Abort (OrdSet DataRegion) :=
  if b.rangeEnd ≠ sizeMax then do
    let bounds ← ofBlock (b.rangeEnd + 1) sizeMax
    let post ← a.inter bounds
    mergeAdjacentSets ret post
  else .ok ret

/-- The region without the indices of another. -/
def sub (a b : DataRegion) : Except Abort (OrdSet DataRegion) := do
  let hit ← a.intersects b
  if ¬hit then return {a}
  else if a.reps ≠ 0 ∧ b.reps ≠ 0 ∧ a.stride ≠ b.stride then throw .assertion
  else do
    let pre ← a.subBefore b
    let ret ← a.subWithin b pre
    a.subAfter b ret

end DataRegion

end Fenix
