import Fenix.Fallible
import Fenix.IntRange
import Fenix.OrdSet
import Mathlib.Algebra.Order.Group.Int

namespace Fenix

inductive CohortError where
  | overflow
  | assertion
  deriving DecidableEq

/-- The policy values of an in-memory group. -/
structure CohortPolicy where
  mode : Int
  rankSeparation : Int
  setSizePolicy : Int

/-- Where the groups of mode 1 start and end. -/
structure PairLayout where
  isOdd : Bool
  startRank : Int
  midRank : Int
  endMiniGroupStart : Int
  startMiniGroupStart : Int
  miniGroupSize : Int

namespace CohortPolicy

/-- Odd-sized communicators set three ranks aside, and one group may need to be smaller than the others. -/
def pairLayout (p : CohortPolicy) (commSize : Int) : Except CohortError PairLayout := do
  let isOdd := decide (commSize.tmod 2 ≠ 0)
  let odd : Int := if isOdd then 1 else 0
  let remainingSize := if isOdd then commSize - 3 else commSize
  let groupSize ← toInt .overflow (p.rankSeparation * 2)
  let nFullGroups := remainingSize.tdiv groupSize
  let fullSize ← toInt .overflow (nFullGroups * p.rankSeparation * 2)
  let miniGroupSize := (remainingSize - fullSize).tdiv 2
  return { isOdd := isOdd
           startRank := miniGroupSize + odd
           midRank := commSize.tdiv 2
           endMiniGroupStart := commSize - miniGroupSize - odd
           startMiniGroupStart := odd
           miniGroupSize := miniGroupSize }

/-- The partner of a rank of a full group, the middle rank skipped. -/
def fullPartner (p : CohortPolicy) (l : PairLayout) (myRank : Int) : Except CohortError Int :=
  let eRank := if l.isOdd ∧ l.midRank < myRank then myRank - l.startRank - 1 else myRank - l.startRank
  if (eRank.tdiv p.rankSeparation).tmod 2 = 0 then do
    let myPartner ← toInt .overflow (myRank + p.rankSeparation)
    return if l.isOdd ∧ myRank < l.midRank ∧ l.midRank ≤ myPartner then myPartner + 1 else myPartner
  else do
    let myPartner ← toInt .overflow (myRank - p.rankSeparation)
    return if l.isOdd ∧ l.midRank < myRank ∧ myPartner ≤ l.midRank then myPartner - 1 else myPartner

def pairCohort (p : CohortPolicy) (l : PairLayout) (commSize myRank : Int) : Except CohortError (OrdSet Int) :=
  let partnerSet : OrdSet Int := {myRank}
  let odd : Int := if l.isOdd then 1 else 0
  if l.startRank ≤ myRank ∧ myRank < l.endMiniGroupStart ∧ ¬(l.isOdd ∧ myRank = l.midRank) then
    (p.fullPartner l myRank).map partnerSet.insert
  else if l.startMiniGroupStart ≤ myRank ∧ myRank < l.startMiniGroupStart + l.miniGroupSize then
    .ok (partnerSet.insert (l.endMiniGroupStart + (myRank - l.startMiniGroupStart)))
  else if l.endMiniGroupStart ≤ myRank ∧ myRank < commSize - odd then
    .ok (partnerSet.insert (l.startMiniGroupStart + (myRank - l.endMiniGroupStart)))
  else
    -- The three ranks that are paired to handle an odd size.
    let three := ((partnerSet.insert 0).insert l.midRank).insert (commSize - 1)
    if three.entries.length = 3 ∨ commSize = 1 ∧ three.entries.length = 1 then .ok three else .error .assertion

/-- One partner of mode 5. -/
def stridedPartner (p : CohortPolicy) (commSize myRank mySetPos : Int) (i : Nat) : Except CohortError Int := do
  let total ← toInt .overflow (commSize + myRank)
  let back ← toInt .overflow (p.rankSeparation * (mySetPos - i))
  let place ← toInt .overflow (total - back)
  return place.tmod commSize

def stridedCohort (p : CohortPolicy) (commSize myRank : Int) : Except CohortError (OrdSet Int) :=
  let mySetPos := (myRank.tdiv p.rankSeparation).tmod p.setSizePolicy
  (List.range p.setSizePolicy.toNat).foldlM (fun (s : OrdSet Int) i =>
    (p.stridedPartner commSize myRank mySetPos i).map s.insert) {myRank}

/-- The cohort that a rank computes for itself. -/
def createCohort (p : CohortPolicy) (commSize myRank : Int) : Except CohortError (OrdSet Int) :=
  if p.mode = 1 then do
    let l ← p.pairLayout commSize
    p.pairCohort l commSize myRank
  else if p.mode = 5 then p.stridedCohort commSize myRank
  else .ok {myRank}

end CohortPolicy
end Fenix
