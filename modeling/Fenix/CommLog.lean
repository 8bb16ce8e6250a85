import Fenix.RankLogReset

namespace Fenix

/-- The log of one rank: the traffic with each peer and the collectives of the communicator. -/
structure CommLog where
  mRank : Int
  maxRegions : Nat
  activeRegion : Int := 0
  rankLogs : IndexedSet RankLog RankLog.rank := .empty
  regions : Window CRegion
  collectives : IndexedSet CollectiveLog CollectiveLog.idx := .empty
  activeOp : Option CollectiveLog := none
  completedCollectiveAll : Int := -1
  completedCollectiveAny : Int := -1
  deriving DecidableEq

namespace CommLog

def create (mRank : Int) (maxRegions : Nat) : CommLog :=
  { mRank := mRank, maxRegions := maxRegions, regions := .fill (maxRegions - 1) {} }

def region (c : CommLog) : CRegion := c.regions.cur

def setRegion (c : CommLog) (r : CRegion) : CommLog := { c with regions := c.regions.setCur r }

/-- The log of the traffic with a peer, created when there is none. -/
def logs (c : CommLog) (peer : Int) : RankLog :=
  (c.rankLogs.find? peer).getD (.create c.maxRegions peer)

def putLog (c : CommLog) (l : RankLog) : CommLog := { c with rankLogs := c.rankLogs.put l }

def eraseLogs (c : CommLog) (r : CRegion) : CommLog :=
  if r.Valid then { c with collectives := c.collectives.eraseRange r.first r.next } else c

/-- Keep the first `k` regions only, with their collectives. -/
def eraseRegions (c : CommLog) (k : Nat) : CommLog :=
  let erased := (c.regions.toList.drop k).foldl eraseLogs c
  { erased with regions := c.regions.keep {} k }

def appendRegion (c : CommLog) (r : CRegion) : Except Abort CommLog :=
  if c.region.id < r.id then
    .ok { c.eraseLogs c.regions.front with regions := c.regions.push r }
  else .error .assertion

/-- Carry out one operation of the log of the traffic with a peer. -/
def onLog {α : Type} (c : CommLog) (peer : Int) (f : RankLog → Except Abort (RankLog × α)) :
    Except Abort (CommLog × α) :=
  if peer < 0 then .error .assertion
  else (f (c.logs peer)).map fun (l, x) => (c.putLog l, x)

def send (c : CommLog) (dst : Int) (buf : MPIBuffer) (tag : Int) :
    Except Abort (CommLog × Option SendLog) :=
  c.onLog dst fun l => l.send c.activeRegion buf tag

def irecv (c : CommLog) (src : Int) (r : IrecvLog) : Except Abort (CommLog × Unit) :=
  c.onLog src fun l => (l.irecv c.activeRegion r).map fun l => (l, ())

def wait (c : CommLog) (src : Int) (request : Nat) : Except Abort (CommLog × Unit) :=
  c.onLog src fun l => (l.wait request).map fun l => (l, ())

/-- A consistency task for a peer is started, be it in reply to the peer's. -/
def offerConsistency (c : CommLog) (peer : Int) : Except Abort (CommLog × Unit) :=
  c.onLog peer fun l => (l.offerConsistency c.activeRegion).map fun l => (l, ())

def formConsistency (c : CommLog) (peer : Int) (remote : Window Region) :
    Except Abort (CommLog × List SendLog × Option IrecvLog) :=
  c.onLog peer fun l => l.formConsistency remote

/-- The part of `begin_region` about the communicator's own regions. -/
def beginCRegion (c : CommLog) (regionId : Int) : Except Abort CommLog :=
  if regionId < c.region.id then
    if c.region.Empty then .ok c else .error .beforeCurrentRegion
  else if c.region.id = regionId then
    if ¬c.region.Valid then .error .assertion
    else if c.region.Empty then .ok c else .error .duplicateRegion
  else if c.region.Valid then c.appendRegion (.starting regionId c.region.next)
  else c.appendRegion (.starting regionId 0)

def beginRegion (c : CommLog) (regionId : Int) : Except Abort CommLog :=
  if regionId < 0 then .error .assertion
  else do
    let ls ← c.rankLogs.updateM (·.beginRegion regionId) fun _ _ h => (RankLog.sameFrame_beginRegion h).1
    { c with rankLogs := ls, activeRegion := regionId }.beginCRegion regionId

/-- A collective is called: it takes the next index and becomes the active one. -/
def startCollective (c : CommLog) (op : CollectiveOp) : Except Abort CommLog :=
  (if c.region.Valid then .ok c else c.appendRegion (.starting c.activeRegion 0)) >>= fun c =>
    if c.activeOp.isSome ∨ c.region.id ≠ c.activeRegion then .error .assertion
    else
      .ok { c.setRegion { c.region with next := c.region.next + 1 } with
        activeOp := some ⟨c.region.next, op⟩ }

/-- The active collective succeeds, at the first or a later attempt, and enters the log. -/
def finishCollective (c : CommLog) : Except Abort CommLog :=
  match c.activeOp with
  | none => .error .assertion
  | some op =>
    if c.region.Valid ∧ c.region.id = c.activeRegion then
      .ok { c with collectives := c.collectives.insert op, activeOp := none }
    else .error .assertion

/-- The part of `reset_consistency` about the communicator's own regions. -/
def resetCollectives (c : CommLog) (targetRegion : Int) : Except Abort CommLog :=
  if c.region.Valid ∧ targetRegion ≠ -1 ∧ targetRegion < c.region.id then
    let kept := c.eraseRegions (c.regions.upperBound CRegion.id targetRegion)
    if kept.region.Valid ∧ kept.region.id ≠ targetRegion then .error .undefinedRegion else .ok kept
  else if c.region.Valid ∧ c.region.id < targetRegion then
    c.appendRegion (.starting targetRegion c.region.next)
  else if c.region.Valid ∧ c.region.id = targetRegion then
    .ok ((c.eraseLogs c.region).setRegion { c.region with next := c.region.first })
  else .ok c

/-- The part of `reset_consistency` before any communication. -/
def resetLocal (c : CommLog) (targetRegion : Int) : Except Abort CommLog :=
  if targetRegion < -1 then .error .assertion
  else do
    let ls ← c.rankLogs.updateM (·.resetConsistency targetRegion)
      fun _ _ h => (RankLog.sameFrame_resetConsistency h).1
    { c with rankLogs := ls,
             activeRegion := if 0 ≤ targetRegion then targetRegion else c.activeRegion
      }.resetCollectives targetRegion

/-- Whether `reset_consistency` starts forming collective consistency of its own accord. -/
def StartsCollective (c : CommLog) : Prop := c.region.Valid ∧ ¬c.region.Fresh

instance (c : CommLog) : Decidable c.StartsCollective := inferInstanceAs (Decidable (_ ∧ _))

/-- The region that `form_consistency` looks for among those of the root. -/
def seekRegion (c : CommLog) : CRegion :=
  if c.region.Valid then c.region else { c.region with id := c.activeRegion }

/-- What `form_consistency` makes of the current region: leave it, begin it anew or append one to it. -/
inductive Alignment where
  | keep
  | restart (idx : Int)
  | append (id : Int)
  deriving DecidableEq, Repr

/-- Fit region `m` into the regions of the rank that `latestIdx` is the next index of. -/
def alignment (m : CRegion) (latestIdx : Int) (latest : Window CRegion) : Except Abort Alignment :=
  match latest.lowerBound CRegion.id m.id with
  | none =>
    if ¬m.Valid ∨ m.Fresh then .ok (.restart latestIdx)
    else if m.first ≠ latestIdx then .error .regionConflictsWithRoot
    else .ok .keep
  | some it =>
    if it.id ≠ m.id then
      if ∃ b ∈ latest.beforeLowerBound CRegion.id m.id, b.Valid then .error .regionUnknownToRoot
      else if ¬m.Valid ∨ m.next ≠ it.first then .error .regionUnknownToRoot
      else .ok (.append it.id)
    else if ¬m.Valid ∨ m.Fresh then .ok (.restart it.first)
    else if m.first ≠ it.first then .error .regionConflictsWithRoot
    else .ok .keep

def applyAlignment (c : CommLog) : Alignment → Except Abort CommLog
  | .keep => .ok c
  | .restart idx => .ok (c.setRegion (.starting c.seekRegion.id idx))
  | .append id => c.appendRegion (.starting id c.seekRegion.next)

/-- The part of `form_consistency` that ensures consistency with the most recent information. -/
def alignRegion (c : CommLog) (latestIdx : Int) (latest : Window CRegion) : Except Abort CommLog := do
  let a ← alignment c.seekRegion latestIdx latest
  c.applyAlignment a

/-- Whether the collectives continue without a gap from `idx`. -/
def contiguousFrom (idx : Int) : List CollectiveLog → Bool
  | [] => true
  | x :: xs => decide (x.idx = idx) && contiguousFrom (idx + 1) xs

/-- The collectives issued again. -/
def replayCollectives (c : CommLog) (startIdx : Int) : Except Abort (List CollectiveLog) :=
  if ¬c.region.Valid then .error .assertion
  else if c.region.next ≤ startIdx then .ok []
  else if contiguousFrom startIdx (c.collectives.sinceFound startIdx) then
    .ok (c.collectives.sinceFound startIdx)
  else .error .missingCollective

end CommLog

end Fenix
