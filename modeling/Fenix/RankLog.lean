import Fenix.OpLog
import Fenix.Region
import Fenix.Window

namespace Fenix

/-- The traffic with one peer: the sends that may have to be replayed and the retained regions. -/
structure RankLog where
  rank : Int
  sends : IndexedSet SendLog SendLog.idx := .empty
  alreadySent : Int := -1
  regions : Window Region
  activeIrecv : Option IrecvLog := none
  deriving DecidableEq

namespace RankLog

def create (maxRegions : Nat) (rank : Int) : RankLog :=
  { rank := rank, regions := .fill (maxRegions - 1) {} }

def curRegion (l : RankLog) : Region := l.regions.cur

def nextSend (l : RankLog) : Int := l.curRegion.send.next

def nextRecv (l : RankLog) : Int := l.curRegion.recv.next

def setCur (l : RankLog) (r : Region) : RankLog := { l with regions := l.regions.setCur r }

def eraseSends (l : RankLog) (r : Region) : RankLog :=
  if r.Valid then { l with sends := l.sends.eraseRange r.send.first r.send.next } else l

/-- Keep the first `k` regions only, with their sends. -/
def eraseRegions (l : RankLog) (k : Nat) : RankLog :=
  let erased := (l.regions.toList.drop k).foldl eraseSends l
  { erased with regions := l.regions.keep {} k }

def appendRegion (l : RankLog) (r : Region) : Except Abort RankLog :=
  if l.curRegion.id < r.id then
    .ok { l.eraseSends l.regions.front with regions := l.regions.push r }
  else .error .assertion

/-- Go back to the beginning of the current region. -/
def restartRegion (l : RankLog) : RankLog :=
  let r := l.curRegion
  (l.eraseSends r).setCur
    { r with send := { r.send with next := r.send.first }, recv := { r.recv with next := r.recv.first } }

/-- The end of `reset_consistency`, once the current region is the one to resume in. -/
def resumeRegion (l : RankLog) (targetRegion : Int) : Except Abort RankLog :=
  if l.curRegion.id = targetRegion then .ok l.restartRegion
  else if targetRegion = -1 then .ok l
  else .error .assertion

/-- A consistency task is started exactly when the resulting current region is valid. -/
def resetConsistency (l : RankLog) (targetRegion : Int) : Except Abort RankLog :=
  if targetRegion < -1 then .error .assertion
  else if 0 ≤ targetRegion ∧ l.activeIrecv.isSome then .error .assertion
  else if ¬l.curRegion.Valid then .ok l
  else if 0 ≤ targetRegion ∧ targetRegion < l.curRegion.id then
    let kept := l.eraseRegions (l.regions.upperBound Region.id targetRegion)
    if ¬kept.curRegion.Valid then .ok kept
    else if kept.curRegion.id ≠ targetRegion then .error .undefinedRegion
    else kept.resumeRegion targetRegion
  else if l.curRegion.id < targetRegion then do
    let appended ← l.appendRegion (.following targetRegion l.curRegion)
    appended.resumeRegion targetRegion
  else l.resumeRegion targetRegion

/-- The two indices at which `o` begins, with the roles of sending and receiving swapped. -/
def mirrored (id : Int) (o : Region) : Region := .starting id o.recv.first o.send.first

def StartsMatch (a b : Region) : Prop := a.send.first = b.recv.first ∧ a.recv.first = b.send.first

instance (a b : Region) : Decidable (StartsMatch a b) := inferInstanceAs (Decidable (_ ∧ _))

/-- `check_consistent` with the later of the two windows first. Ids in a window are distinct, so
the region found is the last one as soon as its id is that of the last one. -/
def checkOrdered (a b : Window Region) : Except Abort (Window Region × Window Region) :=
  match a.lowerBound Region.id b.cur.id with
  | none => .error .assertion
  | some ra =>
    let rb := b.cur
    if rb.id ≠ ra.id then .error .remoteUnknown
    else if StartsMatch ra rb then .ok (a, b)
    else if rb.Fresh then .ok (a, b.setCur (mirrored rb.id ra))
    else if ra.Fresh ∧ ra.id = a.cur.id then .ok (a.setCur (mirrored ra.id rb), b)
    else .error .conflictingRegions

def checkConsistent (mine remote : Window Region) : Except Abort (Window Region × Window Region) :=
  if mine.cur.id < remote.cur.id then
    (checkOrdered remote mine).map Prod.swap
  else checkOrdered mine remote

/-- `recover_invalid` with the valid window first; `curId` is the id of this rank's current region. -/
def recoverOrdered (curId : Int) (a b : Window Region) : Except Abort (Window Region × Window Region) :=
  let rb := b.cur
  if rb.id < 0 then .error .assertion
  else match a.lowerBound Region.id rb.id with
    | none => .error (if rb.id = curId then .missingLogs else .partnerMissing)
    | some ra =>
      if ra.id ≠ rb.id then
        if ra.Fresh then .ok (a, b.setCur (.starting ra.id 0 0))
        else .error (if rb.id = curId then .missingLogs else .partnerMissing)
      else .ok (a, b.setCur (mirrored rb.id ra))

def recoverInvalid (mine remote : Window Region) : Except Abort (Window Region × Window Region) :=
  if ¬mine.cur.Valid then
    if remote.cur.Valid then (recoverOrdered mine.cur.id remote mine).map Prod.swap
    else .error .assertion
  else recoverOrdered mine.cur.id mine remote

/-- The part of `form_consistency` before the exchange: what is sent are the regions it leaves. -/
def offerConsistency (l : RankLog) (activeRegion : Int) : Except Abort RankLog :=
  if l.curRegion.Valid then .ok l
  else if l.activeIrecv.isSome then .error .assertion
  else .ok (l.setCur { id := activeRegion })

/-- Whether the logs continue without a gap from `idx`. -/
def contiguousFrom (idx : Int) : List SendLog → Bool
  | [] => true
  | s :: ss => decide (s.idx = idx) && contiguousFrom (idx + 1) ss

/-- The sends issued again, and the receive posted again. -/
def replayMessages (l : RankLog) : Except Abort (List SendLog × Option IrecvLog) :=
  let toSend := l.sends.since (l.alreadySent + 1)
  if toSend = [] ∧ l.alreadySent < l.nextSend - 1 then .error .missingMessages
  else if contiguousFrom (l.alreadySent + 1) toSend then .ok (toSend, l.activeIrecv)
  else .error .missingMessages

def reconcile (mine remote : Window Region) : Except Abort (Window Region × Window Region) :=
  if remote.cur.Valid ∧ mine.cur.Valid then checkConsistent mine remote
  else recoverInvalid mine remote

/-- `form_consistency` on having received the peer's regions. -/
def formConsistency (l : RankLog) (remote : Window Region) :
    Except Abort (RankLog × List SendLog × Option IrecvLog) := do
  let (mine, theirs) ← reconcile l.regions remote
  if mine.cur.Valid ∧ theirs.cur.Valid then
    let formed := { l with regions := mine, alreadySent := theirs.cur.recv.next - 1 }
    let replayed ← formed.replayMessages
    return (formed, replayed)
  else .error .assertion

def ensureConsistency (l : RankLog) (activeRegion : Int) : Except Abort RankLog :=
  (if l.curRegion.Valid then .ok l else l.appendRegion (.starting activeRegion 0 0)) >>= fun l =>
    if l.curRegion.id < activeRegion then .error .assertion else .ok l

/-- Log the next send, which is returned when it has to be issued. -/
def send (l : RankLog) (activeRegion : Int) (buf : MPIBuffer) (tag : Int) :
    Except Abort (RankLog × Option SendLog) := do
  let l ← l.ensureConsistency activeRegion
  if l.curRegion.id ≠ activeRegion then .error .sendUnexpected
  else if ∃ s ∈ l.sends.last?, s.idx ≠ l.nextSend - 1 then .error .assertion
  else
    let log : SendLog := ⟨l.nextSend, buf, tag⟩
    let r := l.curRegion
    let logged := { l.setCur { r with send := { r.send with next := r.send.next + 1 } } with
      sends := l.sends.insert log }
    .ok (logged, if log.idx ≤ l.alreadySent then none else some log)

def irecv (l : RankLog) (activeRegion : Int) (r : IrecvLog) : Except Abort RankLog :=
  if l.activeIrecv.isSome then .error .assertion
  else do
    let l ← l.ensureConsistency activeRegion
    if l.curRegion.id ≠ activeRegion then .error .recvUnexpected
    else .ok { l with activeIrecv := some r }

/-- The receive posted last completes. -/
def wait (l : RankLog) (request : Nat) : Except Abort RankLog :=
  match l.activeIrecv with
  | none => .error .assertion
  | some log =>
    if log.request ≠ request then .error .assertion
    else if ¬l.curRegion.Valid then .error .assertion
    else
      let r := l.curRegion
      .ok { l.setCur { r with recv := { r.recv with next := r.recv.next + 1 } } with activeIrecv := none }

def beginRegion (l : RankLog) (regionId : Int) : Except Abort RankLog :=
  if regionId < 0 then .error .assertion
  else if regionId < l.curRegion.id then
    if l.curRegion.Empty then .ok l else .error .beforeCurrentRegion
  else if l.curRegion.id = regionId then
    if ¬l.curRegion.Valid then .error .assertion
    else if l.curRegion.Empty then .ok l else .error .duplicateRegion
  else if l.curRegion.Valid then l.appendRegion (.following regionId l.curRegion)
  else l.appendRegion (.starting regionId 0 0)

end RankLog

end Fenix
