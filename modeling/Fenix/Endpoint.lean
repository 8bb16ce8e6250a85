import Fenix.CommLogSerialize
import Fenix.RankLogReplay

namespace Fenix

/-- One rank's end of the traffic between two ranks. -/
structure Endpoint where
  peer : Int
  maxRegions : Nat
  activeRegion : Int := 0
  log : Option RankLog := none
  deriving DecidableEq

namespace Endpoint

/-- The log of the traffic, created when there is none. -/
def logs (e : Endpoint) : RankLog := e.log.getD (.create e.maxRegions e.peer)

def setLog (e : Endpoint) (l : RankLog) : Endpoint := { e with log := some l }

def send (e : Endpoint) (buf : MPIBuffer) (tag : Int) : Except Abort (Endpoint × Option SendLog) :=
  (e.logs.send e.activeRegion buf tag).map fun (l, out) => (e.setLog l, out)

def irecv (e : Endpoint) (r : IrecvLog) : Except Abort Endpoint := (e.logs.irecv e.activeRegion r).map e.setLog

def wait (e : Endpoint) (request : Nat) : Except Abort Endpoint := (e.logs.wait request).map e.setLog

def beginRegion (e : Endpoint) (regionId : Int) : Except Abort Endpoint :=
  if regionId < 0 then .error .assertion
  else match e.log with
    | none => .ok { e with activeRegion := regionId }
    | some l => (l.beginRegion regionId).map fun l => { e with activeRegion := regionId, log := some l }

/-- `reset_consistency` of the communicator's log, as far as it is about this traffic. -/
def resetLocal (e : Endpoint) (targetRegion : Int) : Except Abort Endpoint :=
  if targetRegion < -1 then .error .assertion
  else
    let active := if 0 ≤ targetRegion then targetRegion else e.activeRegion
    match e.log with
    | none => .ok { e with activeRegion := active }
    | some l => (l.resetConsistency targetRegion).map fun l => { e with activeRegion := active, log := some l }

def offerConsistency (e : Endpoint) : Except Abort Endpoint := (e.logs.offerConsistency e.activeRegion).map e.setLog

def formConsistency (e : Endpoint) (remote : Window Region) :
    Except Abort (Endpoint × List SendLog × Option IrecvLog) :=
  (e.logs.formConsistency remote).map fun (l, out) => (e.setLog l, out)

/-- What a rank reads back of what it serialised: a log with a valid region, or none. -/
def saved (e : Endpoint) : Except Abort Endpoint :=
  match e.log with
  | none => .ok e
  | some l =>
    if ¬l.curRegion.Valid then .ok { e with log := none }
    else if l.activeIrecv.isSome then .error .assertion
    else .ok e

/-- A posted receive is given up. -/
def abandonIrecv (e : Endpoint) : Endpoint := { e with log := e.log.map fun l => { l with activeIrecv := none } }

/-- The end of a rank that has replaced a lost one. -/
def fresh (e : Endpoint) : Endpoint := { peer := e.peer, maxRegions := e.maxRegions }

/-- Whether there is a log whose current region is valid. -/
def Logging (e : Endpoint) : Prop := ∃ l ∈ e.log, l.curRegion.Valid

instance (e : Endpoint) : Decidable e.Logging :=
  match h : e.log with
  | none => .isFalse fun ⟨l, hl, _⟩ => by rw [h] at hl; cases hl
  | some l => decidable_of_iff l.curRegion.Valid ⟨fun hv => ⟨l, h, hv⟩, fun ⟨l', hl, hv⟩ => by
      rw [h] at hl
      cases hl
      exact hv⟩

end Endpoint

/-- The end of the traffic with a peer. -/
def CommLog.endpoint (c : CommLog) (peer : Int) : Endpoint :=
  { peer := peer, maxRegions := c.maxRegions, activeRegion := c.activeRegion, log := c.rankLogs.find? peer }

end Fenix
