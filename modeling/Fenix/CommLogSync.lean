import Fenix.CommLogRun

namespace Fenix

/-- What the collective exchange of a sync brings: the latest index, the regions of the rank that has
it and the earliest index. -/
structure CollectiveAnswer where
  latestIdx : Int
  latest : Window CRegion
  earliestIdx : Int

/-- What one sync is called with and what a rank receives in it: the regions of each peer that forms
consistency with it, and the collective exchange if any rank asks for one. -/
structure SyncInput where
  target : Int
  peers : List (Int × Window Region)
  collective : Option CollectiveAnswer

/-- What a rank sends to a peer: its regions and then the replayed messages. -/
structure Offer where
  peer : Int
  regions : Window Region
  replayed : List SendLog
  reposted : Option IrecvLog
  deriving DecidableEq

/-- What a rank does in one sync that another rank can notice. -/
structure SyncOutput where
  initiated : List Int
  offers : List Offer
  startsCollective : Bool
  regions : Window CRegion
  next : Int
  replayed : List CollectiveLog
  deriving DecidableEq

/-- A whole consistency task: what is offered, then what comes of the peer's regions. -/
def RankLog.exchange (l : RankLog) (activeRegion : Int) (remote : Window Region) :
    Except Abort (RankLog × Offer) := do
  let offered ← l.offerConsistency activeRegion
  let (formed, replayed, reposted) ← offered.formConsistency remote
  return (formed, ⟨l.rank, offered.regions, replayed, reposted⟩)

namespace CommLog

def exchange (c : CommLog) (peer : Int) (remote : Window Region) : Except Abort (CommLog × Offer) :=
  c.onLog peer fun l => l.exchange c.activeRegion remote

def exchangeAll (c : CommLog) : List (Int × Window Region) → Except Abort (CommLog × List Offer)
  | [] => .ok (c, [])
  | (peer, remote) :: rest => do
    let (c, offer) ← c.exchange peer remote
    let (c, offers) ← c.exchangeAll rest
    return (c, offer :: offers)

def formCollective (c : CommLog) : Option CollectiveAnswer → Except Abort CommLog
  | none => .ok c
  | some a => do
    let c ← c.alignRegion a.latestIdx a.latest
    return { c with completedCollectiveAny := a.latestIdx - 1, completedCollectiveAll := a.earliestIdx - 1 }

/-- The peers that a rank asks for consistency of its own accord. -/
def initiates (c : CommLog) : List Int := c.validLogs.entries.map RankLog.rank

/-- The whole of `reset_consistency`. -/
def resetConsistency (c : CommLog) (i : SyncInput) : Except Abort (CommLog × SyncOutput) := do
  let reset ← c.resetLocal i.target
  let (exchanged, offers) ← reset.exchangeAll i.peers
  let formed ← exchanged.formCollective i.collective
  let replayed ← formed.replayCollectives (formed.completedCollectiveAll + 1)
  return (formed,
    { initiated := reset.initiates, offers := offers, startsCollective := decide reset.StartsCollective,
      regions := reset.regions, next := formed.region.next, replayed := replayed })

/-- The targets a sync may be called with. -/
def SyncTarget (c : CommLog) (t : Int) : Prop := t = -1 ∨ ∃ r ∈ c.regions.toList, r.Valid ∧ r.id = t

/-- In one sync after another the rank shows `outs`, whatever the others answer. -/
inductive Syncs : CommLog → List SyncInput → List SyncOutput → Prop
  | nil (c) : Syncs c [] []
  | cons {c c' i out is outs} (ht : c.SyncTarget i.target) (h : c.resetConsistency i = .ok (c', out))
      (hs : Syncs c' is outs) : Syncs c (i :: is) (out :: outs)

end CommLog

end Fenix
