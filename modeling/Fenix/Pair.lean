import Fenix.Endpoint

namespace Fenix

/-- The tag of a receive that takes any message. -/
def anyTag : Int := -1

def IrecvLog.accepts (r : IrecvLog) (m : SendLog) : Bool := decide (r.tag = anyTag ∨ r.tag = m.tag)

/-- Where a rank stands: at work, after a failure, or in the sync that follows, its regions being sent
to the peer in it. -/
inductive Phase where
  | running
  | failed
  | reset
  | offered (regions : Window Region)
  | formed (regions : Window Region)
  deriving DecidableEq

/-- The regions that have been sent to the peer. -/
def Phase.offer : Phase → Option (Window Region)
  | .offered w => some w
  | .formed w => some w
  | _ => none

/-- A rank of a pair, the logs it has serialised, the messages on their way to it and those that have
reached it. `arrived` and `resumedAt` are for reasoning: what has reached it since the last failure, and
its next message when it had formed consistency. -/
structure Side where
  endpoint : Endpoint
  stored : List Endpoint := []
  phase : Phase := .running
  incoming : List SendLog := []
  mailbox : List SendLog := []
  arrived : List SendLog := []
  resumedAt : Int := 0
  deriving DecidableEq

namespace Side

/-- All messages sent to the rank since the last failure. -/
def sentTo (s : Side) : List SendLog := s.arrived ++ s.incoming

def transmit (s : Side) (ms : List SendLog) : Side := { s with incoming := s.incoming ++ ms }

/-- All messages under way are lost. -/
def fail (s : Side) : Side := { s with phase := .failed, incoming := [], mailbox := [], arrived := [] }

end Side

/-- Two ranks that exchange messages. Whether they have synced since the last failure is for reasoning. -/
structure Pair where
  side : Bool → Side
  synced : Bool := false

inductive Action where
  | send (a : Bool) (buf : MPIBuffer) (tag : Int)
  | irecv (a : Bool) (r : IrecvLog)
  | deliver (a : Bool)
  | wait (a : Bool)
  | beginRegion (a : Bool) (id : Int)
  | store (a : Bool)
  | fail
  | abandon (a : Bool)
  | restore (a : Bool) (k : Nat)
  | reset (a : Bool) (target : Int)
  | offer (a : Bool)
  | form (a : Bool)
  | resume
  deriving DecidableEq

namespace Pair

def create (ranks : Bool → Int) (maxRegions : Nat) : Pair :=
  { side := fun a => { endpoint := { peer := ranks !a, maxRegions := maxRegions } } }

def setSide (p : Pair) (a : Bool) (s : Side) : Pair := { p with side := Function.update p.side a s }

def setEndpoint (p : Pair) (a : Bool) (e : Endpoint) : Pair := p.setSide a { p.side a with endpoint := e }

/-- Messages are sent by `a`. -/
def transmit (p : Pair) (a : Bool) (ms : List SendLog) : Pair := p.setSide (!a) ((p.side !a).transmit ms)

def endpoint (p : Pair) (a : Bool) : Endpoint := (p.side a).endpoint

def phase (p : Pair) (a : Bool) : Phase := (p.side a).phase

/-- The next message reaches `a`. -/
def deliver (p : Pair) (a : Bool) : Pair :=
  match (p.side a).incoming with
  | [] => p
  | m :: rest =>
    p.setSide a { p.side a with
      incoming := rest, mailbox := (p.side a).mailbox ++ [m], arrived := (p.side a).arrived ++ [m] }

/-- The receive that `a` has posted completes with the first message that it accepts. -/
def wait (p : Pair) (a : Bool) : Except Abort Pair :=
  match (p.endpoint a).logs.activeIrecv with
  | none => .ok p
  | some r =>
    match (p.side a).mailbox.find? r.accepts with
    | none => .ok p
    | some _ => do
      let e ← (p.endpoint a).wait r.request
      return p.setSide a { p.side a with endpoint := e, mailbox := (p.side a).mailbox.eraseP r.accepts }

/-- The regions that the peer of `a` has sent are known, and consistency is formed. -/
def form (p : Pair) (a : Bool) (own remote : Window Region) : Except Abort Pair := do
  let (e, toSend, _) ← (p.endpoint a).formConsistency remote
  let formed := p.setSide a { p.side a with
    endpoint := e, phase := .formed own, resumedAt := e.logs.nextRecv }
  return formed.transmit a toSend

/-- What a step does; a step that is not possible changes nothing. -/
def step (p : Pair) : Action → Except Abort Pair
  | .send a buf tag =>
    if p.phase a = .running then do
      let (e, out) ← (p.endpoint a).send buf tag
      return (p.setEndpoint a e).transmit a out.toList
    else .ok p
  | .irecv a r => if p.phase a = .running then ((p.endpoint a).irecv r).map (p.setEndpoint a) else .ok p
  | .deliver a => .ok (p.deliver a)
  | .wait a => if p.phase a = .running then p.wait a else .ok p
  | .beginRegion a id =>
    if p.phase a = .running then ((p.endpoint a).beginRegion id).map (p.setEndpoint a) else .ok p
  | .store a =>
    if p.phase a = .running then
      (p.endpoint a).saved.map fun e => p.setSide a { p.side a with stored := (p.side a).stored ++ [e] }
    else .ok p
  | .fail => .ok { side := fun a => (p.side a).fail, synced := false }
  | .abandon a => .ok (if p.phase a = .failed then p.setEndpoint a (p.endpoint a).abandonIrecv else p)
  | .restore a k =>
    .ok (if p.phase a = .failed then
        p.setEndpoint a ((p.side a).stored[k]?.getD (p.endpoint a).fresh)
      else p)
  | .reset a target =>
    if p.phase a = .failed then
      ((p.endpoint a).resetLocal target).map fun e => p.setSide a { p.side a with endpoint := e, phase := .reset }
    else .ok p
  | .offer a =>
    -- a rank forms consistency on its own account, or because its peer has started to
    if p.phase a = .reset ∧ ((p.endpoint a).Logging ∨ (p.phase !a).offer.isSome) then
      (p.endpoint a).offerConsistency.map fun e =>
        p.setSide a { p.side a with endpoint := e, phase := .offered e.logs.regions }
    else .ok p
  | .form a =>
    match p.phase a, (p.phase !a).offer with
    | .offered own, some remote => p.form a own remote
    | _, _ => .ok p
  | .resume =>
    match p.phase false, p.phase true with
    | .formed _, .formed _ =>
      .ok { side := fun a => { p.side a with phase := .running }, synced := true }
    | .reset, .reset =>
      if (p.endpoint false).Logging ∨ (p.endpoint true).Logging then .ok p
      else .ok { p with side := fun a => { p.side a with phase := .running } }
    | _, _ => .ok p

/-- The pairs that two ranks can come to. -/
inductive Reachable : Pair → Prop
  | create (ranks : Bool → Int) {maxRegions : Nat} (h : 0 < maxRegions) : Reachable (create ranks maxRegions)
  | step {p q : Pair} {act : Action} (hp : Reachable p) (h : p.step act = .ok q) : Reachable q

end Pair

end Fenix
