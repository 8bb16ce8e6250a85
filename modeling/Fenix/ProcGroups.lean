import Fenix.Fallible
import Fenix.Slots

namespace Fenix

/-- Why the groups of the processes cannot be built. -/
inductive ProcError where
  | sparesUnavailable
  | outOfRange
  | rankUndefined
  deriving DecidableEq

/-- The processes under construction: the pids of the user group and the ranks assigned to them. -/
structure Assignment where
  userPids : List Nat
  pidToRank : List (Option Nat)
  rankToPid : List (Option Nat)
  deriving DecidableEq

namespace Assignment

/-- The rank assigned to the process at an index of the user group. -/
def rankAt (a : Assignment) (idx : Nat) : Except ProcError Nat :=
  match a.userPids[idx]? with
  | none => .error .outOfRange
  | some pid =>
    match a.pidToRank[pid]? with
    | some (some rank) => .ok rank
    | _ => .error .rankUndefined

/-- A spare takes the place of a dead process. -/
def replace (a : Assignment) (idx sparePid : Nat) : Except ProcError Assignment :=
  (a.rankAt idx).map fun rank =>
    { userPids := a.userPids.set idx sparePid
      pidToRank := a.pidToRank.set sparePid (some rank)
      rankToPid := a.rankToPid.set rank (some sparePid) }

/-- The place of a dead process is given up. -/
def shrink (a : Assignment) (idx : Nat) : Except ProcError Assignment :=
  (a.rankAt idx).map fun rank =>
    { a with userPids := a.userPids.eraseIdx idx, rankToPid := a.rankToPid.set rank none }

def replaceAll (a : Assignment) (places : List (Nat × Nat)) : Except ProcError Assignment :=
  places.foldlM (fun a (idx, sparePid) => a.replace idx sparePid) a

def shrinkAll (a : Assignment) (places : List Nat) : Except ProcError Assignment := places.foldlM shrink a

end Assignment

/-- The process groups, as lists of pids, and the communicators built from them. -/
structure ProcState where
  procs : List Nat
  userProcs : List Nat
  spareProcs : List Nat
  deadProcs : List Nat := []
  pidToRank : List (Option Nat)
  rankToPid : List (Option Nat)
  world : List Nat := []
  userWorld : List Nat := []
  deriving DecidableEq

/-- The group of a communicator after its failed processes are taken out. -/
def shrinkComm (comm failed : List Nat) : List Nat := comm.filter (· ∉ failed)

namespace ProcState

/-- The groups before any failure is known. -/
def preinit (size spares : Nat) : Except ProcError ProcState :=
  if spares ≥ size then .error .sparesUnavailable
  else
    let nActive := size - spares
    let procs := List.range size
    let user := List.range nActive
    .ok
      { procs := procs
        userProcs := user
        spareProcs := procs.filter (· ∉ user)
        pidToRank := (List.range size).map fun pid => if pid < nActive then some pid else none
        rankToPid := (List.range nActive).map some }

/-- Sort the processes anew after the failures that the current world shows. -/
def rebuildProcGroups (s : ProcState) : Except ProcError ProcState := do
  let dead := s.procs.filter (· ∉ s.world)
  let spare := s.spareProcs.filter (· ∉ dead)
  let deadUser := (s.userProcs.filter (· ∈ dead)).map fun pid => s.userProcs.idxOf pid
  let nReplace := min deadUser.length spare.length
  let replaced ← Assignment.replaceAll ⟨s.userProcs, s.pidToRank, s.rankToPid⟩
    ((deadUser.take nReplace).zip (spare.take nReplace))
  let shrunk ← replaced.shrinkAll (deadUser.drop nReplace).reverse
  return { s with
    userProcs := shrunk.userPids
    spareProcs := spare.filter (· ∉ shrunk.userPids)
    deadProcs := dead
    pidToRank := shrunk.pidToRank
    rankToPid := shrunk.rankToPid }

/-- One round of a repair: shrink the world that the repair started from and rebuild the groups. -/
def attempt (s : ProcState) (oldWorld failed : List Nat) : Except ProcError ProcState :=
  rebuildProcGroups { s with world := shrinkComm oldWorld failed }

/-- What a round that all processes agree on leaves. -/
def buildActiveWorlds (s : ProcState) : ProcState := { s with userWorld := s.userProcs }

/-- A state of the groups, with the processes that failed so far and the world that the next round
shrinks: that of the running repair, or the one the last repair built. -/
inductive Reachable (size spares : Nat) : ProcState → List Nat → List Nat → Prop
  | preinit {s : ProcState} (h : preinit size spares = .ok s) : Reachable size spares s [] s.procs
  | retry {s s' : ProcState} {failed oldWorld : List Nat} (more : List Nat)
      (hr : Reachable size spares s failed oldWorld) (h : s.attempt oldWorld (failed ++ more) = .ok s') :
      Reachable size spares s' (failed ++ more) oldWorld
  | repair {s s' : ProcState} {failed oldWorld : List Nat} (more : List Nat)
      (hr : Reachable size spares s failed oldWorld) (h : s.attempt oldWorld (failed ++ more) = .ok s') :
      Reachable size spares s'.buildActiveWorlds (failed ++ more) s'.world

end ProcState

end Fenix
