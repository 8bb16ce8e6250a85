import Fenix.DataMember

namespace Fenix.BuddyMember

open DataMember (recovering broadcastSubsets)

variable {n : Nat}

/-- The rank before in the cohort, which a rank keeps a copy of. -/
def left (k : Fin n) : Fin n := ⟨if k.val = 0 then n - 1 else k - 1, by split <;> omega⟩

/-- The rank after in the cohort, which keeps a copy of this one. -/
def right (k : Fin n) : Fin n := ⟨if k.val + 1 = n then 0 else k + 1, by split <;> omega⟩

/-- A message of elements as received in a buffer for `count`: what it does not fill stays stale. -/
def receive (count : Nat) (stale : Nat → Nat → UInt8) (message : List (Nat → UInt8)) :
    Except Abort (List (Nat → UInt8)) :=
  if count < message.length then .error .truncated
  else .ok (message ++ (List.range (count - message.length)).map fun j => stale (message.length + j))

/-- The copy of the left rank's data takes in what that rank has staged. -/
def copyStaged (k : Fin n) (snaps : Fin n → IMRSnapshot) : Except Abort IMRSnapshot :=
  let s := snaps k
  let sent := snaps (left k)
  let subset := s.stagedSubsets.getD (left k) ∅
  let partner := s.partner.addAndFit subset
  let message := (sent.stagedSubsets.getD (left k) ∅).packData sent.elmSize sent.buf
  if subset.elems.length < message.length then .error .truncated
  else .ok { s with partner := { partner with buf := DataSubset.unpackAt s.elmSize subset.elems message partner.buf } }

/-- `iprotect` of a rank, all taking part: each sends what it has staged to the right. -/
def iprotect (snaps : Fin n → IMRSnapshot) (k : Fin n) : Except Abort IMRSnapshot :=
  (copyStaged k snaps).map IMRSnapshot.markProtected

/-- The last of the ranks that have found a snapshot. -/
def lastFound (found : Fin n → Bool) : Option (Fin n) := ((List.finRange n).filter found).getLast?

/-- The elements up to the bound of a member go into a buffer, which grows to hold them if it is empty. -/
def unpackInto (s : DataSnapshot) (subset : DataSubset) (message : List (Nat → UInt8)) : Except Abort DataSnapshot :=
  if subset = ∅ then .ok s
  else
    let buf := if s.buf.size = 0 then s.buf.resize (subset.maxCount * s.elmSize) else s.buf
    let fitting := subset.elems.filter fun i => decide ((i + 1) * s.elmSize ≤ buf.size)
    if message.length = fitting.length then
      .ok { s with buf := DataSubset.unpackAt s.elmSize fitting message buf }
    else .error .assertion

/-- Rank `f` gets its data back from the copy at the right and its copy back from the left. -/
def rebuild (f : Fin n) (stale : Nat → Nat → UInt8) (snaps : Fin n → IMRSnapshot) : Except Abort IMRSnapshot := do
  let s := snaps f
  let keeper := snaps (right f)
  let own := s.protectedSubsets.getD f ∅
  let fitted := s.toDataSnapshot.addAndFit own
  let data ← receive (own.upTo s.elmMaxCount).elems.length stale
    ((keeper.partner.stagedSubset.getD ∅).packData keeper.elmSize keeper.partner.buf)
  let restored ← unpackInto fitted own data
  let kept := snaps (left f)
  let partner := s.partner.addAndFit (s.protectedSubsets.getD (left f) ∅)
  let copied := partner.stagedSubset.getD ∅
  let copy ← receive (copied.upTo s.elmMaxCount).elems.length stale
    ((kept.protectedSubset.getD ∅).packData kept.elmSize kept.buf)
  let copyRestored ← unpackInto partner copied copy
  return { toDataSnapshot := restored, partner := copyRestored }

/-- The repair of one timestamp on all ranks of a cohort. -/
def repairTimestamp (stale : Fin n → Nat → Nat → UInt8) (timestamp : Int) (ms : Fin n → DataMember) :
    Except Abort (Fin n → DataMember) :=
  if h : ∀ k, ((ms k).repairSnapshot timestamp).isSome then
    let found := fun k => ((ms k).commitSnapshots.find? timestamp).isSome
    match recovering found, lastFound found with
    | some f, some root => do
      let known := broadcastSubsets root fun k => ((ms k).repairSnapshot timestamp).get (h k)
      let rebuilt ← rebuild f (stale f) known
      return fun k => (ms k).putBack timestamp (if k = f then rebuilt else known k)
    | _, _ => .ok fun k => (ms k).resetUnfound timestamp
  else .error .assertion

/-- `repair` on all ranks of a cohort, for the timestamps of their group. -/
def repair (stale : Fin n → Nat → Nat → UInt8) (timestamps : List Int) (ms : Fin n → DataMember) :
    Except Abort (Fin n → DataMember) :=
  DataMember.repairTimestamps (repairTimestamp stale) timestamps fun k => (ms k).reinitStage k n

end Fenix.BuddyMember
