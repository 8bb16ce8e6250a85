import Fenix.BuddyMember
import Fenix.ParityMember

namespace Fenix

/-- Why a snapshot is not found. -/
inductive DataError where
  | invalidTimestamp
  | nodataFound
  deriving DecidableEq

/-- The timestamp that stands for the newest snapshot. -/
def snapshotLatest : Int := -1

namespace DataMember

/-- Search a committed timestamp. -/
def searchSnapshot (m : DataMember) (ts : Int) : Except DataError (Option IMRSnapshot) :=
  if ts = snapshotLatest then .ok m.commitSnapshots.last?
  else if ts < 0 then .error .invalidTimestamp
  else .ok (m.commitSnapshots.find? ts)

/-- The search that a load starts with. -/
def findSnapshot (m : DataMember) (ts : Int) : Except DataError IMRSnapshot := do
  match ← m.searchSnapshot ts with
  | some s => return s
  | none => .error .nodataFound

/-- The timestamp that a load resolves to. -/
def resolve (m : DataMember) (ts : Int) : Except DataError Int := (m.findSnapshot ts).map fun s => s.timestamp

/-- The timestamps that are committed. -/
def timestamps (m : DataMember) : Finset Int := (m.commitSnapshots.entries.map fun s => s.timestamp).toFinset

/-- Remove committed snapshots not in the provided timestamps. -/
def cleanupTimestamps (m : DataMember) (validTimestamps : Finset Int) : DataMember :=
  { m with
    commitSnapshots := m.commitSnapshots.filter fun s => decide (s.timestamp ∈ validTimestamps)
    availSnapshots :=
      ((m.commitSnapshots.entries.filter fun s => decide (s.timestamp ∉ validTimestamps)).map IMRSnapshot.reset).reverse ++
        m.availSnapshots }

end DataMember

/-- The redundancy of an in-memory group. -/
inductive IMRMode where
  | buddy
  | parity
  deriving DecidableEq

/-- The cohort sizes that a mode makes or accepts. -/
def IMRMode.Admits : IMRMode → Nat → Prop
  | .buddy, cohortSize => cohortSize = 2 ∨ cohortSize = 3
  | .parity, cohortSize => 3 ≤ cohortSize

namespace DataGroup

variable {n : Nat}

/-- The timestamps of a rank, newest first. -/
def newestFirst (timestamps : Finset Int) : List Int := timestamps.sort (· ≥ ·)

/-- The greatest timestamp at each position, ranks with fewer of them padded with `-1`. -/
def syncTimestamps (timestamps : Fin n → Finset Int) : Finset Int :=
  let nSnapshots := ((List.finRange n).map fun k => (timestamps k).card).max?.getD 0
  ((List.range nSnapshots).map fun i =>
    ((List.finRange n).map fun k => (newestFirst (timestamps k)).getD i (-1)).max?.getD (-1)).toFinset

/-- `repair` as the policy of the group has it. -/
def repair (mode : IMRMode) (stale : Fin n → Nat → Nat → UInt8) (timestamps : List Int) (ms : Fin n → DataMember) :
    Except Abort (Fin n → DataMember) :=
  match mode with
  | .buddy => BuddyMember.repair stale timestamps ms
  | .parity => ParityMember.repair timestamps ms

/-- The creation of the group on all ranks of a cohort, then the repair of a member. -/
def recover (mode : IMRMode) (stale : Fin n → Nat → Nat → UInt8) (timestamps : Fin n → Finset Int)
    (ms : Fin n → DataMember) : Except Abort (Fin n → DataMember) :=
  let synced := syncTimestamps timestamps
  repair mode stale (newestFirst synced) fun k => (ms k).cleanupTimestamps synced

end DataGroup

end Fenix
