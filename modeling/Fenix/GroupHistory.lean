import Fenix.GroupState

namespace Fenix

/-- How a group keeps its snapshots: on the rank alone, or with copies or parity in a cohort. -/
inductive DataPolicy where
  | localOnly
  | imr (mode : IMRMode)
  deriving DecidableEq

/-- The size that new partner buffers are given, if any. -/
def IMRMode.partnerBytes (mode : IMRMode) (rank size elmSize elmCount : Nat) : Nat :=
  let dataLen := elmCount * elmSize
  match mode with
  | .buddy => dataLen
  | .parity =>
    let parityLen := dataLen / (size - 1)
    let remainder := dataLen % (size - 1)
    let remainder := if remainder = 0 then 0 else remainder + 1
    if remainder < rank then parityLen + 1 else parityLen

def IMRSnapshot.resizePartner (s : IMRSnapshot) (bytes : Nat) : IMRSnapshot :=
  { s with partner := { s.partner with buf := s.partner.buf.resize bytes } }

namespace DataMember

/-- A new member. The snapshots of an in-memory member are set up twice, when it is built and when it
joins its group. -/
def create (policy : DataPolicy) (depth rank size elmSize elmCount : Nat) (junk : Nat → Nat → UInt8) : DataMember :=
  let fresh := IMRSnapshot.create elmSize elmCount (junk 0) (junk 1)
  let avail := List.replicate (depth + 1) fresh
  { depth := depth
    elmSize := elmSize
    elmCount := elmCount
    stageSnapshot := fresh.initCohort rank size
    commitSnapshots := .empty
    availSnapshots :=
      match policy with
      | .localOnly => avail
      | .imr mode => avail ++ avail.map fun s => s.resizePartner (mode.partnerBytes rank size elmSize elmCount) }

end DataMember

namespace GroupState

def member? (g : GroupState) (id : Int) : Option DataMember := (g.members.find? fun m => m.1 == id).map (·.2)

def updateMember (g : GroupState) (id : Int) (f : DataMember → DataMember) : GroupState :=
  { g with members := g.members.map fun m => if m.1 = id then (m.1, f m.2) else m }

def memberCreate (g : GroupState) (policy : DataPolicy) (id : Int) (elmSize elmCount : Nat)
    (junk : Nat → Nat → UInt8) : Except GroupError GroupState :=
  match g.member? id with
  | some _ => .error .memberExists
  | none =>
    let m := DataMember.create policy g.depth g.cohortRank g.cohortSize elmSize elmCount junk
    .ok { g with members := g.members ++ [(id, m)] }

/-- `Fenix_Data_commit`: the timestamp stays ahead where the commit is refused. -/
def dataCommit (g : GroupState) (junk partnerJunk : Int → Nat → UInt8) : GroupState :=
  match g.bumpTimestamp.commit junk partnerJunk with
  | .ok g' => g'
  | .error _ => g.bumpTimestamp

def snapshotErase (g : GroupState) (ts : Int) : GroupState :=
  { g with timestamps := g.timestamps.erase ts, members := g.members.map fun m => (m.1, m.2.snapshotDelete ts) }

/-- The timestamp that stands for all snapshots. -/
def snapshotAll : Int := -2

def snapshotDelete (g : GroupState) (ts : Int) : Except GroupError GroupState :=
  match DataGroup.newestFirst g.timestamps with
  | [] => .error .invalidTimestamp
  | newest :: rest =>
    if ts = snapshotAll then .ok ((newest :: rest).foldl snapshotErase g)
    else
      let ts := if ts = snapshotLatest then newest else ts
      if ts ∈ g.timestamps then .ok (g.snapshotErase ts) else .error .invalidTimestamp

variable {n : Nat}

/-- A rank takes over the timestamps that its cohort has agreed on. -/
def adopt (g : GroupState) (synced : Finset Int) : GroupState :=
  { g with
    timestamps := synced
    timestamp := (DataGroup.newestFirst synced).head?.getD (-1)
    members := g.members.map fun m => (m.1, m.2.cleanupTimestamps synced) }

def syncTimestamps (gs : Fin n → GroupState) (k : Fin n) : GroupState :=
  (gs k).adopt (DataGroup.syncTimestamps fun k => (gs k).timestamps)

/-- The first rank that has a member. -/
def firstFound (gs : Fin n → GroupState) (id : Int) : Option (Fin n) :=
  (List.finRange n).find? fun k => ((gs k).member? id).isSome

/-- A rank without a member gets one like that of `model`. -/
def memberAdopt (g : GroupState) (policy : DataPolicy) (id : Int) (model : DataMember)
    (junk : Nat → Nat → UInt8) : GroupState :=
  match g.memberCreate policy id model.elmSize model.elmCount junk with
  | .ok g' => g'
  | .error _ => g

/-- The repair of a member by the ranks of a cohort. With all timestamps of the group it runs to its
end, with the first `upTo` of them it is interrupted after these. -/
def memberRepair (policy : DataPolicy) (id : Int) (upTo : Nat) (junk : Fin n → Nat → Nat → UInt8)
    (gs : Fin n → GroupState) : Except GroupError (Fin n → GroupState) :=
  match firstFound gs id with
  | none => .error .invalidMemberid
  | some root =>
    match (gs root).member? id with
    | none => .error .invalidMemberid
    | some model =>
      let present := fun k => (gs k).memberAdopt policy id model (junk k)
      match policy with
      | .localOnly => .ok present
      | .imr mode =>
        let timestamps := (DataGroup.newestFirst (gs root).timestamps).take upTo
        if ∀ k, (gs k).timestamps = (gs root).timestamps then
          match DataGroup.repair mode junk timestamps fun k => ((present k).member? id).getD model with
          | .ok ms => .ok fun k => (present k).updateMember id fun _ => ms k
          | .error _ => .error .assertion
        else .error .mismatch

section Refusal

variable {g : GroupState} {junk partnerJunk : Int → Nat → UInt8}

/-- Every member has stored what it staged. -/
def Stored (g : GroupState) : Prop := ∀ m ∈ g.members, m.2.hasUnstoredData = false

/-- What a refused commit should leave: the group as it was and, whatever its members stage and store
afterwards, the commit that would have come next. -/
structure RefusalKeeps (g : GroupState) (junk partnerJunk : Int → Nat → UInt8) : Prop where
  timestamp_eq : (g.dataCommit junk partnerJunk).timestamp = g.timestamp
  timestamps_eq : (g.dataCommit junk partnerJunk).timestamps = g.timestamps
  members_eq : (g.dataCommit junk partnerJunk).members = g.members
  next : ∀ (members : List (Int × DataMember)) (later partnerLater : Int → Nat → UInt8) (g' : GroupState),
    { g.dataCommit junk partnerJunk with members := members }.bumpTimestamp.commit later partnerLater = .ok g' ↔
      { g with members := members }.bumpTimestamp.commit later partnerLater = .ok g'

theorem nextTimestamp_ne (hg : 0 ≤ g.timestart) : g.nextTimestamp ≠ g.timestamp := by
  unfold nextTimestamp
  split <;> omega

/-- A commit is refused exactly when a member holds data that it has not stored. -/
theorem commit_refused_iff : g.commit junk partnerJunk = .error .memberUnstored ↔ ¬g.Stored := by
  rcases g.commit_cases junk partnerJunk with ⟨⟨m, hm, hu⟩, herr⟩ | ⟨hstored, members, _, heq⟩
  · refine ⟨fun _ hs => ?_, fun _ => herr⟩
    rw [hs m hm] at hu
    cases hu
  · rw [heq]
    exact ⟨fun h => (nomatch h), fun h => absurd hstored h⟩

/-- A refused commit leaves all but the timestamp, which has moved on. -/
theorem dataCommit_refused (h : g.bumpTimestamp.commit junk partnerJunk = .error .memberUnstored) :
    g.dataCommit junk partnerJunk = { g with timestamp := g.nextTimestamp } := by
  unfold dataCommit
  rw [h]
  rfl

/-- A refused commit never changes nothing: the timestamp is advanced before the members are looked
at. The timestamps and the members are kept. -/
theorem refusal_never_keeps (hg : 0 ≤ g.timestart)
    (h : g.bumpTimestamp.commit junk partnerJunk = .error .memberUnstored) :
    ¬g.RefusalKeeps junk partnerJunk ∧ g.dataCommit junk partnerJunk = { g with timestamp := g.nextTimestamp } := by
  refine ⟨fun hk => ?_, dataCommit_refused h⟩
  have heq := hk.timestamp_eq
  rw [dataCommit_refused h] at heq
  exact nextTimestamp_ne hg heq

/-- A member with an element staged and not stored. -/
def unstoredMember : DataMember :=
  let fresh := (IMRSnapshot.create 1 4 (fun _ => 0) fun _ => 0).initCohort 0 1
  { depth := 0
    elmSize := 1
    elmCount := 4
    stageSnapshot := { fresh with toDataSnapshot := fresh.toDataSnapshot.addAndFit ⟨{2}⟩ }
    commitSnapshots := .empty
    availSnapshots := [] }

/-- The group of that member, before its first commit. -/
def unstoredGroup : GroupState :=
  { timestart := 0, depth := 0, cohortRank := 0, cohortSize := 1, members := [(7, unstoredMember)] }

theorem refusal_never_keeps_first :
    ¬unstoredGroup.RefusalKeeps (fun _ _ => 0) (fun _ _ => 0) ∧
      unstoredGroup.dataCommit (fun _ _ => 0) (fun _ _ => 0) = { unstoredGroup with timestamp := 0 } :=
  refusal_never_keeps (by decide) (commit_refused_iff.mpr fun hs => absurd (hs _ List.mem_cons_self) (by decide))

theorem refusal_advances :
    unstoredGroup.bumpTimestamp.commit (fun _ _ => 0) (fun _ _ => 0) = .error .memberUnstored ∧
      (unstoredGroup.dataCommit (fun _ _ => 0) (fun _ _ => 0)).timestamp ≠ unstoredGroup.timestamp := by
  have herr : unstoredGroup.bumpTimestamp.commit (fun _ _ => 0) (fun _ _ => 0) = .error .memberUnstored :=
    commit_refused_iff.mpr fun hs => absurd (hs _ List.mem_cons_self) (by decide)
  refine ⟨herr, ?_⟩
  rw [dataCommit_refused herr]
  decide

end Refusal

end GroupState

end Fenix
