import Fenix.DataGroup
import Fenix.Ledger

namespace Fenix

/-- Why an operation of a group is refused. -/
inductive GroupError where
  | memberUnstored
  | memberExists
  | invalidMemberid
  | invalidTimestamp
  | mismatch
  | assertion
  deriving DecidableEq

/-- Staged data that no store has protected yet. -/
def DataMember.hasUnstoredData (m : DataMember) : Bool := decide (m.stageSnapshot.stagedSubset ≠ some ∅)

/-- A group on one rank: its bookkeeping of timestamps and its members by id. -/
structure GroupState where
  timestart : Int
  depth : Nat
  cohortRank : Nat
  cohortSize : Nat
  timestamp : Int := -1
  timestamps : Finset Int := ∅
  members : List (Int × DataMember) := []

namespace GroupState

/-- The timestamp that the next commit gets. -/
def nextTimestamp (g : GroupState) : Int := if g.timestamp = -1 then g.timestart else g.timestamp + 1

def bumpTimestamp (g : GroupState) : GroupState := { g with timestamp := g.nextTimestamp }

def commitMember (g : GroupState) (junk partnerJunk : Int → Nat → UInt8) (m : Int × DataMember) :
    Except GroupError (Int × DataMember) :=
  match m.2.commit g.cohortRank g.cohortSize g.timestamp (junk m.1) (partnerJunk m.1) with
  | .ok m' => .ok (m.1, m')
  | .error _ => .error .assertion

def commit (g : GroupState) (junk partnerJunk : Int → Nat → UInt8) : Except GroupError GroupState :=
  if g.members.any fun m => m.2.hasUnstoredData then .error .memberUnstored
  else do
    let timestamps := if g.timestamps.card = g.depth + 1 then eraseOldest g.timestamps else g.timestamps
    let members ← g.members.mapM (g.commitMember junk partnerJunk)
    return { g with timestamps := insert g.timestamp timestamps, members := members }

/-- A snapshot that every member holds and the group lists. -/
def Holds (g : GroupState) (t : Int) : Prop :=
  t ∈ g.timestamps ∧ ∀ m ∈ g.members, (m.2.commitSnapshots.find? t).isSome

/-- No timestamp of the group or of a member is newer than the current one. -/
structure Ordered (g : GroupState) : Prop where
  timestart_nonneg : 0 ≤ g.timestart
  listed_le : ∀ t ∈ g.timestamps, 0 ≤ t ∧ t ≤ g.timestamp
  member_le : ∀ m ∈ g.members, ∀ s ∈ m.2.commitSnapshots, 0 ≤ s.timestamp ∧ s.timestamp ≤ g.timestamp

theorem lt_nextTimestamp {g : GroupState} {t : Int} (ht : 0 ≤ t) (hle : t ≤ g.timestamp) :
    t < g.nextTimestamp := by
  unfold nextTimestamp
  split <;> omega

theorem commitMember_ok (g : GroupState) (junk partnerJunk : Int → Nat → UInt8) {m : Int × DataMember}
    (h : m.2.hasUnstoredData = false) : ∃ m', g.commitMember junk partnerJunk m = .ok m' := by
  have hs := not_not.mp (of_decide_eq_false h)
  unfold commitMember DataMember.commit
  rw [if_pos hs]
  exact ⟨_, rfl⟩

theorem commitMember_eq_ok {g : GroupState} {junk partnerJunk : Int → Nat → UInt8} {m m' : Int × DataMember}
    (h : g.commitMember junk partnerJunk m = .ok m') : m'.1 = m.1 ∧
      m.2.commit g.cohortRank g.cohortSize g.timestamp (junk m.1) (partnerJunk m.1) = .ok m'.2 := by
  unfold commitMember at h
  split at h
  next hm =>
    cases Except.ok.inj h
    exact ⟨rfl, hm⟩
  next => cases h

/-- A commit goes through exactly when every member has stored what it staged. -/
theorem commit_cases (g : GroupState) (junk partnerJunk : Int → Nat → UInt8) :
    ((∃ m ∈ g.members, m.2.hasUnstoredData = true) ∧ g.commit junk partnerJunk = .error .memberUnstored) ∨
    (∀ m ∈ g.members, m.2.hasUnstoredData = false) ∧
      ∃ members, List.Forall₂ (fun m m' => g.commitMember junk partnerJunk m = .ok m') g.members members ∧
        g.commit junk partnerJunk = .ok { g with
          timestamps := insert g.timestamp
            (if g.timestamps.card = g.depth + 1 then eraseOldest g.timestamps else g.timestamps)
          members := members } := by
  unfold commit
  split
  next h =>
    refine Or.inl ⟨?_, rfl⟩
    obtain ⟨m, hm, hu⟩ := List.any_eq_true.mp h
    exact ⟨m, hm, hu⟩
  next h =>
    have hstored : ∀ m ∈ g.members, m.2.hasUnstoredData = false := by
      intro m hm
      by_contra hu
      exact h (List.any_eq_true.mpr ⟨m, hm, Bool.eq_true_of_not_eq_false hu⟩)
    obtain ⟨members, hms⟩ := List.mapM_ok_exists_iff.mpr fun m hm =>
      commitMember_ok g junk partnerJunk (hstored m hm)
    exact Or.inr ⟨hstored, members, List.mapM_eq_ok_iff.mp hms, Except.bind_eq_ok_iff.mpr ⟨members, hms, rfl⟩⟩

theorem Ordered.next_not_held {g : GroupState} (h : g.Ordered) : ¬g.Holds g.nextTimestamp := by
  intro hh
  obtain ⟨hlo, hle⟩ := h.listed_le _ hh.1
  exact Int.lt_irrefl _ (lt_nextTimestamp hlo hle)

/-- A commit that goes through leaves the new snapshot with every member. -/
theorem Ordered.holds_commit {g g' : GroupState} {junk partnerJunk : Int → Nat → UInt8} (h : g.Ordered)
    (hc : g.bumpTimestamp.commit junk partnerJunk = .ok g') :
    g'.Holds g.nextTimestamp ∧ g'.timestamp = g.nextTimestamp := by
  rcases g.bumpTimestamp.commit_cases junk partnerJunk with ⟨_, herr⟩ | ⟨_, members, hms, heq⟩
  · rw [herr] at hc
    cases hc
  · rw [heq] at hc
    cases Except.ok.inj hc
    refine ⟨⟨Finset.mem_insert_self _ _, ?_⟩, rfl⟩
    intro m' hm'
    obtain ⟨m, hm, hmm⟩ := List.exists_left_of_forall₂ hms hm'
    have hnew : ∀ s ∈ m.2.commitSnapshots, s.timestamp < g.nextTimestamp := by
      intro s hs
      obtain ⟨hlo, hle⟩ := h.member_le m hm s hs
      exact lt_nextTimestamp hlo hle
    have hfind := DataMember.commit_find? hnew (commitMember_eq_ok hmm).2
    exact Option.isSome_iff_exists.mpr ⟨_, hfind⟩

end GroupState

end Fenix
