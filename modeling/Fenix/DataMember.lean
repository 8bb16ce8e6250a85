import Fenix.DataSnapshot
import Fenix.OpLog
import Fenix.Pool

namespace Fenix

/-- A member on one rank: the snapshot being staged, the committed ones and those for reuse, the last
one put back first. -/
structure DataMember where
  depth : Nat
  elmSize : Nat
  elmCount : Nat
  stageSnapshot : IMRSnapshot
  commitSnapshots : IndexedSet IMRSnapshot fun s => s.timestamp
  availSnapshots : List IMRSnapshot

namespace DataMember

/-- The snapshots but for the one being staged. -/
def pool (m : DataMember) : Pool IMRSnapshot fun s => s.timestamp := ⟨m.commitSnapshots, m.availSnapshots⟩

def withPool (m : DataMember) (p : Pool IMRSnapshot fun s => s.timestamp) : DataMember :=
  { m with commitSnapshots := p.used, availSnapshots := p.spare }

/-- Take a committed snapshot back for reuse. -/
def snapshotDelete (m : DataMember) (timestamp : Int) : DataMember :=
  m.withPool (m.pool.release IMRSnapshot.reset timestamp)

/-- Trim the oldest snapshot if there are too many. -/
def trim (m : DataMember) : DataMember := m.withPool (m.pool.trim IMRSnapshot.reset (m.depth + 1))

/-- The next snapshot to stage in: one for reuse if there is any. -/
def restage (m : DataMember) (cohortRank cohortSize : Nat) (junk partnerJunk : Nat → UInt8) : DataMember :=
  let taken := m.pool.next (IMRSnapshot.create m.elmSize m.elmCount junk partnerJunk)
  { m.withPool taken.2 with stageSnapshot := taken.1.initCohort cohortRank cohortSize }

/-- The staged snapshot is committed, nothing being left unprotected in it. -/
def commit (m : DataMember) (cohortRank cohortSize : Nat) (timestamp : Int) (junk partnerJunk : Nat → UInt8) :
    Except Abort DataMember :=
  if m.stageSnapshot.stagedSubset = some ∅ then
    let committed := { m with
      commitSnapshots := m.commitSnapshots.insert { m.stageSnapshot with timestamp := timestamp } }
    .ok (committed.trim.restage cohortRank cohortSize junk partnerJunk)
  else .error .assertion

/-- The snapshot that takes part in the repair of a timestamp: the committed one, or one for reuse. -/
def repairSnapshot (m : DataMember) (timestamp : Int) : Option IMRSnapshot :=
  match m.commitSnapshots.find? timestamp with
  | some s => some s
  | none => m.availSnapshots.head?.map IMRSnapshot.reset

/-- Put a snapshot that took part in the repair back. -/
def putBack (m : DataMember) (timestamp : Int) (s : IMRSnapshot) : DataMember :=
  match m.commitSnapshots.find? timestamp with
  | some _ => { m with commitSnapshots := m.commitSnapshots.put s }
  | none =>
    { m with commitSnapshots := m.commitSnapshots.insert { s with timestamp := timestamp }
             availSnapshots := m.availSnapshots.tail }

/-- A rank that has not found a snapshot resets the one it would use. -/
def resetUnfound (m : DataMember) (timestamp : Int) : DataMember :=
  match m.commitSnapshots.find? timestamp with
  | some _ => m
  | none =>
    match m.availSnapshots with
    | [] => m
    | s :: rest => { m with availSnapshots := s.reset :: rest }

/-- The stage snapshot is made ready for a cohort that has changed. -/
def reinitStage (m : DataMember) (cohortRank cohortSize : Nat) : DataMember :=
  { m with stageSnapshot := m.stageSnapshot.reinitCohort cohortRank cohortSize }

/-- The one rank that has not found a snapshot, if there is just one. -/
def recovering {n : Nat} (found : Fin n → Bool) : Option (Fin n) :=
  match (List.finRange n).filter fun k => !found k with
  | [f] => some f
  | _ => none

/-- The snapshots once `sender` has told all ranks the subsets that it knows. -/
def broadcastSubsets {n : Nat} (sender : Fin n) (snaps : Fin n → IMRSnapshot) (k : Fin n) : IMRSnapshot :=
  { (snaps k).reinitCohort k n with
    protectedSubsets := ((snaps sender).reinitCohort sender n).protectedSubsets }

/-- The repair of one timestamp after the other. -/
def repairTimestamps {σ : Type} (step : Int → σ → Except Abort σ) : List Int → σ → Except Abort σ
  | [], ms => .ok ms
  | timestamp :: rest, ms => do
    let ms ← step timestamp ms
    repairTimestamps step rest ms

/-- What the repair of every timestamp keeps, the repair of all of them does. -/
theorem repairTimestamps_keeps {σ : Type} {Q : σ → Prop} {step : Int → σ → Except Abort σ} {stamps : List Int}
    {ms ms' : σ} (hstep : ∀ ts ∈ stamps, ∀ {ms ms'}, step ts ms = .ok ms' → Q ms → Q ms')
    (h : repairTimestamps step stamps ms = .ok ms') (hs : Q ms) : Q ms' := by
  induction stamps generalizing ms with
  | nil =>
    cases Except.ok.inj h
    exact hs
  | cons ts rest ih =>
    obtain ⟨mid, hmid, h⟩ := Except.bind_eq_ok_iff.mp h
    exact ih (fun t ht => hstep t (List.mem_cons_of_mem ts ht)) h (hstep ts List.mem_cons_self hmid hs)

section Recovering

variable {n : Nat} {found : Fin n → Bool}

theorem recovering_eq_some_iff {f : Fin n} : recovering found = some f ↔ ∀ k, found k = false ↔ k = f := by
  have hmem : ∀ k, k ∈ (List.finRange n).filter (fun k => !found k) ↔ found k = false := by
    intro k
    simp
  unfold recovering
  split
  next f' hf =>
    simp only [hf, List.mem_singleton] at hmem
    constructor
    · intro h k
      cases Option.some.inj h
      exact (hmem k).symm
    · intro h
      rw [(h f').mp ((hmem f').mp rfl)]
  next xs hne =>
    refine ⟨nofun, fun h => absurd ?_ (hne f)⟩
    -- a list without duplicates that has `f` alone
    have hperm : (List.finRange n).filter (fun k => !found k) = [f] := by
      refine List.perm_singleton.mp ((List.perm_ext_iff_of_nodup ?_ (List.nodup_singleton f)).mpr fun k => ?_)
      · exact (List.nodup_finRange n).filter _
      · rw [hmem k, h k, List.mem_singleton]
    exact hperm

theorem recovering_one (f : Fin n) : recovering (fun k => decide (k ≠ f)) = some f :=
  recovering_eq_some_iff.mpr fun k => by simp

end Recovering

section Commits

variable {m m' : DataMember} {timestamp : Int}

theorem snapshotDelete_find? (m : DataMember) (timestamp t : Int) :
    (m.snapshotDelete timestamp).commitSnapshots.find? t =
      if t = timestamp then none else m.commitSnapshots.find? t :=
  m.pool.release_find? IMRSnapshot.reset timestamp t

@[simp] theorem restage_commitSnapshots (m : DataMember) (rank size : Nat) (junk partnerJunk : Nat → UInt8) :
    (m.restage rank size junk partnerJunk).commitSnapshots = m.commitSnapshots :=
  m.pool.next_used _

/-- A snapshot newer than the others is found once committed. -/
theorem commit_find? {rank size : Nat} {junk partnerJunk : Nat → UInt8}
    (hnew : ∀ s ∈ m.commitSnapshots, s.timestamp < timestamp)
    (h : m.commit rank size timestamp junk partnerJunk = .ok m') :
    m'.commitSnapshots.find? timestamp = some { m.stageSnapshot with timestamp := timestamp } := by
  unfold commit at h
  split at h
  next =>
    cases Except.ok.inj h
    rw [restage_commitSnapshots]
    exact Pool.trim_insert_find? (p := m.pool) (x := { m.stageSnapshot with timestamp := timestamp })
      IMRSnapshot.reset (Nat.succ_pos m.depth) hnew
  next => cases h

theorem putBack_find? {s : IMRSnapshot}
    (hs : (m.commitSnapshots.find? timestamp).isSome → s.timestamp = timestamp) (t : Int) :
    (m.putBack timestamp s).commitSnapshots.find? t =
      if t = timestamp then some { s with timestamp := timestamp } else m.commitSnapshots.find? t := by
  unfold putBack
  cases hf : m.commitSnapshots.find? timestamp with
  | some c =>
    rw [hf] at hs
    have heq := hs rfl
    change (m.commitSnapshots.put s).find? t = _
    rw [IndexedSet.find?_put, heq]
    obtain ⟨⟨_, _, _, _, _, _, _⟩, _⟩ := s
    change _ = timestamp at heq
    subst heq
    exact if_congr eq_comm rfl rfl
  | none =>
    refine (IndexedSet.find?_insert (fun y hy => ?_) t).trans (if_congr eq_comm rfl rfl)
    exact IndexedSet.find?_none hf y hy

theorem resetUnfound_find? (m : DataMember) (timestamp t : Int) :
    (m.resetUnfound timestamp).commitSnapshots.find? t = m.commitSnapshots.find? t := by
  unfold resetUnfound
  split
  next => rfl
  next =>
    split
    next => rfl
    next => rfl

/-- What takes part in the repair of a timestamp has it, if it was found. -/
theorem repairSnapshot_timestamp (h : (m.repairSnapshot timestamp).isSome)
    (hf : (m.commitSnapshots.find? timestamp).isSome) : ((m.repairSnapshot timestamp).get h).timestamp = timestamp := by
  obtain ⟨s, hs⟩ := Option.isSome_iff_exists.mp hf
  have hrep : m.repairSnapshot timestamp = some s := by
    unfold repairSnapshot
    rw [hs]
  simp only [hrep, Option.get_some]
  exact (IndexedSet.find?_some hs).2

end Commits

end DataMember

end Fenix
