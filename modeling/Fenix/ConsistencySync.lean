import Fenix.CommLogSync
import Fenix.Schedule
import Mathlib.Logic.Function.Basic

namespace Fenix

/-- The regions of the first rank with the greatest next index (`MPI_MAXLOC`). -/
def latestRegions : List (Window CRegion) → Option (Window CRegion)
  | [] => none
  | w :: ws =>
    match latestRegions ws with
    | none => some w
    | some v => if v.cur.next ≤ w.cur.next then some w else some v

/-- Where a rank stands in `reset_consistency`: called, in the loop that waits for its own tasks, in the
barrier that waits for those of the others, or through with it and with its replay. -/
inductive SyncPhase where
  | called (target : Int)
  | progressing
  | inBarrier
  | left (replayed : List CollectiveLog)
  deriving DecidableEq

/-- A rank in `reset_consistency`: the regions that its tasks have sent to the peers, the peers whose
answer a task awaits, and what it has brought into the collective exchange so far, if it is part of it. -/
structure SyncRank (n : Nat) where
  log : CommLog
  phase : SyncPhase
  sent : Fin n → Option (Window Region) := fun _ => none
  tasks : List (Fin n) := []
  contributed : Option (Window CRegion) := none
  aligned : Option Int := none
  agreed : Bool := false

namespace SyncRank

variable {n : Nat}

/-- Whether the rank looks for requests and progresses its tasks. -/
def Progresses (r : SyncRank n) : Prop := r.phase = .progressing ∨ r.phase = .inBarrier

instance (r : SyncRank n) : Decidable r.Progresses := inferInstanceAs (Decidable (_ ∨ _))

/-- Whether the rank has entered the barrier. -/
def Entered (r : SyncRank n) : Prop := r.phase = .inBarrier ∨ ∃ xs, r.phase = .left xs

instance (r : SyncRank n) : Decidable r.Entered :=
  match h : r.phase with
  | .called _ => .isFalse fun hr => by rcases hr with hr | ⟨_, hr⟩ <;> rw [h] at hr <;> cases hr
  | .progressing => .isFalse fun hr => by rcases hr with hr | ⟨_, hr⟩ <;> rw [h] at hr <;> cases hr
  | .inBarrier => .isTrue (Or.inl h)
  | .left xs => .isTrue (Or.inr ⟨xs, h⟩)

/-- Whether the task of the collective exchange is not yet over. -/
def Collecting (r : SyncRank n) : Prop := r.contributed.isSome ∧ ¬r.agreed

instance (r : SyncRank n) : Decidable r.Collecting := inferInstanceAs (Decidable (_ ∧ _))

/-- The part of `reset_consistency` before the first loop, with the tasks it starts. -/
def reset (r : SyncRank n) (rank : Fin n) (target : Int) : Except Abort (SyncRank n) :=
  if r.log.mRank ≠ rank then .error .assertion
  else do
    let c ← r.log.resetLocal target
    if ∃ peer ∈ c.initiates, n ≤ peer then .error .noSuchRank
    else
      let asks := fun j : Fin n => decide ((c.logs j).curRegion.Valid)
      return { log := c, phase := .progressing,
               sent := fun j => if asks j then some (c.logs j).regions else none,
               tasks := (List.finRange n).filter asks,
               contributed := if c.StartsCollective then some c.regions else none }

/-- A request of rank `j` is detected, and a task replies to it. -/
def reply (r : SyncRank n) (j : Fin n) : Except Abort (SyncRank n) := do
  let (c, _) ← r.log.offerConsistency j
  return { r with log := c, sent := Function.update r.sent j (some (c.logs j).regions), tasks := j :: r.tasks }

/-- The regions of rank `j` have come in, and the task for it is completed. -/
def form (r : SyncRank n) (j : Fin n) (remote : Window Region) : Except Abort (SyncRank n) := do
  let (c, _) ← r.log.formConsistency j remote
  return { r with log := c, tasks := r.tasks.filter fun k => decide (k ≠ j) }

/-- The request of the right neighbour for the collective exchange is detected. A rank that is in the barrier
already calls the collectives of the exchange after it, the others before. -/
def join (r : SyncRank n) : Except Abort (SyncRank n) :=
  if r.phase = .inBarrier then .error .collectiveOrder else .ok { r with contributed := some r.log.regions }

/-- The regions of the rank with the greatest next index have come in. -/
def align (r : SyncRank n) (latest : Window CRegion) : Except Abort (SyncRank n) :=
  if latest.cur.next < 0 then .error .assertion
  else do
    let c ← r.log.alignRegion latest.cur.next latest
    return { r with log := c, aligned := some c.region.next }

/-- The least next index has come in, and the task of the collective exchange is completed. -/
def agree (r : SyncRank n) (latestIdx earliestIdx : Int) : SyncRank n :=
  { r with log := { r.log with completedCollectiveAny := latestIdx - 1, completedCollectiveAll := earliestIdx - 1 },
           agreed := true }

/-- The barrier is through: there are no tasks left, and the collectives are replayed. -/
def leave (r : SyncRank n) : Except Abort (SyncRank n) :=
  if r.tasks ≠ [] ∨ r.Collecting then .error .assertion
  else do
    let xs ← r.log.replayCollectives (r.log.completedCollectiveAll + 1)
    return { r with phase := .left xs }

end SyncRank

/-- What a rank may do next in `reset_consistency`. -/
inductive SyncAction (n : Nat) where
  | reset (i : Fin n)
  | reply (i j : Fin n)
  | form (i j : Fin n)
  | join (i : Fin n)
  | align (i : Fin n)
  | agree (i : Fin n)
  | enter (i : Fin n)
  | leave (i : Fin n)

/-- All ranks of a communicator, in `reset_consistency`. -/
abbrev Sync (n : Nat) := Fin n → SyncRank n

namespace Sync

variable {n : Nat}

/-- `reset_consistency` is called on all ranks, each with its own log and target. -/
def call (cs : Fin n → CommLog × Int) : Sync n := fun i => { log := (cs i).1, phase := .called (cs i).2 }

def right (i : Fin n) : Fin n := ⟨(i + 1) % n, Nat.mod_lt _ i.pos⟩

def latest (s : Sync n) : Option (Window CRegion) :=
  latestRegions ((List.ofFn fun j => (s j).contributed).filterMap id)

def earliest (s : Sync n) : Option Int := ((List.ofFn fun j => (s j).aligned).filterMap id).min?

/-- The actions that are possible. What a peer has sent is there by the time that the barrier is through, and is
progressed before the rank looks whether a task is left. -/
def Enabled (s : Sync n) : SyncAction n → Prop
  | .reset i => ∃ t, (s i).phase = .called t
  | .reply i j => (s i).Progresses ∧ ((s j).sent i).isSome ∧ ¬((s i).sent j).isSome
  | .form i j => (s i).Progresses ∧ j ∈ (s i).tasks ∧ ((s j).sent i).isSome
  | .join i => (s i).Progresses ∧ ¬(s i).contributed.isSome ∧ (s (right i)).contributed.isSome
  | .align i => (s i).Progresses ∧ (∀ j, (s j).contributed.isSome) ∧ ¬(s i).aligned.isSome
  | .agree i => (s i).Progresses ∧ (∀ j, (s j).aligned.isSome) ∧ ¬(s i).agreed
  | .enter i => (s i).phase = .progressing ∧ (s i).tasks = [] ∧ ¬(s i).Collecting
  | .leave i => (s i).phase = .inBarrier ∧ (∀ j, (s j).Entered) ∧ ∀ j ∈ (s i).tasks, ¬((s j).sent i).isSome

/-- What becomes of the rank that acts. -/
def acts (s : Sync n) : SyncAction n → Except Abort (SyncRank n)
  | .reset i =>
    match (s i).phase with
    | .called t => (s i).reset i t
    | _ => .ok (s i)
  | .reply i j => (s i).reply j
  | .form i j =>
    match (s j).sent i with
    | some remote => (s i).form j remote
    | none => .ok (s i)
  | .join i => (s i).join
  | .align i =>
    match s.latest with
    | some latest => (s i).align latest
    | none => .ok (s i)
  | .agree i =>
    match s.latest, s.earliest with
    | some latest, some earliest => .ok ((s i).agree latest.cur.next earliest)
    | _, _ => .ok (s i)
  | .enter i => .ok { s i with phase := .inBarrier }
  | .leave i => (s i).leave

end Sync

/-- The rank that acts. -/
def SyncAction.rank {n : Nat} : SyncAction n → Fin n
  | .reset i | .reply i _ | .form i _ | .join i | .align i | .agree i | .enter i | .leave i => i

/-- `reset_consistency` on the ranks of a communicator, in any order. -/
def consistencySync (n : Nat) : Schedule (Sync n) (SyncAction n) Abort where
  Enabled := Sync.Enabled
  act s a := (s.acts a).map (Function.update s a.rank)

namespace Sync

variable {n : Nat}

instance (s : Sync n) (a : SyncAction n) : Decidable ((consistencySync n).Enabled s a) :=
  match a with
  | .reset i =>
    match h : (s i).phase with
    | .called t => .isTrue ⟨t, h⟩
    | .progressing => .isFalse fun ⟨_, hr⟩ => by rw [h] at hr; cases hr
    | .inBarrier => .isFalse fun ⟨_, hr⟩ => by rw [h] at hr; cases hr
    | .left _ => .isFalse fun ⟨_, hr⟩ => by rw [h] at hr; cases hr
  | .reply _ _ => inferInstanceAs (Decidable (_ ∧ _ ∧ _))
  | .form _ _ => inferInstanceAs (Decidable (_ ∧ _ ∧ _))
  | .join _ => inferInstanceAs (Decidable (_ ∧ _ ∧ _))
  | .align _ => inferInstanceAs (Decidable (_ ∧ _ ∧ _))
  | .agree _ => inferInstanceAs (Decidable (_ ∧ _ ∧ _))
  | .enter _ => inferInstanceAs (Decidable (_ ∧ _ ∧ _))
  | .leave _ => inferInstanceAs (Decidable (_ ∧ _ ∧ _))

def Done (s : Sync n) : Prop := ∀ i, ∃ xs, (s i).phase = .left xs

end Sync

/-- The retry loop of `begin` fails an assertion: the active collective is of another region. -/
def CommLog.Stuck (c : CommLog) : Prop := c.activeOp.isSome ∧ ¬(c.region.Valid ∧ c.region.id = c.activeRegion)

def SyncPhase.replayed : SyncPhase → List CollectiveLog
  | .left xs => xs
  | _ => []

/-- What a rank executes from the end of the sync on: what it replays and, unless its retry loop aborts, what it
retries and what it has yet to issue. -/
def SyncRank.Executes {n : Nat} (r : SyncRank n) (k : Int) : Prop :=
  (∃ x ∈ r.phase.replayed, x.idx = k) ∨ ¬r.log.Stuck ∧ ((∃ op ∈ r.log.activeOp, op.idx = k) ∨ r.log.region.next ≤ k)

end Fenix
