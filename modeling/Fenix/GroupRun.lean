import Fenix.GroupTracking

namespace Fenix

/-- The group on all ranks of a cohort, with the timestamps that each rank has committed so far and
whether a commit since the last synchronisation dropped a timestamp that a member held on to. -/
structure GroupRun (n : Nat) where
  groups : Fin n → GroupState
  committed : Fin n → List Int
  strayed : Prop

namespace GroupRun

variable {n : Nat}

/-- A group that has just been created, on a rank. -/
def fresh (timestart : Int) (depth : Nat) (k : Fin n) : GroupState :=
  { timestart := timestart, depth := depth, cohortRank := k, cohortSize := n }

def set (c : GroupRun n) (k : Fin n) (g : GroupState) : GroupRun n :=
  { c with groups := Function.update c.groups k g }

/-- A commit of the application on one rank. -/
def commit (c : GroupRun n) (k : Fin n) (junk partnerJunk : Int → Nat → UInt8) : GroupRun n :=
  let g := c.groups k
  { groups := Function.update c.groups k (g.dataCommit junk partnerJunk)
    committed := Function.update c.committed k
      (if g.committing then g.nextTimestamp :: c.committed k else c.committed k)
    strayed := c.strayed ∨ g.committing = true ∧ g.Skews }

@[simp] theorem set_groups_self (c : GroupRun n) (k : Fin n) (g : GroupState) : (c.set k g).groups k = g := by
  simp [set]

@[simp] theorem commit_groups_self (c : GroupRun n) (k : Fin n) (junk partnerJunk : Int → Nat → UInt8) :
    (c.commit k junk partnerJunk).groups k = (c.groups k).dataCommit junk partnerJunk :=
  Function.update_self k _ _

@[simp] theorem commit_committed_self (c : GroupRun n) (k : Fin n) (junk partnerJunk : Int → Nat → UInt8) :
    (c.commit k junk partnerJunk).committed k =
      if (c.groups k).committing then (c.groups k).nextTimestamp :: c.committed k else c.committed k :=
  Function.update_self k _ _

/-- The runs of the group operations of the ranks, in any order, with failures at any point. -/
inductive Reachable (policy : DataPolicy) (timestart : Int) (depth : Nat) : GroupRun n → Prop
  | start (h : 0 ≤ timestart) :
      Reachable policy timestart depth ⟨fresh timestart depth, fun _ => [], False⟩
  | create {c : GroupRun n} {g : GroupState} (k : Fin n) (id : Int) (elmSize elmCount : Nat)
      (junk : Nat → Nat → UInt8) (hr : Reachable policy timestart depth c)
      (h : (c.groups k).memberCreate policy id elmSize elmCount junk = .ok g) :
      Reachable policy timestart depth (c.set k g)
  | stage {c : GroupRun n} (k : Fin n) (id : Int) (s : IMRSnapshot) (hr : Reachable policy timestart depth c) :
      Reachable policy timestart depth
        (c.set k ((c.groups k).updateMember id fun m => { m with stageSnapshot := s }))
  | commit {c : GroupRun n} (k : Fin n) (junk partnerJunk : Int → Nat → UInt8)
      (hr : Reachable policy timestart depth c) :
      Reachable policy timestart depth (c.commit k junk partnerJunk)
  | delete {c : GroupRun n} {g : GroupState} (k : Fin n) (ts : Int) (hr : Reachable policy timestart depth c)
      (h : (c.groups k).snapshotDelete ts = .ok g) : Reachable policy timestart depth (c.set k g)
  | fail {c : GroupRun n} (failed : Fin n → Bool) (hr : Reachable policy timestart depth c) :
      Reachable policy timestart depth
        { c with groups := fun k => if failed k then fresh timestart depth k else c.groups k }
  | sync {c : GroupRun n} (hr : Reachable policy timestart depth c) :
      Reachable policy timestart depth
        { c with groups := GroupState.syncTimestamps c.groups, strayed := False }
  | repair {c : GroupRun n} {gs : Fin n → GroupState} (id : Int) (upTo : Nat) (junk : Fin n → Nat → Nat → UInt8)
      (hr : Reachable policy timestart depth c) (h : GroupState.memberRepair policy id upTo junk c.groups = .ok gs) :
      Reachable policy timestart depth { c with groups := gs }

variable {policy : DataPolicy} {timestart : Int} {depth : Nat} {c : GroupRun n}

theorem fresh_tracked (h : 0 ≤ timestart) (k : Fin n) (strayed : Prop) :
    (fresh timestart depth k).Tracked policy depth strayed where
  depth_eq := rfl
  ordered := ⟨h, fun t ht => absurd ht (Finset.notMem_empty t), fun _ hm => absurd hm List.not_mem_nil⟩
  timestamp_ge := Int.le_refl _
  listed_card := Nat.zero_le _
  members := fun _ hm => absurd hm List.not_mem_nil

theorem set_tracked {g : GroupState} (h : ∀ k, (c.groups k).Tracked policy depth c.strayed) (k : Fin n)
    (hg : g.Tracked policy depth c.strayed) (l : Fin n) : ((c.set k g).groups l).Tracked policy depth c.strayed := by
  change (Function.update c.groups k g l).Tracked policy depth c.strayed
  by_cases hl : l = k
  · subst hl
    rw [Function.update_self]
    exact hg
  · rw [Function.update_of_ne hl]
    exact h l

theorem commit_tracked (h : ∀ k, (c.groups k).Tracked policy depth c.strayed) (k : Fin n)
    (junk partnerJunk : Int → Nat → UInt8) (l : Fin n) :
    ((c.commit k junk partnerJunk).groups l).Tracked policy depth (c.commit k junk partnerJunk).strayed := by
  unfold commit
  dsimp only
  by_cases hl : l = k
  · subst hl
    rw [Function.update_self]
    unfold GroupState.dataCommit
    split
    next g' hc =>
      refine (h l).commit hc fun hn => ?_
      refine ⟨fun hs => hn (Or.inl hs), fun hs => hn (Or.inr ⟨?_, hs⟩)⟩
      rcases (c.groups l).bumpTimestamp.commit_cases junk partnerJunk with ⟨_, herr⟩ | ⟨hstored, _⟩
      · rw [herr] at hc
        cases hc
      · exact List.all_eq_true.mpr fun m hm => by rw [hstored m hm]; rfl
    next => exact (h l).bump.mono Or.inl
  · rw [Function.update_of_ne hl]
    exact (h l).mono Or.inl

/-- The bookkeeping that every run keeps on every rank. -/
theorem Reachable.tracked (h : Reachable policy timestart depth c) :
    0 ≤ timestart ∧ ∀ k, (c.groups k).Tracked policy depth c.strayed := by
  induction h with
  | start h => exact ⟨h, fun k => fresh_tracked h k False⟩
  | create k id elmSize elmCount junk _ h ih => exact ⟨ih.1, set_tracked ih.2 k ((ih.2 k).create h)⟩
  | stage k id s _ ih =>
    refine ⟨ih.1, set_tracked ih.2 k ((ih.2 k).updateMember fun m hm _ => ⟨?_, ?_⟩)⟩
    · have hm := (ih.2 k).members m hm
      exact ⟨hm.depth_eq, hm.sound, hm.places, hm.aligned⟩
    · exact fun t ht => (ih.2 k).ordered.held_le hm ht
  | commit k junk partnerJunk _ ih => exact ⟨ih.1, commit_tracked ih.2 k junk partnerJunk⟩
  | delete k ts _ h ih => exact ⟨ih.1, set_tracked ih.2 k ((ih.2 k).snapshotDelete h)⟩
  | fail failed _ ih =>
    refine ⟨ih.1, fun k => ?_⟩
    dsimp only
    split
    next => exact fresh_tracked ih.1 k _
    next => exact ih.2 k
  | sync _ ih =>
    refine ⟨ih.1, fun k => (ih.2 k).adopt ?_ fun t ht => ?_⟩
    · exact card_syncTimestamps_le fun l => (ih.2 l).listed_card
    · obtain ⟨l, hl⟩ := mem_of_mem_syncTimestamps (fun l t ht => ((ih.2 l).ordered.listed_le t ht).1) ht
      exact ((ih.2 l).ordered.listed_le t hl).1
  | repair id upTo junk _ h ih => exact ⟨ih.1, GroupState.memberRepair_tracked ih.2 h⟩

/-- What a commit does to the timestamps of a group: the new one is newer than all of them, and what is
dropped for it is the oldest of a list that was full. -/
structure CommitTracked (depth : Nat) (g g' : GroupState) : Prop where
  newer : g.timestamp < g'.timestamp
  newer_listed : ∀ t ∈ g.timestamps, t < g'.timestamp
  newer_held : ∀ m ∈ g.members, ∀ t ∈ m.2.timestamps, t < g'.timestamp
  listed : g'.timestamp ∈ g'.timestamps
  dropped : ∀ t ∈ g.timestamps, t ∉ g'.timestamps → g.timestamps.card = depth + 1 ∧ ∀ t' ∈ g.timestamps, t ≤ t'
  members : List.Forall₂ (fun m m' => m'.1 = m.1 ∧ g'.timestamp ∈ m'.2.timestamps ∧
    ∀ t ∈ m.2.timestamps, t ∉ m'.2.timestamps → depth + 1 ≤ m.2.timestamps.card ∧ ∀ t' ∈ m.2.timestamps, t ≤ t')
    g.members g'.members

/-- The bookkeeping of the timestamps of a group and of its members on one rank. -/
structure Bookkeeping (policy : DataPolicy) (depth : Nat) (c : GroupRun n) (k : Fin n) : Prop where
  listed_card : (c.groups k).timestamps.card ≤ depth + 1
  held_listed : ¬c.strayed → ∀ m ∈ (c.groups k).members,
    m.2.timestamps ⊆ (c.groups k).timestamps ∧ m.2.timestamps.card ≤ depth + 1
  repairable : policy ≠ .localOnly → ∀ m ∈ (c.groups k).members, ∀ ts ∈ (c.groups k).timestamps,
    (m.2.repairSnapshot ts).isSome
  commits : ∀ junk partnerJunk g', (c.groups k).bumpTimestamp.commit junk partnerJunk = .ok g' →
    CommitTracked depth (c.groups k) g'

/-- The timestamps of a group and of its members are kept in every run. -/
theorem timestamps_tracked (h : Reachable policy timestart depth c) (k : Fin n) : Bookkeeping policy depth c k := by
  have ht := h.tracked.2 k
  refine ⟨ht.listed_card, ?_, ?_, ?_⟩
  · intro hs m hm
    have hsub := (ht.members m hm).aligned hs
    exact ⟨hsub, (Finset.card_le_card hsub).trans ht.listed_card⟩
  · exact fun hp m hm ts hts => (ht.members m hm).repairSnapshot_isSome hp hts
  · intro junk partnerJunk g' hc
    obtain ⟨hlisted, hts, _, _, hms⟩ := ht.commit_ledger hc
    have hnew : ∀ t ∈ (c.groups k).timestamps, t < g'.timestamp := by
      intro t hin
      rw [hts]
      exact GroupState.lt_nextTimestamp (ht.ordered.listed_le t hin).1 (ht.ordered.listed_le t hin).2
    have hheld : ∀ m ∈ (c.groups k).members, ∀ t ∈ m.2.timestamps, t < g'.timestamp := by
      intro m hm t hin
      rw [hts]
      exact GroupState.lt_nextTimestamp (ht.ordered.held_le hm hin).1 (ht.ordered.held_le hm hin).2
    refine ⟨?_, hnew, hheld, ?_, ?_, ?_⟩
    · have hge := ht.timestamp_ge
      have hstart := ht.ordered.timestart_nonneg
      rw [hts]
      unfold GroupState.nextTimestamp
      split <;> omega
    · rw [hlisted, hts]
      exact Ledger.mem_addListed.mpr (Or.inl rfl)
    · intro t hin hn
      rw [hlisted] at hn
      exact Ledger.oldest_of_dropped hin hn
    · refine List.forall₂_imp_of_mem_left hms fun m hm m' hmm => ?_
      have heq : m'.2.timestamps = Ledger.addHeld (depth + 1) (c.groups k).nextTimestamp m.2.timestamps :=
        congrArg Ledger.held hmm.2.2
      have hlt : ∀ t ∈ m.2.timestamps, t < (c.groups k).nextTimestamp := hts ▸ hheld m hm
      refine ⟨hmm.1, ?_, fun t hin hn => ?_⟩
      · rw [heq, hts]
        exact Ledger.self_mem_addHeld hlt (Nat.succ_pos depth)
      · rw [heq] at hn
        exact Ledger.oldest_of_trimmed hlt hin hn

/-- With a depth of 1 the third commit drops the first one. -/
theorem timestamps_tracked_buddies : ∃ c : GroupRun 2, (c.groups 0).members.length = 1 ∧
    (c.groups 0).timestamps = {1, 2} ∧ Bookkeeping (.imr .buddy) 1 c 0 := by
  have hcreated := (@Reachable.start 2 (.imr .buddy) 0 1 (Int.le_refl 0)).create 0 7 8 2 (fun _ _ => 0) rfl
  have hc := ((hcreated.commit 0 (fun _ _ => 0) fun _ _ => 0).commit 0 (fun _ _ => 0) fun _ _ => 0).commit 0
    (fun _ _ => 0) fun _ _ => 0
  refine ⟨_, ?_, ?_, timestamps_tracked hc 0⟩
  · rfl
  · decide +kernel

/-- A commit of a group without members. -/
theorem dataCommit_of_no_members {g : GroupState} (hm : g.members = []) (junk partnerJunk : Int → Nat → UInt8) :
    g.dataCommit junk partnerJunk = { g.bumpTimestamp with
      timestamps := insert g.nextTimestamp
        (if g.timestamps.card = g.depth + 1 then eraseOldest g.timestamps else g.timestamps) } := by
  unfold GroupState.dataCommit
  rcases g.bumpTimestamp.commit_cases junk partnerJunk with ⟨⟨m, hin, _⟩, _⟩ | ⟨_, members, hms, heq⟩
  · rw [show g.bumpTimestamp.members = [] from hm] at hin
    cases hin
  · rw [show g.bumpTimestamp.members = [] from hm] at hms
    cases hms
    rw [heq]
    simp only [GroupState.bumpTimestamp, hm]

/-- A rank commits its first timestamp, deletes the snapshot, and commits the same timestamp again
once its group has been created anew. -/
theorem timestamp_committed_twice : ∃ c : GroupRun 1, Reachable .localOnly 0 0 c ∧ c.committed 0 = [0, 0] := by
  let g : GroupState := fresh 0 0 (0 : Fin 1)
  have hfirst : ∃ c : GroupRun 1, Reachable .localOnly 0 0 c ∧ c.committed 0 = [0] ∧
      c.groups 0 = { g with timestamp := 0, timestamps := {0} } := by
    refine ⟨_, (Reachable.start (Int.le_refl 0)).commit 0 (fun _ _ => 0) (fun _ _ => 0), ?_, ?_⟩
    · rw [commit_committed_self]
      rfl
    · rw [commit_groups_self, dataCommit_of_no_members rfl]
      rfl
  obtain ⟨c, hc, hcommitted, hg⟩ := hfirst
  have hdelete : (c.groups 0).snapshotDelete 0 = .ok { g with timestamp := 0 } := by
    rw [hg]
    unfold GroupState.snapshotDelete DataGroup.newestFirst
    simp [GroupState.snapshotAll, snapshotLatest, GroupState.snapshotErase, g, fresh]
  have hempty : DataGroup.syncTimestamps (fun k => ((c.set 0 { g with timestamp := 0 }).groups k).timestamps) = ∅ := by
    refine Finset.card_eq_zero.mp (Nat.le_zero.mp (card_syncTimestamps_le fun k => ?_))
    rw [Subsingleton.elim k 0, set_groups_self]
    exact Nat.le_refl 0
  have hsync : GroupState.syncTimestamps (c.set 0 { g with timestamp := 0 }).groups 0 = g := by
    unfold GroupState.syncTimestamps
    rw [hempty, set_groups_self]
    simp [GroupState.adopt, DataGroup.newestFirst, g, fresh]
  refine ⟨_, ((hc.delete 0 0 hdelete).sync).commit 0 (fun _ _ => 0) (fun _ _ => 0), ?_⟩
  rw [commit_committed_self]
  dsimp only
  simp only [hsync]
  exact congrArg (0 :: ·) hcommitted

end GroupRun

end Fenix
