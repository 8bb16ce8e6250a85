import Fenix.BuddyRebuild
import Fenix.GroupRun

namespace Fenix

/-- The sizes of the members of a group, and what the ranks of the cohort have committed of a member with a
timestamp. -/
structure CommitHistory (n : Nat) where
  elmSize : Int → Nat
  elmCount : Int → Nat
  record : Int → Int → CommitRecord n

/-- Elements have bytes, and what is recorded of a member are elements of it. -/
structure CommitHistory.Sound {n : Nat} (log : CommitHistory n) : Prop where
  elmSize_pos : ∀ id, 0 < log.elmSize id
  below : ∀ id ts, (log.record id ts).Below (log.elmCount id)

variable {n : Nat} {log : CommitHistory n} {k : Fin n}

section Member

variable {extent count : Nat} {m m' : DataMember} {records : Int → CommitRecord n} {ts : Int}

namespace DataMember

theorem Guards.snapshotDelete (h : m.Guards k extent count records) (ts : Int) :
    (m.snapshotDelete ts).Guards k extent count records := by
  obtain ⟨hkept, hspare⟩ := Pool.release_all (p := m.pool) IMRSnapshot.reset ts h.kept h.spare
    fun s hs => (h.kept s hs).sized.reset
  exact ⟨h.elmSize, h.elmCount, hkept, hspare⟩

theorem Guards.cleanup (h : m.Guards k extent count records) (valid : Finset Int) :
    (m.cleanupTimestamps valid).Guards k extent count records := by
  refine ⟨h.elmSize, h.elmCount, fun x hx => h.kept x (IndexedSet.mem_filter.mp hx).1, fun x hx => ?_⟩
  rcases List.mem_append.mp hx with hx | hx
  · obtain ⟨s, hs, rfl⟩ := List.mem_map.mp (List.mem_reverse.mp hx)
    exact (h.kept s (List.mem_filter.mp hs).1).sized.reset
  · exact h.spare x hx

theorem Guards.trim (h : m.Guards k extent count records) : m.trim.Guards k extent count records := by
  obtain ⟨hkept, hspare⟩ := Pool.trim_all (p := m.pool) IMRSnapshot.reset (m.depth + 1) h.kept h.spare
    fun s hs => (h.kept s hs).sized.reset
  exact ⟨h.elmSize, h.elmCount, hkept, hspare⟩

theorem Guards.restage (h : m.Guards k extent count records) (rank size : Nat) (junk partnerJunk : Nat → UInt8) :
    (m.restage rank size junk partnerJunk).Guards k extent count records := by
  refine ⟨h.elmSize, h.elmCount, fun s hs => ?_, fun s hs => ?_⟩
  · rw [DataMember.restage_commitSnapshots] at hs
    exact h.kept s hs
  · have hrest := m.pool.next_spare (IMRSnapshot.create m.elmSize m.elmCount junk partnerJunk)
    exact h.spare s (List.mem_of_mem_tail (hrest ▸ hs))

/-- A commit of what keeps the record of its timestamp. -/
theorem Guards.commit {rank size : Nat} {junk partnerJunk : Nat → UInt8} (h : m.Guards k extent count records)
    (hstage : m.stageSnapshot.Keeps k extent count (records ts)) (hc : m.commit rank size ts junk partnerJunk = .ok m') :
    m'.Guards k extent count records := by
  unfold DataMember.commit at hc
  split at hc
  next =>
    cases Except.ok.inj hc
    have hinserted : ({ m with commitSnapshots := m.commitSnapshots.insert { m.stageSnapshot with timestamp := ts } } :
        DataMember).Guards k extent count records := by
      refine ⟨h.elmSize, h.elmCount, fun x hx => ?_, h.spare⟩
      rcases IndexedSet.mem_of_mem_insert hx with rfl | hx
      · exact hstage.setTimestamp ts
      · exact h.kept x hx
    exact hinserted.trim.restage rank size junk partnerJunk
  next => cases hc

theorem create_avail {rank size extent count : Nat} {junk : Nat → Nat → UInt8} {depth : Nat} {s : IMRSnapshot}
    (hs : s ∈ (DataMember.create (.imr .buddy) depth rank size extent count junk).availSnapshots) :
    s.Sized extent count ∧ s.Unused := by
  rcases List.mem_append.mp hs with hs | hs
  · rw [List.eq_of_mem_replicate hs]
    exact ⟨⟨rfl, rfl, rfl, rfl⟩, fun x hx => absurd hx List.not_mem_nil⟩
  · obtain ⟨fresh, hfresh, rfl⟩ := List.mem_map.mp hs
    cases List.eq_of_mem_replicate hfresh
    exact ⟨⟨rfl, rfl, rfl, rfl⟩, fun x hx => absurd hx List.not_mem_nil⟩

/-- A new member has nothing committed. -/
theorem create_guards (depth rank size extent count : Nat) (junk : Nat → Nat → UInt8) :
    (DataMember.create (.imr .buddy) depth rank size extent count junk).Guards k extent count records :=
  ⟨rfl, rfl, fun _ hs => absurd hs IndexedSet.not_mem_empty, fun _ hs => (create_avail hs).1⟩

theorem create_unused (depth rank size extent count : Nat) (junk : Nat → Nat → UInt8) :
    (DataMember.create (.imr .buddy) depth rank size extent count junk).Unused := fun _ hs => (create_avail hs).2

end DataMember

end Member

namespace GroupState

variable {g g' : GroupState} {id : Int}

/-- The members of a group on a rank have what a history says. -/
def Guards (g : GroupState) (k : Fin n) (log : CommitHistory n) : Prop :=
  ∀ m ∈ g.members, m.2.Guards k (log.elmSize m.1) (log.elmCount m.1) (log.record m.1)

/-- What the members of a group are to commit next is what a history says. -/
def Covered (g : GroupState) (k : Fin n) (log : CommitHistory n) : Prop :=
  g.committing = true → ∀ m ∈ g.members,
    m.2.stageSnapshot.Keeps k (log.elmSize m.1) (log.elmCount m.1) (log.record m.1 g.nextTimestamp)

theorem Guards.create (h : g.Guards k log) {junk : Nat → Nat → UInt8}
    (hc : g.memberCreate (.imr .buddy) id (log.elmSize id) (log.elmCount id) junk = .ok g') : g'.Guards k log := by
  unfold memberCreate at hc
  split at hc
  next => cases hc
  next =>
    cases Except.ok.inj hc
    intro m hm
    rcases List.mem_append.mp hm with hm | hm
    · exact h m hm
    · rw [List.mem_singleton.mp hm]
      exact DataMember.create_guards _ _ _ _ _ _

/-- An operation on one member that keeps what it has. -/
theorem Guards.updateMember (h : g.Guards k log) {f : DataMember → DataMember}
    (hf : ∀ m ∈ g.members, m.1 = id → (f m.2).Guards k (log.elmSize id) (log.elmCount id) (log.record id)) :
    (g.updateMember id f).Guards k log := by
  intro m' hm'
  obtain ⟨m, hm, rfl⟩ := List.mem_map.mp hm'
  split
  next hid =>
    have hguards := hf m hm hid
    rwa [← hid] at hguards
  next => exact h m hm

theorem Guards.mapMembers (h : g.Guards k log) {f : DataMember → DataMember}
    (hf : ∀ (m : DataMember) (extent count : Nat) (records : Int → CommitRecord n),
      m.Guards k extent count records → (f m).Guards k extent count records) :
    ∀ m ∈ g.members.map fun m => (m.1, f m.2), m.2.Guards k (log.elmSize m.1) (log.elmCount m.1) (log.record m.1) := by
  intro m' hm'
  obtain ⟨m, hm, rfl⟩ := List.mem_map.mp hm'
  exact hf m.2 _ _ _ (h m hm)

theorem Guards.snapshotDelete (h : g.Guards k log) {ts : Int} (hd : g.snapshotDelete ts = .ok g') :
    g'.Guards k log := by
  have herase : ∀ (g : GroupState) (ts : Int), g.Guards k log → (g.snapshotErase ts).Guards k log :=
    fun g ts h => h.mapMembers fun m _ _ _ hm => hm.snapshotDelete ts
  unfold GroupState.snapshotDelete at hd
  split at hd
  next => cases hd
  next newest rest _ =>
    split at hd
    next =>
      cases Except.ok.inj hd
      have hall : ∀ (xs : List Int) (g : GroupState), g.Guards k log → (xs.foldl snapshotErase g).Guards k log := by
        intro xs
        induction xs with
        | nil => exact fun _ h => h
        | cons x xs ih => exact fun g h => ih _ (herase g x h)
      exact hall _ _ h
    next =>
      dsimp only at hd
      generalize (if ts = snapshotLatest then newest else ts) = ts' at hd
      split at hd
      next =>
        cases Except.ok.inj hd
        exact herase _ _ h
      next => cases hd

/-- A commit, refused or not, of members whose staged snapshots are covered. -/
theorem Guards.dataCommit (h : g.Guards k log) (hcovered : g.Covered k log) (junk partnerJunk : Int → Nat → UInt8) :
    (g.dataCommit junk partnerJunk).Guards k log := by
  unfold GroupState.dataCommit
  rcases g.bumpTimestamp.commit_cases junk partnerJunk with ⟨_, herr⟩ | ⟨hstored, members, hms, heq⟩
  · rw [herr]
    exact h
  · rw [heq]
    have hcommitting : g.committing = true :=
      List.all_eq_true.mpr fun m hm => by
        rw [hstored m hm]
        rfl
    intro m' hm'
    obtain ⟨m, hm, hcommit⟩ := List.exists_left_of_forall₂ hms hm'
    obtain ⟨hid, hcommit⟩ := commitMember_eq_ok hcommit
    rw [hid]
    exact (h m hm).commit (hcovered hcommitting m hm) hcommit

theorem Guards.memberAdopt (h : g.Guards k log) {model : DataMember} (junk : Nat → Nat → UInt8)
    (hsize : model.elmSize = log.elmSize id) (hcount : model.elmCount = log.elmCount id) :
    (g.memberAdopt (.imr .buddy) id model junk).Guards k log := by
  unfold GroupState.memberAdopt
  rw [hsize, hcount]
  split
  next hc => exact h.create hc
  next => exact h

/-- A rank takes over timestamps, and drops the snapshots that have others. -/
theorem Guards.adopt (h : g.Guards k log) (synced : Finset Int) : (g.adopt synced).Guards k log :=
  h.mapMembers fun _ _ _ _ hm => hm.cleanup synced

/-- What a rank stages of a member is not committed yet. -/
theorem Guards.stage (h : g.Guards k log) (s : IMRSnapshot) :
    (g.updateMember id fun m => { m with stageSnapshot := s }).Guards k log := by
  refine h.updateMember fun m hm hid => ?_
  have hk := h m hm
  rw [hid] at hk
  exact ⟨hk.elmSize, hk.elmCount, hk.kept, hk.spare⟩

/-- Two histories say the same about the members of a group and all that they have committed. -/
def Agrees (g : GroupState) (log log' : CommitHistory n) : Prop :=
  ∀ m ∈ g.members, log'.elmSize m.1 = log.elmSize m.1 ∧ log'.elmCount m.1 = log.elmCount m.1 ∧
    ∀ s ∈ m.2.commitSnapshots, log'.record m.1 s.timestamp = log.record m.1 s.timestamp

theorem Guards.revise {log' : CommitHistory n} (h : g.Guards k log) (hagrees : g.Agrees log log') : g.Guards k log' := by
  intro m hm
  obtain ⟨hsize, hcount, hrecord⟩ := hagrees m hm
  have hk := h m hm
  rw [hsize, hcount]
  exact ⟨hk.elmSize, hk.elmCount, fun s hs => hrecord s hs ▸ hk.kept s hs, hk.spare⟩

end GroupState

section Repair

variable {extent count depth : Nat} {strayed : Prop} {listed : Finset Int} {ms ms' : Fin n → DataMember}
  {records : Int → CommitRecord n} {ts : Int} {stale : Fin n → Nat → Nat → UInt8}

/-- The repair of a listed timestamp keeps the bookkeeping of all ranks, and uses no snapshot again. -/
theorem BuddyMember.repairTimestamp_tracked (hts : ts ∈ listed)
    (h : ∀ k, (ms k).Tracked (.imr .buddy) depth strayed listed) (hr : repairTimestamp stale ts ms = .ok ms') :
    (∀ k, (ms' k).Tracked (.imr .buddy) depth strayed listed) ∧ ∀ k, (ms k).Unused → (ms' k).Unused := by
  rcases buddy_cases hr with ⟨_, snaps, hsnaps, rfl⟩ | ⟨_, rfl⟩
  · exact ⟨fun k => (h k).putBack nofun hts (hsnaps k), fun k hk => hk.putBack ts (snaps k)⟩
  · exact ⟨fun k => (h k).resetUnfound ts, fun k hk => hk.resetUnfound ts⟩

/-- The repair of listed timestamps goes through if whatever rank is the only one to lack one of them has unused
snapshots for it. -/
theorem BuddyMember.repairTimestamps_guards (hn : 2 ≤ n) (hpos : 0 < extent) (hr : ∀ ts, (records ts).Below count)
    {stamps : List Int} (hnodup : stamps.Nodup) (hlisted : ∀ ts ∈ stamps, ts ∈ listed)
    (h : ∀ k, (ms k).Guards k extent count records) (ht : ∀ k, (ms k).Tracked (.imr .buddy) depth strayed listed)
    (hunused : ∀ ts ∈ stamps, ∀ k, Alone ms ts k → (ms k).Unused) (stale : Fin n → Nat → Nat → UInt8) :
    ∃ ms', DataMember.repairTimestamps (repairTimestamp stale) stamps ms = .ok ms' ∧
      ∀ k, (ms' k).Guards k extent count records := by
  induction stamps generalizing ms with
  | nil => exact ⟨ms, rfl, h⟩
  | cons ts rest ih =>
    obtain ⟨hin, hrest⟩ := List.forall_mem_cons.mp hlisted
    obtain ⟨hfirst, hothers⟩ := List.forall_mem_cons.mp hunused
    obtain ⟨hnotin, hnodup⟩ := List.nodup_cons.mp hnodup
    obtain ⟨mid, hmid, hguards⟩ := repairTimestamp_guards hn hpos (hr ts) h
      (fun k => (ht k).repairSnapshot_isSome nofun hin) hfirst stale
    obtain ⟨htracked, hkept⟩ := repairTimestamp_tracked hin ht hmid
    have hsame : ∀ t ∈ rest, ∀ l, Holds mid l t ↔ Holds ms l t := fun t hmem l => by
      have hne : t ≠ ts := fun he => hnotin (he ▸ hmem)
      rw [buddy_mends hn hmid l t]
      exact or_iff_left fun hor => hne hor.1
    obtain ⟨ms', hms', hfinal⟩ := ih hnodup hrest hguards htracked fun t hmem k halone =>
      hkept k (hothers t hmem k fun l => (not_congr (hsame t hmem l)).symm.trans (halone l))
    exact ⟨ms', Except.bind_eq_ok_iff.mpr ⟨mid, hmid, hms'⟩, hfinal⟩

end Repair

namespace GroupState

variable {gs : Fin n → GroupState} {id : Int}

/-- A rank has committed a timestamp of a member. -/
def HoldsOf (gs : Fin n → GroupState) (id : Int) (k : Fin n) (ts : Int) : Prop :=
  ∃ m, (gs k).member? id = some m ∧ (m.commitSnapshots.find? ts).isSome

/-- A rank that has a member and is the only one to lack a timestamp of it, stages in unused snapshots. -/
def RepairsUnused (gs : Fin n → GroupState) (id ts : Int) : Prop :=
  ∀ k m, (gs k).member? id = some m → (∀ l, ¬HoldsOf gs id l ts ↔ l = k) → m.Unused

theorem member?_updateMember {g : GroupState} {m : DataMember} (f : DataMember → DataMember)
    (h : g.member? id = some m) : (g.updateMember id f).member? id = some (f m) := by
  unfold member? updateMember at *
  dsimp only
  obtain ⟨x, hx, rfl⟩ := Option.map_eq_some_iff.mp h
  generalize g.members = xs at hx
  induction xs with
  | nil => cases hx
  | cons y ys ih =>
    rw [List.map_cons]
    by_cases hy : y.1 = id
    · have hbeq : (y.1 == id) = true := beq_iff_eq.mpr hy
      simp only [List.find?_cons, hbeq] at hx
      cases Option.some.inj hx
      simp only [if_pos hy, List.find?_cons, hbeq, Option.map_some]
    · have hbeq : (y.1 == id) = false := beq_eq_false_iff_ne.mpr hy
      simp only [List.find?_cons, hbeq] at hx
      simp only [if_neg hy, List.find?_cons, hbeq]
      exact ih hx

/-- A rank adopts a member as it has it, or a new one of which it has committed nothing. -/
theorem member?_memberAdopt_cases (g : GroupState) (id : Int) (model : DataMember) (junk : Nat → Nat → UInt8) :
    (∃ m, g.member? id = some m ∧ (g.memberAdopt (.imr .buddy) id model junk).member? id = some m) ∨
    g.member? id = none ∧ (g.memberAdopt (.imr .buddy) id model junk).member? id =
      some (DataMember.create (.imr .buddy) g.depth g.cohortRank g.cohortSize model.elmSize model.elmCount junk) := by
  unfold memberAdopt memberCreate
  cases hm : g.member? id with
  | some m => exact Or.inl ⟨m, rfl, hm⟩
  | none =>
    refine Or.inr ⟨rfl, ?_⟩
    have hnone : g.members.find? (fun m => m.1 == id) = none := Option.map_eq_none_iff.mp hm
    unfold member?
    dsimp only
    rw [List.find?_append, hnone, Option.none_or]
    simp only [List.find?_cons, beq_self_eq_true, Option.map_some]

/-- The repair of a member that some rank has, by ranks that list the same timestamps, goes through. A rank then has
whatever it had, and what it was the only one to lack of the timestamps repaired. -/
theorem memberRepair_guards (hn : 2 ≤ n) (hlog : log.Sound) {depth : Nat} {strayed : Prop} {timestamps : Finset Int}
    (h : ∀ k, (gs k).Guards k log) (ht : ∀ k, (gs k).Tracked (.imr .buddy) depth strayed)
    (hsame : ∀ k, (gs k).timestamps = timestamps) (hfound : ∃ k, ((gs k).member? id).isSome) (upTo : Nat)
    (hunused : ∀ ts ∈ (DataGroup.newestFirst timestamps).take upTo, RepairsUnused gs id ts)
    (junk : Fin n → Nat → Nat → UInt8) :
    ∃ gs', memberRepair (.imr .buddy) id upTo junk gs = .ok gs' ∧ (∀ k, (gs' k).Guards k log) ∧
      ∀ k ts, HoldsOf gs' id k ts ↔ HoldsOf gs id k ts ∨
        ts ∈ (DataGroup.newestFirst timestamps).take upTo ∧ OneMissing (HoldsOf gs id) ts := by
  obtain ⟨root, hroot⟩ : ∃ root, firstFound gs id = some root := by
    obtain ⟨k, hk⟩ := hfound
    exact Option.isSome_iff_exists.mp (List.find?_isSome.mpr ⟨k, List.mem_finRange k, hk⟩)
  have hrootFound : ((gs root).member? id).isSome = true := by
    have hf := List.find?_some hroot
    exact hf
  obtain ⟨model, hmodel⟩ := Option.isSome_iff_exists.mp hrootFound
  have hsizes := h root _ (member?_mem hmodel)
  have hpresent : ∀ k, ((gs k).memberAdopt (.imr .buddy) id model (junk k)).Guards k log := fun k =>
    (h k).memberAdopt (junk k) hsizes.elmSize hsizes.elmCount
  -- the members that take part in the repair, some of them new
  choose part hpart using fun k => Option.isSome_iff_exists.mp
    (member?_memberAdopt (gs k) (.imr .buddy) id model (junk k)).1
  have hholds : ∀ k ts, Fenix.Holds part k ts ↔ HoldsOf gs id k ts := by
    intro k ts
    unfold Fenix.Holds HoldsOf
    rcases member?_memberAdopt_cases (gs k) id model (junk k) with ⟨m, hm, hin⟩ | ⟨hnone, hin⟩
    · cases (hpart k).symm.trans hin
      rw [hm]
      simp
    · rw [hnone, Option.some.inj ((hpart k).symm.trans hin)]
      simp [DataMember.create, IndexedSet.find?]
  have hclean : ∀ ts ∈ (DataGroup.newestFirst timestamps).take upTo, ∀ k, Alone part ts k → (part k).Unused := by
    intro ts hts k halone
    rcases member?_memberAdopt_cases (gs k) id model (junk k) with ⟨m, hm, hin⟩ | ⟨_, hin⟩
    · cases (hpart k).symm.trans hin
      exact hunused ts hts k _ hm fun l => (not_congr (hholds l ts)).symm.trans (halone l)
    · rw [Option.some.inj ((hpart k).symm.trans hin)]
      exact DataMember.create_unused _ _ _ _ _ _
  have hguards : ∀ k, ((part k).reinitStage k n).Guards k (log.elmSize id) (log.elmCount id) (log.record id) := by
    intro k
    have hk := hpresent k _ (member?_mem (hpart k))
    exact ⟨hk.elmSize, hk.elmCount, hk.kept, hk.spare⟩
  have htracked : ∀ k, ((part k).reinitStage k n).Tracked (.imr .buddy) depth strayed timestamps := by
    intro k
    have hadopted : ((gs k).memberAdopt (.imr .buddy) id model (junk k)).Tracked (.imr .buddy) depth strayed :=
      (ht k).memberAdopt model (junk k)
    have hk := hadopted.members _ (member?_mem (hpart k))
    rw [(member?_memberAdopt (gs k) (.imr .buddy) id model (junk k)).2.1, hsame k] at hk
    exact ⟨hk.depth_eq, hk.sound, hk.places, hk.aligned⟩
  have hnodup : ((DataGroup.newestFirst timestamps).take upTo).Nodup :=
    (Finset.sort_nodup _ _).sublist (List.take_sublist _ _)
  have hlisted : ∀ ts ∈ (DataGroup.newestFirst timestamps).take upTo, ts ∈ timestamps := fun ts hts =>
    (Finset.mem_sort _).mp (List.mem_of_mem_take hts)
  obtain ⟨ms', hms', hfinal⟩ := BuddyMember.repairTimestamps_guards hn (hlog.elmSize_pos id)
    (hlog.below id) hnodup hlisted hguards htracked hclean junk
  have hget : (fun k => (((gs k).memberAdopt (.imr .buddy) id model (junk k)).member? id).getD model) = part := by
    funext k
    rw [hpart k]
    rfl
  refine ⟨fun k => ((gs k).memberAdopt (.imr .buddy) id model (junk k)).updateMember id fun _ => ms' k, ?_,
    fun k => (hpresent k).updateMember fun _ _ _ => hfinal k, fun k ts => ?_⟩
  · unfold memberRepair
    rw [hroot]
    dsimp only
    rw [hmodel]
    dsimp only
    rw [if_pos fun k => (hsame k).trans (hsame root).symm, hget, hsame root]
    have hrepair : DataGroup.repair .buddy junk ((DataGroup.newestFirst timestamps).take upTo) part = .ok ms' := hms'
    rw [hrepair]
  · have hafter : HoldsOf (fun k => ((gs k).memberAdopt (.imr .buddy) id model (junk k)).updateMember id
        fun _ => ms' k) id k ts ↔ Fenix.Holds ms' k ts := by
      unfold HoldsOf Fenix.Holds
      dsimp only
      rw [member?_updateMember _ (hpart k)]
      simp
    have hone : OneMissing (Fenix.Holds part) ts ↔ OneMissing (HoldsOf gs id) ts := by
      unfold OneMissing
      simp only [hholds]
    rw [hafter, repairTimestamps_holds (buddy_mends hn) hnodup hms' k ts]
    change Fenix.Holds part k ts ∨ _ ∧ OneMissing (Fenix.Holds part) ts ↔ _
    rw [hholds, hone]

end GroupState

namespace GroupRun

variable {timestart : Int} {depth : Nat} {c : GroupRun n}

/-- The runs of a group that keeps copies on buddies, with the history of what is committed in them. A commit of a
rank is of what the history says, and the history says what it likes of timestamps that no rank has. The only rank to
lack a timestamp stages in unused snapshots when that is repaired. -/
inductive Conforming (timestart : Int) (depth : Nat) : CommitHistory n → GroupRun n → Prop
  | start {log : CommitHistory n} (hlog : log.Sound) (h : 0 ≤ timestart) :
      Conforming timestart depth log ⟨fresh timestart depth, fun _ => [], False⟩
  | revise {log log' : CommitHistory n} {c : GroupRun n} (hr : Conforming timestart depth log c) (hlog : log'.Sound)
      (h : ∀ k, (c.groups k).Agrees log log') : Conforming timestart depth log' c
  | create {log : CommitHistory n} {c : GroupRun n} {g : GroupState} (k : Fin n) (id : Int) (junk : Nat → Nat → UInt8)
      (hr : Conforming timestart depth log c)
      (h : (c.groups k).memberCreate (.imr .buddy) id (log.elmSize id) (log.elmCount id) junk = .ok g) :
      Conforming timestart depth log (c.set k g)
  | stage {log : CommitHistory n} {c : GroupRun n} (k : Fin n) (id : Int) (s : IMRSnapshot)
      (hr : Conforming timestart depth log c) :
      Conforming timestart depth log
        (c.set k ((c.groups k).updateMember id fun m => { m with stageSnapshot := s }))
  | commit {log : CommitHistory n} {c : GroupRun n} (k : Fin n) (junk partnerJunk : Int → Nat → UInt8)
      (hr : Conforming timestart depth log c) (h : (c.groups k).Covered k log) :
      Conforming timestart depth log (c.commit k junk partnerJunk)
  | delete {log : CommitHistory n} {c : GroupRun n} {g : GroupState} (k : Fin n) (ts : Int)
      (hr : Conforming timestart depth log c) (h : (c.groups k).snapshotDelete ts = .ok g) :
      Conforming timestart depth log (c.set k g)
  | fail {log : CommitHistory n} {c : GroupRun n} (failed : Fin n → Bool) (hr : Conforming timestart depth log c) :
      Conforming timestart depth log
        { c with groups := fun k => if failed k then fresh timestart depth k else c.groups k }
  | sync {log : CommitHistory n} {c : GroupRun n} (hr : Conforming timestart depth log c) :
      Conforming timestart depth log { c with groups := GroupState.syncTimestamps c.groups, strayed := False }
  | repair {log : CommitHistory n} {c : GroupRun n} {gs : Fin n → GroupState} (id : Int) (upTo : Nat)
      (junk : Fin n → Nat → Nat → UInt8) (hr : Conforming timestart depth log c)
      (hunused : ∀ k, ∀ ts ∈ (DataGroup.newestFirst (c.groups k).timestamps).take upTo,
        GroupState.RepairsUnused c.groups id ts)
      (h : GroupState.memberRepair (.imr .buddy) id upTo junk c.groups = .ok gs) :
      Conforming timestart depth log { c with groups := gs }

theorem Conforming.sound (h : Conforming timestart depth log c) : log.Sound := by
  induction h with
  | start hlog _ => exact hlog
  | revise _ hlog _ _ => exact hlog
  | create _ _ _ _ _ ih | stage _ _ _ _ ih | commit _ _ _ _ _ ih | delete _ _ _ _ ih | fail _ _ ih | sync _ ih
  | repair _ _ _ _ _ _ ih => exact ih

theorem Conforming.reachable (h : Conforming timestart depth log c) : Reachable (.imr .buddy) timestart depth c := by
  induction h with
  | start _ h => exact .start h
  | revise _ _ _ ih => exact ih
  | create k id junk _ h ih => exact .create k id _ _ junk ih h
  | stage k id s _ ih => exact .stage k id s ih
  | commit k junk partnerJunk _ _ ih => exact .commit k junk partnerJunk ih
  | delete k ts _ h ih => exact .delete k ts ih h
  | fail failed _ ih => exact .fail failed ih
  | sync _ ih => exact .sync ih
  | repair id upTo junk _ _ h ih => exact .repair id upTo junk ih h

theorem fresh_guards (k : Fin n) : (fresh timestart depth k).Guards k log :=
  fun _ hm => absurd hm List.not_mem_nil

theorem update_guards {gs : Fin n → GroupState} {g : GroupState} (h : ∀ l, (gs l).Guards l log) (hg : g.Guards k log)
    (l : Fin n) : (Function.update gs k g l).Guards l log := by
  by_cases hl : l = k
  · subst hl
    rw [Function.update_self]
    exact hg
  · rw [Function.update_of_ne hl]
    exact h l

/-- A repair that goes through is by ranks that list the same timestamps, some of which has the member. -/
theorem memberRepair_agreed {gs gs' : Fin n → GroupState} {id : Int} {upTo : Nat} {junk : Fin n → Nat → Nat → UInt8}
    (h : GroupState.memberRepair (.imr .buddy) id upTo junk gs = .ok gs') :
    ∃ root, ((gs root).member? id).isSome ∧ ∀ k, (gs k).timestamps = (gs root).timestamps := by
  unfold GroupState.memberRepair at h
  split at h
  next => cases h
  next root _ =>
    split at h
    next => cases h
    next model hmodel =>
      dsimp only at h
      split at h
      next hsame => exact ⟨root, Option.isSome_iff_exists.mpr ⟨model, hmodel⟩, hsame⟩
      next => cases h

/-- Whatever a rank has committed, or got back in a repair, is what the history says. -/
theorem Conforming.guards (hn : 2 ≤ n) (h : Conforming timestart depth log c) (k : Fin n) :
    (c.groups k).Guards k log := by
  induction h generalizing k with
  | start _ _ => exact fresh_guards k
  | revise _ _ h ih => exact (ih k).revise (h k)
  | create k' id junk _ h ih => exact update_guards ih ((ih k').create h) k
  | stage k' id s _ ih => exact update_guards ih ((ih k').stage s) k
  | commit k' junk partnerJunk _ h ih => exact update_guards ih ((ih k').dataCommit h junk partnerJunk) k
  | delete k' ts _ h ih => exact update_guards ih ((ih k').snapshotDelete h) k
  | fail failed _ ih =>
    dsimp only
    split
    next => exact fresh_guards k
    next => exact ih k
  | sync _ ih => exact (ih k).adopt _
  | repair id upTo junk hr hunused h ih =>
    obtain ⟨root, hroot, hsame⟩ := memberRepair_agreed h
    obtain ⟨gs', hgs', hguards, _⟩ := GroupState.memberRepair_guards hn hr.sound ih
      hr.reachable.tracked.2 hsame ⟨root, hroot⟩ upTo (hunused root) junk
    cases h.symm.trans hgs'
    exact hguards k

end GroupRun

end Fenix
