import Fenix.BuddyCopy

namespace Fenix

open BuddyMember (left)

/-- What an operation leaves: its result or, where it is refused, what was there. -/
def attempt {ε σ : Type} (x : Except ε σ) (s : σ) : σ :=
  match x with
  | .ok s' => s'
  | .error _ => s

theorem attempt_ok {ε σ : Type} {x : Except ε σ} {s s' : σ} (h : x = .ok s') : attempt x s = s' := by
  rw [h]
  rfl

theorem attempt_refused {ε σ : Type} {x : Except ε σ} {s : σ} (h : ∀ s', x ≠ .ok s') : attempt x s = s := by
  cases x with
  | ok s' => exact absurd rfl (h s')
  | error e => rfl

namespace UserMember

def snapshotDelete (m : UserMember) (timestamp : Int) : UserMember :=
  { m with member := m.member.snapshotDelete timestamp }

/-- A commit that makes a new snapshot to stage in, whatever there is for reuse. -/
def commitFresh (m : UserMember) (rank size : Nat) (timestamp : Int) (junk partnerJunk : Nat → UInt8) :
    Except MemberError UserMember := do
  let committed ← m.commit rank size timestamp junk partnerJunk
  let count ← m.elmCount
  let next := (IMRSnapshot.create m.datatype.extent count junk partnerJunk).initCohort rank size
  return { committed with member := { committed.member with stageSnapshot := next } }

end UserMember

/-- What the application does with a member: to store and to commit on all ranks of a cohort, else on one. A commit
may be refused because of another member. -/
inductive ReuseAction (n : Nat) where
  | stage (k : Fin n) (memory : Nat → UInt8) (subset : Specifier)
  | store (varying : Bool) (memory : Fin n → Nat → UInt8) (subsets : Fin n → Option Specifier)
  | commit (junk : Fin n → Nat → Nat → UInt8)
  | refuse
  | snapshotDelete (k : Fin n) (timestamp : Int)

/-- A buddy member on all ranks of a cohort, side by side with one that stages in a new snapshot after each commit,
and what the copy that a rank stages in had left over when its snapshot was taken for reuse. -/
structure ReuseRun (n : Nat) where
  members : Fin n → UserMember
  fresh : Fin n → UserMember
  leftover : Fin n → DataSubset
  timestamp : Int

namespace ReuseRun

variable {n : Nat}

/-- One action on both, which leaves those ranks alone that refuse it. -/
def step (timestart : Int) (c : ReuseRun n) : ReuseAction n → ReuseRun n
  | .stage k memory subset =>
    { c with
      members := Function.update c.members k (attempt ((c.members k).stage memory subset) (c.members k))
      fresh := Function.update c.fresh k (attempt ((c.fresh k).stage memory subset) (c.fresh k)) }
  | .store varying memory subsets =>
    { c with
      members := attempt (UserMember.store (.imr .buddy) varying c.members memory subsets) c.members
      fresh := attempt (UserMember.store (.imr .buddy) varying c.fresh memory subsets) c.fresh }
  | .commit junk =>
    let timestamp := MemberRun.nextTimestamp timestart c.timestamp
    let members := fun k => attempt ((c.members k).commit k n timestamp (junk k 0) (junk k 1)) (c.members k)
    { members := members
      fresh := fun k => attempt ((c.fresh k).commitFresh k n timestamp (junk k 2) (junk k 3)) (c.fresh k)
      leftover := fun k =>
        if (c.members k).member.hasUnstoredData then c.leftover k else (members k).member.stageSnapshot.copied
      timestamp := timestamp }
  | .refuse => { c with timestamp := MemberRun.nextTimestamp timestart c.timestamp }
  | .snapshotDelete k timestamp =>
    { c with
      members := Function.update c.members k ((c.members k).snapshotDelete timestamp)
      fresh := Function.update c.fresh k ((c.fresh k).snapshotDelete timestamp) }

/-- The states that actions are done in. -/
def trace (timestart : Int) (c : ReuseRun n) : List (ReuseAction n) → List (ReuseRun n × ReuseAction n)
  | [] => []
  | a :: rest => (c, a) :: trace timestart (c.step timestart a) rest

/-- A member that has just been created on all ranks, of the same datatype and count. -/
def start (depth : Nat) (data : Fin n → Nat) (count : Nat) (dtype : Datatype) (junk : Fin n → Nat → Nat → UInt8) :
    ReuseRun n where
  members k := .create (.imr .buddy) depth k n (data k) count dtype fun i => junk k i
  fresh k := .create (.imr .buddy) depth k n (data k) count dtype fun i => junk k (i + 2)
  leftover _ := ∅
  timestamp := -1

/-- The collective calls are made as documented: what is stored is the same on all ranks unless it may vary, and no
rank commits while another has not stored what it staged. -/
def Proper (c : ReuseRun n) : ReuseAction n → Prop
  | .store false memory subsets => ∀ staged, UserMember.stageAll c.members memory subsets = .ok staged →
      ∀ k, (staged k).member.stageSnapshot.stagedSubset = (staged (left k)).member.stageSnapshot.stagedSubset
  | .commit _ => ∀ k, (c.members k).member.hasUnstoredData = (c.members (left k)).member.hasUnstoredData
  | _ => True

/-- What the copy has left over is protected again by the left rank when a rank commits. -/
def Covers (c : ReuseRun n) : ReuseAction n → Prop
  | .commit _ => ∀ k, (c.members k).member.hasUnstoredData = false →
      (c.leftover k).idxs ⊆ ((c.members (left k)).member.stageSnapshot.protectedSubset.getD ∅).idxs
  | _ => True

end ReuseRun

/-- Two snapshots cannot be told apart by what is protected in them, nor by their copies. -/
structure IMRSnapshot.Same (extent : Nat) (s t : IMRSnapshot) : Prop where
  protectedSubset : s.protectedSubset = t.protectedSubset
  own : ∀ i ∈ (t.protectedSubset.getD ∅).idxs, ∀ b < extent,
    s.buf.bytes (i * extent + b) = t.buf.bytes (i * extent + b)
  stagedSubset : s.partner.stagedSubset = t.partner.stagedSubset
  data : ∀ i ∈ t.copied.idxs, ∀ b < extent, s.partner.buf.bytes (i * extent + b) = t.partner.buf.bytes (i * extent + b)

/-- The copy of a rank is of what the left one has protected, and as many elements as that one awaits in a repair. -/
structure IMRSnapshot.Copies (s t : IMRSnapshot) : Prop where
  stagedSubset : s.partner.stagedSubset = t.protectedSubset
  length : s.copied.elems.length = ((t.protectedSubset.getD ∅).upTo t.elmMaxCount).elems.length

/-- What is committed is as if there were no reuse of snapshots, and each rank has a copy of what the left one has
committed with a timestamp. -/
structure ReuseRun.Unobservable {n : Nat} (c : ReuseRun n) : Prop where
  same : ∀ k timestamp, Option.Rel (IMRSnapshot.Same (c.members k).datatype.extent)
    ((c.members k).member.commitSnapshots.find? timestamp) ((c.fresh k).member.commitSnapshots.find? timestamp)
  copies : ∀ k timestamp, ∀ s ∈ (c.members k).member.commitSnapshots.find? timestamp,
    ∀ t ∈ (c.members (left k)).member.commitSnapshots.find? timestamp, s.Copies t

section Twins

variable {s t : IMRSnapshot} {rank size extent count : Nat} {a b : Account} {leftover : DataSubset}

theorem IMRSnapshot.same_iff (hs : s.Holds rank size extent count a leftover)
    (ht : t.Holds rank size extent count a ∅) : s.Same extent t ↔ leftover.idxs ⊆ a.copied.idxs := by
  have hnone : (∅ : DataSubset) + a.copied = a.copied := congrArg DataSubset.mk (Finset.empty_union _)
  obtain ⟨hs', _⟩ := hs.copied_eq
  obtain ⟨ht', htcopied⟩ := ht.copied_eq
  rw [hnone] at ht' htcopied
  constructor
  · intro h
    have heq := Option.some.inj (hs'.symm.trans (h.stagedSubset.trans ht'))
    exact fun i hi => heq ▸ DataSubset.mem_add.mpr (Or.inl hi)
  · intro h
    have hunion : leftover + a.copied = a.copied := congrArg DataSubset.mk (Finset.union_eq_right.mpr h)
    have hprotected := UserMember.protectedSubset_eq ht.own
    refine ⟨(UserMember.protectedSubset_eq hs.own).trans hprotected.symm, fun j hj c hc => ?_, ?_, fun j hj c hc => ?_⟩
    · rw [hprotected] at hj
      have hin := Finset.mem_union_right a.staged.idxs hj
      rw [hs.own.values j hin c hc, ht.own.values j hin c hc]
    · rw [hs', hunion, ht']
    · rw [htcopied] at hj
      obtain ⟨value, hv, hcopied⟩ := hs.copy
      obtain ⟨value', hv', hcopied'⟩ := ht.copy
      rw [hv.values j (Finset.mem_union_left _ (DataSubset.mem_add.mpr (Or.inr hj))) c hc,
        hv'.values j (Finset.mem_union_left _ (DataSubset.mem_add.mpr (Or.inr hj))) c hc, hcopied j hj c hc,
        hcopied' j hj c hc]

theorem IMRSnapshot.copies_of_subset {rank' : Nat} {leftover' : DataSubset}
    (hs : s.Holds rank size extent count a leftover) (ht : t.Holds rank' size extent count b leftover')
    (hcopied : a.copied = b.protectedBy) (h : leftover.idxs ⊆ a.copied.idxs) : s.Copies t := by
  have hunion : leftover + a.copied = a.copied := congrArg DataSubset.mk (Finset.union_eq_right.mpr h)
  obtain ⟨hstaged, hscopied⟩ := hs.copied_eq
  have hprotected := UserMember.protectedSubset_eq ht.own
  refine ⟨?_, ?_⟩
  · rw [hstaged, hunion, hprotected, hcopied]
  · have hall : b.protectedBy.upTo t.elmMaxCount = b.protectedBy :=
      DataSubset.upTo_of_below fun i hi => ht.elmMaxCount ▸ ht.below i (Finset.mem_union_right _ hi)
    rw [hscopied, hunion, hprotected, hcopied]
    exact congrArg (fun s : DataSubset => s.elems.length) hall.symm

end Twins

/-- Snapshots committed with the same timestamp, no later than the last one, that have what the record of it says. -/
structure IMRSnapshot.Twin (rank size extent count : Nat) (timestamp : Int) (records : Int → Account)
    (leftovers : Int → DataSubset) (s t : IMRSnapshot) : Prop where
  timestamp_le : s.timestamp ≤ timestamp
  timestamp_eq : t.timestamp = s.timestamp
  holds : s.Holds rank size extent count (records s.timestamp) (leftovers s.timestamp)
  fresh : t.Holds rank size extent count (records s.timestamp) ∅

/-- A member and one that does not reuse snapshots, with the account of what they stage in. -/
structure UserMember.Twin (rank size count : Nat) (dtype : Datatype) (timestamp : Int) (a : Account)
    (leftover : DataSubset) (records : Int → Account) (leftovers : Int → DataSubset) (m f : UserMember) : Prop where
  counted : m.Counted
  count_eq : m.count = count
  datatype : m.datatype = dtype
  userData : f.userData = m.userData
  datatype' : f.datatype = dtype
  depth : f.member.depth = m.member.depth
  stage : m.member.stageSnapshot.Holds rank size dtype.extent count a leftover
  fresh : f.member.stageSnapshot.Holds rank size dtype.extent count a ∅
  size_eq : f.member.stageSnapshot.buf.size = m.member.stageSnapshot.buf.size
  avail : ∀ s ∈ m.member.availSnapshots, s.Spare rank dtype.extent count
  committed : List.Forall₂ (IMRSnapshot.Twin rank size dtype.extent count timestamp records leftovers)
    m.member.commitSnapshots.entries f.member.commitSnapshots.entries

namespace UserMember

variable {rank size count : Nat} {dtype : Datatype} {timestamp : Int} {a : Account} {leftover : DataSubset}
  {records : Int → Account} {leftovers : Int → DataSubset} {m m' f : UserMember}

theorem Twin.counted' (h : Twin rank size count dtype timestamp a leftover records leftovers m f) : f.Counted ∧
    f.count = count := by
  have hcount : f.count = m.count := by
    unfold UserMember.count
    rw [h.userData, h.datatype', h.datatype]
  refine ⟨⟨?_, ?_⟩, hcount.trans h.count_eq⟩
  · rw [h.datatype', ← h.datatype]
    exact h.counted.1
  · rw [h.userData, hcount, h.datatype', ← h.datatype]
    exact h.counted.2

theorem Twin.element_eq (h : Twin rank size count dtype timestamp a leftover records leftovers m f)
    (memory : Nat → UInt8) : f.element memory = m.element memory := by
  unfold element
  rw [h.userData, h.datatype', h.datatype]

/-- Both stage, or both refuse to. -/
theorem stage_twin (memory : Nat → UInt8) (subset : Specifier)
    (h : Twin rank size count dtype timestamp a leftover records leftovers m f) :
    (∃ e e', m.stage memory subset = .error e ∧ f.stage memory subset = .error e') ∨
    ∃ m' f', m.stage memory subset = .ok m' ∧ f.stage memory subset = .ok f' ∧
      Twin rank size count dtype timestamp (a.stage subset count (m.element memory)) leftover records leftovers m' f' := by
  have htype := h.datatype'.trans h.datatype.symm
  have helm := h.fresh.own.elmSize.trans h.stage.own.elmSize.symm
  cases hm : m.stage memory subset with
  | error e =>
    cases hf : f.stage memory subset with
    | error e' => exact Or.inl ⟨e, e', rfl, rfl⟩
    | ok f' =>
      obtain ⟨m', hm'⟩ := stage_accepted h.userData.symm htype.symm helm.symm h.size_eq.symm hf
      rw [hm] at hm'
      cases hm'
  | ok m' =>
    obtain ⟨f', hf⟩ := stage_accepted h.userData htype helm h.size_eq hm
    obtain ⟨hfcounted, hfcount⟩ := h.counted'
    have hsize := stage_size h.stage h.fresh rfl h.userData htype h.size_eq hm hf
    have hstage := stage_holds h.counted (by rw [h.datatype, h.count_eq]; exact h.stage) hm
    have hfresh := stage_holds hfcounted (by rw [h.datatype', hfcount]; exact h.fresh) hf
    rw [h.datatype, h.count_eq] at hstage
    rw [h.datatype', hfcount, h.element_eq] at hfresh
    refine Or.inr ⟨m', f', rfl, hf, ?_⟩
    obtain ⟨_, _, _, _, _, _, _, rfl⟩ := stage_cases hm
    obtain ⟨_, _, _, _, _, _, _, rfl⟩ := stage_cases hf
    exact ⟨h.counted, h.count_eq, h.datatype, h.userData, h.datatype', h.depth, hstage, hfresh, hsize, h.avail,
      h.committed⟩

section Store

variable {n : Nat} {accounts : Fin n → Account} {kept : Fin n → DataSubset} {snaps : Fin n → IMRSnapshot}
  {extent : Nat}

/-- What the ranks know in a store of what the left ones have staged. -/
theorem store_known (varying : Bool) (h : ∀ k, (snaps k).Holds k n extent count (accounts k) (kept k))
    (hsame : varying = false → ∀ k, (accounts k).staged = (accounts (left k)).staged) :
    ∃ stored, protect (.imr .buddy) (if varying then exchange snaps else fun k => spread (snaps k)) = .ok stored ∧
      ∀ k, (stored k).Holds k n extent count ((accounts k).store (accounts (left k))) (kept k) ∧
        (stored k).buf = (snaps k).buf := by
  cases varying with
  | true =>
    obtain ⟨stored, hstored, hholds⟩ := protect_holds (fun k => (exchange_holds h k).1) fun k => (exchange_holds h k).2
    exact ⟨stored, hstored, hholds⟩
  | false =>
    have hspread := fun k => spread_holds h k (hsame rfl k)
    obtain ⟨stored, hstored, hholds⟩ := protect_holds (fun k => (hspread k).1) fun k => (hspread k).2
    exact ⟨stored, hstored, hholds⟩

variable {ms fs : Fin n → UserMember} {allRecords : Fin n → Int → Account} {allKept : Fin n → Int → DataSubset}

/-- What a rank is asked to stage in a store. -/
def stageAsked (m : UserMember) (memory : Nat → UInt8) (subset : Option Specifier) : Except MemberError UserMember :=
  subset.elim (.ok m) (m.stage memory)

theorem stageAll_eq_ok_iff {ms staged : Fin n → UserMember} {memory : Fin n → Nat → UInt8}
    {subsets : Fin n → Option Specifier} : stageAll ms memory subsets = .ok staged ↔
      ∀ k, (ms k).stageAsked (memory k) (subsets k) = .ok (staged k) := by
  refine Except.sequence_eq_ok_iff.trans (forall_congr' fun k => ?_)
  unfold stageAsked
  cases subsets k with
  | none => exact Iff.rfl
  | some subset => exact Iff.rfl

theorem stageAsked_twin (memory : Nat → UInt8) (subset : Option Specifier)
    (h : Twin rank size count dtype timestamp a leftover records leftovers m f) :
    (∃ e e', m.stageAsked memory subset = .error e ∧ f.stageAsked memory subset = .error e') ∨
    ∃ m' f' a', m.stageAsked memory subset = .ok m' ∧ f.stageAsked memory subset = .ok f' ∧ a'.copied = a.copied ∧
      a'.protectedBy = a.protectedBy ∧ Twin rank size count dtype timestamp a' leftover records leftovers m' f' := by
  cases subset with
  | none => exact Or.inr ⟨m, f, a, rfl, rfl, rfl, rfl, h⟩
  | some subset =>
    rcases stage_twin memory subset h with herr | ⟨m', f', hm, hf, htwin⟩
    · exact Or.inl herr
    · exact Or.inr ⟨m', f', a.stage subset count (m.element memory), hm, hf, rfl, rfl, htwin⟩

/-- Both store, or both refuse to. -/
theorem store_twin (varying : Bool) (memory : Fin n → Nat → UInt8) (subsets : Fin n → Option Specifier)
    (h : ∀ k : Fin n, Twin k n count dtype timestamp (accounts k) (kept k) (allRecords k) (allKept k) (ms k) (fs k))
    (hproper : varying = false → ∀ staged, stageAll ms memory subsets = .ok staged →
      ∀ k, (staged k).member.stageSnapshot.stagedSubset = (staged (left k)).member.stageSnapshot.stagedSubset)
    (hcopied : ∀ k, (accounts k).copied = (accounts (left k)).protectedBy) :
    ∃ accounts' : Fin n → Account, (∀ k, (accounts' k).copied = (accounts' (left k)).protectedBy) ∧
      ∀ k : Fin n, Twin k n count dtype timestamp (accounts' k) (kept k) (allRecords k) (allKept k)
        (attempt (store (.imr .buddy) varying ms memory subsets) ms k)
        (attempt (store (.imr .buddy) varying fs memory subsets) fs k) := by
  have hone := fun k => stageAsked_twin (memory k) (subsets k) (h k)
  by_cases herr : ∃ k, ∃ e e', (ms k).stageAsked (memory k) (subsets k) = .error e ∧
      (fs k).stageAsked (memory k) (subsets k) = .error e'
  · obtain ⟨k, e, e', hm, hf⟩ := herr
    have hrefused : ∀ (xs : Fin n → UserMember) (e : MemberError),
        (xs k).stageAsked (memory k) (subsets k) = .error e →
        attempt (store (.imr .buddy) varying xs memory subsets) xs = xs := by
      intro xs e hx
      refine attempt_refused fun ys hys => ?_
      obtain ⟨staged, hstaged, _⟩ := Except.bind_eq_ok_iff.mp hys
      have hk := stageAll_eq_ok_iff.mp hstaged k
      rw [hx] at hk
      cases hk
    rw [hrefused ms e hm, hrefused fs e' hf]
    exact ⟨accounts, hcopied, h⟩
  · have hok := fun k => (hone k).resolve_left fun hk => herr ⟨k, hk⟩
    choose m' f' a' hm hf hsame hprotected htwin using hok
    have hstaged := stageAll_eq_ok_iff.mpr hm
    have hstaged' := stageAll_eq_ok_iff.mpr hf
    have hknown : varying = false → ∀ k, (a' k).staged = (a' (left k)).staged := fun hv k => by
      have heq := hproper hv m' hstaged k
      rw [stagedSubset_eq (htwin k).stage.own, stagedSubset_eq (htwin (left k)).stage.own] at heq
      exact Option.some.inj heq
    obtain ⟨stored, hstored, hholds⟩ := store_known varying (fun k => (htwin k).stage) hknown
    obtain ⟨stored', hstored', hholds'⟩ := store_known varying (fun k => (htwin k).fresh) hknown
    have hms : store (.imr .buddy) varying ms memory subsets = .ok fun k =>
        { m' k with member := { (m' k).member with stageSnapshot := stored k } } :=
      Except.bind_eq_ok_iff.mpr ⟨m', hstaged, Except.bind_eq_ok_iff.mpr ⟨stored, hstored, rfl⟩⟩
    have hfs : store (.imr .buddy) varying fs memory subsets = .ok fun k =>
        { f' k with member := { (f' k).member with stageSnapshot := stored' k } } :=
      Except.bind_eq_ok_iff.mpr ⟨f', hstaged', Except.bind_eq_ok_iff.mpr ⟨stored', hstored', rfl⟩⟩
    rw [attempt_ok hms, attempt_ok hfs]
    refine ⟨fun k => (a' k).store (a' (left k)), fun k => ?_, fun k => ?_⟩
    · change (a' k).copied + (a' (left k)).staged = (a' (left k)).protectedBy + (a' (left k)).staged
      rw [hsame, hcopied, hprotected]
    · have ht := htwin k
      refine ⟨ht.counted, ht.count_eq, ht.datatype, ht.userData, ht.datatype', ht.depth, (hholds k).1, (hholds' k).1, ?_,
        ht.avail, ht.committed⟩
      change (stored' k).buf.size = (stored k).buf.size
      rw [(hholds k).2, (hholds' k).2]
      exact ht.size_eq

end Store

section Commit

variable {next : Int}

/-- The member with the snapshot it stages in committed. -/
def committing (m : UserMember) (timestamp : Int) : DataMember :=
  { m.member with
    elmSize := m.datatype.extent
    elmCount := m.count
    commitSnapshots := m.member.commitSnapshots.insert { m.member.stageSnapshot with timestamp := timestamp } }

theorem commit_eq (hc : m.Counted) (junk partnerJunk : Nat → UInt8) : m.commit rank size next junk partnerJunk =
    if m.member.hasUnstoredData then .error .memberUnstored
    else .ok { m with member := (m.committing next).trim.restage rank size junk partnerJunk } := by
  unfold commit
  split
  next => rfl
  next hstored =>
    have hempty := not_not.mp (of_decide_eq_false (Bool.eq_false_of_not_eq_true hstored))
    have hcommit : ({ m.member with elmSize := m.datatype.extent, elmCount := m.count } : DataMember).commit rank size
        next junk partnerJunk = .ok ((m.committing next).trim.restage rank size junk partnerJunk) := if_pos hempty
    rw [elmCount_ok hc]
    dsimp only
    split
    next member hm =>
      cases Except.ok.inj (hm.symm.trans hcommit)
      rfl
    next e he => cases he.symm.trans hcommit

theorem commitFresh_eq (hc : m.Counted) (junk partnerJunk : Nat → UInt8) :
    m.commitFresh rank size next junk partnerJunk =
      if m.member.hasUnstoredData then .error .memberUnstored
      else .ok { m with member := { (m.committing next).trim.restage rank size junk partnerJunk with
        stageSnapshot := (IMRSnapshot.create m.datatype.extent m.count junk partnerJunk).initCohort rank size } } := by
  unfold commitFresh
  rw [commit_eq hc, elmCount_ok hc]
  split <;> rfl

/-- A record that is made for a new timestamp leaves those of the earlier ones alone. -/
theorem twin_record {s t : IMRSnapshot} {extent : Nat} (hlt : timestamp < next) (b : Account) (later : DataSubset)
    (h : s.Twin rank size extent count timestamp records leftovers t) :
    s.Twin rank size extent count next (Function.update records next b) (Function.update leftovers next later) t := by
  have hne : s.timestamp ≠ next := Int.ne_of_lt (Int.lt_of_le_of_lt h.timestamp_le hlt)
  refine ⟨by have hle := h.timestamp_le; omega, h.timestamp_eq, ?_, ?_⟩
  · rw [Function.update_of_ne hne, Function.update_of_ne hne]
    exact h.holds
  · rw [Function.update_of_ne hne]
    exact h.fresh

theorem Holds.setTimestamp {s : IMRSnapshot} {extent : Nat} (h : s.Holds rank size extent count a leftover) (ts : Int) :
    ({ s with timestamp := ts } : IMRSnapshot).Holds rank size extent count a leftover :=
  ⟨⟨h.own.cohortRank, h.own.stagedSubset, h.own.protectedSubset, h.own.elmSize, h.own.bounded, h.own.room,
    h.own.values⟩, h.ranks, h.elmMaxCount, h.below, h.copy, h.copyMaxCount⟩

/-- The snapshots that are committed with a new one, before they are trimmed. -/
theorem committing_twin (hlt : timestamp < next)
    (h : Twin rank size count dtype timestamp a leftover records leftovers m f) :
    (m.committing next).commitSnapshots.entries =
        m.member.commitSnapshots.entries ++ [{ m.member.stageSnapshot with timestamp := next }] ∧
      List.Forall₂ (IMRSnapshot.Twin rank size dtype.extent count next (Function.update records next a)
        (Function.update leftovers next leftover)) (m.committing next).commitSnapshots.entries
        (f.committing next).commitSnapshots.entries := by
  have hold : ∀ s ∈ m.member.commitSnapshots, s.timestamp < next := fun s hs => by
    obtain ⟨t, _, ht⟩ := List.exists_right_of_forall₂ h.committed hs
    exact Int.lt_of_le_of_lt ht.timestamp_le hlt
  have hold' : ∀ t ∈ f.member.commitSnapshots, t.timestamp < next := fun t ht => by
    obtain ⟨s, _, hs⟩ := List.exists_left_of_forall₂ h.committed ht
    rw [hs.timestamp_eq]
    exact Int.lt_of_le_of_lt hs.timestamp_le hlt
  have hins : (m.committing next).commitSnapshots.entries =
      m.member.commitSnapshots.entries ++ [{ m.member.stageSnapshot with timestamp := next }] :=
    IndexedSet.entries_insert_last hold
  have hins' : (f.committing next).commitSnapshots.entries =
      f.member.commitSnapshots.entries ++ [{ f.member.stageSnapshot with timestamp := next }] :=
    IndexedSet.entries_insert_last hold'
  refine ⟨hins, ?_⟩
  rw [hins, hins']
  refine List.rel_append (h.committed.imp fun _ _ => twin_record hlt a leftover) ?_
  refine List.Forall₂.cons ⟨Int.le_refl next, rfl, ?_, ?_⟩ List.Forall₂.nil
  · change ({ m.member.stageSnapshot with timestamp := next } : IMRSnapshot).Holds _ _ _ _
      (Function.update records next a next) (Function.update leftovers next leftover next)
    rw [Function.update_self, Function.update_self]
    exact Holds.setTimestamp h.stage next
  · change ({ f.member.stageSnapshot with timestamp := next } : IMRSnapshot).Holds _ _ _ _
      (Function.update records next a next) ∅
    rw [Function.update_self]
    exact Holds.setTimestamp h.fresh next

/-- Both commit, or both refuse to. -/
theorem commit_twin (hrank : rank < size) (hlt : timestamp < next)
    (h : Twin rank size count dtype timestamp a leftover records leftovers m f) (junk : Nat → Nat → UInt8) :
    let m' := attempt (m.commit rank size next (junk 0) (junk 1)) m
    Twin rank size count dtype next
      (if m.member.hasUnstoredData then a else .empty (fun _ _ => 0) fun _ _ => 0)
      (if m.member.hasUnstoredData then leftover else m'.member.stageSnapshot.copied)
      (Function.update records next a) (Function.update leftovers next leftover) m'
      (attempt (f.commitFresh rank size next (junk 2) (junk 3)) f) := by
  obtain ⟨hfcounted, hfcount⟩ := h.counted'
  have hunstored : f.member.hasUnstoredData = m.member.hasUnstoredData := by
    unfold DataMember.hasUnstoredData
    rw [stagedSubset_eq h.fresh.own, stagedSubset_eq h.stage.own]
  dsimp only
  rw [commit_eq h.counted, commitFresh_eq hfcounted, hunstored]
  by_cases hu : m.member.hasUnstoredData = true
  · rw [if_pos hu, if_pos hu, if_pos hu, if_pos hu]
    exact ⟨h.counted, h.count_eq, h.datatype, h.userData, h.datatype', h.depth, h.stage, h.fresh, h.size_eq, h.avail,
      h.committed.imp fun _ _ => twin_record hlt a leftover⟩
  · rw [if_neg hu, if_neg hu, if_neg hu, if_neg hu]
    obtain ⟨_, hkept⟩ := committing_twin hlt h
    have hspare : ∀ s ∈ (m.committing next).commitSnapshots, s.reset.Spare rank dtype.extent count := fun s hs => by
      obtain ⟨t, _, ht⟩ := List.exists_right_of_forall₂ hkept hs
      exact ht.holds.reset_spare
    have havail := DataMember.trim_spare hspare h.avail
    obtain ⟨hholds, hzero, hrest⟩ := DataMember.restage_holds (m := (m.committing next).trim) hrank
      (congrArg Datatype.extent h.datatype) h.count_eq havail (junk 0) (junk 1)
      (fun _ _ => 0) fun _ _ => 0
    obtain ⟨hfresh, hfzero⟩ := (IMRSnapshot.create_spare rank dtype.extent count (junk 2) (junk 3)).initCohort
      hrank (fun _ _ => 0) fun _ _ => 0
    have htrim := DataMember.trim_kept (m := m.committing next) (f := f.committing next) h.depth hkept
    refine ⟨h.counted, h.count_eq, h.datatype, h.userData, h.datatype', h.depth, hholds, ?_, ?_, hrest, ?_⟩
    · rw [IMRSnapshot.create_copied hrank] at hfresh
      change ((IMRSnapshot.create f.datatype.extent f.count (junk 2) (junk 3)).initCohort rank size).Holds _ _ _ _ _ _
      rw [h.datatype', hfcount]
      exact hfresh
    · change ((IMRSnapshot.create f.datatype.extent f.count (junk 2) (junk 3)).initCohort rank size).buf.size = _
      rw [h.datatype', hfcount]
      exact hfzero.trans hzero.symm
    · change List.Forall₂ _ ((m.committing next).trim.restage rank size (junk 0) (junk 1)).commitSnapshots.entries
        ((f.committing next).trim.restage rank size (junk 2) (junk 3)).commitSnapshots.entries
      rw [DataMember.restage_commitSnapshots, DataMember.restage_commitSnapshots]
      exact htrim

theorem snapshotDelete_twin (ts : Int)
    (h : Twin rank size count dtype timestamp a leftover records leftovers m f) :
    Twin rank size count dtype timestamp a leftover records leftovers (m.snapshotDelete ts) (f.snapshotDelete ts) := by
  have hspare : ∀ s ∈ m.member.commitSnapshots, s.reset.Spare rank dtype.extent count := fun s hs => by
    obtain ⟨t, _, ht⟩ := List.exists_right_of_forall₂ h.committed hs
    exact ht.holds.reset_spare
  exact ⟨h.counted, h.count_eq, h.datatype, h.userData, h.datatype', h.depth, h.stage, h.fresh, h.size_eq,
    DataMember.snapshotDelete_spare ts hspare h.avail,
    DataMember.snapshotDelete_kept ts (fun _ _ ht => ht.timestamp_eq) h.committed⟩

/-- A commit keeps no snapshots but those there were and the one that was staged in. -/
theorem commit_entries (hc : m.Counted) (hold : ∀ s ∈ m.member.commitSnapshots, s.timestamp < next)
    (rank size : Nat) (junk partnerJunk : Nat → UInt8) :
    let m' := attempt (m.commit rank size next junk partnerJunk) m
    (∀ s ∈ m'.member.commitSnapshots, s ∈ m.member.commitSnapshots ∨
      m.member.hasUnstoredData = false ∧ s.timestamp = next) ∧
    (m.member.hasUnstoredData = false → ∃ s ∈ m'.member.commitSnapshots, s.timestamp = next) := by
  dsimp only
  rw [commit_eq hc]
  by_cases hu : m.member.hasUnstoredData = true
  · rw [if_pos hu]
    exact ⟨fun s hs => Or.inl hs, fun hf => absurd (hu.symm.trans hf) (by decide)⟩
  · rw [if_neg hu]
    have hstored := Bool.eq_false_of_not_eq_true hu
    change (∀ s ∈ ((m.committing next).trim.restage _ _ _ _).commitSnapshots, _) ∧
      (_ → ∃ s ∈ ((m.committing next).trim.restage _ _ _ _).commitSnapshots, _)
    rw [DataMember.restage_commitSnapshots]
    have hadded : ∀ s ∈ (m.committing next).commitSnapshots,
        s ∈ m.member.commitSnapshots ∨ s.timestamp = next := fun s hs => by
      rcases IndexedSet.mem_of_mem_insert hs with rfl | hs
      · exact Or.inr rfl
      · exact Or.inl hs
    refine ⟨fun s hs => ?_, fun _ => ?_⟩
    · have hin : s ∈ (m.committing next).commitSnapshots := by
        rcases (m.committing next).trim_cases with ⟨_, htrim⟩ | ⟨x, xs, hx, _, htrim, _⟩
        · rwa [htrim] at hs
        · rw [IndexedSet.mem_def, htrim] at hs
          rw [IndexedSet.mem_def, hx]
          exact List.mem_cons_of_mem x hs
      exact (hadded s hin).imp_right fun h => ⟨hstored, h⟩
    · have hfind := Pool.trim_insert_find? (p := m.member.pool) (x := { m.member.stageSnapshot with timestamp := next })
        IMRSnapshot.reset (Nat.succ_pos m.member.depth) hold
      exact ⟨_, IndexedSet.find?_some hfind⟩

end Commit

section Start

theorem create_twin {depth data : Nat} (hpos : 0 < dtype.extent) (hrank : rank < size) (junk junk' : Nat → Nat → UInt8) :
    Twin rank size count dtype (-1) (.empty (fun _ _ => 0) fun _ _ => 0) ∅ records leftovers
      (create (.imr .buddy) depth rank size data count dtype junk)
      (create (.imr .buddy) depth rank size data count dtype junk') := by
  have hcount : (create (.imr .buddy) depth rank size data count dtype junk).count = count := count_userBytes hpos rfl
  have hstage : ∀ junk : Nat → Nat → UInt8,
      (create (.imr .buddy) depth rank size data count dtype junk).member.stageSnapshot.Holds rank size dtype.extent count
        (.empty (fun _ _ => 0) fun _ _ => 0) ∅ ∧
      (create (.imr .buddy) depth rank size data count dtype junk).member.stageSnapshot.buf.size = 0 := fun junk => by
    have hinit := (IMRSnapshot.create_spare rank dtype.extent count (junk 0) (junk 1)).initCohort hrank
      (fun _ _ => 0) fun _ _ => 0
    rw [IMRSnapshot.create_copied hrank] at hinit
    exact hinit
  refine ⟨⟨hpos, by rw [hcount]; rfl⟩, hcount, rfl, rfl, rfl, rfl, (hstage junk).1, (hstage junk').1,
    (hstage junk').2.trans (hstage junk).2.symm, fun s hs => ?_, List.Forall₂.nil⟩
  have hnew : (IMRSnapshot.create dtype.extent count (junk 0) (junk 1)).Spare rank dtype.extent count :=
    IMRSnapshot.create_spare _ _ _ _ _
  have hall : ∀ x ∈ List.replicate (depth + 1) (IMRSnapshot.create dtype.extent count (junk 0) (junk 1)),
      x = IMRSnapshot.create dtype.extent count (junk 0) (junk 1) := fun x hx => List.eq_of_mem_replicate hx
  rcases List.mem_append.mp hs with hs | hs
  · rw [hall s hs]
    exact hnew
  · obtain ⟨x, hx, rfl⟩ := List.mem_map.mp hs
    rw [hall x hx]
    exact ⟨hnew.fresh, hnew.size, hnew.elmMaxCount, Or.inl ⟨rfl, rfl, rfl, rfl⟩, hnew.copyMaxCount⟩

end Start

end UserMember

end Fenix
