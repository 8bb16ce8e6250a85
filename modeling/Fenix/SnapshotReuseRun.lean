import Fenix.SnapshotReuse

namespace Fenix

open BuddyMember (left)

namespace ReuseRun

variable {n count : Nat} {dtype : Datatype} {timestart : Int} {c : ReuseRun n} {accounts : Fin n → Account}
  {records : Fin n → Int → Account} {kept : Fin n → Int → DataSubset}

/-- The members have what the accounts say, and the records of what they have committed. -/
structure Lockstep (count : Nat) (dtype : Datatype) (c : ReuseRun n) (accounts : Fin n → Account)
    (records : Fin n → Int → Account) (kept : Fin n → Int → DataSubset) : Prop where
  timestamp_ge : -1 ≤ c.timestamp
  twin : ∀ k : Fin n, UserMember.Twin k n count dtype c.timestamp (accounts k) (c.leftover k) (records k) (kept k)
    (c.members k) (c.fresh k)
  copied : ∀ k, (accounts k).copied = (accounts (left k)).protectedBy
  recorded : ∀ k timestamp, (records k timestamp).copied = (records (left k) timestamp).protectedBy

/-- Whatever the copies of committed snapshots had left over has been copied again. -/
def Clean (c : ReuseRun n) (records : Fin n → Int → Account) (kept : Fin n → Int → DataSubset) : Prop :=
  ∀ k, ∀ s ∈ (c.members k).member.commitSnapshots, (kept k s.timestamp).idxs ⊆ (records k s.timestamp).copied.idxs

theorem Lockstep.twin_of_mem (h : Lockstep count dtype c accounts records kept) {k : Fin n} {s : IMRSnapshot}
    (hs : s ∈ (c.members k).member.commitSnapshots) : ∃ t, (c.fresh k).member.commitSnapshots.find? s.timestamp = some t ∧
      s.Twin k n dtype.extent count c.timestamp (records k) (kept k) t := by
  obtain ⟨t, ht, htwin⟩ := List.exists_right_of_forall₂ (h.twin k).committed hs
  exact ⟨t, IndexedSet.find?_eq_some_iff.mpr ⟨ht, htwin.timestamp_eq⟩, htwin⟩

theorem Lockstep.older (h : Lockstep count dtype c accounts records kept) (k : Fin n) {next : Int}
    (hlt : c.timestamp < next) : ∀ s ∈ (c.members k).member.commitSnapshots, s.timestamp < next := fun s hs => by
  obtain ⟨t, _, htwin⟩ := h.twin_of_mem hs
  exact Int.lt_of_le_of_lt htwin.timestamp_le hlt

theorem Lockstep.unobservable_iff (h : Lockstep count dtype c accounts records kept) :
    c.Unobservable ↔ c.Clean records kept := by
  constructor
  · intro hu k s hs
    obtain ⟨t, ht, htwin⟩ := h.twin_of_mem hs
    have hsame := hu.same k s.timestamp
    rw [IndexedSet.find?_eq_some_of_mem hs, ht, (h.twin k).datatype] at hsame
    cases hsame with
    | some hsame => exact (IMRSnapshot.same_iff htwin.holds htwin.fresh).mp hsame
  · intro hclean
    refine ⟨fun k ts => ?_, fun k ts s hs t ht => ?_⟩
    · rw [(h.twin k).datatype]
      cases hf : (c.members k).member.commitSnapshots.find? ts with
      | some s =>
        obtain ⟨hs, rfl⟩ := IndexedSet.find?_some hf
        obtain ⟨t, ht, htwin⟩ := h.twin_of_mem hs
        rw [ht]
        exact Option.Rel.some ((IMRSnapshot.same_iff htwin.holds htwin.fresh).mpr (hclean k s hs))
      | none =>
        cases hf' : (c.fresh k).member.commitSnapshots.find? ts with
        | none => exact Option.Rel.none
        | some t =>
          obtain ⟨ht, rfl⟩ := IndexedSet.find?_some hf'
          obtain ⟨s, hs, htwin⟩ := List.exists_left_of_forall₂ (h.twin k).committed ht
          exact absurd htwin.timestamp_eq.symm (IndexedSet.find?_none hf s hs)
    · obtain ⟨hsin, rfl⟩ := IndexedSet.find?_some hs
      obtain ⟨htin, hts⟩ := IndexedSet.find?_some ht
      obtain ⟨_, _, hstwin⟩ := h.twin_of_mem hsin
      obtain ⟨_, _, httwin⟩ := h.twin_of_mem htin
      have httwin' := httwin.holds
      rw [hts] at httwin'
      exact IMRSnapshot.copies_of_subset hstwin.holds httwin' (h.recorded k s.timestamp) (hclean k s hsin)

section Steps

theorem stage_commits {m : UserMember} {memory : Nat → UInt8} {subset : Specifier} :
    (attempt (m.stage memory subset) m).member.commitSnapshots = m.member.commitSnapshots := by
  cases hm : m.stage memory subset with
  | error e => rfl
  | ok m' =>
    obtain ⟨_, _, _, _, _, _, _, rfl⟩ := UserMember.stage_cases hm
    rfl

theorem store_commits {varying : Bool} {ms : Fin n → UserMember} {memory : Fin n → Nat → UInt8}
    {subsets : Fin n → Option Specifier} (k : Fin n) :
    (attempt (UserMember.store (.imr .buddy) varying ms memory subsets) ms k).member.commitSnapshots =
      (ms k).member.commitSnapshots := by
  cases hms : UserMember.store (.imr .buddy) varying ms memory subsets with
  | error e => rfl
  | ok ms' =>
    obtain ⟨mid, hmid, hstored⟩ := UserMember.store_cases hms
    obtain ⟨s, hk, _⟩ := hstored k
    change (ms' k).member.commitSnapshots = _
    rw [hk]
    change (mid k).member.commitSnapshots = _
    rcases hmid k with ⟨_, heq⟩ | ⟨subset, _, hstage⟩
    · rw [heq]
    · obtain ⟨_, _, _, _, _, _, _, hm⟩ := UserMember.stage_cases hstage
      rw [hm]

theorem clean_of_commits {c' : ReuseRun n} (h : ∀ k, ∀ s ∈ (c'.members k).member.commitSnapshots,
    s ∈ (c.members k).member.commitSnapshots) (hc : c.Clean records kept) : c'.Clean records kept :=
  fun k s hs => hc k s (h k s hs)

/-- An operation of one rank that protects and copies nothing. -/
theorem Lockstep.update (h : Lockstep count dtype c accounts records kept) (k : Fin n) {a : Account} {m f : UserMember}
    (hcopied : a.copied = (accounts k).copied) (hprotected : a.protectedBy = (accounts k).protectedBy)
    (htwin : UserMember.Twin k n count dtype c.timestamp a (c.leftover k) (records k) (kept k) m f) :
    Lockstep count dtype { c with members := Function.update c.members k m, fresh := Function.update c.fresh k f }
      (Function.update accounts k a) records kept := by
  have hsame : ∀ j, (Function.update accounts k a j).copied = (accounts j).copied ∧
      (Function.update accounts k a j).protectedBy = (accounts j).protectedBy := fun j => by
    by_cases hj : j = k
    · subst hj
      rw [Function.update_self]
      exact ⟨hcopied, hprotected⟩
    · rw [Function.update_of_ne hj]
      exact ⟨rfl, rfl⟩
  refine ⟨h.timestamp_ge, fun j => ?_, fun j => ?_, h.recorded⟩
  · dsimp only
    by_cases hj : j = k
    · subst hj
      rw [Function.update_self, Function.update_self, Function.update_self]
      exact htwin
    · rw [Function.update_of_ne hj, Function.update_of_ne hj, Function.update_of_ne hj]
      exact h.twin j
  · rw [(hsame j).1, (hsame (left j)).2, h.copied]

theorem stage_lockstep (timestart : Int) (h : Lockstep count dtype c accounts records kept) (k : Fin n) (memory : Nat → UInt8)
    (subset : Specifier) : ∃ accounts',
      Lockstep count dtype (c.step timestart (.stage k memory subset)) accounts' records kept := by
  have htwin : ∃ a', a'.copied = (accounts k).copied ∧ a'.protectedBy = (accounts k).protectedBy ∧
      UserMember.Twin k n count dtype c.timestamp a' (c.leftover k) (records k) (kept k)
        (attempt ((c.members k).stage memory subset) (c.members k))
        (attempt ((c.fresh k).stage memory subset) (c.fresh k)) := by
    rcases UserMember.stage_twin memory subset (h.twin k) with ⟨e, e', hm, hf⟩ | ⟨m', f', hm, hf, ht⟩
    · rw [hm, hf]
      exact ⟨accounts k, rfl, rfl, h.twin k⟩
    · rw [attempt_ok hm, attempt_ok hf]
      exact ⟨(accounts k).stage subset count ((c.members k).element memory), rfl, rfl, ht⟩
  obtain ⟨a', hcopied, hprotected, htwin⟩ := htwin
  exact ⟨_, h.update k hcopied hprotected htwin⟩

theorem store_lockstep (timestart : Int) (h : Lockstep count dtype c accounts records kept) {varying : Bool}
    {memory : Fin n → Nat → UInt8} {subsets : Fin n → Option Specifier} (hp : c.Proper (.store varying memory subsets)) :
    ∃ accounts', Lockstep count dtype (c.step timestart (.store varying memory subsets)) accounts' records kept := by
  obtain ⟨accounts', hcopied, htwin⟩ := UserMember.store_twin varying memory subsets h.twin
    (fun hv => by subst hv; exact hp) h.copied
  exact ⟨accounts', h.timestamp_ge, htwin, hcopied, h.recorded⟩

theorem refuse_lockstep (hstart : 0 ≤ timestart) (h : Lockstep count dtype c accounts records kept) :
    Lockstep count dtype (c.step timestart .refuse) accounts records kept := by
  obtain ⟨hlt, hpos⟩ := MemberRun.lt_nextTimestamp hstart h.timestamp_ge
  refine ⟨?_, fun k => ?_, h.copied, h.recorded⟩
  · change -1 ≤ MemberRun.nextTimestamp timestart c.timestamp
    omega
  · have ht := h.twin k
    refine ⟨ht.counted, ht.count_eq, ht.datatype, ht.userData, ht.datatype', ht.depth, ht.stage, ht.fresh, ht.size_eq,
      ht.avail, ht.committed.imp fun s t hst => ⟨?_, hst.timestamp_eq, hst.holds, hst.fresh⟩⟩
    exact Int.le_trans hst.timestamp_le (Int.le_of_lt hlt)

/-- A commit of all ranks keeps the records, and those it adds are clean exactly if it covers what was left over. -/
theorem commit_lockstep (hstart : 0 ≤ timestart) (h : Lockstep count dtype c accounts records kept)
    {junk : Fin n → Nat → Nat → UInt8} (hp : c.Proper (.commit junk)) :
    ∃ accounts' records' kept', Lockstep count dtype (c.step timestart (.commit junk)) accounts' records' kept' ∧
      (c.Clean records kept → ((c.step timestart (.commit junk)).Clean records' kept' ↔ c.Covers (.commit junk))) := by
  obtain ⟨hlt, hpos⟩ := MemberRun.lt_nextTimestamp hstart h.timestamp_ge
  set next := MemberRun.nextTimestamp timestart c.timestamp with hnext
  refine ⟨fun k => if (c.members k).member.hasUnstoredData then accounts k else .empty (fun _ _ => 0) fun _ _ => 0,
    fun k => Function.update (records k) next (accounts k), fun k => Function.update (kept k) next (c.leftover k),
    ⟨?_, fun k => ?_, fun k => ?_, fun k ts => ?_⟩, fun hclean => ⟨fun hafter k hstored => ?_, fun hcovers k s hs => ?_⟩⟩
  · change -1 ≤ next
    omega
  · exact UserMember.commit_twin k.isLt hlt (h.twin k) (junk k)
  · rw [← hp k]
    split
    next => exact h.copied k
    next => rfl
  · by_cases hts : ts = next
    · subst hts
      rw [Function.update_self, Function.update_self]
      exact h.copied k
    · rw [Function.update_of_ne hts, Function.update_of_ne hts]
      exact h.recorded k ts
  · have hold := h.older k hlt
    obtain ⟨_, hnew⟩ := UserMember.commit_entries (h.twin k).counted hold k n (junk k 0) (junk k 1)
    obtain ⟨s, hs, hts⟩ := hnew hstored
    have hcovered := hafter k s hs
    dsimp only at hcovered
    rw [hts, Function.update_self, Function.update_self] at hcovered
    rw [UserMember.protectedSubset_eq (h.twin (left k)).stage.own, Option.getD_some, ← h.copied k]
    exact hcovered
  · have hold := h.older k hlt
    obtain ⟨hentries, _⟩ := UserMember.commit_entries (h.twin k).counted hold k n (junk k 0) (junk k 1)
    dsimp only
    rcases hentries s hs with hin | ⟨hstored, hts⟩
    · have hne := Int.ne_of_lt (hold s hin)
      rw [Function.update_of_ne hne, Function.update_of_ne hne]
      exact hclean k s hin
    · rw [hts, Function.update_self, Function.update_self]
      have hcovered := hcovers k hstored
      rw [UserMember.protectedSubset_eq (h.twin (left k)).stage.own, Option.getD_some, ← h.copied k] at hcovered
      exact hcovered

theorem snapshotDelete_lockstep (timestart : Int) (h : Lockstep count dtype c accounts records kept) (k : Fin n) (timestamp : Int) :
    ∃ accounts', Lockstep count dtype (c.step timestart (.snapshotDelete k timestamp)) accounts' records kept :=
  ⟨_, h.update k rfl rfl (UserMember.snapshotDelete_twin timestamp (h.twin k))⟩

theorem mem_of_update {ms : Fin n → UserMember} {k j : Fin n} {m : UserMember} {s : IMRSnapshot}
    (hm : ∀ s ∈ m.member.commitSnapshots, s ∈ (ms k).member.commitSnapshots)
    (hs : s ∈ (Function.update ms k m j).member.commitSnapshots) : s ∈ (ms j).member.commitSnapshots := by
  by_cases hj : j = k
  · subst hj
    rw [Function.update_self] at hs
    exact hm s hs
  · rwa [Function.update_of_ne hj] at hs

/-- Every action keeps the two members in step. If all was clean, it still is exactly if the action covers what was
left over. -/
theorem step_lockstep (hstart : 0 ≤ timestart) (h : Lockstep count dtype c accounts records kept) {a : ReuseAction n}
    (hp : c.Proper a) : ∃ accounts' records' kept', Lockstep count dtype (c.step timestart a) accounts' records' kept' ∧
      (c.Clean records kept → ((c.step timestart a).Clean records' kept' ↔ c.Covers a)) := by
  have hsame : ∀ {c' : ReuseRun n}, (∀ k, ∀ s ∈ (c'.members k).member.commitSnapshots,
      s ∈ (c.members k).member.commitSnapshots) → c.Clean records kept → (c'.Clean records kept ↔ True) :=
    fun hc hclean => iff_true_intro (clean_of_commits hc hclean)
  cases a with
  | stage k memory subset =>
    obtain ⟨accounts', hstep⟩ := stage_lockstep timestart h k memory subset
    refine ⟨accounts', records, kept, hstep, hsame fun j s hs => ?_⟩
    refine mem_of_update (fun s hs => ?_) hs
    rw [stage_commits] at hs
    exact hs
  | store varying memory subsets =>
    obtain ⟨accounts', hstep⟩ := store_lockstep timestart h hp
    refine ⟨accounts', records, kept, hstep, hsame fun j s hs => ?_⟩
    rw [IndexedSet.mem_def] at hs ⊢
    rw [← store_commits]
    exact hs
  | commit junk => exact commit_lockstep hstart h hp
  | refuse => exact ⟨accounts, records, kept, refuse_lockstep hstart h, hsame fun _ _ hs => hs⟩
  | snapshotDelete k timestamp =>
    obtain ⟨accounts', hstep⟩ := snapshotDelete_lockstep timestart h k timestamp
    refine ⟨accounts', records, kept, hstep, hsame fun j s hs => ?_⟩
    refine mem_of_update (fun s hs => ?_) hs
    change s ∈ ((c.members k).member.pool.release IMRSnapshot.reset timestamp).used at hs
    rw [Pool.release_used] at hs
    exact (IndexedSet.mem_filter.mp hs).1

end Steps

theorem start_lockstep {depth : Nat} {data : Fin n → Nat} {junk : Fin n → Nat → Nat → UInt8} (hpos : 0 < dtype.extent) :
    (start depth data count dtype junk).Lockstep count dtype (fun _ => .empty (fun _ _ => 0) fun _ _ => 0)
      (fun _ _ => .empty (fun _ _ => 0) fun _ _ => 0) fun _ _ => ∅ :=
  ⟨Int.le_refl _, fun k => UserMember.create_twin hpos k.isLt _ _, fun _ => rfl, fun _ _ => rfl⟩

theorem trace_iff (hstart : 0 ≤ timestart) (h : Lockstep count dtype c accounts records kept)
    (hclean : c.Clean records kept) {actions : List (ReuseAction n)}
    (hp : ∀ p ∈ trace timestart c actions, p.1.Proper p.2) :
    (∀ p ∈ trace timestart c actions, (p.1.step timestart p.2).Unobservable) ↔
      ∀ p ∈ trace timestart c actions, p.1.Covers p.2 := by
  induction actions generalizing c accounts records kept with
  | nil => exact ⟨fun _ _ hp => absurd hp List.not_mem_nil, fun _ _ hp => absurd hp List.not_mem_nil⟩
  | cons a rest ih =>
    obtain ⟨hpa, hprest⟩ := List.forall_mem_cons.mp hp
    obtain ⟨accounts', records', kept', hstep, hiff⟩ := step_lockstep hstart h hpa
    have hunobs := hstep.unobservable_iff.trans (hiff hclean)
    change (∀ p ∈ (c, a) :: trace timestart (c.step timestart a) rest, _) ↔
      ∀ p ∈ (c, a) :: trace timestart (c.step timestart a) rest, _
    rw [List.forall_mem_cons, List.forall_mem_cons]
    constructor
    · rintro ⟨hu, hrest⟩
      exact ⟨hunobs.mp hu, (ih hstep (hstep.unobservable_iff.mp hu) hprest).mp hrest⟩
    · rintro ⟨hcovers, hrest⟩
      have hu := hunobs.mpr hcovers
      exact ⟨hu, (ih hstep (hstep.unobservable_iff.mp hu) hprest).mpr hrest⟩

/-- In a run with the collective calls as documented, the reuse of snapshots cannot be observed exactly if each commit
covers what the copies had left over. -/
theorem reuse_unobservable_iff {depth : Nat} {data : Fin n → Nat} {junk : Fin n → Nat → Nat → UInt8}
    (hstart : 0 ≤ timestart) (hpos : 0 < dtype.extent) (actions : List (ReuseAction n))
    (hp : ∀ p ∈ trace timestart (start depth data count dtype junk) actions, p.1.Proper p.2) :
    (∀ p ∈ trace timestart (start depth data count dtype junk) actions, (p.1.step timestart p.2).Unobservable) ↔
      ∀ p ∈ trace timestart (start depth data count dtype junk) actions, p.1.Covers p.2 :=
  trace_iff hstart (start_lockstep hpos) (fun _ _ hs => absurd hs IndexedSet.not_mem_empty) hp

/-- Two ranks with a member of one element, of which the depth keeps one commit. -/
def first : ReuseRun 2 := start 0 (fun _ => 0) 1 ⟨1, 1⟩ fun _ _ _ => 0

def element : Specifier := .bounded ⟨{0}⟩

def stagedFirst (k : Fin 2) : UserMember := attempt ((first.members k).stage (fun _ => 7) element) (first.members k)

def knownFirst : Fin 2 → IMRSnapshot := UserMember.exchange fun k => (stagedFirst k).member.stageSnapshot

/-- The ranks have stored the element and copied that of the other one. -/
def storedFirst (k : Fin 2) : UserMember :=
  let partner := (knownFirst k).partner.addAndFit ⟨{0}⟩
  let message := DataSubset.packData ⟨{0}⟩ (knownFirst (left k)).elmSize (knownFirst (left k)).buf
  let copied := { partner with
    buf := DataSubset.unpackAt (knownFirst k).elmSize (DataSubset.elems ⟨{0}⟩) message partner.buf }
  { stagedFirst k with member := { (stagedFirst k).member with
    stageSnapshot := ({ knownFirst k with partner := copied } : IMRSnapshot).markProtected } }

theorem protect_first : UserMember.protect (.imr .buddy) knownFirst =
    .ok fun k => (storedFirst k).member.stageSnapshot := by
  have hfits : ∀ k, UserMember.CopyFits knownFirst k := by decide
  unfold UserMember.protect
  dsimp only
  rw [if_pos hfits]
  refine Except.sequence_eq_ok_iff.mpr fun k => ?_
  have hknown : ∀ j : Fin 2, (knownFirst k).stagedSubsets.getD j ∅ = ⟨{0}⟩ := fun j => by
    match k, j with
    | 0, 0 => rfl
    | 0, 1 => rfl
    | 1, 0 => rfl
    | 1, 1 => rfl
  unfold BuddyMember.iprotect
  rw [BuddyMember.copyStaged_eq (hknown (left k)) (hknown (left k))]
  rfl

theorem store_first : UserMember.store (.imr .buddy) true first.members (fun _ _ => 7) (fun _ => some element) =
    .ok storedFirst := by
  have hstaged : ∀ k, (first.members k).stage (fun _ => 7) element = .ok (stagedFirst k) := fun k => by
    match k with
    | 0 => rfl
    | 1 => rfl
  exact Except.bind_eq_ok_iff.mpr ⟨stagedFirst, UserMember.stageAll_eq_ok_iff.mpr hstaged,
    Except.bind_eq_ok_iff.mpr ⟨fun k => (storedFirst k).member.stageSnapshot, protect_first, rfl⟩⟩

def storeElement : ReuseAction 2 := .store true (fun _ _ => 7) fun _ => some element

def commitAll : ReuseAction 2 := .commit fun _ _ _ => 0

def stored : ReuseRun 2 := { first with members := storedFirst, fresh := storedFirst }

theorem step_first : first.step 0 storeElement = stored := by
  have hsame : first.fresh = first.members := rfl
  change ({ first with
    members := attempt _ first.members, fresh := attempt (UserMember.store _ _ first.fresh _ _) first.fresh } :
    ReuseRun 2) = _
  rw [hsame, attempt_ok store_first]
  rfl

theorem trace_first (actions : List (ReuseAction 2)) :
    trace 0 first (storeElement :: actions) = (first, storeElement) :: trace 0 stored actions := by
  change (first, storeElement) :: trace 0 (first.step 0 storeElement) actions = _
  rw [step_first]

/-- No rank has staged what it has not stored, before each of the commits. -/
theorem first_proper : ∀ p ∈ trace 0 first [storeElement, commitAll, commitAll, commitAll], p.1.Proper p.2 := by
  rw [trace_first]
  refine List.forall_mem_cons.mpr ⟨trivial, List.forall_mem_cons.mpr ⟨?_, List.forall_mem_cons.mpr ⟨?_,
    List.forall_mem_cons.mpr ⟨?_, fun _ h => absurd h List.not_mem_nil⟩⟩⟩⟩
  · change ∀ k, _ = _
    decide
  · change ∀ k, _ = _
    decide
  · change ∀ k, _ = _
    decide

/-- Nothing is left over as long as there are new snapshots to take. -/
theorem first_covers : ∀ p ∈ trace 0 first [storeElement, commitAll, commitAll], p.1.Covers p.2 := by
  rw [trace_first]
  refine List.forall_mem_cons.mpr ⟨trivial, List.forall_mem_cons.mpr ⟨?_, List.forall_mem_cons.mpr ⟨?_,
    fun _ h => absurd h List.not_mem_nil⟩⟩⟩
  · change ∀ k, _ → _
    decide
  · change ∀ k, _ → _
    decide

theorem reuse_unobservable_first : (trace 0 first [storeElement, commitAll, commitAll]).length = 3 ∧
    ∀ p ∈ trace 0 first [storeElement, commitAll, commitAll], (p.1.step 0 p.2).Unobservable :=
  ⟨rfl, (reuse_unobservable_iff (Int.le_refl 0) Nat.one_pos [storeElement, commitAll, commitAll] fun p hp =>
    first_proper p (List.mem_append_left [_] hp)).mpr first_covers⟩

/-- The third commit is of the snapshot that the first one was of, whose copy still has the element. -/
theorem reuse_leaves_over : (∀ p ∈ trace 0 first [storeElement, commitAll, commitAll, commitAll], p.1.Proper p.2) ∧
    ¬∀ p ∈ trace 0 first [storeElement, commitAll, commitAll, commitAll], (p.1.step 0 p.2).Unobservable := by
  refine ⟨first_proper, fun h => ?_⟩
  have hcovers : ∀ p ∈ trace 0 first [storeElement, commitAll, commitAll, commitAll], p.1.Covers p.2 :=
    (trace_iff (Int.le_refl 0) (start_lockstep Nat.one_pos) (fun _ _ hs => absurd hs IndexedSet.not_mem_empty)
      first_proper).mp h
  rw [trace_first] at hcovers
  have hlast := hcovers _ (List.mem_cons_of_mem _ (List.mem_cons_of_mem _ (List.mem_cons_of_mem _ List.mem_cons_self)))
  have hnone := hlast 0 (by decide) (show 0 ∈ _ by decide)
  revert hnone
  decide

end ReuseRun

end Fenix
