import Fenix.UserMemberLoad

namespace Fenix

/-- The values of a datatype take up all of the distance from one to the next. -/
def Datatype.Packed (dtype : Datatype) : Prop := dtype.size = dtype.extent ∧ 0 < dtype.extent

/-- What the application does with a member, on one rank or, to store, on all. -/
inductive MemberAction (n : Nat) where
  | attr (k : Fin n) (a : MemberAttr)
  | define (k : Fin n) (data count : Nat) (dtype : Datatype)
  | stage (k : Fin n) (memory : Nat → UInt8) (subset : Specifier)
  | store (varying : Bool) (memory : Fin n → Nat → UInt8) (subsets : Fin n → Option Specifier)
  | refuse (k : Fin n)
  | commit (k : Fin n) (junk partnerJunk : Nat → UInt8)

/-- A member on all ranks of a cohort and the timestamp of its group there, with what every rank has named
since its last commit and with its commits, the last one first. -/
structure MemberRun (n : Nat) where
  members : Fin n → UserMember
  timestamps : Fin n → Int
  staging : Fin n → Staging
  committed : Fin n → List (Int × Staging)

namespace MemberRun

variable {n : Nat}

def nextTimestamp (timestart timestamp : Int) : Int := if timestamp = -1 then timestart else timestamp + 1

def setMember (c : MemberRun n) (k : Fin n) (m : UserMember) : MemberRun n :=
  { c with members := Function.update c.members k m }

/-- One action, refused where the source throws or aborts. A commit that is refused, as for what another
member has not stored, moves the timestamp of the group all the same. -/
def step (policy : DataPolicy) (timestart : Int) (c : MemberRun n) :
    MemberAction n → Except MemberError (MemberRun n)
  | .attr k a => do
    let m ← (c.members k).attrSet a
    return c.setMember k m
  | .define k data count dtype => do
    let m ← (c.members k).define data count dtype
    return c.setMember k m
  | .stage k memory subset => do
    let m ← (c.members k).stage memory subset
    return { c.setMember k m with
      staging := Function.update c.staging k ((c.staging k).add subset ((c.members k).element memory)) }
  | .store varying memory subsets => do
    let ms ← UserMember.store policy varying c.members memory subsets
    return { c with
      members := ms
      staging := fun k =>
        match subsets k with
        | none => c.staging k
        | some subset => (c.staging k).add subset ((c.members k).element (memory k)) }
  | .refuse k =>
    .ok { c with timestamps := Function.update c.timestamps k (nextTimestamp timestart (c.timestamps k)) }
  | .commit k junk partnerJunk => do
    let timestamp := nextTimestamp timestart (c.timestamps k)
    let m ← (c.members k).commit k n timestamp junk partnerJunk
    return {
      members := Function.update c.members k m
      timestamps := Function.update c.timestamps k timestamp
      staging := Function.update c.staging k Staging.none
      committed := Function.update c.committed k
        ((timestamp, (c.staging k).within (c.members k).count) :: c.committed k) }

/-- A new count brings in no element that has been named before. -/
def CountKeeps (c : MemberRun n) (k : Fin n) (count : Nat) : Prop :=
  ∀ i, (c.staging k).named i → Below count i → Below (c.members k).count i

/-- An action that uses no bound of the snapshot being staged which an update has left behind. -/
def Sound (c : MemberRun n) : MemberAction n → Prop
  | .attr _ (.buffer _) => True
  | .attr k (.count count) => c.CountKeeps k count
  | .attr _ (.datatype dtype) => dtype.Packed
  | .define k _ count dtype => c.CountKeeps k count ∧ dtype.Packed
  | .stage k _ subset => (c.members k).Whole subset
  | .store _ _ subsets => ∀ k, ∀ subset ∈ subsets k, (c.members k).Whole subset
  | .refuse _ => True
  | .commit k _ _ => (c.members k).member.stageSnapshot.buf.size % (c.members k).datatype.extent = 0

/-- A member that has just been created or defined on all ranks. -/
def start (policy : DataPolicy) (depth : Nat) (data count : Fin n → Nat) (dtype : Fin n → Datatype)
    (junk : Fin n → Nat → Nat → UInt8) : MemberRun n :=
  { members := fun k => UserMember.create policy depth k n (data k) (count k) (dtype k) (junk k)
    timestamps := fun _ => -1
    staging := fun _ => Staging.none
    committed := fun _ => [] }

/-- The runs of accepted actions that meet a condition. -/
inductive Reachable (policy : DataPolicy) (timestart : Int) (depth : Nat)
    (meets : MemberRun n → MemberAction n → Prop) : MemberRun n → Prop
  | create (data count : Fin n → Nat) (dtype : Fin n → Datatype) (junk : Fin n → Nat → Nat → UInt8)
      (hpos : ∀ k, 0 < (dtype k).extent) (hrange : ∀ k, (dtype k).Countable (count k)) :
      Reachable policy timestart depth meets (start policy depth data count dtype junk)
  | step {c c' : MemberRun n} {a : MemberAction n} (hr : Reachable policy timestart depth meets c)
      (hm : meets c a) (h : c.step policy timestart a = .ok c') : Reachable policy timestart depth meets c'

/-- The commits that the depth keeps restore what was staged for them. -/
def RoundTrips (c : MemberRun n) : Prop :=
  ∀ k, ∀ p ∈ (c.committed k).take ((c.members k).member.depth + 1), (c.members k).Restores p.1 p.2

end MemberRun

/-- What a rank knows of the elements that it has named and committed. -/
structure UserMember.Tracks (m : UserMember) (rank : Nat) (timestamp : Int) (r : Staging)
    (committed : List (Int × Staging)) : Prop where
  counted : m.Counted
  staging : ∃ staged protectedBy, m.member.stageSnapshot.Has rank m.datatype.extent staged protectedBy r.value ∧
    ∀ i, i ∈ staged.idxs ∪ protectedBy.idxs ↔ r.named i ∧ Below m.count i
  avail : ∀ s ∈ m.member.availSnapshots, s.Fresh m.datatype.extent
  kept : List.Forall₂ (fun s p => s.timestamp = p.1 ∧ s.Keeps rank m.datatype.extent p.2)
    m.member.commitSnapshots.entries.reverse (committed.take (m.member.depth + 1))
  ordered : ∀ p ∈ committed, 0 ≤ p.1 ∧ p.1 ≤ timestamp

namespace UserMember

variable {m m' : UserMember} {rank : Nat} {timestamp : Int} {r : Staging} {committed : List (Int × Staging)}

theorem findSnapshot_of_mem {m : DataMember} {s : IMRSnapshot} (hs : s ∈ m.commitSnapshots) (hpos : 0 ≤ s.timestamp) :
    m.findSnapshot s.timestamp = .ok s := by
  unfold DataMember.findSnapshot DataMember.searchSnapshot
  rw [if_neg (by unfold snapshotLatest; omega), if_neg (by omega), IndexedSet.find?_eq_some_of_mem hs]
  rfl

theorem Tracks.restores (h : m.Tracks rank timestamp r committed) {p : Int × Staging}
    (hp : p ∈ committed.take (m.member.depth + 1)) : m.Restores p.1 p.2 := by
  obtain ⟨s, hs, hts, hkeeps⟩ := List.exists_left_of_forall₂ h.kept hp
  have hpos := (h.ordered p (List.mem_of_mem_take hp)).1
  rw [← hts] at hpos ⊢
  exact keeps_restores h.counted.1 (findSnapshot_of_mem (IndexedSet.mem_def.mpr (List.mem_reverse.mp hs)) hpos) hkeeps

theorem create_tracks {policy : DataPolicy} {depth size data count : Nat} {dtype : Datatype}
    (junk : Nat → Nat → UInt8) (hpos : 0 < dtype.extent) (hrank : rank < size) :
    (create policy depth rank size data count dtype junk).Tracks rank (-1) Staging.none [] := by
  have hcount : (create policy depth rank size data count dtype junk).count = count :=
    count_userBytes hpos rfl
  have hnew : (IMRSnapshot.create dtype.extent count (junk 0) (junk 1)).Fresh dtype.extent := ⟨rfl, rfl, rfl, rfl⟩
  refine ⟨⟨hpos, by rw [hcount]; rfl⟩, ⟨∅, ∅, hnew.initCohort hrank _, fun i => ?_⟩, fun s hs => ?_,
    List.Forall₂.nil, fun p hp => absurd hp List.not_mem_nil⟩
  · exact ⟨fun h => absurd h (Finset.notMem_empty i), fun h => h.1.elim⟩
  · have hlocal : ∀ x ∈ List.replicate (depth + 1) (IMRSnapshot.create dtype.extent count (junk 0) (junk 1)),
        x.Fresh dtype.extent := by
      intro x hx
      rw [List.eq_of_mem_replicate hx]
      exact hnew
    cases policy with
    | localOnly => exact hlocal s hs
    | imr mode =>
      rcases List.mem_append.mp hs with hs | hs
      · exact hlocal s hs
      · obtain ⟨x, hx, rfl⟩ := List.mem_map.mp hs
        exact hlocal x hx

theorem elmCount_eq (h : m.Counted) {count : Nat} (hc : m.elmCount = .ok count) : count = m.count := by
  obtain ⟨hpos, hsize⟩ := h
  unfold elmCount at hc
  unfold UserMember.count
  split at hc
  next hn =>
    rw [hn]
    exact (Except.ok.inj hc).symm
  next n hn =>
    rw [hn]
    split at hc
    next => exact (Except.ok.inj hc).symm
    next => cases hc

theorem empty_of_hasData {extent : Nat} {staged protectedBy : DataSubset} {value : Nat → Nat → UInt8}
    (hhas : m.member.stageSnapshot.Has rank extent staged protectedBy value) (hd : m.hasData = false) :
    m.member.commitSnapshots.entries = [] ∧ staged = ∅ ∧ protectedBy = ∅ := by
  unfold hasData at hd
  simp only [Bool.or_eq_false_iff, decide_eq_false_iff_not, not_not, Bool.not_eq_false'] at hd
  rw [stagedSubset_eq hhas, protectedSubset_eq hhas] at hd
  exact ⟨List.isEmpty_iff.mp hd.1.1, Option.some.inj hd.1.2, Option.some.inj hd.2⟩

theorem attrSet_buffer_tracks (h : m.Tracks rank timestamp r committed) {data : Nat}
    (ha : m.attrSet (.buffer data) = .ok m') : m'.Tracks rank timestamp r committed := by
  cases Except.ok.inj ha
  exact ⟨h.counted, h.staging, h.avail, h.kept, h.ordered⟩

/-- A new count leaves the elements staged so far those of the member that have been named. -/
theorem attrSet_count_tracks (h : m.Tracks rank timestamp r committed) {count : Nat}
    (hkeeps : ∀ i, r.named i → Below count i → Below m.count i) (ha : m.attrSet (.count count) = .ok m') :
    m'.Tracks rank timestamp r committed ∧ m'.count = count := by
  obtain ⟨cur, hcur, ha⟩ := Except.bind_eq_ok_iff.mp ha
  have heq := elmCount_eq h.counted hcur
  split at ha
  next => cases ha
  next hguard =>
    cases Except.ok.inj ha
    have hcount := count_userBytes (m := { m with userData :=
      { m.userData with size := userBytes count m.datatype.extent } }) h.counted.1 rfl
    refine ⟨⟨⟨h.counted.1, by rw [hcount]⟩, ?_, h.avail, h.kept, h.ordered⟩, hcount⟩
    obtain ⟨staged, protectedBy, hhas, hiff⟩ := h.staging
    refine ⟨staged, protectedBy, hhas, fun i => ?_⟩
    rw [hcount, hiff]
    refine and_congr_right fun hn => ⟨fun hb => ?_, hkeeps i hn⟩
    by_cases hne : count = cur
    · rwa [hne, heq]
    · -- the count changes, so there is no data
      obtain ⟨_, rfl, rfl⟩ := empty_of_hasData hhas (Bool.eq_false_of_not_eq_true fun hd => hguard ⟨hne, hd⟩)
      exact absurd ((hiff i).mpr ⟨hn, hb⟩) (Finset.notMem_empty i)

/-- A new datatype has the extent of the one before, or there is no data of that one. -/
theorem attrSet_datatype_tracks (h : m.Tracks rank timestamp r committed) {dtype : Datatype} (hd : dtype.Packed)
    (ha : m.attrSet (.datatype dtype) = .ok m') : m'.Tracks rank timestamp r committed := by
  obtain ⟨hpacked, hdpos⟩ := hd
  obtain ⟨hpos, hsize⟩ := h.counted
  change (if _ then _ else _) = _ at ha
  split at ha
  next => cases ha
  next hguard =>
    obtain ⟨cur, hcur, ha⟩ := Except.bind_eq_ok_iff.mp ha
    obtain ⟨size, hresized, ha⟩ := Except.bind_eq_ok_iff.mp ha
    obtain ⟨rfl, _⟩ := resized_eq_ok hresized
    have heq := elmCount_eq h.counted hcur
    have hm := (Except.ok.inj ha).symm
    have hbytes : (m.userData.size.map fun _ => cur * dtype.size) = userBytes m.count dtype.extent := by
      rw [hsize, heq, hpacked]
      unfold userBytes
      split <;> rfl
    rw [hbytes, hpacked] at hm
    have hcount : m'.count = m.count := count_userBytes (hm ▸ hdpos) (by rw [hm])
    obtain ⟨staged, protectedBy, hhas, hiff⟩ := h.staging
    refine ⟨⟨hm ▸ hdpos, by rw [hcount, hm]⟩, ⟨staged, protectedBy, ?_, fun i => hcount ▸ hiff i⟩, ?_, ?_, h.ordered⟩
    · rw [hm]
      by_cases hne : dtype.size = m.datatype.extent
      · rw [hpacked] at hne
        rw [hne]
        exact ⟨hhas.cohortRank, hhas.stagedSubset, hhas.protectedSubset, rfl, hhas.bounded, hhas.room, hhas.values⟩
      · obtain ⟨_, rfl, rfl⟩ := empty_of_hasData hhas (Bool.eq_false_of_not_eq_true fun hd => hguard ⟨hne, hd⟩)
        exact ⟨hhas.cohortRank, hhas.stagedSubset, hhas.protectedSubset, rfl, hhas.bounded,
          fun i hi => absurd hi (Finset.notMem_empty i), fun i hi => absurd hi (Finset.notMem_empty i)⟩
    · rw [hm]
      intro s hs
      obtain ⟨x, hx, rfl⟩ := List.mem_map.mp hs
      have hfresh := h.avail x hx
      exact ⟨hfresh.cohortRank, hfresh.stagedSubsets, hfresh.protectedSubsets, rfl⟩
    · rw [hm]
      by_cases hne : dtype.size = m.datatype.extent
      · rw [hpacked] at hne
        rw [hne]
        exact h.kept
      · obtain ⟨hnil, _, _⟩ := empty_of_hasData hhas (Bool.eq_false_of_not_eq_true fun hd => hguard ⟨hne, hd⟩)
        have hkept := h.kept
        rw [hnil] at hkept
        have htake := List.forall₂_nil_left_iff.mp hkept
        dsimp only
        rw [hnil, htake]
        exact List.Forall₂.nil

theorem stage_tracks {memory : Nat → UInt8} {subset : Specifier} (h : m.Tracks rank timestamp r committed)
    (hw : m.Whole subset) (hs : m.stage memory subset = .ok m') :
    m'.Tracks rank timestamp (r.add subset (m.element memory)) committed := by
  obtain ⟨staged, protectedBy, hhas, hiff⟩ := h.staging
  obtain ⟨staged', hhas', hiff'⟩ := stage_has h.counted hw hhas (fun i hi => ((hiff i).mp hi).2) hs
  obtain ⟨_, _, _, _, _, _, _, rfl⟩ := stage_cases hs
  refine ⟨h.counted, ⟨staged', protectedBy, hhas', fun i => ?_⟩, h.avail, h.kept, h.ordered⟩
  have hi := hiff i
  rw [Finset.mem_union] at hi ⊢
  change _ ↔ (r.named i ∨ i ∈ subset) ∧ Below m.count i
  rw [hiff', or_and_right, ← hi]
  tauto

theorem protect_tracks {s : IMRSnapshot} (h : m.Tracks rank timestamp r committed)
    (hs : ∀ extent staged protectedBy value, m.member.stageSnapshot.Has rank extent staged protectedBy value →
      s.Has rank extent ∅ (protectedBy + staged) value) :
    ({ m with member := { m.member with stageSnapshot := s } } : UserMember).Tracks rank timestamp r committed := by
  obtain ⟨staged, protectedBy, hhas, hiff⟩ := h.staging
  refine ⟨h.counted, ⟨∅, protectedBy + staged, hs _ _ _ _ hhas, fun i => ?_⟩, h.avail, h.kept, h.ordered⟩
  refine Iff.trans ?_ (hiff i)
  rw [Finset.mem_union, Finset.mem_union, DataSubset.mem_add]
  exact ⟨fun h => (h.resolve_left (Finset.notMem_empty i)).symm, fun h => Or.inr h.symm⟩

theorem commit_ok {size : Nat} {next : Int} {junk partnerJunk : Nat → UInt8}
    (h : m.commit rank size next junk partnerJunk = .ok m') :
    ∃ count member, ({ m.member with elmSize := m.datatype.extent, elmCount := count } : DataMember).commit
      rank size next junk partnerJunk = .ok member ∧ m' = { m with member := member } := by
  unfold commit at h
  split at h
  next => cases h
  next =>
    dsimp only at h
    split at h
    next => cases h
    next =>
      split at h
      next member hm =>
        cases Except.ok.inj h
        exact ⟨_, member, hm, rfl⟩
      next => cases h

/-- The committed snapshots are older than the next one, of the same elements and no more than the depth keeps. -/
theorem Tracks.older (h : m.Tracks rank timestamp r committed) :
    (∀ s ∈ m.member.commitSnapshots, s.timestamp ≤ timestamp ∧ s.elmSize = m.datatype.extent) ∧
      m.member.commitSnapshots.entries.length ≤ m.member.depth + 1 := by
  constructor
  · intro s hs
    obtain ⟨p, hp, hts, hkeeps⟩ := List.exists_right_of_forall₂ h.kept (List.mem_reverse.mpr hs)
    obtain ⟨_, hpro, _⟩ := hkeeps.has
    exact ⟨hts ▸ (h.ordered p (List.mem_of_mem_take hp)).2, hpro.elmSize⟩
  · have hlength := h.kept.length_eq
    rw [List.length_reverse, List.length_take] at hlength
    omega

/-- A commit hands what is protected over to the committed snapshots. -/
theorem commit_tracks {size : Nat} {next : Int} {junk partnerJunk : Nat → UInt8}
    (h : m.Tracks rank timestamp r committed) (hrank : rank < size) (hnext : timestamp < next) (hpos : 0 ≤ next)
    (hfits : m.member.stageSnapshot.buf.size % m.datatype.extent = 0)
    (hc : m.commit rank size next junk partnerJunk = .ok m') :
    m'.Tracks rank next Staging.none ((next, r.within m.count) :: committed) := by
  obtain ⟨staged, protectedBy, hhas, hiff⟩ := h.staging
  obtain ⟨count, member, hcommit, rfl⟩ := commit_ok hc
  obtain ⟨holder, hlen⟩ := h.older
  obtain ⟨hempty, hdepth, hentries, hstage, havail⟩ := DataMember.commit_cases hcommit hrank
    (fun s hs => Int.lt_of_le_of_lt (holder s hs).1 hnext) hlen (rfl : _ = m.datatype.extent)
    (fun s hs => (holder s hs).2) hhas.elmSize h.avail
  refine ⟨h.counted, ⟨∅, ∅, hstage _, fun i => ?_⟩, havail, ?_, fun p hp => ?_⟩
  · exact ⟨fun h => absurd h (Finset.notMem_empty i), fun h => h.1.elim⟩
  · have hstaged : staged = ∅ := Option.some.inj ((stagedSubset_eq hhas).symm.trans hempty)
    subst hstaged
    have hkeeps : m.member.stageSnapshot.Keeps rank m.datatype.extent (r.within m.count) := by
      refine ⟨⟨protectedBy, hhas, fun i => ?_⟩, hfits⟩
      refine Iff.trans ?_ (hiff i)
      exact ⟨Finset.mem_union_right _, fun h => (Finset.mem_union.mp h).resolve_left (Finset.notMem_empty i)⟩
    have hnew : ({ m.member.stageSnapshot with timestamp := next } : IMRSnapshot).Keeps rank m.datatype.extent
        (r.within m.count) := by
      obtain ⟨⟨protectedBy, hp, hn⟩, hf⟩ := hkeeps
      exact ⟨⟨protectedBy, ⟨hp.1, hp.2, hp.3, hp.4, hp.5, hp.6, hp.7⟩, hn⟩, hf⟩
    have hcons : List.Forall₂ (fun (s : IMRSnapshot) (p : Int × Staging) =>
        s.timestamp = p.1 ∧ s.Keeps rank m.datatype.extent p.2)
        ({ m.member.stageSnapshot with timestamp := next } :: m.member.commitSnapshots.entries.reverse)
        ((next, r.within m.count) :: committed.take (m.member.depth + 1)) :=
      List.Forall₂.cons ⟨rfl, hnew⟩ h.kept
    have hall := List.forall₂_take (m.member.depth + 1) hcons
    have htake : ((next, r.within m.count) :: committed.take (m.member.depth + 1)).take (m.member.depth + 1) =
        ((next, r.within m.count) :: committed).take (m.member.depth + 1) := by
      rw [List.take_succ_cons, List.take_succ_cons, List.take_take, Nat.min_eq_left (Nat.le_succ _)]
    rw [htake] at hall
    dsimp only
    rw [hentries, hdepth]
    exact hall
  · rcases List.mem_cons.mp hp with rfl | hp
    · exact ⟨hpos, Int.le_refl next⟩
    · have hle := h.ordered p hp
      exact ⟨hle.1, by omega⟩

end UserMember

namespace MemberRun

variable {n : Nat} {policy : DataPolicy} {timestart : Int} {depth : Nat} {c c' : MemberRun n} {a : MemberAction n}

/-- Every rank keeps track of its own elements. -/
def Tracked (c : MemberRun n) : Prop :=
  ∀ k, -1 ≤ c.timestamps k ∧ (c.members k).Tracks k (c.timestamps k) (c.staging k) (c.committed k)

theorem lt_nextTimestamp {timestamp : Int} (hstart : 0 ≤ timestart) (h : -1 ≤ timestamp) :
    timestamp < nextTimestamp timestart timestamp ∧ 0 ≤ nextTimestamp timestart timestamp := by
  unfold nextTimestamp
  split <;> omega

theorem setMember_tracked (h : c.Tracked) {k : Fin n} {m : UserMember}
    (hm : m.Tracks k (c.timestamps k) (c.staging k) (c.committed k)) : (c.setMember k m).Tracked := by
  intro j
  refine ⟨(h j).1, ?_⟩
  change UserMember.Tracks (Function.update c.members k m j) _ _ _ _
  by_cases hj : j = k
  · subst hj
    rw [Function.update_self]
    exact hm
  · rw [Function.update_of_ne hj]
    exact (h j).2

/-- One action that is sound keeps every rank's elements tracked. -/
theorem step_tracked (hstart : 0 ≤ timestart) (h : c.Tracked) (hs : c.Sound a)
    (hstep : c.step policy timestart a = .ok c') : c'.Tracked := by
  cases a with
  | attr k a =>
    obtain ⟨m, hm, hstep⟩ := Except.bind_eq_ok_iff.mp hstep
    cases Except.ok.inj hstep
    refine setMember_tracked h ?_
    cases a with
    | buffer data => exact UserMember.attrSet_buffer_tracks (h k).2 hm
    | count count => exact (UserMember.attrSet_count_tracks (h k).2 hs hm).1
    | datatype dtype => exact UserMember.attrSet_datatype_tracks (h k).2 hs hm
  | define k data count dtype =>
    obtain ⟨m, hm, hstep⟩ := Except.bind_eq_ok_iff.mp hstep
    cases Except.ok.inj hstep
    refine setMember_tracked h ?_
    obtain ⟨m₁, hm₁, hm⟩ := Except.bind_eq_ok_iff.mp hm
    obtain ⟨m₂, hm₂, hm⟩ := Except.bind_eq_ok_iff.mp hm
    have h₁ := UserMember.attrSet_buffer_tracks (h k).2 hm₁
    have hcount : m₁.count = (c.members k).count := by
      cases Except.ok.inj hm₁
      rfl
    have hkeeps : ∀ i, (c.staging k).named i → Below count i → Below m₁.count i := hcount ▸ hs.1
    exact UserMember.attrSet_datatype_tracks (UserMember.attrSet_count_tracks h₁ hkeeps hm₂).1 hs.2 hm
  | stage k memory subset =>
    obtain ⟨m, hm, hstep⟩ := Except.bind_eq_ok_iff.mp hstep
    cases Except.ok.inj hstep
    intro j
    refine ⟨(h j).1, ?_⟩
    change UserMember.Tracks (Function.update c.members k m j) _ _ (Function.update c.staging k _ j) _
    by_cases hj : j = k
    · subst hj
      rw [Function.update_self, Function.update_self]
      exact UserMember.stage_tracks (h j).2 hs hm
    · rw [Function.update_of_ne hj, Function.update_of_ne hj]
      exact (h j).2
  | store varying memory subsets =>
    obtain ⟨ms, hms, hstep⟩ := Except.bind_eq_ok_iff.mp hstep
    cases Except.ok.inj hstep
    obtain ⟨mid, hmid, hstored⟩ := UserMember.store_cases hms
    intro k
    refine ⟨(h k).1, ?_⟩
    obtain ⟨s, hk, _, _, hhas⟩ := hstored k
    change UserMember.Tracks (ms k) _ _ (match subsets k with
      | none => c.staging k
      | some subset => (c.staging k).add subset ((c.members k).element (memory k))) _
    rw [hk]
    refine UserMember.protect_tracks ?_ hhas
    rcases hmid k with ⟨hnone, heq⟩ | ⟨subset, hsome, hstage⟩
    · rw [hnone, heq]
      exact (h k).2
    · rw [hsome]
      exact UserMember.stage_tracks (h k).2 (hs k subset hsome) hstage
  | refuse k =>
    cases Except.ok.inj hstep
    intro j
    change -1 ≤ Function.update c.timestamps k _ j ∧ UserMember.Tracks _ _ (Function.update c.timestamps k _ j) _ _
    by_cases hj : j = k
    · subst hj
      rw [Function.update_self]
      obtain ⟨hlo, htracks⟩ := h j
      obtain ⟨hlt, hpos⟩ := lt_nextTimestamp hstart hlo
      refine ⟨by omega, ⟨htracks.counted, htracks.staging, htracks.avail, htracks.kept, fun p hp => ?_⟩⟩
      have hle := htracks.ordered p hp
      exact ⟨hle.1, by omega⟩
    · rw [Function.update_of_ne hj]
      exact h j
  | commit k junk partnerJunk =>
    obtain ⟨m, hm, hstep⟩ := Except.bind_eq_ok_iff.mp hstep
    cases Except.ok.inj hstep
    intro j
    change -1 ≤ Function.update c.timestamps k _ j ∧ UserMember.Tracks (Function.update c.members k m j) _
      (Function.update c.timestamps k _ j) (Function.update c.staging k _ j) (Function.update c.committed k _ j)
    by_cases hj : j = k
    · subst hj
      rw [Function.update_self, Function.update_self, Function.update_self, Function.update_self]
      obtain ⟨hlo, htracks⟩ := h j
      obtain ⟨hlt, hpos⟩ := lt_nextTimestamp hstart hlo
      exact ⟨by omega, UserMember.commit_tracks htracks j.isLt hlt hpos hs hm⟩
    · rw [Function.update_of_ne hj, Function.update_of_ne hj, Function.update_of_ne hj, Function.update_of_ne hj]
      exact h j

theorem reachable_tracked (hstart : 0 ≤ timestart) (hr : Reachable policy timestart depth Sound c) : c.Tracked := by
  induction hr with
  | create data count dtype junk hpos _ =>
    exact fun k => ⟨Int.le_refl _, UserMember.create_tracks (junk k) (hpos k) k.isLt⟩
  | step hr hm h ih => exact step_tracked hstart ih hm h

end MemberRun

end Fenix
