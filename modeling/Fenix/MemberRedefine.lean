import Fenix.MemberDefine
import Fenix.UserMemberRun

namespace Fenix

/-- All snapshots of a member are for elements of one size. -/
structure DataMember.Sized (m : DataMember) (elmSize : Nat) : Prop where
  staged : m.stageSnapshot.elmSize = elmSize
  committed : ∀ s ∈ m.commitSnapshots, s.elmSize = elmSize
  avail : ∀ s ∈ m.availSnapshots, s.elmSize = elmSize

@[simp] theorem DataSnapshot.addAndFit_elmSize (s : DataSnapshot) (subset : DataSubset) :
    (s.addAndFit subset).elmSize = s.elmSize := by
  unfold addAndFit
  split
  next => rfl
  next => rfl

@[simp] theorem IMRSnapshot.initCohort_elmSize (s : IMRSnapshot) (rank size : Nat) :
    (s.initCohort rank size).elmSize = s.elmSize := by
  change (s.toDataSnapshot.initCohort rank size).elmSize = _
  unfold DataSnapshot.initCohort
  split
  next => rfl
  next => rfl

namespace DataMember.Sized

variable {m m' : DataMember} {elmSize rank size : Nat} {ts : Int} {junk partnerJunk : Nat → UInt8}

theorem withStage (h : m.Sized elmSize) {s : IMRSnapshot} (hs : s.elmSize = elmSize) :
    ({ m with stageSnapshot := s } : DataMember).Sized elmSize := ⟨hs, h.committed, h.avail⟩

theorem snapshotDelete (h : m.Sized elmSize) (ts : Int) : (m.snapshotDelete ts).Sized elmSize := by
  obtain ⟨hcommitted, havail⟩ := Pool.release_all (p := m.pool) IMRSnapshot.reset ts h.committed h.avail h.committed
  exact ⟨h.staged, hcommitted, havail⟩

theorem trim (h : m.Sized elmSize) : m.trim.Sized elmSize := by
  obtain ⟨hcommitted, havail⟩ := Pool.trim_all (p := m.pool) IMRSnapshot.reset (m.depth + 1) h.committed h.avail h.committed
  exact ⟨h.staged, hcommitted, havail⟩

theorem restage (h : m.Sized elmSize) (he : m.elmSize = elmSize) (rank size : Nat) (junk partnerJunk : Nat → UInt8) :
    (m.restage rank size junk partnerJunk).Sized elmSize := by
  have hfresh : (IMRSnapshot.create m.elmSize m.elmCount junk partnerJunk).elmSize = elmSize := he
  obtain ⟨hnext, havail⟩ := Pool.next_all (p := m.pool) (Q := fun s => s.elmSize = elmSize) h.avail hfresh
  refine ⟨(IMRSnapshot.initCohort_elmSize _ _ _).trans hnext, fun s hs => ?_, havail⟩
  rw [DataMember.restage_commitSnapshots] at hs
  exact h.committed s hs

theorem commit (h : m.Sized elmSize) (he : m.elmSize = elmSize)
    (hc : m.commit rank size ts junk partnerJunk = .ok m') : m'.Sized elmSize := by
  unfold DataMember.commit at hc
  split at hc
  next =>
    cases Except.ok.inj hc
    have hinserted : ({ m with
        commitSnapshots := m.commitSnapshots.insert { m.stageSnapshot with timestamp := ts } } : DataMember).Sized
          elmSize := by
      refine ⟨h.staged, fun s hs => ?_, h.avail⟩
      rcases IndexedSet.mem_of_mem_insert hs with rfl | hs
      · exact h.staged
      · exact h.committed s hs
    exact hinserted.trim.restage he rank size junk partnerJunk
  next => cases hc

theorem cleanupTimestamps (h : m.Sized elmSize) (valid : Finset Int) : (m.cleanupTimestamps valid).Sized elmSize := by
  refine ⟨h.staged, fun s hs => h.committed s (IndexedSet.mem_filter.mp hs).1, fun s hs => ?_⟩
  rcases List.mem_append.mp hs with hs | hs
  · obtain ⟨x, hx, rfl⟩ := List.mem_map.mp (List.mem_reverse.mp hs)
    exact h.committed x (List.mem_filter.mp hx).1
  · exact h.avail s hs

theorem repairSnapshot (h : m.Sized elmSize) {s : IMRSnapshot} (hs : m.repairSnapshot ts = some s) :
    s.elmSize = elmSize := by
  unfold DataMember.repairSnapshot at hs
  split at hs
  next x hx =>
    cases Option.some.inj hs
    exact h.committed _ (IndexedSet.find?_some hx).1
  next =>
    obtain ⟨x, hx, rfl⟩ := Option.map_eq_some_iff.mp hs
    exact h.avail x (List.mem_of_mem_head? hx)

theorem putBack (h : m.Sized elmSize) {s : IMRSnapshot} (hs : s.elmSize = elmSize) (ts : Int) :
    (m.putBack ts s).Sized elmSize := by
  unfold DataMember.putBack
  split
  next =>
    refine ⟨h.staged, fun x hx => ?_, h.avail⟩
    rcases IndexedSet.mem_put.mp hx with rfl | ⟨hx, _⟩
    · exact hs
    · exact h.committed x hx
  next =>
    refine ⟨h.staged, fun x hx => ?_, fun x hx => h.avail x (List.mem_of_mem_tail hx)⟩
    rcases IndexedSet.mem_of_mem_insert hx with rfl | hx
    · exact hs
    · exact h.committed x hx

theorem resetUnfound (h : m.Sized elmSize) (ts : Int) : (m.resetUnfound ts).Sized elmSize := by
  unfold DataMember.resetUnfound
  split
  next => exact h
  next =>
    split
    next => exact h
    next s rest hs =>
      refine ⟨h.staged, h.committed, fun x hx => ?_⟩
      rcases List.mem_cons.mp hx with rfl | hx
      · exact h.avail s (hs ▸ List.mem_cons_self)
      · exact h.avail x (hs ▸ List.mem_cons_of_mem s hx)

theorem create {policy : DataPolicy} {depth elmCount : Nat} {junk : Nat → Nat → UInt8} :
    (DataMember.create policy depth rank size elmSize elmCount junk).Sized elmSize := by
  have hlocal : ∀ x ∈ List.replicate (depth + 1) (IMRSnapshot.create elmSize elmCount (junk 0) (junk 1)),
      x.elmSize = elmSize := by
    intro x hx
    rw [List.eq_of_mem_replicate hx]
    rfl
  refine ⟨IMRSnapshot.initCohort_elmSize _ _ _, fun s hs => absurd hs IndexedSet.not_mem_empty, fun s hs => ?_⟩
  cases policy with
  | localOnly => exact hlocal s hs
  | imr mode =>
    rcases List.mem_append.mp hs with hs | hs
    · exact hlocal s hs
    · obtain ⟨x, hx, rfl⟩ := List.mem_map.mp hs
      exact hlocal x hx

section Repair

variable {n : Nat} {mode : IMRMode} {stale : Fin n → Nat → Nat → UInt8} {stamps : List Int}
  {ms ms' : Fin n → DataMember} {k : Fin n}

theorem buddy_unpackInto {s s' : DataSnapshot} {subset : DataSubset} {message : List (Nat → UInt8)}
    (h : BuddyMember.unpackInto s subset message = .ok s') : s'.elmSize = s.elmSize := by
  unfold BuddyMember.unpackInto at h
  split at h
  next =>
    cases Except.ok.inj h
    rfl
  next =>
    dsimp only at h
    generalize (if s.buf.size = 0 then _ else _ : DataBuffer) = buf at h
    split at h
    next =>
      cases Except.ok.inj h
      rfl
    next => cases h

theorem buddy_rebuild {f : Fin n} {stale : Nat → Nat → UInt8} {snaps : Fin n → IMRSnapshot} {s : IMRSnapshot}
    (h : BuddyMember.rebuild f stale snaps = .ok s) : s.elmSize = (snaps f).elmSize := by
  obtain ⟨data, _, h⟩ := Except.bind_eq_ok_iff.mp h
  obtain ⟨restored, hrestored, h⟩ := Except.bind_eq_ok_iff.mp h
  obtain ⟨copy, _, h⟩ := Except.bind_eq_ok_iff.mp h
  obtain ⟨copyRestored, _, h⟩ := Except.bind_eq_ok_iff.mp h
  cases Except.ok.inj h
  exact (buddy_unpackInto hrestored).trans (DataSnapshot.addAndFit_elmSize _ _)

theorem buddy_repairTimestamp (h : BuddyMember.repairTimestamp stale ts ms = .ok ms') (hk : (ms k).Sized elmSize) :
    (ms' k).Sized elmSize := by
  unfold BuddyMember.repairTimestamp at h
  split at h
  next hall =>
    have hknown : ∀ root, (DataMember.broadcastSubsets root (fun k => ((ms k).repairSnapshot ts).get (hall k))
        k).elmSize = elmSize := by
      intro root
      change (((ms k).repairSnapshot ts).get (hall k)).elmSize = elmSize
      exact hk.repairSnapshot (Option.some_get (hall k)).symm
    dsimp only at h
    split at h
    next f root _ _ =>
      obtain ⟨rebuilt, hrebuilt, h⟩ := Except.bind_eq_ok_iff.mp h
      cases Except.ok.inj h
      refine hk.putBack ?_ ts
      split
      next hf =>
        subst hf
        exact (buddy_rebuild hrebuilt).trans (hknown root)
      next => exact hknown root
    next =>
      cases Except.ok.inj h
      exact hk.resetUnfound ts
  next => cases h

theorem parity_repairTimestamp (h : ParityMember.repairTimestamp ts ms = .ok ms') (hk : (ms k).Sized elmSize) :
    (ms' k).Sized elmSize := by
  unfold ParityMember.repairTimestamp at h
  split at h
  next hall =>
    split at h
    next =>
      cases Except.ok.inj h
      exact hk.resetUnfound ts
    next =>
      obtain ⟨rebuilt, hrebuilt, h⟩ := Except.bind_eq_ok_iff.mp h
      cases Except.ok.inj h
      refine hk.putBack ((ParityMember.rebuild_fields hrebuilt k).2.trans ?_) ts
      exact hk.repairSnapshot (Option.some_get (hall k)).symm
  next => cases h

/-- A repair makes all snapshots anew for elements of the size that they had. -/
theorem repair (h : DataGroup.repair mode stale stamps ms = .ok ms') (hk : (ms k).Sized elmSize) :
    (ms' k).Sized elmSize := by
  have hstage : ((ms k).reinitStage k n).Sized elmSize := hk.withStage hk.staged
  cases mode with
  | buddy =>
    exact DataMember.repairTimestamps_keeps (Q := fun ms => (ms k).Sized elmSize)
      (fun _ _ _ _ hstep hk => buddy_repairTimestamp hstep hk) h hstage
  | parity =>
    exact DataMember.repairTimestamps_keeps (Q := fun ms => (ms k).Sized elmSize)
      (fun _ _ _ _ hstep hk => parity_repairTimestamp hstep hk) h hstage

end Repair

end DataMember.Sized

/-- The arguments of a creation or definition. -/
structure MemberArgs where
  data : Nat
  count : Nat
  dtype : Datatype

/-- The arguments once an attribute has been updated. -/
def MemberArgs.update (args : MemberArgs) : MemberAttr → MemberArgs
  | .buffer data => { args with data := data }
  | .count n => { args with count := n }
  | .datatype dtype => { args with dtype := dtype }

/-- A datatype whose values take up all of the distance from one to the next, which is none at most for a
resizeable member, and a count of them whose bytes are within the range of `int`. -/
structure MemberArgs.Plain (args : MemberArgs) : Prop where
  packed : args.dtype.size = args.dtype.extent
  extent_pos : args.count = 0 ∨ 0 < args.dtype.extent
  countable : args.dtype.Countable args.count

/-- A member as its last definition has made it. -/
structure UserMember.DefinedAs (m : UserMember) (args : MemberArgs) : Prop where
  userData_eq : m.userData = ⟨args.data, UserMember.userBytes args.count args.dtype.extent⟩
  datatype_eq : m.datatype = args.dtype
  sized : m.member.Sized args.dtype.extent

namespace UserMember

variable {m m' : UserMember} {args : MemberArgs}

theorem create_defined {policy : DataPolicy} {depth rank size : Nat} (args : MemberArgs) (junk : Nat → Nat → UInt8) :
    (create policy depth rank size args.data args.count args.dtype junk).DefinedAs args :=
  ⟨rfl, rfl, DataMember.Sized.create⟩

theorem DefinedAs.elmCount (h : m.DefinedAs args) {count : Nat} (hc : m.elmCount = .ok count) :
    count = args.count := by
  unfold UserMember.elmCount at hc
  rw [h.userData_eq, h.datatype_eq] at hc
  unfold userBytes at hc
  by_cases hz : args.count = 0
  · rw [if_pos hz] at hc
    exact (Except.ok.inj hc).symm.trans hz.symm
  · rw [if_neg hz] at hc
    dsimp only at hc
    split at hc
    next hpos => rw [← Except.ok.inj hc, Nat.mul_div_cancel _ hpos.1]
    next => cases hc

theorem DefinedAs.elmCount_ok (h : m.DefinedAs args) (hp : args.Plain) : m.elmCount = .ok args.count := by
  unfold UserMember.elmCount
  rw [h.userData_eq, h.datatype_eq]
  unfold userBytes
  by_cases hz : args.count = 0
  · rw [if_pos hz, hz]
  · have hpos := hp.extent_pos.resolve_left hz
    rw [if_neg hz]
    dsimp only
    rw [if_pos ⟨hpos, Nat.mul_mod_left _ _⟩, Nat.mul_div_cancel _ hpos]

theorem setElmSize_eq {s : IMRSnapshot} {elmSize : Nat} (h : s.elmSize = elmSize) : setElmSize s elmSize = s := by
  subst h
  rfl

/-- A member without data has committed nothing. -/
theorem commitSnapshots_of_hasData (h : m.hasData = false) : m.member.commitSnapshots.entries = [] := by
  unfold hasData at h
  simp only [Bool.or_eq_false_iff, Bool.not_eq_false'] at h
  exact List.isEmpty_iff.mp h.1.1

theorem setElmSize_sized {m : DataMember} {elmSize : Nat} (h : m.Sized elmSize) :
    { m with
      stageSnapshot := setElmSize m.stageSnapshot elmSize
      availSnapshots := m.availSnapshots.map fun s => setElmSize s elmSize } = m := by
  have havail : (m.availSnapshots.map fun s => setElmSize s elmSize) = m.availSnapshots :=
    (List.map_congr_left fun s hs => setElmSize_eq (h.avail s hs)).trans (List.map_id' _)
  rw [setElmSize_eq h.staged, havail]

/-- The attributes that a member already has are no updates of it. -/
theorem DefinedAs.attrSet_same (h : m.DefinedAs args) (hp : args.Plain) :
    m.attrSet (.buffer args.data) = .ok m ∧ m.attrSet (.count args.count) = .ok m ∧
      m.attrSet (.datatype args.dtype) = .ok m := by
  have hcount := h.elmCount_ok hp
  obtain ⟨member, userData, datatype⟩ := m
  obtain ⟨hdata, hdtype, hsized⟩ := h
  cases hdata
  cases hdtype
  let same : UserMember := ⟨member, ⟨args.data, userBytes args.count args.dtype.extent⟩, args.dtype⟩
  change same.elmCount = _ at hcount
  refine ⟨rfl, ?_, ?_⟩
  · change (same.elmCount >>= fun count => _) = _
    rw [hcount, Except.ok_bind, if_neg fun hn => hn.1 rfl]
    rfl
  · change (if _ then _ else same.elmCount >>= fun count => _) = _
    rw [if_neg fun hn => hn.1 hp.packed, hcount, Except.ok_bind, hp.packed, resized_ok hp.countable]
    change Except.ok _ = _
    rw [setElmSize_sized hsized]
    have hbytes : (same.userData.size.map fun _ => args.count * args.dtype.extent) = same.userData.size := by
      change ((userBytes _ _).map fun _ => _) = userBytes _ _
      unfold userBytes
      split
      next => rfl
      next => rfl
    rw [hbytes]

/-- A member that is defined again as it is stays what it is. -/
theorem DefinedAs.define_same (h : m.DefinedAs args) (hp : args.Plain) :
    m.define args.data args.count args.dtype = .ok m := by
  obtain ⟨hbuffer, hcount, hdtype⟩ := h.attrSet_same hp
  unfold UserMember.define
  rw [hbuffer, Except.ok_bind, hcount, Except.ok_bind, hdtype]

/-- The attributes of a member are within the range of their types. -/
theorem DefinedAs.inRange (h : m.DefinedAs args) (hp : args.Plain) :
    DefinedMember.InRange m (.count args.count) ∧ DefinedMember.InRange m (.datatype args.dtype) := by
  have hcount : args.count ≤ 2147483647 := by
    rcases hp.extent_pos with hz | hpos
    · omega
    · exact Nat.le_trans (Nat.le_mul_of_pos_right _ hpos) hp.countable
  have hle : ∀ c, m.elmCount = .ok c → c ≤ 2147483647 := fun c hc => h.elmCount hc ▸ hcount
  refine ⟨⟨hle, ?_⟩, hle⟩
  rw [h.datatype_eq]
  exact Nat.lt_of_le_of_lt hp.countable (by decide)

/-- The same of a definition that may fail, with the serializer. -/
theorem DefinedAs.define_same_serializer (h : m.DefinedAs args) (hp : args.Plain) (serializer : Option Nat) :
    (DefinedMember.mk m serializer).define args.data args.count (some args.dtype) serializer =
      (⟨m, serializer⟩, .success) := by
  obtain ⟨hbuffer, hcount, hdtype⟩ := h.attrSet_same hp
  obtain ⟨hcounts, hdtypes⟩ := h.inRange hp
  let same : DefinedMember := ⟨m, serializer⟩
  have hbuffer' : same.attrSet (.buffer args.data) = (same, .success) :=
    DefinedMember.attrSet_agrees (a := .buffer args.data) trivial hbuffer
  have hcount' : same.attrSet (.count args.count) = (same, .success) :=
    DefinedMember.attrSet_agrees (a := .count args.count) hcounts hcount
  have hdtype' : same.attrSet (.datatype (some args.dtype)) = (same, .success) :=
    DefinedMember.attrSet_agrees (a := .datatype args.dtype) hdtypes hdtype
  change same.define _ _ _ _ = _
  unfold DefinedMember.define
  rw [hbuffer']
  change DefinedMember.andThen (same.attrSet _) _ = _
  rw [hcount']
  change DefinedMember.andThen (same.attrSet _) _ = _
  rw [hdtype']
  rfl

theorem DefinedAs.withStage (h : m.DefinedAs args) {s : IMRSnapshot}
    (hs : s.elmSize = m.member.stageSnapshot.elmSize) :
    ({ m with member := { m.member with stageSnapshot := s } } : UserMember).DefinedAs args :=
  ⟨h.userData_eq, h.datatype_eq, h.sized.withStage (hs.trans h.sized.staged)⟩

/-- An update leaves a member as it would be defined. A datatype that is accepted along with data has the
element size of the data. -/
theorem DefinedAs.attrSet (h : m.DefinedAs args) {a : MemberAttr}
    (ha : (args.update a).dtype.size = (args.update a).dtype.extent) (hs : m.attrSet a = .ok m') :
    m'.DefinedAs (args.update a) := by
  cases a with
  | buffer data =>
    cases Except.ok.inj hs
    exact ⟨by rw [h.userData_eq]; rfl, h.datatype_eq, h.sized⟩
  | count n =>
    obtain ⟨count, _, hs⟩ := Except.bind_eq_ok_iff.mp hs
    split at hs
    next => cases hs
    next =>
      cases Except.ok.inj hs
      exact ⟨by rw [h.userData_eq, h.datatype_eq]; rfl, h.datatype_eq, h.sized⟩
  | datatype dtype =>
    change dtype.size = dtype.extent at ha
    change (if _ then _ else _) = _ at hs
    split at hs
    next => cases hs
    next haccepted =>
      obtain ⟨count, hcount, hs⟩ := Except.bind_eq_ok_iff.mp hs
      obtain ⟨size, hresized, hs⟩ := Except.bind_eq_ok_iff.mp hs
      obtain ⟨rfl, _⟩ := resized_eq_ok hresized
      cases Except.ok.inj hs
      refine ⟨?_, rfl, ha, fun s hs => ?_, fun s hs => ?_⟩
      · rw [h.elmCount hcount, h.userData_eq, ha]
        unfold userBytes
        change DataRef.mk _ _ = DataRef.mk args.data (userBytes args.count dtype.extent)
        unfold userBytes
        split
        next => rfl
        next => rfl
      · change s ∈ m.member.commitSnapshots at hs
        by_cases hd : m.hasData = true
        · have hsame : dtype.size = m.datatype.extent := not_not.mp fun hne => haccepted ⟨hne, hd⟩
          rw [h.sized.committed s hs, ← h.datatype_eq, ← hsame, ha]
          rfl
        · have hnone := commitSnapshots_of_hasData (Bool.eq_false_of_not_eq_true hd)
          rw [IndexedSet.mem_def, hnone] at hs
          exact absurd hs List.not_mem_nil
      · obtain ⟨x, _, rfl⟩ := List.mem_map.mp hs
        exact ha

theorem DefinedAs.define (h : m.DefinedAs args) {a : MemberArgs} (ha : a.dtype.size = a.dtype.extent)
    (hargs : args.dtype.size = args.dtype.extent) (hs : m.define a.data a.count a.dtype = .ok m') :
    m'.DefinedAs a := by
  obtain ⟨m₁, hm₁, hs⟩ := Except.bind_eq_ok_iff.mp hs
  obtain ⟨m₂, hm₂, hs⟩ := Except.bind_eq_ok_iff.mp hs
  have h₁ := h.attrSet (a := .buffer a.data) hargs hm₁
  have h₂ := h₁.attrSet (a := .count a.count) hargs hm₂
  exact h₂.attrSet (a := .datatype a.dtype) ha hs

theorem DefinedAs.stage (h : m.DefinedAs args) {memory : Nat → UInt8} {subset : Specifier}
    (hs : m.stage memory subset = .ok m') : m'.DefinedAs args := by
  obtain ⟨_, _, _, _, _, _, _, rfl⟩ := stage_cases hs
  exact h.withStage (DataSnapshot.addAndFit_elmSize _ _)

theorem DefinedAs.commit (h : m.DefinedAs args) {rank size : Nat} {ts : Int} {junk partnerJunk : Nat → UInt8}
    (hs : m.commit rank size ts junk partnerJunk = .ok m') : m'.DefinedAs args := by
  obtain ⟨count, member, hcommit, rfl⟩ := commit_ok hs
  have hsized : ({ m.member with elmSize := m.datatype.extent, elmCount := count } : DataMember).Sized
      args.dtype.extent := ⟨h.sized.staged, h.sized.committed, h.sized.avail⟩
  exact ⟨h.userData_eq, h.datatype_eq, hsized.commit (congrArg Datatype.extent h.datatype_eq) hcommit⟩

theorem DefinedAs.withMember (h : m.DefinedAs args) {member : DataMember} (hs : member.Sized args.dtype.extent) :
    ({ m with member := member } : UserMember).DefinedAs args := ⟨h.userData_eq, h.datatype_eq, hs⟩

theorem DefinedAs.store {n : Nat} {policy : DataPolicy} {varying : Bool} {ms ms' : Fin n → UserMember}
    {memory : Fin n → Nat → UInt8} {subsets : Fin n → Option Specifier} {k : Fin n} (h : (ms k).DefinedAs args)
    (hs : UserMember.store policy varying ms memory subsets = .ok ms') : (ms' k).DefinedAs args := by
  obtain ⟨mid, hmid, hstored⟩ := store_cases hs
  obtain ⟨s, hk, hsize, _⟩ := hstored k
  rw [hk]
  refine DefinedAs.withStage ?_ hsize
  rcases hmid k with ⟨_, heq⟩ | ⟨subset, _, hstage⟩
  · rw [heq]
    exact h
  · exact h.stage hstage

end UserMember

/-- A member on all ranks of a cohort with the arguments by which it was last defined there. -/
structure DefinedRun (n : Nat) where
  members : Fin n → UserMember
  args : Fin n → MemberArgs

namespace DefinedRun

variable {n : Nat}

def set (c : DefinedRun n) (k : Fin n) (m : UserMember) (args : MemberArgs) : DefinedRun n :=
  ⟨Function.update c.members k m, Function.update c.args k args⟩

def setMember (c : DefinedRun n) (k : Fin n) (m : UserMember) : DefinedRun n :=
  { c with members := Function.update c.members k m }

/-- The runs of a member, in any order of stages, stores, commits and recoveries, whose definitions and
updates meet a condition. A rank that takes the place of a failed one creates the member anew, or has it
from what another rank tells it. -/
inductive Reachable (policy : DataPolicy) (depth : Nat) (meets : MemberArgs → Prop) : DefinedRun n → Prop
  | create (args : Fin n → MemberArgs) (junk : Fin n → Nat → Nat → UInt8) (hm : ∀ k, meets (args k)) :
      Reachable policy depth meets
        ⟨fun k => UserMember.create policy depth k n (args k).data (args k).count (args k).dtype (junk k), args⟩
  | replace {c : DefinedRun n} (k : Fin n) (args : MemberArgs) (junk : Nat → Nat → UInt8)
      (hr : Reachable policy depth meets c) (hm : meets args) : Reachable policy depth meets
        (c.set k (UserMember.create policy depth k n args.data args.count args.dtype junk) args)
  | adopt {c : DefinedRun n} {count : Nat} (k root : Fin n) (junk : Nat → Nat → UInt8)
      (hr : Reachable policy depth meets c) (hc : (c.members root).elmCount = .ok count) :
      Reachable policy depth meets (c.set k
        (UserMember.create policy depth k n 0 count (c.members root).datatype junk)
        ⟨0, count, (c.members root).datatype⟩)
  | define {c : DefinedRun n} {m : UserMember} (k : Fin n) (args : MemberArgs) (hr : Reachable policy depth meets c)
      (hm : meets args) (h : (c.members k).define args.data args.count args.dtype = .ok m) :
      Reachable policy depth meets (c.set k m args)
  | attr {c : DefinedRun n} {m : UserMember} (k : Fin n) (a : MemberAttr) (hr : Reachable policy depth meets c)
      (hm : meets ((c.args k).update a)) (h : (c.members k).attrSet a = .ok m) :
      Reachable policy depth meets (c.set k m ((c.args k).update a))
  | stage {c : DefinedRun n} {m : UserMember} (k : Fin n) (memory : Nat → UInt8) (subset : Specifier)
      (hr : Reachable policy depth meets c) (h : (c.members k).stage memory subset = .ok m) :
      Reachable policy depth meets (c.setMember k m)
  | stageOther {c : DefinedRun n} (k : Fin n) (s : IMRSnapshot) (hr : Reachable policy depth meets c)
      (hs : s.elmSize = (c.members k).member.stageSnapshot.elmSize) :
      Reachable policy depth meets (c.setMember k
        { c.members k with member := { (c.members k).member with stageSnapshot := s } })
  | store {c : DefinedRun n} {ms : Fin n → UserMember} (varying : Bool) (memory : Fin n → Nat → UInt8)
      (subsets : Fin n → Option Specifier) (hr : Reachable policy depth meets c)
      (h : UserMember.store policy varying c.members memory subsets = .ok ms) :
      Reachable policy depth meets { c with members := ms }
  | commit {c : DefinedRun n} {m : UserMember} (k : Fin n) (ts : Int) (junk partnerJunk : Nat → UInt8)
      (hr : Reachable policy depth meets c) (h : (c.members k).commit k n ts junk partnerJunk = .ok m) :
      Reachable policy depth meets (c.setMember k m)
  | delete {c : DefinedRun n} (k : Fin n) (ts : Int) (hr : Reachable policy depth meets c) :
      Reachable policy depth meets (c.setMember k
        { c.members k with member := (c.members k).member.snapshotDelete ts })
  | sync {c : DefinedRun n} (synced : Finset Int) (hr : Reachable policy depth meets c) :
      Reachable policy depth meets { c with
        members := fun k => { c.members k with member := (c.members k).member.cleanupTimestamps synced } }
  | repair {c : DefinedRun n} {ms : Fin n → DataMember} (mode : IMRMode) (stale : Fin n → Nat → Nat → UInt8)
      (stamps : List Int) (hr : Reachable policy depth meets c)
      (h : DataGroup.repair mode stale stamps (fun k => (c.members k).member) = .ok ms) :
      Reachable policy depth meets { c with members := fun k => { c.members k with member := ms k } }

variable {policy : DataPolicy} {depth : Nat} {c : DefinedRun n}

/-- Every rank has its member as it was last defined. -/
def Defined (c : DefinedRun n) : Prop := ∀ k, (c.args k).Plain ∧ (c.members k).DefinedAs (c.args k)

theorem Defined.set (h : c.Defined) (k : Fin n) {m : UserMember} {args : MemberArgs} (hp : args.Plain)
    (hm : m.DefinedAs args) : (c.set k m args).Defined := by
  intro l
  change (Function.update c.args k args l).Plain ∧
    (Function.update c.members k m l).DefinedAs (Function.update c.args k args l)
  by_cases hl : l = k
  · subst hl
    rw [Function.update_self, Function.update_self]
    exact ⟨hp, hm⟩
  · rw [Function.update_of_ne hl, Function.update_of_ne hl]
    exact h l

theorem Defined.setMember (h : c.Defined) {k : Fin n} {m : UserMember} (hm : m.DefinedAs (c.args k)) :
    (c.setMember k m).Defined := by
  intro l
  refine ⟨(h l).1, ?_⟩
  change (Function.update c.members k m l).DefinedAs (c.args l)
  by_cases hl : l = k
  · subst hl
    rw [Function.update_self]
    exact hm
  · rw [Function.update_of_ne hl]
    exact (h l).2

theorem Reachable.defined (hr : Reachable policy depth MemberArgs.Plain c) : c.Defined := by
  induction hr with
  | create args junk hm => exact fun k => ⟨hm k, UserMember.create_defined (args k) (junk k)⟩
  | replace k args junk _ hm ih => exact ih.set k hm (UserMember.create_defined args junk)
  | adopt k root junk _ hc ih =>
    obtain ⟨hp, hd⟩ := ih root
    rw [hd.elmCount hc, hd.datatype_eq]
    exact ih.set k ⟨hp.packed, hp.extent_pos, hp.countable⟩ (UserMember.create_defined ⟨0, _, _⟩ junk)
  | define k args _ hm h ih => exact ih.set k hm ((ih k).2.define hm.1 (ih k).1.1 h)
  | attr k a _ hm h ih => exact ih.set k hm ((ih k).2.attrSet hm.1 h)
  | stage k memory subset _ h ih => exact ih.setMember ((ih k).2.stage h)
  | stageOther k s _ hs ih => exact ih.setMember ((ih k).2.withStage hs)
  | store varying memory subsets _ h ih => exact fun k => ⟨(ih k).1, (ih k).2.store h⟩
  | commit k ts junk partnerJunk _ h ih => exact ih.setMember ((ih k).2.commit h)
  | delete k ts _ ih => exact ih.setMember ((ih k).2.withMember ((ih k).2.sized.snapshotDelete ts))
  | sync synced _ ih => exact fun k => ⟨(ih k).1, (ih k).2.withMember ((ih k).2.sized.cleanupTimestamps synced)⟩
  | repair mode stale stamps _ h ih =>
    exact fun k => ⟨(ih k).1, (ih k).2.withMember (DataMember.Sized.repair h (ih k).2.sized)⟩

/-- In a run of plain datatypes a member can be defined again as it last was, which leaves it and its serializer as
they are. -/
theorem define_idempotent (hr : Reachable policy depth MemberArgs.Plain c) (k : Fin n) :
    (c.members k).define (c.args k).data (c.args k).count (c.args k).dtype = .ok (c.members k) ∧
      ∀ serializer, (DefinedMember.mk (c.members k) serializer).define (c.args k).data (c.args k).count
        (some (c.args k).dtype) serializer = (⟨c.members k, serializer⟩, .success) :=
  ⟨(hr.defined k).2.define_same (hr.defined k).1, (hr.defined k).2.define_same_serializer (hr.defined k).1⟩

/-- A member of three bytes with one of them staged is defined again. -/
theorem define_idempotent_staged : ∃ m : UserMember, m.hasData = true ∧ m.define 100 3 ⟨1, 1⟩ = .ok m := by
  have hcreate : Reachable (n := 1) .localOnly 0 MemberArgs.Plain _ :=
    .create (fun _ => ⟨100, 3, ⟨1, 1⟩⟩) (fun _ _ _ => 0) fun _ => ⟨rfl, Or.inr Nat.one_pos, bytes_countable (by decide)⟩
  have hstage := hcreate.stage 0 (fun _ => 7) (.bounded ⟨{1}⟩) rfl
  exact ⟨_, by decide, (define_idempotent hstage 0).1⟩

/-- With values of four bytes that are eight apart, a definition of a new member as it was created makes
its elements smaller, and one is refused once there are staged elements. -/
theorem define_changes :
    (¬∀ c : DefinedRun 1, Reachable .localOnly 0 (fun _ => True) c → ∀ k,
      (c.members k).define (c.args k).data (c.args k).count (c.args k).dtype = .ok (c.members k)) ∧
    let m := UserMember.create .localOnly 0 0 1 100 2 ⟨4, 8⟩ fun _ _ => 0
    (∃ m', m.define 100 2 ⟨4, 8⟩ = .ok m' ∧ m.member.stageSnapshot.elmSize = 8 ∧
      m'.member.stageSnapshot.elmSize = 4) ∧
    ∃ staged, m.stage (fun _ => 7) (.bounded ⟨{1}⟩) = .ok staged ∧
      staged.define 100 2 ⟨4, 8⟩ = .error .invalidLogicCall := by
  refine ⟨fun h => ?_, ⟨_, rfl, rfl, rfl⟩, _, rfl, rfl⟩
  have hcreate : Reachable (n := 1) .localOnly 0 (fun _ => True) _ :=
    .create (fun _ => ⟨100, 2, ⟨4, 8⟩⟩) (fun _ _ _ => 0) fun _ => trivial
  have hsame := congrArg (Except.map fun m => m.member.stageSnapshot.elmSize) (h _ hcreate 0)
  exact absurd hsame (by decide)

end DefinedRun

end Fenix
