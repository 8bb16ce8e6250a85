import Fenix.ParityRepair

namespace Fenix.ParityMember

open DataMember (recovering_one)

variable {n : Nat} {ms ms' : Fin n → DataMember} {f : Fin n} {ts t : Int}

/-- The snapshots committed at `ts` are restored on rank `f` and kept on the others. -/
def RestoredAt (before after : Fin n → DataMember) (f : Fin n) (ts : Int) (dataBytes : Nat) : Prop :=
  ∃ was is : Fin n → IMRSnapshot, (∀ k, (before k).commitSnapshots.find? ts = some (was k)) ∧
    (∀ k, (after k).commitSnapshots.find? ts = some (is k)) ∧ Restores was is f dataBytes

section Timestamps

/-- Repairing a timestamp does nothing to the snapshots of another. -/
theorem repairTimestamp_find?_of_ne (h : repairTimestamp ts ms = .ok ms') (ht : t ≠ ts) (k : Fin n) :
    (ms' k).commitSnapshots.find? t = (ms k).commitSnapshots.find? t := by
  unfold repairTimestamp at h
  split at h
  next hall =>
    split at h
    next =>
      cases Except.ok.inj h
      exact DataMember.resetUnfound_find? (ms k) ts t
    next f _ =>
      obtain ⟨rebuilt, hr, h⟩ := Except.bind_eq_ok_iff.mp h
      cases Except.ok.inj h
      rw [DataMember.putBack_find?, if_neg ht]
      intro hf
      rw [(rebuild_fields hr k).1]
      exact DataMember.repairSnapshot_timestamp (hall k) hf
  next => cases h

theorem repairTimestamps_find?_of_not_mem {stamps : List Int}
    (h : DataMember.repairTimestamps repairTimestamp stamps ms = .ok ms') (ht : t ∉ stamps) (k : Fin n) :
    (ms' k).commitSnapshots.find? t = (ms k).commitSnapshots.find? t := by
  induction stamps generalizing ms with
  | nil => exact Except.ok.inj h ▸ rfl
  | cons ts rest ih =>
    obtain ⟨mid, hmid, h⟩ := Except.bind_eq_ok_iff.mp h
    rw [ih h fun hm => ht (List.mem_cons_of_mem ts hm)]
    exact repairTimestamp_find?_of_ne hmid (fun he => ht (he ▸ List.mem_cons_self)) k

end Timestamps

section Lost

variable {snaps : Fin n → IMRSnapshot} {fresh : DataMember} {s : IMRSnapshot} {rest : List IMRSnapshot}

theorem reinitStage_update : (fun k : Fin n => (Function.update ms f fresh k).reinitStage k n) =
    Function.update (fun k : Fin n => (ms k).reinitStage k n) f (fresh.reinitStage f n) := by
  funext k
  by_cases hk : k = f
  · subst hk
    rw [Function.update_self, Function.update_self]
  · rw [Function.update_of_ne hk, Function.update_of_ne hk]

/-- When one rank has lost a snapshot its repair is the rebuilding from the snapshots of the others. -/
theorem repairTimestamp_lost (hsnaps : ∀ k, (ms k).commitSnapshots.find? ts = some (snaps k))
    (hf : fresh.commitSnapshots = .empty) (hs : fresh.availSnapshots = s :: rest) :
    repairTimestamp ts (Function.update ms f fresh) =
      (rebuild f (lose f s snaps)).map fun rebuilt k => DataMember.putBack (Function.update ms f fresh k) ts (rebuilt k) := by
  have hnone : fresh.commitSnapshots.find? ts = none := by
    rw [hf]
    rfl
  have hrep : ∀ k, DataMember.repairSnapshot (Function.update ms f fresh k) ts = some (lose f s snaps k) := by
    intro k
    unfold DataMember.repairSnapshot
    by_cases hk : k = f
    · rw [hk, Function.update_self, hnone, hs, lose_own]
      rfl
    · rw [Function.update_of_ne hk, hsnaps, lose_other hk]
  have hfound : (fun k => ((Function.update ms f fresh k).commitSnapshots.find? ts).isSome) =
      fun k => decide (k ≠ f) := by
    funext k
    by_cases hk : k = f
    · rw [hk, Function.update_self, hnone]
      simp
    · rw [Function.update_of_ne hk, hsnaps]
      simp [hk]
  have hall : ∀ k, (DataMember.repairSnapshot (Function.update ms f fresh k) ts).isSome := fun k => by
    rw [hrep k]
    rfl
  unfold repairTimestamp
  rw [dif_pos hall, hfound, recovering_one]
  have hget : (fun k => (DataMember.repairSnapshot (Function.update ms f fresh k) ts).get (hall k)) = lose f s snaps := by
    funext k
    simp only [hrep k, Option.get_some]
  simp only [hget]
  cases rebuild f (lose f s snaps) with
  | error e => rfl
  | ok rebuilt => rfl

/-- What a repair of a rank that lost everything leaves is what the rebuilding does, whatever comes of older
timestamps. -/
theorem repair_lost_cases (hsnaps : ∀ k, (ms k).commitSnapshots.find? ts = some (snaps k))
    (hf : fresh.commitSnapshots = .empty) (hs : fresh.availSnapshots = s :: rest) {older : List Int}
    {final : Fin n → DataMember} (hold : ts ∉ older) (h : repair (ts :: older) (Function.update ms f fresh) = .ok final) :
    ∃ after, rebuild f (lose f s snaps) = .ok after ∧
      ∀ k, (final k).commitSnapshots.find? ts = some { after k with timestamp := ts } := by
  have hstaged := @reinitStage_update _ ms f fresh
  have hstep : repairTimestamp ts (Function.update (fun k : Fin n => (ms k).reinitStage k n) f
      (fresh.reinitStage f n)) = _ :=
    repairTimestamp_lost hsnaps hf hs
  unfold repair at h
  rw [hstaged] at h
  obtain ⟨mid, hmid, hrest⟩ := Except.bind_eq_ok_iff.mp h
  obtain ⟨after, hafter, rfl⟩ := Except.map_eq_ok_iff.mp (hstep.symm.trans hmid)
  refine ⟨after, hafter, fun k => ?_⟩
  rw [repairTimestamps_find?_of_not_mem hrest hold, DataMember.putBack_find?, if_pos rfl]
  intro hsome
  rw [(rebuild_fields hafter _).1]
  by_cases hk : k = f
  · rw [hk, Function.update_self] at hsome
    change (fresh.commitSnapshots.find? ts).isSome at hsome
    rw [hf] at hsome
    cases hsome
  · rw [lose_other hk]
    exact (IndexedSet.find?_some (hsnaps k)).2

/-- The repair of a rank that lost everything goes through, and restores the snapshot of a timestamp
exactly when its data is rebuildable, whatever comes of older timestamps. -/
theorem repair_lost {protectedBy : List DataSubset} {elmSize : Nat} (hn : 3 ≤ n)
    (hsnaps : ∀ k, (ms k).commitSnapshots.find? ts = some (snaps k)) (h : Committed snaps protectedBy elmSize)
    (f : Fin n) (hf : fresh.commitSnapshots = .empty) (hs : fresh.availSnapshots = s :: rest)
    (he : s.elmSize = elmSize) :
    (∃ repaired, repair [ts] (Function.update ms f fresh) = .ok repaired) ∧
      ∀ older final, ts ∉ older → repair (ts :: older) (Function.update ms f fresh) = .ok final →
        (RestoredAt ms final f ts (cohortBytes (List.replicate n ∅) protectedBy elmSize) ↔
          Rebuildable (cohortBytes (List.replicate n ∅) protectedBy elmSize) (n - 1) f
            (snaps f).dataSize (snaps f).buf.bytes) := by
  obtain ⟨after, hafter, _, hiff⟩ := rebuild_restores hn h f he
  constructor
  · have hstep : repairTimestamp ts (Function.update (fun k : Fin n => (ms k).reinitStage k n) f
        (fresh.reinitStage f n)) = _ := repairTimestamp_lost hsnaps hf hs
    rw [hafter] at hstep
    unfold repair
    rw [reinitStage_update]
    exact ⟨_, congrArg (· >>= DataMember.repairTimestamps repairTimestamp []) hstep⟩
  · intro older final hold hfinal
    obtain ⟨after', hafter', hfound⟩ := repair_lost_cases hsnaps hf hs hold hfinal
    cases Except.ok.inj (hafter.symm.trans hafter')
    rw [← hiff]
    constructor
    · rintro ⟨was, is, hwas, his, hres⟩
      have hw : was = snaps := funext fun k => Option.some.inj ((hwas k).symm.trans (hsnaps k))
      have hi : is = fun k => { after k with timestamp := ts } :=
        funext fun k => Option.some.inj ((his k).symm.trans (hfound k))
      subst hw hi
      exact ⟨hres.data, hres.size, hres.paritySize, hres.parity, hres.others⟩
    · intro hres
      exact ⟨snaps, _, hsnaps, hfound, hres.data, hres.size, hres.paritySize, hres.parity, hres.others⟩

end Lost

section Protected

variable {staged protectedBy : List DataSubset} {elmSize : Nat}

/-- Protecting and committing what was staged leaves snapshots with the parity of one another. -/
theorem protect_commit (hn : 2 ≤ n) (h : Agree (fun k => (ms k).stageSnapshot) staged protectedBy elmSize)
    (hrange : cohortBytes staged protectedBy elmSize ≤ 2147483647)
    (hrank : ∀ k : Fin n, (ms k).stageSnapshot.cohortRank = some k.val)
    (hnew : ∀ k, ∀ s ∈ (ms k).commitSnapshots, s.timestamp < ts) (junk partnerJunk : Fin n → Nat → UInt8) :
    ∃ (snaps : Fin n → IMRSnapshot) (committed : Fin n → DataMember), iprotect (fun k => (ms k).stageSnapshot) = .ok snaps ∧
      (∀ k : Fin n, ({ ms k with stageSnapshot := snaps k } : DataMember).commit k n ts (junk k) (partnerJunk k) =
        .ok (committed k)) ∧
      ∃ was : Fin n → IMRSnapshot, (∀ k, (committed k).commitSnapshots.find? ts = some (was k)) ∧
        Committed was (List.zipWith (· + ·) protectedBy staged) elmSize ∧
        ∀ k, (was k).dataSize = max (ms k).stageSnapshot.dataSize (cohortBytes staged protectedBy elmSize) ∧
          (was k).buf.bytes = (ms k).stageSnapshot.buf.bytes := by
  have hprot := protected_agree h
  have henc := protected_encoded h hrange
  have hbytes := cohortBytes_protected h
  have hempty : staged.map (fun _ => ∅) = List.replicate n (∅ : DataSubset) := by
    rw [← h.stagedLength]
    exact List.map_const'
  rw [hempty] at hprot hbytes
  have hcommit : ∀ k : Fin n, ∃ m, ({ ms k with stageSnapshot := protectedSnaps (fun k => (ms k).stageSnapshot) k } :
      DataMember).commit k n ts (junk k) (partnerJunk k) = .ok m := by
    intro k
    refine ⟨_, if_pos ?_⟩
    have hown : (protectedSnaps (fun k => (ms k).stageSnapshot) k).cohortRank = some k.val := by
      unfold protectedSnaps
      rw [reduceChunk_own]
      exact hrank k
    change (protectedSnaps (fun k => (ms k).stageSnapshot) k).stagedSubset = _
    unfold DataSnapshot.stagedSubset
    rw [hown, hprot.stagedSubsets k]
    exact List.getElem?_replicate_of_lt k.isLt
  obtain ⟨committed, hc⟩ := Classical.axiomOfChoice hcommit
  refine ⟨_, committed, iprotect_eq hn h hrange, hc, fun k =>
    { protectedSnaps (fun k => (ms k).stageSnapshot) k with timestamp := ts },
    fun k => DataMember.commit_find? (m := { ms k with stageSnapshot := _ }) (hnew k) (hc k), ⟨?_, hbytes ▸ hrange, ?_⟩,
    fun k => ⟨?_, ?_⟩⟩
  · exact ⟨hprot.stagedSubsets, hprot.protectedSubsets, hprot.elmSize, hprot.stagedLength, hprot.protectedLength⟩
  · rw [hbytes]
    exact ⟨henc.fits, henc.parityBytes, henc.paritySize, henc.parity⟩
  · change (protectedSnaps (fun k => (ms k).stageSnapshot) k).dataSize = _
    have hsize := prepared_size h hrange k
    rw [← IMRSnapshot.intSize_congr (protected_buf k)] at hsize
    unfold IMRSnapshot.dataSize
    rw [hsize]
    omega
  · change (protectedSnaps (fun k => (ms k).stageSnapshot) k).buf.bytes = _
    rw [protected_buf, prepared_bytes]

/-- What is staged is protected and committed at a timestamp, and a rank that is lost then gets its data and parity
back in any repair, while the others keep theirs. -/
def Survives (ms : Fin n → DataMember) (ts : Int) (junk partnerJunk : Fin n → Nat → UInt8) (f : Fin n)
    (fresh : DataMember) (dataBytes : Nat) : Prop :=
  ∃ (snaps : Fin n → IMRSnapshot) (committed : Fin n → DataMember),
    iprotect (fun k => (ms k).stageSnapshot) = .ok snaps ∧
    (∀ k : Fin n, ({ ms k with stageSnapshot := snaps k } : DataMember).commit k n ts (junk k) (partnerJunk k) =
      .ok (committed k)) ∧
    (∃ repaired, repair [ts] (Function.update committed f fresh) = .ok repaired) ∧
    ∀ older final, ts ∉ older → repair (ts :: older) (Function.update committed f fresh) = .ok final →
      RestoredAt committed final f ts dataBytes

/-- A rank has no more of its data back than an `int` counts. -/
theorem Survives.inRange {fresh : DataMember} {s : IMRSnapshot} {rest : List IMRSnapshot}
    {junk partnerJunk : Fin n → Nat → UInt8} {dataBytes : Nat} (hf : fresh.commitSnapshots = .empty)
    (hs : fresh.availSnapshots = s :: rest) (h : Survives ms ts junk partnerJunk f fresh dataBytes) :
    dataBytes ≤ 2147483647 := by
  obtain ⟨snaps, committed, _, _, ⟨repaired, hrepaired⟩, hall⟩ := h
  obtain ⟨was, is, hwas, his, hres⟩ := hall [] repaired List.not_mem_nil hrepaired
  obtain ⟨after, hafter, hfound⟩ := repair_lost_cases hwas hf hs List.not_mem_nil hrepaired
  have hsize := hres.size
  rw [Option.some.inj ((his f).symm.trans (hfound f))] at hsize
  exact Nat.le_trans hsize (rebuild_size hafter)

/-- In the range of `int` protecting, committing and repairing go through, and a lost rank gets its data and parity
back, with the others keeping theirs, exactly when its data is rebuildable. -/
theorem repair_rebuilds (hn : 3 ≤ n) (h : Agree (fun k => (ms k).stageSnapshot) staged protectedBy elmSize)
    (hrange : cohortBytes staged protectedBy elmSize ≤ 2147483647)
    (hrank : ∀ k : Fin n, (ms k).stageSnapshot.cohortRank = some k.val)
    (hnew : ∀ k, ∀ s ∈ (ms k).commitSnapshots, s.timestamp < ts) (junk partnerJunk : Fin n → Nat → UInt8)
    (f : Fin n) {fresh : DataMember} {s : IMRSnapshot} {rest : List IMRSnapshot}
    (hf : fresh.commitSnapshots = .empty) (hs : fresh.availSnapshots = s :: rest) (he : s.elmSize = elmSize) :
    ∃ (snaps : Fin n → IMRSnapshot) (committed : Fin n → DataMember),
      iprotect (fun k => (ms k).stageSnapshot) = .ok snaps ∧
      (∀ k : Fin n, ({ ms k with stageSnapshot := snaps k } : DataMember).commit k n ts (junk k) (partnerJunk k) =
        .ok (committed k)) ∧
      (∃ repaired, repair [ts] (Function.update committed f fresh) = .ok repaired) ∧
      ∀ older final, ts ∉ older → repair (ts :: older) (Function.update committed f fresh) = .ok final →
        (RestoredAt committed final f ts (cohortBytes staged protectedBy elmSize) ↔
          Rebuildable (cohortBytes staged protectedBy elmSize) (n - 1) f
            (max (ms f).stageSnapshot.dataSize (cohortBytes staged protectedBy elmSize))
            (ms f).stageSnapshot.buf.bytes) := by
  obtain ⟨snaps, committed, hprot, hcommit, was, hwas, hcomm, hdata⟩ :=
    protect_commit (Nat.le_of_succ_le hn) h hrange hrank hnew junk partnerJunk
  obtain ⟨hrepaired, hiff⟩ := repair_lost hn hwas hcomm f hf hs he
  refine ⟨snaps, committed, hprot, hcommit, hrepaired, ?_⟩
  have hbytes : cohortBytes (List.replicate n ∅) (List.zipWith (· + ·) protectedBy staged) elmSize =
      cohortBytes staged protectedBy elmSize := by
    rw [← cohortBytes_protected h, ← h.stagedLength]
    congr 1
    exact List.map_const'.symm
  rw [hbytes, (hdata f).1, (hdata f).2] at hiff
  exact hiff

/-- Of what was protected and committed a lost rank gets its data and parity back, and the others keep
theirs, exactly when the bytes are in the range of `int` and its data is rebuildable. -/
theorem repair_restores_iff (hn : 3 ≤ n) (h : Agree (fun k => (ms k).stageSnapshot) staged protectedBy elmSize)
    (hrank : ∀ k : Fin n, (ms k).stageSnapshot.cohortRank = some k.val)
    (hnew : ∀ k, ∀ s ∈ (ms k).commitSnapshots, s.timestamp < ts) (junk partnerJunk : Fin n → Nat → UInt8)
    (f : Fin n) {fresh : DataMember} {s : IMRSnapshot} {rest : List IMRSnapshot}
    (hf : fresh.commitSnapshots = .empty) (hs : fresh.availSnapshots = s :: rest) (he : s.elmSize = elmSize) :
    Survives ms ts junk partnerJunk f fresh (cohortBytes staged protectedBy elmSize) ↔
      cohortBytes staged protectedBy elmSize ≤ 2147483647 ∧
        Rebuildable (cohortBytes staged protectedBy elmSize) (n - 1) f
          (max (ms f).stageSnapshot.dataSize (cohortBytes staged protectedBy elmSize))
          (ms f).stageSnapshot.buf.bytes := by
  constructor
  · intro hsurvives
    have hrange := hsurvives.inRange hf hs
    obtain ⟨snaps, committed, hprot, hcommit, _, hiff⟩ :=
      repair_rebuilds hn h hrange hrank hnew junk partnerJunk f hf hs he
    obtain ⟨snaps', committed', hprot', hcommit', ⟨repaired, hrepaired⟩, hall⟩ := hsurvives
    cases Except.ok.inj (hprot.symm.trans hprot')
    have hsame : committed' = committed := funext fun k => Except.ok.inj ((hcommit' k).symm.trans (hcommit k))
    subst hsame
    exact ⟨hrange, (hiff [] repaired List.not_mem_nil hrepaired).mp (hall [] repaired List.not_mem_nil hrepaired)⟩
  · rintro ⟨hrange, hrebuildable⟩
    obtain ⟨snaps, committed, hprot, hcommit, hrepaired, hiff⟩ :=
      repair_rebuilds hn h hrange hrank hnew junk partnerJunk f hf hs he
    exact ⟨snaps, committed, hprot, hcommit, hrepaired, fun older final hold hfinal =>
      (hiff older final hold hfinal).mpr hrebuildable⟩

/-- A member of a cohort of three with one element of one byte staged on each rank. -/
def oneByteMember (value : UInt8) (rank : Fin 3) : DataMember where
  depth := 0
  elmSize := 1
  elmCount := 0
  stageSnapshot :=
    { buf := ⟨1, fun _ => value⟩, elmSize := 1, elmMaxCount := 0, cohortRank := some rank
      stagedSubsets := [⟨{0}⟩, ⟨{0}⟩, ⟨{0}⟩], protectedSubsets := [∅, ∅, ∅]
      partner := { buf := ⟨0, fun _ => 0⟩, elmSize := 1, elmMaxCount := 0 } }
  commitSnapshots := .empty
  availSnapshots := [.create 1 0 (fun _ => 0) fun _ => 0]

theorem oneByte_agree (value : UInt8) : Agree (fun k : Fin 3 => (oneByteMember value k).stageSnapshot)
    [⟨{0}⟩, ⟨{0}⟩, ⟨{0}⟩] [∅, ∅, ∅] 1 :=
  ⟨fun _ => rfl, fun _ => rfl, fun _ => rfl, rfl, rfl⟩

theorem oneByte_new (value : UInt8) (k : Fin 3) :
    ∀ s ∈ (oneByteMember value k).commitSnapshots, s.timestamp < 0 :=
  fun _ hs => absurd hs IndexedSet.not_mem_empty

theorem oneByte_fresh : (oneByteMember 0 0).commitSnapshots = .empty ∧
    (oneByteMember 0 0).availSnapshots = [.create 1 0 (fun _ => 0) fun _ => 0] := ⟨rfl, rfl⟩

theorem repair_restores_first :
    Survives (oneByteMember 1) 0 (fun _ _ => 0) (fun _ _ => 0) 0 (oneByteMember 0 0) 1 := by
  obtain ⟨hf, hs⟩ := oneByte_fresh
  exact (repair_restores_iff (Nat.le_refl 3) (oneByte_agree 1) (fun _ => rfl) (oneByte_new 1) (fun _ _ => 0)
    (fun _ _ => 0) 0 hf hs rfl).mpr ⟨by decide, Or.inr (Or.inl (by decide))⟩

/-- The one byte of the last of three ranks is lost unless it is zero. -/
theorem repair_loses_last : ∃ committed final : Fin 3 → DataMember,
    (∃ snaps, iprotect (fun k : Fin 3 => (oneByteMember 1 k).stageSnapshot) = .ok snaps ∧
      ∀ k : Fin 3, ({ oneByteMember 1 k with stageSnapshot := snaps k } : DataMember).commit k 3 0
        (fun _ => 0) (fun _ => 0) = .ok (committed k)) ∧
      repair [0] (Function.update committed 2 (oneByteMember 0 0)) = .ok final ∧
      ¬RestoredAt committed final 2 0 1 := by
  obtain ⟨hf, hs⟩ := oneByte_fresh
  obtain ⟨snaps, committed, hprot, hcommit, was, hwas, hcomm, hdata⟩ := protect_commit (n := 3) (by decide)
    (oneByte_agree 1) (by decide) (fun _ => rfl) (oneByte_new 1) (fun _ _ => 0) (fun _ _ => 0)
  obtain ⟨⟨final, hfinal⟩, hiff⟩ := repair_lost (Nat.le_refl 3) hwas hcomm 2 hf hs rfl
  refine ⟨committed, final, ⟨snaps, hprot, hcommit⟩, hfinal, fun hres => ?_⟩
  have hreb := (hiff [] final List.not_mem_nil hfinal).mp hres
  rw [(hdata 2).1, (hdata 2).2] at hreb
  rcases hreb with hreb | hreb | ⟨_, hreb⟩ | ⟨hreb, _⟩
  · exact absurd hreb (by decide)
  · exact absurd hreb (by decide)
  · exact absurd hreb (by decide)
  · exact absurd hreb (by decide)

end Protected

end Fenix.ParityMember
