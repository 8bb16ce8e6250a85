import Fenix.BuddyDurability
import Fenix.SyncNewest

namespace Fenix

open BuddyMember (left)

variable {n : Nat} {log : CommitHistory n} {T : Finset Int}

namespace DataGroup

/-- Ranks that list the same timestamps, or none at all, agree on these. -/
theorem syncTimestamps_of_agreed {timestamps : Fin n → Finset Int} (hpos : ∀ t ∈ T, 0 ≤ t)
    (h : ∀ k, timestamps k = T ∨ timestamps k = ∅) (keeper : Fin n) (hkeeper : timestamps keeper = T) :
    syncTimestamps timestamps = T := by
  have hall : ∀ k, ∀ t ∈ timestamps k, t ∈ T := by
    intro k t ht
    rcases h k with heq | heq
    · rwa [heq] at ht
    · rw [heq] at ht
      exact absurd ht (Finset.notMem_empty t)
  have hnonneg : ∀ k, ∀ t ∈ timestamps k, 0 ≤ t := fun k t ht => hpos t (hall k t ht)
  refine Finset.eq_of_subset_of_card_le (fun t ht => ?_) ?_
  · obtain ⟨k, hk⟩ := mem_of_mem_syncTimestamps hnonneg ht
    exact hall k t hk
  · rw [card_syncTimestamps hnonneg, ← hkeeper]
    exact Finset.le_sup (f := fun k => (timestamps k).card) (Finset.mem_univ keeper)

end DataGroup

namespace GroupState

variable {gs gs' : Fin n → GroupState} {id : Int} {g : GroupState}

theorem member?_adopt (g : GroupState) (synced : Finset Int) (id : Int) :
    (g.adopt synced).member? id = (g.member? id).map fun m => m.cleanupTimestamps synced := by
  unfold adopt member?
  rw [List.find?_map, Option.map_map, Option.map_map]
  rfl

theorem member?_updateMember_of_ne {f : DataMember → DataMember} {other : Int} (hne : other ≠ id) :
    (g.updateMember id f).member? other = g.member? other := by
  unfold member? updateMember
  dsimp only
  generalize g.members = xs
  induction xs with
  | nil => rfl
  | cons x xs ih =>
    rw [List.map_cons]
    by_cases hx : x.1 = id
    · have hbeq : (x.1 == other) = false := beq_eq_false_iff_ne.mpr fun h => hne (h.symm.trans hx)
      simp only [if_pos hx, List.find?_cons, hbeq]
      exact ih
    · simp only [if_neg hx, List.find?_cons]
      split
      next => rfl
      next => exact ih

theorem member?_memberAdopt_of_ne (g : GroupState) (policy : DataPolicy) (model : DataMember)
    (junk : Nat → Nat → UInt8) {other : Int} (hne : other ≠ id) :
    (g.memberAdopt policy id model junk).member? other = g.member? other := by
  unfold memberAdopt memberCreate
  cases g.member? id with
  | some m => rfl
  | none =>
    have hbeq : (id == other) = false := beq_eq_false_iff_ne.mpr (Ne.symm hne)
    unfold member?
    dsimp only
    simp [hbeq]

/-- The repair of a member leaves the other members alone, and the timestamps of the group. -/
theorem memberRepair_frame {upTo : Nat} {junk : Fin n → Nat → Nat → UInt8}
    (h : memberRepair (.imr .buddy) id upTo junk gs = .ok gs') (k : Fin n) :
    (gs' k).timestamps = (gs k).timestamps ∧ ∀ other, other ≠ id → (gs' k).member? other = (gs k).member? other := by
  unfold memberRepair at h
  split at h
  next => cases h
  next =>
    split at h
    next => cases h
    next model _ =>
      dsimp only at h
      split at h
      next =>
        split at h
        next =>
          cases Except.ok.inj h
          refine ⟨(member?_memberAdopt (gs k) (.imr .buddy) id model (junk k)).2.1, fun other hne => ?_⟩
          exact (member?_updateMember_of_ne hne).trans (member?_memberAdopt_of_ne _ _ _ _ hne)
        next => cases h
      next => cases h

/-- After the repair of a member all ranks have it. -/
theorem memberRepair_present {upTo : Nat} {junk : Fin n → Nat → Nat → UInt8}
    (h : memberRepair (.imr .buddy) id upTo junk gs = .ok gs') (k : Fin n) : ((gs' k).member? id).isSome := by
  unfold memberRepair at h
  split at h
  next => cases h
  next =>
    split at h
    next => cases h
    next model _ =>
      dsimp only at h
      split at h
      next =>
        split at h
        next =>
          cases Except.ok.inj h
          obtain ⟨m, hm⟩ := Option.isSome_iff_exists.mp (member?_memberAdopt (gs k) (.imr .buddy) id model (junk k)).1
          rw [member?_updateMember _ hm]
          rfl
        next => cases h
      next => cases h

/-- Every rank has what was committed of a member with a timestamp. -/
def Restored (gs : Fin n → GroupState) (log : CommitHistory n) (id ts : Int) : Prop :=
  ∀ k, ∃ m s, (gs k).member? id = some m ∧ m.commitSnapshots.find? ts = some s ∧
    s.Keeps k (log.elmSize id) (log.elmCount id) (log.record id ts)

theorem restored_of_guards (hg : ∀ k, (gs k).Guards k log) {ts : Int} (h : ∀ k, HoldsOf gs id k ts) :
    Restored gs log id ts := by
  intro k
  obtain ⟨m, hm, hts⟩ := h k
  obtain ⟨s, hs⟩ := Option.isSome_iff_exists.mp hts
  exact ⟨m, s, hm, hs, (hg k _ (member?_mem hm)).of_find? hs⟩

/-- The repairs of members, one after the other. -/
def repairMembers (junk : Fin n → Nat → Nat → UInt8) (upTo : Nat) :
    List Int → (Fin n → GroupState) → Except GroupError (Fin n → GroupState)
  | [], gs => .ok gs
  | id :: ids, gs => do
    let gs ← memberRepair (.imr .buddy) id upTo junk gs
    repairMembers junk upTo ids gs

end GroupState

namespace GroupRun

open GroupState (HoldsOf memberRepair repairMembers)

variable {timestart : Int} {depth : Nat} {c : GroupRun n} {f : Fin n} {id : Int}

/-- Rank `f` fails, and is replaced, and the ranks create the group anew. -/
def losing (c : GroupRun n) (timestart : Int) (depth : Nat) (f : Fin n) : GroupRun n :=
  { c with
    groups := GroupState.syncTimestamps fun k => if k = f then fresh timestart depth k else c.groups k
    strayed := False }

theorem Conforming.losing (h : Conforming timestart depth log c) (f : Fin n) :
    Conforming timestart depth log (c.losing timestart depth f) := by
  have hfail := h.fail (fun k => decide (k = f))
  simp only [decide_eq_true_eq] at hfail
  exact hfail.sync

theorem losing_timestamps (hn : 2 ≤ n) (h : Conforming timestart depth log c)
    (hsame : ∀ k, k ≠ f → (c.groups k).timestamps = T) (k : Fin n) :
    (c.losing timestart depth f).groups k =
      GroupState.adopt (if k = f then fresh timestart depth k else c.groups k) T := by
  have := Fin.nontrivial_iff_two_le.mpr hn
  obtain ⟨keeper, hkeeper⟩ := exists_ne f
  have hpos : ∀ t ∈ T, 0 ≤ t := by
    intro t ht
    rw [← hsame keeper hkeeper] at ht
    exact ((h.reachable.tracked.2 keeper).ordered.listed_le t ht).1
  have hsynced : DataGroup.syncTimestamps (fun k =>
      (if k = f then fresh timestart depth k else c.groups k).timestamps) = T := by
    refine DataGroup.syncTimestamps_of_agreed hpos (fun k => ?_) keeper ?_
    · by_cases hk : k = f
      · rw [if_pos hk]
        exact Or.inr rfl
      · rw [if_neg hk]
        exact Or.inl (hsame k hk)
    · rw [if_neg hkeeper]
      exact hsame keeper hkeeper
  exact congrArg (GroupState.adopt _) hsynced

/-- The repair of a member that a rank has lost, by ranks that list the same timestamps. -/
theorem memberRepair_lost (hn : 2 ≤ n) (h : Conforming timestart depth log c)
    (hT : ∀ k, (c.groups k).timestamps = T) (hlost : (c.groups f).member? id = none)
    (hfound : ∃ k, ((c.groups k).member? id).isSome) (junk : Fin n → Nat → Nat → UInt8) :
    ∃ gs', memberRepair (.imr .buddy) id T.card junk c.groups = .ok gs' ∧
      Conforming timestart depth log { c with groups := gs' } ∧
      ∀ ts ∈ T, (∀ k, k ≠ f → HoldsOf c.groups id k ts) → ∀ k, HoldsOf gs' id k ts := by
  have hall : (DataGroup.newestFirst T).take T.card = DataGroup.newestFirst T :=
    List.take_of_length_le (Nat.le_of_eq (DataGroup.length_newestFirst T))
  have hnever : ∀ ts, ¬HoldsOf c.groups id f ts := by
    rintro ts ⟨m, hm, _⟩
    rw [hlost] at hm
    cases hm
  have hunused : ∀ ts, GroupState.RepairsUnused c.groups id ts := by
    intro ts k m hm halone
    cases (halone f).mp (hnever ts)
    rw [hlost] at hm
    cases hm
  obtain ⟨gs', hgs', _, hholds⟩ := GroupState.memberRepair_guards hn h.sound (h.guards hn)
    h.reachable.tracked.2 hT hfound T.card (fun ts _ => hunused ts) junk
  refine ⟨gs', hgs', .repair id T.card junk h (fun _ ts _ => hunused ts) hgs', fun ts hts hheld k => ?_⟩
  rw [hholds, hall]
  by_cases hk : k = f
  · refine Or.inr ⟨DataGroup.mem_newestFirst.mpr hts, f, fun l => ⟨fun hno => ?_, fun hl => hl ▸ hnever ts⟩⟩
    exact Classical.not_not.mp fun hl => hno (hheld l hl)
  · exact Or.inl (hheld k hk)

/-- The repairs of members that a rank has lost restore all that the other ranks have of them. -/
theorem repairMembers_lost (hn : 2 ≤ n) (h : Conforming timestart depth log c)
    (hT : ∀ k, (c.groups k).timestamps = T) {ids : List Int} (hnodup : ids.Nodup)
    (hlost : ∀ id ∈ ids, (c.groups f).member? id = none)
    (hfound : ∀ id ∈ ids, ∃ k, ((c.groups k).member? id).isSome) (junk : Fin n → Nat → Nat → UInt8) :
    ∃ gs', repairMembers junk T.card ids c.groups = .ok gs' ∧
      Conforming timestart depth log { c with groups := gs' } ∧ (∀ k, (gs' k).timestamps = T) ∧
      (∀ id, id ∉ ids → ∀ k, (gs' k).member? id = (c.groups k).member? id) ∧
      (∀ id ∈ ids, ∀ k, ((gs' k).member? id).isSome) ∧
      ∀ id ∈ ids, ∀ ts ∈ T, (∀ k, k ≠ f → HoldsOf c.groups id k ts) → ∀ k, HoldsOf gs' id k ts := by
  induction ids generalizing c with
  | nil =>
    exact ⟨c.groups, rfl, h, hT, fun _ _ _ => rfl, fun _ hid => absurd hid List.not_mem_nil,
      fun _ hid => absurd hid List.not_mem_nil⟩
  | cons id ids ih =>
    obtain ⟨hnotin, hnodup⟩ := List.nodup_cons.mp hnodup
    obtain ⟨hfirst, hothers⟩ := List.forall_mem_cons.mp hlost
    obtain ⟨hthere, hfound⟩ := List.forall_mem_cons.mp hfound
    obtain ⟨mid, hmid, hconforming, hrestored⟩ := memberRepair_lost hn h hT hfirst hthere junk
    have hframe := GroupState.memberRepair_frame hmid
    have hsame : ∀ other ∈ ids, ∀ k, (mid k).member? other = (c.groups k).member? other := fun other hin k =>
      (hframe k).2 other fun heq => hnotin (heq ▸ hin)
    obtain ⟨gs', hgs', hfinal, htimestamps, hkept, hpresent, hback⟩ := ih hconforming (fun k => (hframe k).1.trans (hT k)) hnodup
      (fun other hin => (hsame other hin f).trans (hothers other hin))
      (fun other hin => (hfound other hin).imp fun k hk => (hsame other hin k).symm ▸ hk)
    have hmember : ∀ k, (gs' k).member? id = (mid k).member? id := hkept id hnotin
    refine ⟨gs', Except.bind_eq_ok_iff.mpr ⟨mid, hmid, hgs'⟩, hfinal, htimestamps, fun other hnot k => ?_,
      fun other hin k => ?_, ?_⟩
    · rw [List.mem_cons, not_or] at hnot
      obtain ⟨hne, hnot⟩ := hnot
      exact (hkept other hnot k).trans ((hframe k).2 other hne)
    · rcases List.mem_cons.mp hin with rfl | hin
      · rw [hmember k]
        exact GroupState.memberRepair_present hmid k
      · exact hpresent other hin k
    · intro other hin ts hts hheld k
      rcases List.mem_cons.mp hin with rfl | hin
      · obtain ⟨m, hm, hfind⟩ := hrestored ts hts hheld k
        exact ⟨m, (hmember k).trans hm, hfind⟩
      · refine hback other hin ts hts (fun l hl => ?_) k
        obtain ⟨m, hm, hfind⟩ := hheld l hl
        exact ⟨m, (hsame other hin l).trans hm, hfind⟩

/-- Whatever the ranks other than one have all committed survives the loss of that one: the group is created anew with
the same timestamps, each repair of a member goes through, and then all ranks have it. -/
theorem lost_rank_restored (hn : 2 ≤ n) (h : Conforming timestart depth log c)
    (hsame : ∀ k, k ≠ f → (c.groups k).timestamps = T) {ids : List Int} (hnodup : ids.Nodup)
    (hfound : ∀ id ∈ ids, ∃ k, k ≠ f ∧ ((c.groups k).member? id).isSome) (junk : Fin n → Nat → Nat → UInt8) :
    ∃ gs', repairMembers junk T.card ids (c.losing timestart depth f).groups = .ok gs' ∧
      Conforming timestart depth log { c with groups := gs', strayed := False } ∧ (∀ k, (gs' k).timestamps = T) ∧
      (∀ id ∈ ids, ∀ k, ((gs' k).member? id).isSome) ∧
      ∀ id ∈ ids, ∀ ts ∈ T, (∀ k, k ≠ f → HoldsOf c.groups id k ts) → ∀ k, HoldsOf gs' id k ts := by
  have hgroups := losing_timestamps hn h hsame
  have hmember : ∀ k, k ≠ f → ∀ id, ((c.losing timestart depth f).groups k).member? id =
      ((c.groups k).member? id).map fun m => m.cleanupTimestamps T := by
    intro k hk id
    rw [hgroups k, if_neg hk]
    exact GroupState.member?_adopt _ _ _
  have hheld : ∀ k, k ≠ f → ∀ id, ∀ ts ∈ T, HoldsOf c.groups id k ts →
      HoldsOf (c.losing timestart depth f).groups id k ts := by
    rintro k hk id ts hts ⟨m, hm, hfind⟩
    refine ⟨m.cleanupTimestamps T, ?_, (DataMember.cleanup_find? m T ts).mpr ⟨hts, hfind⟩⟩
    rw [hmember k hk, hm]
    rfl
  obtain ⟨gs', hgs', hfinal, htimestamps, _, hpresent, hback⟩ := repairMembers_lost (T := T) (f := f) hn (h.losing f)
    (fun k => by rw [hgroups k]; rfl) hnodup (fun id _ => by rw [hgroups f, if_pos rfl]; rfl)
    (fun id hid => (hfound id hid).imp fun k hk => by rw [hmember k hk.1, Option.isSome_map]; exact hk.2) junk
  exact ⟨gs', hgs', hfinal, htimestamps, hpresent, fun id hid ts hts hothers =>
    hback id hid ts hts fun k hk => hheld k hk id ts hts (hothers k hk)⟩

/-- Ranks are lost one after the other, and the members are repaired after each loss. -/
def survive (timestart : Int) (depth : Nat) (junk : Fin n → Nat → Nat → UInt8) (upTo : Nat) (ids : List Int) :
    List (Fin n) → GroupRun n → Except GroupError (GroupRun n)
  | [], c => .ok c
  | f :: fs, c => do
    let gs ← repairMembers junk upTo ids (c.losing timestart depth f).groups
    survive timestart depth junk upTo ids fs { c with groups := gs, strayed := False }

/-- Whatever all ranks have committed survives any losses of ranks, one at a time. -/
theorem survive_holds (hn : 2 ≤ n) (h : Conforming timestart depth log c) (hT : ∀ k, (c.groups k).timestamps = T)
    {ids : List Int} (hnodup : ids.Nodup) (hids : ∀ id ∈ ids, ∀ k, ((c.groups k).member? id).isSome)
    (junk : Fin n → Nat → Nat → UInt8) (lost : List (Fin n)) :
    ∃ c', survive timestart depth junk T.card ids lost c = .ok c' ∧ Conforming timestart depth log c' ∧
      ∀ id ∈ ids, ∀ ts ∈ T, (∀ k, HoldsOf c.groups id k ts) → ∀ k, HoldsOf c'.groups id k ts := by
  induction lost generalizing c with
  | nil => exact ⟨c, rfl, h, fun _ _ _ _ hheld => hheld⟩
  | cons f lost ih =>
    have := Fin.nontrivial_iff_two_le.mpr hn
    obtain ⟨keeper, hkeeper⟩ := exists_ne f
    obtain ⟨gs', hgs', hnext, hsame, hpresent, hback⟩ := lost_rank_restored hn h (fun k _ => hT k) hnodup
      (fun id hid => ⟨keeper, hkeeper, hids id hid keeper⟩) junk
    obtain ⟨c', hc', hfinal, hkept⟩ := ih hnext hsame hpresent
    exact ⟨c', Except.bind_eq_ok_iff.mpr ⟨gs', hgs', hc'⟩, hfinal, fun id hid ts hts hheld =>
      hkept id hid ts hts (hback id hid ts hts fun k _ => hheld k)⟩

/-- Two ranks commit a byte each. -/
def pairHistory : CommitHistory 2 where
  elmSize _ := 1
  elmCount _ := 1
  record _ _ := ⟨fun _ => ⟨{0}⟩, fun k _ _ => k.val.toUInt8⟩

theorem pairHistory_sound : pairHistory.Sound := by
  refine ⟨fun _ => Nat.one_pos, fun _ _ _ i hi => Or.inr ?_⟩
  rw [Finset.mem_singleton.mp hi]
  exact Nat.one_pos

/-- What a rank has stored of its byte and of that of the other. -/
def pairSnapshot (k : Fin 2) : IMRSnapshot where
  buf := ⟨1, fun _ => k.val.toUInt8⟩
  elmSize := 1
  elmMaxCount := 1
  cohortRank := some k
  protectedSubsets := [⟨{0}⟩, ⟨{0}⟩]
  stagedSubsets := [∅, ∅]
  partner :=
    { buf := ⟨1, fun _ => (left k).val.toUInt8⟩, elmSize := 1, elmMaxCount := 1, cohortRank := some k
      stagedSubsets := [⟨{0}⟩, ⟨{0}⟩] }

theorem pairSnapshot_keeps (k : Fin 2) : (pairSnapshot k).Keeps k 1 1 (pairHistory.record 7 0) := by
  have hstores : ∀ l : Fin 2, (⟨1, fun _ => l.val.toUInt8⟩ : DataBuffer).Stores 1 ⟨{0}⟩ fun _ _ => l.val.toUInt8 := by
    refine fun l => ⟨fun i hi => ?_, fun _ _ _ _ => rfl⟩
    rw [Finset.mem_singleton.mp hi]
  refine ⟨⟨rfl, rfl, rfl, rfl⟩, rfl, rfl, hstores k, Nat.mod_one _, rfl, ?_, hstores (left k)⟩
  match k with
  | 0 => rfl
  | 1 => rfl

/-- They have a group of one member, and have not committed it yet. -/
def pairStaged : GroupRun 2 where
  groups k := { fresh 0 0 k with members := [(7, { DataMember.create (.imr .buddy) 0 k 2 1 1 fun _ _ => 0 with
    stageSnapshot := pairSnapshot k })] }
  committed _ := []
  strayed := False

theorem pairStaged_conforming : Conforming 0 0 pairHistory pairStaged := by
  have hstart : Conforming 0 0 pairHistory ⟨fresh 0 0, fun _ => [], False⟩ :=
    .start pairHistory_sound (Int.le_refl 0)
  have hcreated := (hstart.create 0 7 (fun _ _ => 0) rfl).create 1 7 (fun _ _ => 0) rfl
  have hstaged := (hcreated.stage 0 7 (pairSnapshot 0)).stage 1 7 (pairSnapshot 1)
  refine (congrArg (Conforming 0 0 pairHistory) ?_).mp hstaged
  unfold pairStaged set
  congr 1
  funext k
  match k with
  | 0 => rfl
  | 1 => rfl

theorem pairStaged_covered (k : Fin 2) : (pairStaged.groups k).Covered k pairHistory := by
  intro _ m hm
  rw [List.mem_singleton.mp hm]
  exact pairSnapshot_keeps k

def pairCommitted : GroupRun 2 :=
  (List.finRange 2).foldl (fun c k => c.commit k (fun _ _ => 0) fun _ _ => 0) pairStaged

theorem pairCommitted_conforming : Conforming 0 0 pairHistory pairCommitted :=
  (pairStaged_conforming.commit 0 _ _ (pairStaged_covered 0)).commit 1 _ _ (pairStaged_covered 1)

end GroupRun

end Fenix
