import Fenix.GroupLedger
import Mathlib.Data.List.GetD

namespace Fenix

variable {n : Nat}

section Sync

variable {timestamps : Fin n → Finset Int} {limit : Nat} {t : Int}

theorem card_syncTimestamps_le (h : ∀ k, (timestamps k).card ≤ limit) :
    (DataGroup.syncTimestamps timestamps).card ≤ limit := by
  unfold DataGroup.syncTimestamps
  dsimp only
  refine (List.toFinset_card_le _).trans ?_
  rw [List.length_map, List.length_range]
  cases hm : ((List.finRange n).map fun k => (timestamps k).card).max? with
  | none => exact Nat.zero_le _
  | some c =>
    obtain ⟨k, _, hk⟩ := List.mem_map.mp (List.max?_mem hm)
    rw [Option.getD_some, ← hk]
    exact h k

/-- What is synced comes from some rank, padding being less than any timestamp. -/
theorem mem_of_mem_syncTimestamps (hpos : ∀ k, ∀ t ∈ timestamps k, 0 ≤ t)
    (ht : t ∈ DataGroup.syncTimestamps timestamps) : ∃ k, t ∈ timestamps k := by
  unfold DataGroup.syncTimestamps at ht
  obtain ⟨i, hi, hval⟩ := List.mem_map.mp (List.mem_toFinset.mp ht)
  have hi := List.mem_range.mp hi
  have hat : ∀ k, i < (timestamps k).card →
      (DataGroup.newestFirst (timestamps k)).getD i (-1) ∈ timestamps k := by
    intro k hlt
    have hlen : i < (DataGroup.newestFirst (timestamps k)).length := by
      rw [DataGroup.newestFirst, Finset.length_sort]
      exact hlt
    rw [List.getD_eq_getElem _ _ hlen]
    exact (Finset.mem_sort _).mp (List.getElem_mem hlen)
  cases hm : ((List.finRange n).map fun k => (timestamps k).card).max? with
  | none =>
    rw [hm, Option.getD_none] at hi
    omega
  | some c =>
    rw [hm, Option.getD_some] at hi
    obtain ⟨longest, _, hc⟩ := List.mem_map.mp (List.max?_mem hm)
    have hin : (DataGroup.newestFirst (timestamps longest)).getD i (-1) ∈
        (List.finRange n).map fun k => (DataGroup.newestFirst (timestamps k)).getD i (-1) :=
      List.mem_map.mpr ⟨longest, List.mem_finRange longest, rfl⟩
    obtain ⟨top, htop⟩ := Option.isSome_iff_exists.mp (List.isSome_max?_of_mem hin)
    rw [htop, Option.getD_some] at hval
    have hle := (List.max?_eq_some_iff.mp htop).2 _ hin
    have hnonneg := hpos longest _ (hat longest (by omega))
    obtain ⟨k, _, hk⟩ := List.mem_map.mp (List.max?_mem htop)
    by_cases hlt : i < (timestamps k).card
    · exact ⟨k, hval ▸ hk ▸ hat k hlt⟩
    · -- padding is negative, the greatest value at the position is not
      rw [List.getD_eq_default _ _ (by rw [DataGroup.newestFirst, Finset.length_sort]; omega)] at hk
      omega

theorem le_newestFirst_head {s : Finset Int} (ht : t ∈ s) : t ≤ (DataGroup.newestFirst s).head?.getD (-1) := by
  have hmem : t ∈ DataGroup.newestFirst s := (Finset.mem_sort _).mpr ht
  have hsorted : (DataGroup.newestFirst s).Pairwise (· ≥ ·) := Finset.pairwise_sort _ _
  cases hl : DataGroup.newestFirst s with
  | nil =>
    rw [hl] at hmem
    cases hmem
  | cons x xs =>
    rw [hl] at hmem hsorted
    rw [List.head?_cons, Option.getD_some]
    rcases List.mem_cons.mp hmem with rfl | hin
    · exact Int.le_refl _
    · exact (List.pairwise_cons.mp hsorted).1 t hin

end Sync

/-- The bookkeeping of a member next to that of its group, `strayed` telling whether the member may
hold what the group no longer lists. -/
structure DataMember.Tracked (policy : DataPolicy) (depth : Nat) (strayed : Prop) (listed : Finset Int)
    (m : DataMember) : Prop where
  depth_eq : m.depth = depth
  sound : (m.ledger listed).Sound (depth + 1)
  places : policy ≠ .localOnly → 2 * (depth + 1) ≤ (m.ledger listed).places
  aligned : ¬strayed → (m.ledger listed).Aligned

theorem DataMember.create_tracked {policy : DataPolicy} {g : GroupState} {depth elmSize elmCount : Nat} {strayed : Prop}
    {junk : Nat → Nat → UInt8} (hdepth : g.depth = depth) (hcard : g.timestamps.card ≤ depth + 1) :
    (DataMember.create policy g.depth g.cohortRank g.cohortSize elmSize elmCount junk).Tracked policy depth strayed
      g.timestamps := by
  subst hdepth
  constructor
  case depth_eq => rfl
  case sound =>
    constructor
    case listed_card => exact hcard
    case strayed_older =>
      intro x hx
      exact absurd (Finset.mem_sdiff.mp hx).1 (Finset.notMem_empty x)
    case strayed_card =>
      change (∅ \ g.timestamps).card ≤ g.depth + 1
      rw [Finset.empty_sdiff, Finset.card_empty]
      exact Nat.zero_le _
  case places =>
    intro hp
    cases policy with
    | localOnly => exact absurd rfl hp
    | imr mode =>
      change 2 * (g.depth + 1) ≤ 0 + (DataMember.create (.imr mode) g.depth g.cohortRank g.cohortSize elmSize
        elmCount junk).availSnapshots.length
      simp only [DataMember.create, List.length_append, List.length_map, List.length_replicate]
      omega
  case aligned => exact fun _ => Finset.empty_subset _

namespace DataMember.Tracked

variable {policy : DataPolicy} {depth : Nat} {strayed : Prop} {listed : Finset Int} {m : DataMember} {ts : Int}

/-- A snapshot is free for every listed timestamp that a member lacks. -/
theorem spare_pos (h : m.Tracked policy depth strayed listed) (hp : policy ≠ .localOnly) (hts : ts ∈ listed)
    (hn : ts ∉ m.timestamps) : 0 < m.availSnapshots.length := h.sound.spare_pos (h.places hp) hts hn

theorem repairSnapshot_isSome (h : m.Tracked policy depth strayed listed) (hp : policy ≠ .localOnly)
    (hts : ts ∈ listed) : (m.repairSnapshot ts).isSome := by
  unfold repairSnapshot
  cases hf : m.commitSnapshots.find? ts with
  | some s => rfl
  | none =>
    have hn : ts ∉ m.timestamps := by
      rw [mem_timestamps, hf]
      exact nofun
    have hpos := h.spare_pos hp hts hn
    rw [Option.isSome_map, List.isSome_head?]
    exact List.ne_nil_of_length_pos hpos

theorem putBack (h : m.Tracked policy depth strayed listed) (hp : policy ≠ .localOnly) (hts : ts ∈ listed)
    {s : IMRSnapshot} (hs : (m.commitSnapshots.find? ts).isSome → s.timestamp = ts) :
    (m.putBack ts s).Tracked policy depth strayed listed := by
  have hl := ledger_putBack hs listed
  refine ⟨(putBack_depth _ _ _).trans h.depth_eq, hl ▸ h.sound.mend hts, fun _ => ?_,
    fun hf => hl ▸ (h.aligned hf).mend hts⟩
  rw [hl, Ledger.places_mend fun hn => h.spare_pos hp hts hn]
  exact h.places hp

theorem resetUnfound (h : m.Tracked policy depth strayed listed) (ts : Int) :
    (m.resetUnfound ts).Tracked policy depth strayed listed := by
  have hl := ledger_resetUnfound m ts listed
  exact ⟨(resetUnfound_depth _ _).trans h.depth_eq, hl ▸ h.sound, fun hp => hl ▸ h.places hp,
    fun hf => hl ▸ h.aligned hf⟩

end DataMember.Tracked

namespace GroupState

/-- The bookkeeping of a group on one rank. -/
structure Tracked (policy : DataPolicy) (depth : Nat) (strayed : Prop) (g : GroupState) : Prop where
  depth_eq : g.depth = depth
  ordered : g.Ordered
  timestamp_ge : -1 ≤ g.timestamp
  listed_card : g.timestamps.card ≤ depth + 1
  members : ∀ m ∈ g.members, m.2.Tracked policy depth strayed g.timestamps

/-- Whether every member has stored what it staged, so that a commit goes through. -/
def committing (g : GroupState) : Bool := g.members.all fun m => !m.2.hasUnstoredData

/-- Whether a commit drops a timestamp from the group that a member goes on holding. -/
def Skews (g : GroupState) : Prop := ∃ m ∈ g.members, (m.2.ledger g.timestamps).Skews (g.depth + 1)

section Tracked

variable {policy : DataPolicy} {depth : Nat} {strayed : Prop} {g g' : GroupState}
  {junk partnerJunk : Int → Nat → UInt8} {id : Int}

theorem Ordered.held_le (h : g.Ordered) {m : Int × DataMember} (hm : m ∈ g.members) {t : Int}
    (ht : t ∈ m.2.timestamps) : 0 ≤ t ∧ t ≤ g.timestamp := by
  obtain ⟨s, hs, rfl⟩ := DataMember.mem_timestamps_entries.mp ht
  exact h.member_le m hm s hs

theorem Ordered.of_held (hstart : 0 ≤ g.timestart) (hlisted : ∀ t ∈ g.timestamps, 0 ≤ t ∧ t ≤ g.timestamp)
    (hheld : ∀ m ∈ g.members, ∀ t ∈ m.2.timestamps, 0 ≤ t ∧ t ≤ g.timestamp) : g.Ordered where
  timestart_nonneg := hstart
  listed_le := hlisted
  member_le := fun m hm s hs => hheld m hm _ (DataMember.mem_timestamps_entries.mpr ⟨s, hs, rfl⟩)

namespace Tracked

theorem le_next (h : g.Tracked policy depth strayed) : g.timestamp ≤ g.nextTimestamp ∧ 0 ≤ g.nextTimestamp := by
  have hge := h.timestamp_ge
  have hstart := h.ordered.timestart_nonneg
  unfold nextTimestamp
  split <;> omega

theorem mono {strayed' : Prop} (h : g.Tracked policy depth strayed) (hs : strayed → strayed') :
    g.Tracked policy depth strayed' where
  depth_eq := h.depth_eq
  ordered := h.ordered
  timestamp_ge := h.timestamp_ge
  listed_card := h.listed_card
  members := by
    intro m hm
    have hm := h.members m hm
    exact ⟨hm.depth_eq, hm.sound, hm.places, fun hn => hm.aligned (mt hs hn)⟩

theorem bump (h : g.Tracked policy depth strayed) : g.bumpTimestamp.Tracked policy depth strayed where
  depth_eq := h.depth_eq
  ordered := by
    refine Ordered.of_held h.ordered.timestart_nonneg ?_ ?_
    · intro t ht
      obtain ⟨hlo, hle⟩ := h.ordered.listed_le t ht
      exact ⟨hlo, Int.le_trans hle h.le_next.1⟩
    · intro m hm t ht
      obtain ⟨hlo, hle⟩ := h.ordered.held_le hm ht
      exact ⟨hlo, Int.le_trans hle h.le_next.1⟩
  timestamp_ge := Int.le_trans h.timestamp_ge h.le_next.1
  listed_card := h.listed_card
  members := h.members

/-- What a commit that goes through does to the bookkeeping. -/
theorem commit_ledger (h : g.Tracked policy depth strayed)
    (hc : g.bumpTimestamp.commit junk partnerJunk = .ok g') :
    g'.timestamps = Ledger.addListed (depth + 1) g.nextTimestamp g.timestamps ∧
      g'.timestamp = g.nextTimestamp ∧ g'.depth = depth ∧ g'.timestart = g.timestart ∧
      List.Forall₂ (fun m m' => m'.1 = m.1 ∧ m'.2.depth = depth ∧
        m'.2.ledger g'.timestamps = (m.2.ledger g.timestamps).commit (depth + 1) g.nextTimestamp)
        g.members g'.members := by
  rcases g.bumpTimestamp.commit_cases junk partnerJunk with ⟨_, herr⟩ | ⟨_, members, hms, heq⟩
  · rw [herr] at hc
    cases hc
  · rw [heq] at hc
    cases Except.ok.inj hc
    have hlisted : insert g.nextTimestamp
        (if g.timestamps.card = g.depth + 1 then eraseOldest g.timestamps else g.timestamps) =
          Ledger.addListed (depth + 1) g.nextTimestamp g.timestamps := by
      rw [h.depth_eq]
      rfl
    refine ⟨hlisted, rfl, h.depth_eq, rfl, ?_⟩
    refine List.forall₂_imp_of_mem_left hms fun m hm m' hmm => ?_
    obtain ⟨hid, hcm⟩ := commitMember_eq_ok hmm
    have hdepth := (h.members m hm).depth_eq
    have hnew : ∀ t ∈ m.2.timestamps, t < g.nextTimestamp := fun t ht =>
      lt_nextTimestamp (h.ordered.held_le hm ht).1 (h.ordered.held_le hm ht).2
    obtain ⟨hl, hd⟩ := DataMember.ledger_commit hnew hcm g.timestamps
    rw [hdepth] at hl hd
    refine ⟨hid, hd, ?_⟩
    change m'.2.ledger (insert g.nextTimestamp
      (if g.timestamps.card = g.depth + 1 then eraseOldest g.timestamps else g.timestamps)) = _
    rw [hlisted]
    exact hl

theorem commit {strayed' : Prop} (h : g.Tracked policy depth strayed)
    (hc : g.bumpTimestamp.commit junk partnerJunk = .ok g')
    (hs : ¬strayed' → ¬strayed ∧ ¬g.Skews) : g'.Tracked policy depth strayed' := by
  obtain ⟨hlisted, hts, hdepth, hstart, hms⟩ := h.commit_ledger hc
  have hnewListed : ∀ t ∈ g.timestamps, t < g.nextTimestamp := fun t ht =>
    lt_nextTimestamp (h.ordered.listed_le t ht).1 (h.ordered.listed_le t ht).2
  have hnewHeld : ∀ m ∈ g.members, ∀ t ∈ m.2.timestamps, t < g.nextTimestamp := fun m hm t ht =>
    lt_nextTimestamp (h.ordered.held_le hm ht).1 (h.ordered.held_le hm ht).2
  constructor
  case depth_eq => exact hdepth
  case timestamp_ge =>
    have hnext := h.le_next.2
    omega
  case listed_card =>
    rw [hlisted]
    exact Ledger.card_addListed h.listed_card (Nat.succ_pos depth)
  case ordered =>
    refine Ordered.of_held (by rw [hstart]; exact h.ordered.timestart_nonneg) ?_ ?_
    · intro t ht
      rw [hlisted] at ht
      rw [hts]
      rcases Ledger.mem_addListed.mp ht with rfl | ⟨ht, _⟩
      · exact ⟨h.le_next.2, Int.le_refl _⟩
      · exact ⟨(h.ordered.listed_le t ht).1, Int.le_of_lt (hnewListed t ht)⟩
    · intro m' hm' t ht
      obtain ⟨m, hm, _, _, hl⟩ := List.exists_left_of_forall₂ hms hm'
      have hheld : m'.2.timestamps = Ledger.addHeld (depth + 1) g.nextTimestamp m.2.timestamps :=
        congrArg Ledger.held hl
      rw [hheld] at ht
      rw [hts]
      rcases Finset.mem_insert.mp (Ledger.addHeld_subset ht) with rfl | ht
      · exact ⟨h.le_next.2, Int.le_refl _⟩
      · exact ⟨(h.ordered.held_le hm ht).1, Int.le_of_lt (hnewHeld m hm t ht)⟩
  case members =>
    intro m' hm'
    obtain ⟨m, hm, _, hd, hl⟩ := List.exists_left_of_forall₂ hms hm'
    have htracked := h.members m hm
    constructor
    case depth_eq => exact hd
    case sound =>
      rw [hl]
      exact htracked.sound.commit (Nat.succ_pos depth) hnewListed (hnewHeld m hm)
    case places =>
      intro hp
      rw [hl]
      exact (htracked.places hp).trans (Ledger.places_commit (hnewHeld m hm))
    case aligned =>
      intro hfalse
      obtain ⟨hold, hskew⟩ := hs hfalse
      rw [hl]
      refine (Ledger.aligned_commit_iff (htracked.aligned hold) hnewListed).mpr fun hsk => ?_
      exact hskew ⟨m, hm, h.depth_eq ▸ hsk⟩

/-- Members whose bookkeeping is in step with the list of the group. -/
theorem withMembers {listed : Finset Int} {timestamp : Int} {members : List (Int × DataMember)} {strayed' : Prop}
    (h : g.Tracked policy depth strayed) (hcard : listed.card ≤ depth + 1) (hge : -1 ≤ timestamp)
    (hlisted : ∀ t ∈ listed, 0 ≤ t ∧ t ≤ timestamp)
    (hheld : ∀ m ∈ members, ∀ t ∈ m.2.timestamps, 0 ≤ t ∧ t ≤ timestamp)
    (hm : ∀ m ∈ members, m.2.Tracked policy depth strayed' listed) :
    ({ g with timestamps := listed, timestamp := timestamp, members := members } : GroupState).Tracked
      policy depth strayed' where
  depth_eq := h.depth_eq
  ordered := Ordered.of_held h.ordered.timestart_nonneg hlisted hheld
  timestamp_ge := hge
  listed_card := hcard
  members := hm

theorem snapshotErase (h : g.Tracked policy depth strayed) (ts : Int) :
    (g.snapshotErase ts).Tracked policy depth strayed := by
  refine h.withMembers ?_ h.timestamp_ge ?_ ?_ ?_
  · exact Finset.card_erase_le.trans h.listed_card
  · exact fun t ht => h.ordered.listed_le t (Finset.mem_of_mem_erase ht)
  · intro m' hm' t ht
    obtain ⟨m, hm, rfl⟩ := List.mem_map.mp hm'
    rw [DataMember.snapshotDelete_timestamps] at ht
    exact h.ordered.held_le hm (Finset.mem_of_mem_erase ht)
  · intro m' hm'
    obtain ⟨m, hm, rfl⟩ := List.mem_map.mp hm'
    have htracked := h.members m hm
    have hl := DataMember.ledger_snapshotDelete m.2 g.timestamps ts
    exact ⟨(DataMember.snapshotDelete_depth _ _).trans htracked.depth_eq, hl ▸ htracked.sound.erase ts,
      fun hp => by rw [hl, Ledger.places_erase]; exact htracked.places hp,
      fun hs => hl ▸ (htracked.aligned hs).erase ts⟩

theorem snapshotDelete {ts : Int} (h : g.Tracked policy depth strayed) (hd : g.snapshotDelete ts = .ok g') :
    g'.Tracked policy depth strayed := by
  unfold GroupState.snapshotDelete at hd
  split at hd
  next => cases hd
  next newest rest _ =>
    split at hd
    next =>
      cases Except.ok.inj hd
      have hall : ∀ (xs : List Int) (g : GroupState), g.Tracked policy depth strayed →
          (xs.foldl GroupState.snapshotErase g).Tracked policy depth strayed := by
        intro xs
        induction xs with
        | nil => exact fun _ h => h
        | cons x xs ih => exact fun g h => ih _ (h.snapshotErase x)
      exact hall _ _ h
    next =>
      dsimp only at hd
      generalize (if ts = snapshotLatest then newest else ts) = ts' at hd
      split at hd
      next =>
        cases Except.ok.inj hd
        exact h.snapshotErase _
      next => cases hd

theorem adopt {synced : Finset Int} (h : g.Tracked policy depth strayed) (hcard : synced.card ≤ depth + 1)
    (hpos : ∀ t ∈ synced, 0 ≤ t) : (g.adopt synced).Tracked policy depth False := by
  have hle : ∀ t ∈ synced, 0 ≤ t ∧ t ≤ (DataGroup.newestFirst synced).head?.getD (-1) :=
    fun t ht => ⟨hpos t ht, le_newestFirst_head ht⟩
  refine h.withMembers hcard ?_ hle ?_ ?_
  · cases hl : DataGroup.newestFirst synced with
    | nil => exact Int.le_refl _
    | cons x xs =>
      have hx : x ∈ synced := by
        refine (Finset.mem_sort (· ≥ ·)).mp ?_
        change x ∈ DataGroup.newestFirst synced
        rw [hl]
        exact List.mem_cons_self
      have hxpos := hpos x hx
      rw [List.head?_cons, Option.getD_some]
      omega
  · intro m' hm' t ht
    obtain ⟨m, hm, rfl⟩ := List.mem_map.mp hm'
    rw [DataMember.cleanup_timestamps, Finset.mem_inter] at ht
    exact hle t ht.2
  · intro m' hm'
    obtain ⟨m, hm, rfl⟩ := List.mem_map.mp hm'
    have htracked := h.members m hm
    have hl := DataMember.ledger_cleanup m.2 g.timestamps synced
    exact ⟨htracked.depth_eq, hl ▸ Ledger.Sound.restrict hcard,
      fun hp => by rw [hl, Ledger.places_restrict]; exact htracked.places hp,
      fun _ => hl ▸ Ledger.aligned_restrict synced⟩

theorem create (h : g.Tracked policy depth strayed) {elmSize elmCount : Nat} {junk : Nat → Nat → UInt8}
    (hc : g.memberCreate policy id elmSize elmCount junk = .ok g') : g'.Tracked policy depth strayed := by
  unfold memberCreate at hc
  split at hc
  next => cases hc
  next =>
    cases Except.ok.inj hc
    refine h.withMembers h.listed_card h.timestamp_ge h.ordered.listed_le ?_ ?_
    · intro m hm t ht
      rcases List.mem_append.mp hm with hm | hm
      · exact h.ordered.held_le hm ht
      · rw [List.mem_singleton.mp hm] at ht
        exact absurd ht (Finset.notMem_empty t)
    · intro m hm
      rcases List.mem_append.mp hm with hm | hm
      · exact h.members m hm
      · rw [List.mem_singleton.mp hm]
        exact DataMember.create_tracked h.depth_eq h.listed_card

/-- An operation on one member that keeps its bookkeeping. -/
theorem updateMember (h : g.Tracked policy depth strayed) {f : DataMember → DataMember}
    (hf : ∀ m ∈ g.members, m.1 = id → (f m.2).Tracked policy depth strayed g.timestamps ∧
      ∀ t ∈ (f m.2).timestamps, 0 ≤ t ∧ t ≤ g.timestamp) : (g.updateMember id f).Tracked policy depth strayed := by
  refine h.withMembers h.listed_card h.timestamp_ge h.ordered.listed_le ?_ ?_
  · intro m' hm' t ht
    obtain ⟨m, hm, rfl⟩ := List.mem_map.mp hm'
    split at ht
    next hid => exact (hf m hm hid).2 t ht
    next => exact h.ordered.held_le hm ht
  · intro m' hm'
    obtain ⟨m, hm, rfl⟩ := List.mem_map.mp hm'
    split
    next hid => exact (hf m hm hid).1
    next => exact h.members m hm

theorem memberAdopt (h : g.Tracked policy depth strayed) (model : DataMember) (junk : Nat → Nat → UInt8) :
    (g.memberAdopt policy id model junk).Tracked policy depth strayed := by
  unfold GroupState.memberAdopt
  split
  next hc => exact h.create hc
  next => exact h

end Tracked

theorem member?_mem {m : DataMember} (h : g.member? id = some m) : (id, m) ∈ g.members := by
  obtain ⟨x, hx, rfl⟩ := Option.map_eq_some_iff.mp h
  have hid := List.find?_some hx
  rw [beq_iff_eq] at hid
  rw [← hid]
  exact List.mem_of_find?_eq_some hx

/-- A rank has every member that it has adopted. -/
theorem member?_memberAdopt (g : GroupState) (policy : DataPolicy) (id : Int) (model : DataMember)
    (junk : Nat → Nat → UInt8) : ((g.memberAdopt policy id model junk).member? id).isSome ∧
      (g.memberAdopt policy id model junk).timestamps = g.timestamps ∧
      (g.memberAdopt policy id model junk).timestamp = g.timestamp := by
  unfold memberAdopt memberCreate
  cases hm : g.member? id with
  | some m => exact ⟨by rw [hm]; rfl, rfl, rfl⟩
  | none =>
    refine ⟨?_, rfl, rfl⟩
    unfold member?
    dsimp only
    rw [Option.isSome_map, List.find?_isSome]
    exact ⟨_, List.mem_append_right _ List.mem_cons_self, beq_self_eq_true id⟩

/-- A repair, run to its end or interrupted, keeps the bookkeeping of every rank. -/
theorem memberRepair_tracked {upTo : Nat} {junk : Fin n → Nat → Nat → UInt8} {gs gs' : Fin n → GroupState}
    (h : ∀ k, (gs k).Tracked policy depth strayed) (hr : memberRepair policy id upTo junk gs = .ok gs') (k : Fin n) :
    (gs' k).Tracked policy depth strayed := by
  unfold memberRepair at hr
  split at hr
  next => cases hr
  next root _ =>
    split at hr
    next => cases hr
    next model _ =>
      split at hr
      next =>
        cases Except.ok.inj hr
        exact (h k).memberAdopt model _
      next mode =>
        dsimp only at hr
        split at hr
        next hsame =>
          split at hr
          next ms hms =>
            cases Except.ok.inj hr
            set g := (gs k).memberAdopt (.imr mode) id model (junk k)
            have hg : g.Tracked (.imr mode) depth strayed := (h k).memberAdopt model _
            obtain ⟨hin, hlisted, _⟩ := member?_memberAdopt (gs k) (.imr mode) id model (junk k)
            obtain ⟨m, hm⟩ := Option.isSome_iff_exists.mp hin
            have hstart := member?_mem hm
            have hkeeps : (ms k).Tracked (.imr mode) depth strayed g.timestamps ∧
                ∀ t ∈ (ms k).timestamps, 0 ≤ t ∧ t ≤ g.timestamp := by
              refine repair_keeps (P := fun m => m.Tracked (.imr mode) depth strayed g.timestamps ∧
                ∀ t ∈ m.timestamps, 0 ≤ t ∧ t ≤ g.timestamp) ?_ ?_ ?_ hms k ?_
              · exact fun m k hm => ⟨⟨hm.1.depth_eq, hm.1.sound, hm.1.places, hm.1.aligned⟩, hm.2⟩
              · intro m s ts hts hm hs
                have hts : ts ∈ g.timestamps := by
                  rw [hlisted, hsame k]
                  exact (Finset.mem_sort _).mp (List.mem_of_mem_take hts)
                refine ⟨hm.1.putBack nofun hts hs, fun t ht => ?_⟩
                rw [DataMember.putBack_timestamps hs] at ht
                rcases Finset.mem_insert.mp ht with rfl | ht
                · exact hg.ordered.listed_le t hts
                · exact hm.2 t ht
              · intro m ts hm
                refine ⟨hm.1.resetUnfound ts, fun t ht => hm.2 t ?_⟩
                have heq : (m.resetUnfound ts).timestamps = m.timestamps :=
                  congrArg Ledger.held (DataMember.ledger_resetUnfound m ts g.timestamps)
                rwa [heq] at ht
              · rw [hm]
                exact ⟨hg.members _ hstart, fun t ht => hg.ordered.held_le hstart ht⟩
            exact hg.updateMember fun _ _ _ => hkeeps
          next => cases hr
        next => cases hr

end Tracked

end GroupState

end Fenix
