import Fenix.GroupTracking

namespace Fenix

variable {n : Nat}

/-- The greatest of the values of the ranks is one of them, whatever stands in for it where there are no
ranks. -/
theorem greatest_spec {α : Type} [LinearOrder α] (f : Fin n → α) (d : α) (k : Fin n) :
    (∃ l, f l = ((List.finRange n).map f).max?.getD d) ∧ ∀ l, f l ≤ ((List.finRange n).map f).max?.getD d := by
  have hin : ∀ l, f l ∈ (List.finRange n).map f := fun l => List.mem_map.mpr ⟨l, List.mem_finRange l, rfl⟩
  obtain ⟨top, htop⟩ := Option.isSome_iff_exists.mp (List.isSome_max?_of_mem (hin k))
  rw [htop, Option.getD_some]
  obtain ⟨hmem, hle⟩ := List.max?_eq_some_iff.mp htop
  obtain ⟨l, _, hl⟩ := List.mem_map.mp hmem
  exact ⟨⟨l, hl⟩, fun l => hle _ (hin l)⟩

namespace DataGroup

variable {timestamps : Fin n → Finset Int} {t : Int} {i j : Nat}

theorem newestFirst_sorted (s : Finset Int) : (newestFirst s).Pairwise (· > ·) := by
  have hge : (newestFirst s).Pairwise (· ≥ ·) := Finset.pairwise_sort _ _
  exact hge.imp₂ (fun _ _ hle hne => lt_of_le_of_ne hle (Ne.symm hne)) (Finset.sort_nodup _ _)

@[simp] theorem mem_newestFirst {s : Finset Int} : t ∈ newestFirst s ↔ t ∈ s := Finset.mem_sort _

@[simp] theorem length_newestFirst (s : Finset Int) : (newestFirst s).length = s.card := Finset.length_sort _

theorem newestFirst_eq {s : Finset Int} {xs : List Int} (hsorted : xs.Pairwise (· > ·))
    (hmem : ∀ t, t ∈ xs ↔ t ∈ s) : newestFirst s = xs :=
  (newestFirst_sorted s).eq_of_mem_iff hsorted fun t => mem_newestFirst.trans (hmem t).symm

/-- The number of positions that are compared. -/
def positions (timestamps : Fin n → Finset Int) : Nat :=
  ((List.finRange n).map fun k => (timestamps k).card).max?.getD 0

/-- The greatest timestamp at a position, padding included. -/
def greatestAt (timestamps : Fin n → Finset Int) (i : Nat) : Int :=
  ((List.finRange n).map fun k => (newestFirst (timestamps k)).getD i (-1)).max?.getD (-1)

theorem positions_eq (timestamps : Fin n → Finset Int) :
    positions timestamps = Finset.univ.sup fun k => (timestamps k).card := by
  refine Nat.le_antisymm ?_ (Finset.sup_le fun k _ => ?_)
  · unfold positions
    cases hm : ((List.finRange n).map fun k => (timestamps k).card).max? with
    | none => exact Nat.zero_le _
    | some c =>
      obtain ⟨k, _, rfl⟩ := List.mem_map.mp (List.max?_mem hm)
      exact Finset.le_sup (f := fun k => (timestamps k).card) (Finset.mem_univ k)
  · exact (greatest_spec (fun k => (timestamps k).card) 0 k).2 k

/-- A position that is compared is one of the timestamps of some rank. -/
theorem exists_rank_of_lt_positions (hi : i < positions timestamps) : ∃ k, i < (timestamps k).card := by
  rw [positions_eq] at hi
  obtain ⟨k, _, hk⟩ := Finset.lt_sup_iff.mp hi
  exact ⟨k, hk⟩

theorem le_greatestAt {k : Fin n} (ht : (newestFirst (timestamps k))[i]? = some t) :
    t ≤ greatestAt timestamps i := by
  have hle := (greatest_spec (fun k => (newestFirst (timestamps k)).getD i (-1)) (-1) k).2 k
  rw [List.getD_eq_getElem?_getD, ht] at hle
  exact hle

/-- At a position that is compared the greatest value is a timestamp, padding being less than any. -/
theorem greatestAt_held (hpos : ∀ k, ∀ t ∈ timestamps k, 0 ≤ t) (hi : i < positions timestamps) :
    0 ≤ greatestAt timestamps i ∧ ∃ k, (newestFirst (timestamps k))[i]? = some (greatestAt timestamps i) := by
  obtain ⟨longest, hlong⟩ := exists_rank_of_lt_positions hi
  have hlen : i < (newestFirst (timestamps longest)).length := by
    rw [length_newestFirst]
    exact hlong
  have hle := le_greatestAt (List.getElem?_eq_getElem hlen)
  have hnonneg := hpos longest _ (mem_newestFirst.mp (List.getElem_mem hlen))
  obtain ⟨k, hk⟩ := (greatest_spec (fun k => (newestFirst (timestamps k)).getD i (-1)) (-1) longest).1
  change (newestFirst (timestamps k)).getD i (-1) = greatestAt timestamps i at hk
  refine ⟨by omega, k, ?_⟩
  cases hg : (newestFirst (timestamps k))[i]? with
  | some t =>
    rw [List.getD_eq_getElem?_getD, hg] at hk
    rw [← hk]
    rfl
  | none =>
    rw [List.getD_eq_getElem?_getD, hg] at hk
    change (-1 : Int) = _ at hk
    omega

/-- The greatest values get smaller from each position to the next. -/
theorem greatestAt_lt (hpos : ∀ k, ∀ t ∈ timestamps k, 0 ≤ t) (hij : i < j) (hj : j < positions timestamps) :
    greatestAt timestamps j < greatestAt timestamps i := by
  obtain ⟨_, k, hk⟩ := greatestAt_held hpos hj
  obtain ⟨hlen, hval⟩ := List.getElem?_eq_some_iff.mp hk
  have hlt := List.pairwise_iff_getElem.mp (newestFirst_sorted (timestamps k)) i j (by omega) hlen hij
  have hle := le_greatestAt (List.getElem?_eq_getElem (Nat.lt_trans hij hlen))
  rw [hval] at hlt
  omega

/-- The synced timestamps, newest first, are the greatest ones of the positions. -/
theorem newestFirst_syncTimestamps (hpos : ∀ k, ∀ t ∈ timestamps k, 0 ≤ t) :
    newestFirst (syncTimestamps timestamps) = (List.range (positions timestamps)).map (greatestAt timestamps) := by
  refine newestFirst_eq (List.pairwise_map.mpr ?_) fun t => List.mem_toFinset.symm
  refine List.pairwise_lt_range.imp_of_mem fun {i j} _ hj hij => ?_
  exact greatestAt_lt hpos hij (List.mem_range.mp hj)

theorem getElem?_syncTimestamps (hpos : ∀ k, ∀ t ∈ timestamps k, 0 ≤ t) :
    (newestFirst (syncTimestamps timestamps))[i]? = some t ↔
      i < positions timestamps ∧ greatestAt timestamps i = t := by
  rw [newestFirst_syncTimestamps hpos, List.getElem?_map]
  by_cases hi : i < positions timestamps
  · simp [hi]
  · simp [hi]

theorem card_syncTimestamps (hpos : ∀ k, ∀ t ∈ timestamps k, 0 ≤ t) :
    (syncTimestamps timestamps).card = Finset.univ.sup fun k => (timestamps k).card := by
  rw [← length_newestFirst, newestFirst_syncTimestamps hpos, List.length_map, List.length_range, positions_eq]

/-- The newest synced timestamp, if any position is compared. -/
theorem head_syncTimestamps (hpos : ∀ k, ∀ t ∈ timestamps k, 0 ≤ t) :
    (newestFirst (syncTimestamps timestamps)).head?.getD (-1) =
      if positions timestamps = 0 then -1 else greatestAt timestamps 0 := by
  rw [newestFirst_syncTimestamps hpos]
  cases positions timestamps with
  | zero => rfl
  | succ m =>
    rw [List.range_succ_eq_map]
    rfl

/-- No timestamp of a rank is newer than the greatest at the first position. -/
theorem le_greatestAt_zero (hpos : ∀ k, ∀ t ∈ timestamps k, 0 ≤ t) {k : Fin n} (ht : t ∈ timestamps k) :
    0 < positions timestamps ∧ t ≤ greatestAt timestamps 0 := by
  obtain ⟨i, hlen, hval⟩ := List.mem_iff_getElem.mp (mem_newestFirst.mpr ht)
  have hat : (newestFirst (timestamps k))[i]? = some t := List.getElem?_eq_some_iff.mpr ⟨hlen, hval⟩
  have hle := le_greatestAt hat
  have hi : i < positions timestamps := by
    rw [positions_eq]
    refine Nat.lt_of_lt_of_le ?_ (Finset.le_sup (f := fun k => (timestamps k).card) (Finset.mem_univ k))
    rw [length_newestFirst] at hlen
    exact hlen
  refine ⟨by omega, ?_⟩
  cases i with
  | zero => exact hle
  | succ i =>
    have hlt : greatestAt timestamps (i + 1) < greatestAt timestamps 0 := greatestAt_lt hpos (Nat.succ_pos i) hi
    omega

end DataGroup

namespace GroupState

/-- What the ranks of a cohort hold after a synchronisation: the same timestamps, at each position the
newest that a rank had there, and of each member the snapshots with these timestamps and no others. -/
structure SyncedNewest (before after : Fin n → GroupState) (synced : Finset Int) : Prop where
  listed : ∀ k, (after k).timestamps = synced
  card_eq : synced.card = Finset.univ.sup fun k => (before k).timestamps.card
  held : ∀ (i : Nat) (t : Int), (DataGroup.newestFirst synced)[i]? = some t →
    ∃ k, (DataGroup.newestFirst (before k).timestamps)[i]? = some t
  greatest : ∀ (i : Nat) (t : Int), (DataGroup.newestFirst synced)[i]? = some t →
    ∀ (k : Fin n) (t' : Int), (DataGroup.newestFirst (before k).timestamps)[i]? = some t' → t' ≤ t
  newest : ∀ k l, ∀ t ∈ (before l).timestamps, t ≤ (after k).timestamp
  newest_held : ∀ k, (∀ l, (before l).timestamps = ∅) ∧ (after k).timestamp = -1 ∨
    (after k).timestamp ∈ synced ∧ ∃ l, (after k).timestamp ∈ (before l).timestamps
  members : ∀ k, List.Forall₂ (fun m m' => m'.1 = m.1 ∧
    (∀ s, s ∈ m'.2.commitSnapshots ↔ s ∈ m.2.commitSnapshots ∧ s.timestamp ∈ synced) ∧
      m'.2.timestamps ⊆ synced) (before k).members (after k).members

variable {gs : Fin n → GroupState}

theorem adopt_members (g : GroupState) (synced : Finset Int) :
    List.Forall₂ (fun m m' => m'.1 = m.1 ∧
      (∀ s, s ∈ m'.2.commitSnapshots ↔ s ∈ m.2.commitSnapshots ∧ s.timestamp ∈ synced) ∧
        m'.2.timestamps ⊆ synced) g.members (g.adopt synced).members := by
  refine List.forall₂_map_right_iff.mpr (List.forall₂_same.mpr fun m _ => ⟨rfl, fun s => ?_, ?_⟩)
  · refine IndexedSet.mem_filter.trans ?_
    rw [decide_eq_true_iff]
  · rw [DataMember.cleanup_timestamps]
    exact Finset.inter_subset_right

/-- A synchronisation leaves all ranks with the newest timestamps position by position, and every member
with what it had committed of them. -/
theorem syncTimestamps_newest (hpos : ∀ k, ∀ t ∈ (gs k).timestamps, 0 ≤ t) :
    SyncedNewest gs (syncTimestamps gs) (DataGroup.syncTimestamps fun k => (gs k).timestamps) := by
  have hhead : ∀ k, (syncTimestamps gs k).timestamp = _ := fun _ => DataGroup.head_syncTimestamps hpos
  refine ⟨fun _ => rfl, DataGroup.card_syncTimestamps hpos, ?_, ?_, ?_, ?_, fun k => adopt_members _ _⟩
  · intro i t ht
    obtain ⟨hi, rfl⟩ := (DataGroup.getElem?_syncTimestamps hpos).mp ht
    exact (DataGroup.greatestAt_held hpos hi).2
  · intro i t ht k t' ht'
    obtain ⟨_, rfl⟩ := (DataGroup.getElem?_syncTimestamps hpos).mp ht
    exact DataGroup.le_greatestAt ht'
  · intro k l t ht
    obtain ⟨hcompared, hle⟩ := DataGroup.le_greatestAt_zero hpos ht
    rw [hhead k, if_neg (by omega)]
    exact hle
  · intro k
    rw [hhead k]
    split
    next hnone =>
      refine Or.inl ⟨fun l => Finset.eq_empty_iff_forall_notMem.mpr fun t ht => ?_, rfl⟩
      have := (DataGroup.le_greatestAt_zero hpos ht).1
      omega
    next hsome =>
      have hfirst : 0 < DataGroup.positions fun k => (gs k).timestamps := Nat.pos_of_ne_zero hsome
      obtain ⟨_, l, hl⟩ := DataGroup.greatestAt_held hpos hfirst
      have hsynced := (DataGroup.getElem?_syncTimestamps hpos).mpr ⟨hfirst, rfl⟩
      exact Or.inr ⟨DataGroup.mem_newestFirst.mp (List.mem_of_getElem? hsynced),
        l, DataGroup.mem_newestFirst.mp (List.mem_of_getElem? hl)⟩

/-- A member of two bytes, with a commit at each of some timestamps. -/
def memberWith (timestamps : List Int) : DataMember :=
  let fresh := DataMember.create .localOnly 1 0 1 1 2 fun _ _ => 0
  let commit (committed : IndexedSet IMRSnapshot fun s => s.timestamp) (t : Int) :=
    committed.insert { fresh.stageSnapshot with timestamp := t }
  { fresh with commitSnapshots := timestamps.foldl commit .empty }

/-- Three ranks with two, one and no timestamps. -/
def unevenGroups (k : Fin 3) : GroupState :=
  { timestart := 0
    depth := 1
    cohortRank := k
    cohortSize := 3
    timestamps := if k = 0 then {3, 1} else if k = 1 then {2} else ∅
    members := if k = 0 then [(7, memberWith [1, 3])] else if k = 1 then [(7, memberWith [2])] else [] }

theorem synced_uneven : DataGroup.syncTimestamps (fun k => (unevenGroups k).timestamps) = {3, 1} := by
  have hfirst : DataGroup.newestFirst (unevenGroups 0).timestamps = [3, 1] :=
    DataGroup.newestFirst_eq (by decide) fun x => by simp [unevenGroups]
  have hsecond : DataGroup.newestFirst (unevenGroups 1).timestamps = [2] :=
    DataGroup.newestFirst_eq (by decide) fun x => by simp [unevenGroups]
  have hthird : DataGroup.newestFirst (unevenGroups 2).timestamps = [] :=
    DataGroup.newestFirst_eq List.Pairwise.nil fun x => by simp [unevenGroups]
  have hnumber : (((List.finRange 3).map fun k => (unevenGroups k).timestamps.card).max?.getD 0) = 2 := by decide
  unfold DataGroup.syncTimestamps
  rw [hnumber]
  simp [List.range_succ, List.finRange_succ, hfirst, hsecond, hthird]

/-- The member of the first rank keeps both commits, that of the second loses its only one. -/
theorem syncTimestamps_newest_uneven : SyncedNewest unevenGroups (syncTimestamps unevenGroups)
      (DataGroup.syncTimestamps fun k => (unevenGroups k).timestamps) ∧
    (List.finRange 3).map (fun k => (unevenGroups k).members.map fun m => m.2.timestamps) = [[{1, 3}], [{2}], []] ∧
      (List.finRange 3).map (fun k => (syncTimestamps unevenGroups k).members.map fun m => m.2.timestamps) =
        [[{1, 3}], [∅], []] := by
  refine ⟨syncTimestamps_newest (by decide), by decide +kernel, ?_⟩
  unfold syncTimestamps
  rw [synced_uneven]
  decide +kernel

end GroupState

end Fenix
