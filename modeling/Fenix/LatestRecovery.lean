import Fenix.DataGroup
import Fenix.Latest
import Fenix.ParityRepair
import Mathlib.Data.Finset.Union

namespace Fenix

variable {n : Nat} {ms ms' : Fin n → DataMember} {ts : Int}

/-- A rank has committed a timestamp. -/
def Holds (ms : Fin n → DataMember) (k : Fin n) (t : Int) : Prop := ((ms k).commitSnapshots.find? t).isSome

namespace DataMember

theorem mem_timestamps {m : DataMember} {t : Int} : t ∈ m.timestamps ↔ (m.commitSnapshots.find? t).isSome := by
  unfold timestamps
  rw [List.mem_toFinset, List.mem_map, Option.isSome_iff_exists]
  constructor
  · rintro ⟨s, hs, rfl⟩
    exact ⟨s, IndexedSet.find?_eq_some_of_mem hs⟩
  · rintro ⟨s, hs⟩
    obtain ⟨hmem, ht⟩ := IndexedSet.find?_some hs
    exact ⟨s, hmem, ht⟩

theorem cleanup_find? (m : DataMember) (valid : Finset Int) (t : Int) :
    ((m.cleanupTimestamps valid).commitSnapshots.find? t).isSome ↔ t ∈ valid ∧ (m.commitSnapshots.find? t).isSome := by
  rw [← mem_timestamps, ← mem_timestamps]
  unfold timestamps
  simp only [List.mem_toFinset, List.mem_map]
  constructor
  · rintro ⟨s, hs, rfl⟩
    obtain ⟨hmem, hv⟩ := IndexedSet.mem_filter.mp hs
    exact ⟨of_decide_eq_true hv, s, hmem, rfl⟩
  · rintro ⟨hv, s, hs, rfl⟩
    exact ⟨s, IndexedSet.mem_filter.mpr ⟨hs, decide_eq_true hv⟩, rfl⟩

/-- The newest snapshot has the latest of the timestamps. -/
theorem latest_isLatest (m : DataMember) : IsLatest (fun t => (m.commitSnapshots.find? t).isSome = true)
    (m.commitSnapshots.last?.map fun s => s.timestamp) := by
  cases hl : m.commitSnapshots.last? with
  | none =>
    intro t ht
    obtain ⟨s, hs⟩ := Option.isSome_iff_exists.mp ht
    have hnil : m.commitSnapshots.entries = [] := List.getLast?_eq_none_iff.mp hl
    have hmem := (IndexedSet.find?_some hs).1
    rw [IndexedSet.mem_def, hnil] at hmem
    cases hmem
  | some s =>
    refine ⟨?_, fun t ht => ?_⟩
    · have hs := IndexedSet.find?_eq_some_of_mem (IndexedSet.last?_mem hl)
      exact Option.isSome_iff_exists.mpr ⟨s, hs⟩
    · obtain ⟨x, hx⟩ := Option.isSome_iff_exists.mp ht
      obtain ⟨hmem, rfl⟩ := IndexedSet.find?_some hx
      have hle := IndexedSet.key_le_last hl hmem
      exact hle

theorem resolve_latest (m : DataMember) : m.resolve snapshotLatest =
    match m.commitSnapshots.last?.map fun s => s.timestamp with
    | some t => .ok t
    | none => .error .nodataFound := by
  have hsearch : m.searchSnapshot snapshotLatest = .ok m.commitSnapshots.last? := if_pos rfl
  unfold resolve findSnapshot
  rw [hsearch]
  cases m.commitSnapshots.last? with
  | none => rfl
  | some s => rfl

theorem resolve_latest_eq_iff {m m' : DataMember} : m.resolve snapshotLatest = m'.resolve snapshotLatest ↔
    (m.commitSnapshots.last?.map fun s => s.timestamp) = m'.commitSnapshots.last?.map fun s => s.timestamp := by
  rw [resolve_latest, resolve_latest]
  cases m.commitSnapshots.last?.map fun s => s.timestamp with
  | none => cases m'.commitSnapshots.last?.map fun s => s.timestamp <;> simp
  | some t => cases m'.commitSnapshots.last?.map fun s => s.timestamp <;> simp

end DataMember

section Repair

/-- What repairing a timestamp does to those that the ranks hold. -/
def Mends (ts : Int) (ms ms' : Fin n → DataMember) : Prop :=
  ∀ k t, Holds ms' k t ↔ Holds ms k t ∨ t = ts ∧ OneMissing (Holds ms) ts

theorem oneMissing_iff : OneMissing (Holds ms) ts ↔
    ∃ f, DataMember.recovering (fun k => ((ms k).commitSnapshots.find? ts).isSome) = some f := by
  unfold OneMissing Holds
  simp only [DataMember.recovering_eq_some_iff, Bool.not_eq_true]

theorem mends_resetUnfound (h : ¬OneMissing (Holds ms) ts) : Mends ts ms fun k => (ms k).resetUnfound ts := by
  intro k t
  unfold Holds
  rw [DataMember.resetUnfound_find?]
  simp only [iff_self_or]
  exact fun hone => absurd hone.2 h

theorem mends_putBack {snaps : Fin n → IMRSnapshot} (h : OneMissing (Holds ms) ts)
    (hsnaps : ∀ k, Holds ms k ts → (snaps k).timestamp = ts) : Mends ts ms fun k => (ms k).putBack ts (snaps k) := by
  intro k t
  unfold Holds
  rw [DataMember.putBack_find? (hsnaps k)]
  by_cases ht : t = ts
  · rw [if_pos ht]
    exact ⟨fun _ => Or.inr ⟨ht, h⟩, fun _ => rfl⟩
  · rw [if_neg ht]
    exact ⟨Or.inl, fun hor => hor.resolve_right fun hr => ht hr.1⟩

/-- Snapshots that are put back under the timestamp of a repair. -/
def PutBack (ts : Int) (ms ms' : Fin n → DataMember) : Prop :=
  ∃ snaps : Fin n → IMRSnapshot, (∀ k, Holds ms k ts → (snaps k).timestamp = ts) ∧
    ms' = fun k => (ms k).putBack ts (snaps k)

theorem buddy_cases {stale : Fin n → Nat → Nat → UInt8} (h : BuddyMember.repairTimestamp stale ts ms = .ok ms') :
    OneMissing (Holds ms) ts ∧ PutBack ts ms ms' ∨
      (OneMissing (Holds ms) ts → BuddyMember.lastFound (fun k => ((ms k).commitSnapshots.find? ts).isSome) = none) ∧
        ms' = fun k => (ms k).resetUnfound ts := by
  unfold BuddyMember.repairTimestamp at h
  split at h
  next hall =>
    dsimp only at h
    split at h
    next f root hf hroot =>
      obtain ⟨rebuilt, hr, h⟩ := Except.bind_eq_ok_iff.mp h
      cases Except.ok.inj h
      refine Or.inl ⟨oneMissing_iff.mpr ⟨f, hf⟩, _, fun k hk => ?_, rfl⟩
      have hkf : k ≠ f := by
        rintro rfl
        rw [Holds, (DataMember.recovering_eq_some_iff.mp hf k).mpr rfl] at hk
        cases hk
      rw [if_neg hkf]
      exact DataMember.repairSnapshot_timestamp (hall k) hk
    next hnone =>
      cases Except.ok.inj h
      refine Or.inr ⟨fun hone => ?_, rfl⟩
      obtain ⟨f, hf⟩ := oneMissing_iff.mp hone
      exact Option.eq_none_iff_forall_ne_some.mpr fun root hroot => hnone f root hf hroot
  next => cases h

theorem parity_cases (h : ParityMember.repairTimestamp ts ms = .ok ms') :
    OneMissing (Holds ms) ts ∧ PutBack ts ms ms' ∨
      ¬OneMissing (Holds ms) ts ∧ ms' = fun k => (ms k).resetUnfound ts := by
  unfold ParityMember.repairTimestamp at h
  split at h
  next hall =>
    split at h
    next hnone =>
      cases Except.ok.inj h
      refine Or.inr ⟨fun hone => ?_, rfl⟩
      obtain ⟨f, hf⟩ := oneMissing_iff.mp hone
      rw [hnone] at hf
      cases hf
    next f hf =>
      obtain ⟨rebuilt, hr, h⟩ := Except.bind_eq_ok_iff.mp h
      cases Except.ok.inj h
      refine Or.inl ⟨oneMissing_iff.mpr ⟨f, hf⟩, rebuilt, fun k hk => ?_, rfl⟩
      rw [(ParityMember.rebuild_fields hr k).1]
      exact DataMember.repairSnapshot_timestamp (hall k) hk
  next => cases h

theorem buddy_mends (hn : 2 ≤ n) {stale : Fin n → Nat → Nat → UInt8}
    (h : BuddyMember.repairTimestamp stale ts ms = .ok ms') : Mends ts ms ms' := by
  rcases buddy_cases h with ⟨hone, snaps, hsnaps, rfl⟩ | ⟨hnone, rfl⟩
  · exact mends_putBack hone hsnaps
  · refine mends_resetUnfound fun hone => ?_
    obtain ⟨f, hf⟩ := oneMissing_iff.mp hone
    -- one rank alone missing it, another has found it
    have := Fin.nontrivial_iff_two_le.mpr hn
    obtain ⟨l, hl⟩ := exists_ne f
    have hfound := mt (DataMember.recovering_eq_some_iff.mp hf l).mp hl
    have hin : l ∈ (List.finRange n).filter fun k => ((ms k).commitSnapshots.find? ts).isSome :=
      List.mem_filter.mpr ⟨List.mem_finRange l, Bool.eq_true_of_not_eq_false hfound⟩
    rw [List.getLast?_eq_none_iff.mp (hnone hone)] at hin
    cases hin

theorem parity_mends (h : ParityMember.repairTimestamp ts ms = .ok ms') : Mends ts ms ms' := by
  rcases parity_cases h with ⟨hone, snaps, hsnaps, rfl⟩ | ⟨hnone, rfl⟩
  · exact mends_putBack hone hsnaps
  · exact mends_resetUnfound hnone

/-- After the repair a rank holds what it held, and what one rank alone missed. -/
theorem repairTimestamps_holds {step : Int → (Fin n → DataMember) → Except Abort (Fin n → DataMember)}
    (hstep : ∀ {ts ms ms'}, step ts ms = .ok ms' → Mends ts ms ms') {stamps : List Int} (hnodup : stamps.Nodup)
    (h : DataMember.repairTimestamps step stamps ms = .ok ms') (k : Fin n) (t : Int) :
    Holds ms' k t ↔ Holds ms k t ∨ t ∈ stamps ∧ OneMissing (Holds ms) t := by
  induction stamps generalizing ms with
  | nil =>
    cases Except.ok.inj h
    simp
  | cons ts rest ih =>
    obtain ⟨mid, hmid, h⟩ := Except.bind_eq_ok_iff.mp h
    have hmends := hstep hmid
    obtain ⟨hts, hrest⟩ := List.nodup_cons.mp hnodup
    rw [ih hrest h, hmends k t]
    by_cases ht : t = ts
    · subst ht
      simp [hts]
    · have hsame : ∀ l, Holds mid l t ↔ Holds ms l t := fun l => by
        rw [hmends l t]
        simp [ht]
      have hone : OneMissing (Holds mid) t ↔ OneMissing (Holds ms) t := by
        unfold OneMissing
        simp only [hsame]
      rw [hone]
      simp [ht]

end Repair

section Group

variable {mode : IMRMode} {stale : Fin n → Nat → Nat → UInt8} {stamps : List Int} {timestamps : Fin n → Finset Int}

theorem IMRMode.Admits.two_le (h : mode.Admits n) : 2 ≤ n := by
  cases mode with
  | buddy =>
    change n = 2 ∨ n = 3 at h
    omega
  | parity =>
    change 3 ≤ n at h
    omega

theorem repair_holds (hn : mode.Admits n) (hnodup : stamps.Nodup) (h : DataGroup.repair mode stale stamps ms = .ok ms')
    (k : Fin n) (t : Int) : Holds ms' k t ↔ Holds ms k t ∨ t ∈ stamps ∧ OneMissing (Holds ms) t := by
  cases mode with
  | buddy => exact repairTimestamps_holds (buddy_mends hn.two_le) hnodup h k t
  | parity => exact repairTimestamps_holds parity_mends hnodup h k t

/-- What a rank has committed of the synced timestamps. -/
def Kept (timestamps : Fin n → Finset Int) (ms : Fin n → DataMember) (k : Fin n) (t : Int) : Prop :=
  t ∈ DataGroup.syncTimestamps timestamps ∧ Holds ms k t

theorem recover_holds (hn : mode.Admits n) (h : DataGroup.recover mode stale timestamps ms = .ok ms') (k : Fin n)
    (t : Int) : Holds ms' k t ↔ Mended (Kept timestamps ms) k t := by
  have hkept : Holds (fun k => (ms k).cleanupTimestamps (DataGroup.syncTimestamps timestamps)) = Kept timestamps ms := by
    funext k t
    exact propext (DataMember.cleanup_find? (ms k) _ t)
  rw [repair_holds hn (Finset.sort_nodup _ _) h, hkept]
  unfold Mended
  constructor
  · rintro (hk | hone)
    · exact Or.inl hk
    · exact Or.inr hone.2
  · rintro (hk | hone)
    · exact Or.inl hk
    · obtain ⟨f, hf⟩ := hone
      have := Fin.nontrivial_iff_two_le.mpr hn.two_le
      obtain ⟨l, hl⟩ := exists_ne f
      have hheld : Kept timestamps ms l t := not_not.mp fun hnot => hl ((hf l).mp hnot)
      exact Or.inr ⟨(Finset.mem_sort _).mpr hheld.1, f, hf⟩

theorem newestFirst_head {stamps : Finset Int} {t : Int} (ht : t ∈ stamps) (hmax : ∀ t' ∈ stamps, t' ≤ t) :
    (DataGroup.newestFirst stamps).getD 0 (-1) = t := by
  have hmem : t ∈ DataGroup.newestFirst stamps := (Finset.mem_sort _).mpr ht
  have hsorted : (DataGroup.newestFirst stamps).Pairwise (· ≥ ·) := Finset.pairwise_sort stamps (· ≥ ·)
  have hall : ∀ t' ∈ DataGroup.newestFirst stamps, t' ≤ t := fun t' h => hmax t' ((Finset.mem_sort _).mp h)
  cases hl : DataGroup.newestFirst stamps with
  | nil =>
    rw [hl] at hmem
    cases hmem
  | cons x xs =>
    rw [hl] at hmem hsorted hall
    change x = t
    rcases List.mem_cons.mp hmem with rfl | hin
    · rfl
    · exact Int.le_antisymm (hall x List.mem_cons_self) ((List.pairwise_cons.mp hsorted).1 t hin)

/-- The newest timestamp of all ranks is synced. -/
theorem newest_synced {t : Int} {k : Fin n} (ht : t ∈ timestamps k) (hmax : ∀ l, ∀ t' ∈ timestamps l, t' ≤ t)
    (hpos : 0 ≤ t) : t ∈ DataGroup.syncTimestamps timestamps := by
  unfold DataGroup.syncTimestamps
  dsimp only
  rw [List.mem_toFinset, List.mem_map]
  refine ⟨0, List.mem_range.mpr ?_, ?_⟩
  · -- a rank has a timestamp, so one position at least is compared
    have hcard : 0 < (timestamps k).card := Finset.card_pos.mpr ⟨t, ht⟩
    have hin : (timestamps k).card ∈ (List.finRange n).map fun k => (timestamps k).card :=
      List.mem_map.mpr ⟨k, List.mem_finRange k, rfl⟩
    obtain ⟨c, hc⟩ := Option.isSome_iff_exists.mp (List.isSome_max?_of_mem hin)
    rw [hc]
    have hle := (List.max?_eq_some_iff.mp hc).2 _ hin
    exact Nat.lt_of_lt_of_le hcard hle
  · have hmax? : ((List.finRange n).map fun k => (DataGroup.newestFirst (timestamps k)).getD 0 (-1)).max? = some t := by
      refine List.max?_eq_some_iff.mpr ⟨?_, fun x hx => ?_⟩
      · exact List.mem_map.mpr ⟨k, List.mem_finRange k, newestFirst_head ht (hmax k)⟩
      · obtain ⟨l, _, rfl⟩ := List.mem_map.mp hx
        cases hl : DataGroup.newestFirst (timestamps l) with
        | nil =>
          change -1 ≤ t
          omega
        | cons y ys =>
          have hy : y ∈ DataGroup.newestFirst (timestamps l) := by
            rw [hl]
            exact List.mem_cons_self
          exact hmax l y ((Finset.mem_sort _).mp hy)
    rw [hmax?]
    rfl

/-- The newest of the timestamps that are kept is the newest that is committed. -/
theorem kept_newest_iff (hpos : ∀ k, ∀ t ∈ (ms k).timestamps, 0 ≤ t) (t : Int) :
    ((∃ k, Kept (fun k => (ms k).timestamps) ms k t) ∧
      ∀ t', t < t' → ∀ k, ¬Kept (fun k => (ms k).timestamps) ms k t') ↔
    (∃ k, Holds ms k t) ∧ ∀ t', t < t' → ∀ k, ¬Holds ms k t' := by
  have hmem : ∀ k t, t ∈ (ms k).timestamps ↔ Holds ms k t := fun k t => DataMember.mem_timestamps
  have hkept : ∀ k t, Holds ms k t → (∀ t', t < t' → ∀ l, ¬Holds ms l t') →
      Kept (fun k => (ms k).timestamps) ms k t := by
    intro k t hk hnewest
    refine ⟨newest_synced ((hmem k t).mpr hk) (fun l t' ht' => ?_) (hpos k t ((hmem k t).mpr hk)), hk⟩
    exact not_lt.mp fun hlt => hnewest t' hlt l ((hmem l t').mp ht')
  constructor
  · rintro ⟨⟨k, hk⟩, hnewest⟩
    refine ⟨⟨k, hk.2⟩, ?_⟩
    obtain ⟨m, hm, hmax⟩ := Finset.exists_max_image (Finset.univ.biUnion fun k => (ms k).timestamps) id
      ⟨t, Finset.mem_biUnion.mpr ⟨k, Finset.mem_univ k, (hmem k t).mpr hk.2⟩⟩
    have hall : ∀ t' l, Holds ms l t' → t' ≤ m := fun t' l hl =>
      hmax t' (Finset.mem_biUnion.mpr ⟨l, Finset.mem_univ l, (hmem l t').mpr hl⟩)
    obtain ⟨l, _, hl⟩ := Finset.mem_biUnion.mp hm
    have hlast : Kept (fun k => (ms k).timestamps) ms l m :=
      hkept l m ((hmem l m).mp hl) fun t' hlt k' hk' => absurd (hall t' k' hk') (not_le.mpr hlt)
    have hmt : m ≤ t := not_lt.mp fun hlt => hnewest m hlt l hlast
    intro t' hlt k' hk'
    have hle := hall t' k' hk'
    omega
  · rintro ⟨⟨k, hk⟩, hnewest⟩
    exact ⟨⟨k, hkept k t hk hnewest⟩, fun t' hlt l hl => hnewest t' hlt l hl.2⟩

/-- After the recovery of a group all ranks resolve the latest snapshot alike exactly when the newest
timestamp that any of them had committed was missing on one rank at most. -/
theorem resolve_latest_agree_iff (hn : mode.Admits n) (hpos : ∀ k, ∀ t ∈ (ms k).timestamps, 0 ≤ t)
    (h : DataGroup.recover mode stale (fun k => (ms k).timestamps) ms = .ok ms') :
    (∀ k l, (ms' k).resolve snapshotLatest = (ms' l).resolve snapshotLatest) ↔
      ∀ t, (∃ k, Holds ms k t) → (∀ t', t < t' → ∀ k, ¬Holds ms k t') → ∀ k l, ¬Holds ms k t → ¬Holds ms l t → k = l := by
  have := Fin.nontrivial_iff_two_le.mpr hn.two_le
  have hlatest : ∀ k, IsLatest (Mended (Kept (fun k => (ms k).timestamps) ms) k)
      ((ms' k).commitSnapshots.last?.map fun s => s.timestamp) := by
    intro k
    have hheld : Mended (Kept (fun k => (ms k).timestamps) ms) k = Holds ms' k :=
      funext fun t => propext (recover_holds hn h k t).symm
    rw [hheld]
    exact DataMember.latest_isLatest (ms' k)
  simp only [DataMember.resolve_latest_eq_iff]
  rw [mended_agree_iff hlatest]
  refine forall_congr' fun t => ?_
  rw [← and_imp, kept_newest_iff hpos, and_imp]
  refine forall_congr' fun hex => forall_congr' fun hnewest => ?_
  -- the newest timestamp is synced, so that it is missing where it was not committed
  obtain ⟨k₀, hk₀⟩ := (kept_newest_iff hpos t).mpr ⟨hex, hnewest⟩ |>.1
  have hsame : ∀ k, Kept (fun k => (ms k).timestamps) ms k t ↔ Holds ms k t := fun k =>
    ⟨fun hk => hk.2, fun hk => ⟨hk₀.1, hk⟩⟩
  simp only [hsame]

/-- A rank of a cohort that has committed the timestamp `0` or nothing. -/
def zeroOrNone (committed : Bool) : DataMember where
  depth := 0
  elmSize := 1
  elmCount := 0
  stageSnapshot := .create 1 0 (fun _ => 0) fun _ => 0
  commitSnapshots :=
    if committed then IndexedSet.empty.insert { IMRSnapshot.create 1 0 (fun _ => 0) (fun _ => 0) with timestamp := 0 }
    else .empty
  availSnapshots := [.create 1 0 (fun _ => 0) fun _ => 0]

theorem zeroOrNone_timestamps (committed : Bool) :
    (zeroOrNone committed).timestamps = if committed then {0} else ∅ := by
  cases committed <;> decide

theorem zeroOrNone_recover (mode : IMRMode) (stale : Fin 3 → Nat → Nat → UInt8) {committed : Fin 3 → Bool}
    (h : committed 0 = true) :
    DataGroup.recover mode stale (fun k => (zeroOrNone (committed k)).timestamps) (fun k => zeroOrNone (committed k)) =
      DataGroup.repair mode stale [0] fun k => (zeroOrNone (committed k)).cleanupTimestamps {0} := by
  have hsynced : DataGroup.syncTimestamps (fun k => (zeroOrNone (committed k)).timestamps) = {0} := by
    simp only [zeroOrNone_timestamps]
    cases h₁ : committed 1 <;> cases h₂ : committed 2 <;>
      simp [DataGroup.syncTimestamps, DataGroup.newestFirst, List.finRange_succ, h, h₁, h₂]
  unfold DataGroup.recover
  rw [hsynced]
  simp only [DataGroup.newestFirst, Finset.sort_singleton]

/-- A rank that was lost agrees with the two that had committed. -/
theorem resolve_latest_agree_parity : ∃ ms', DataGroup.recover .parity (fun _ _ _ => 0)
    (fun k : Fin 3 => (zeroOrNone (k != 2)).timestamps) (fun k => zeroOrNone (k != 2)) = .ok ms' ∧
      ∀ k l, (ms' k).resolve snapshotLatest = (ms' l).resolve snapshotLatest := by
  have hok : ∃ ms', DataGroup.recover .parity (fun _ _ _ => 0) (fun k : Fin 3 => (zeroOrNone (k != 2)).timestamps)
      (fun k => zeroOrNone (k != 2)) = .ok ms' := by
    rw [zeroOrNone_recover .parity _ rfl]
    exact ⟨_, rfl⟩
  have hadmits : IMRMode.parity.Admits 3 := Nat.le_refl 3
  obtain ⟨ms', h⟩ := hok
  refine ⟨ms', h, (resolve_latest_agree_iff hadmits ?_ h).mpr ?_⟩
  · intro k t ht
    rw [zeroOrNone_timestamps] at ht
    split at ht
    next => exact Int.le_of_eq (Finset.mem_singleton.mp ht).symm
    next => cases ht
  · rintro t ⟨k₀, hk₀⟩ _ k l hk hl
    have ht : t = 0 := by
      have hmem := DataMember.mem_timestamps.mpr hk₀
      rw [zeroOrNone_timestamps] at hmem
      split at hmem
      next => exact Finset.mem_singleton.mp hmem
      next => cases hmem
    subst ht
    have hlost : ∀ k : Fin 3, ¬Holds (fun k => zeroOrNone (k != 2)) k 0 → k = 2 := by
      intro k
      unfold Holds
      revert k
      decide
    rw [hlost k hk, hlost l hl]

/-- One rank has committed and another is lost: the timestamp stays with the one that had committed it. -/
theorem resolve_latest_disagrees : ∃ ms', DataGroup.recover .buddy (fun _ _ _ => 0)
    (fun k : Fin 3 => (zeroOrNone (k == 0)).timestamps) (fun k => zeroOrNone (k == 0)) = .ok ms' ∧
      (ms' 0).resolve snapshotLatest = .ok 0 ∧ (ms' 1).resolve snapshotLatest = .error .nodataFound := by
  rw [zeroOrNone_recover .buddy _ rfl]
  exact ⟨_, rfl, rfl, rfl⟩

end Group

end Fenix
