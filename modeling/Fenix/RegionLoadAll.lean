import Fenix.RegionNewest

namespace Fenix

namespace RegionMember

open RegionSnapshot

variable {β : Type} {m : RegionMember} {d : Deserializer β} {memory : Nat → β} {extent targetCount i : Nat}
  {snap : RegionSnapshot} {snaps visited : List RegionSnapshot} {found : RegionSubset} {t : Transfer β}

/-- A committed snapshot holds an element. -/
def Held (m : RegionMember) (i : Nat) : Prop := ∃ s ∈ m.commitSnapshots, s.Has i

/-- The elements that a load asks for. -/
def Requested (m : RegionMember) (targetCount i : Nat) : Prop :=
  if targetCount = restoreFull then ∃ j, m.Held j ∧ i ≤ j else i < targetCount

/-- The bytes of the destination are within the range of `int`, or all elements are asked for. -/
def Countable (m : RegionMember) (targetCount : Nat) : Prop :=
  targetCount = restoreFull ∨ targetCount * m.extent ≤ 2147483647

theorem dstSize_spec (h : m.Countable targetCount) :
    ∃ dst, m.dstSize targetCount = .ok dst ∧ Sized dst m.extent targetCount := by
  unfold dstSize
  split
  next hfull => exact ⟨none, rfl, Or.inr ⟨rfl, hfull⟩⟩
  next hfull =>
    have hle := h.resolve_left hfull
    rw [← Int.natCast_mul, toInt_ok (by unfold intMax; omega) (by unfold intMax; omega)]
    exact ⟨_, rfl, Or.inl (congrArg some (castSize_natCast (by omega)))⟩

theorem dstSize_overflow (h : ¬m.Countable targetCount) : m.dstSize targetCount = .error .overflow := by
  obtain ⟨hfull, hlt⟩ := not_or.mp h
  unfold dstSize
  rw [if_neg hfull, ← Int.natCast_mul]
  unfold toInt
  rw [if_neg (by unfold intMax; omega)]
  rfl

theorem Walks.of_newest {tc : Nat} (h : Walks tc (fun _ => False) snaps visited) {pre post : List RegionSnapshot}
    (heq : snaps = pre ++ snap :: post) (hi : i < tc) (hpre : ∀ u ∈ pre, ¬u.Has i) :
    ∃ post', visited = pre ++ snap :: post' := by
  have hmore : ¬visited <+: pre := fun hvp => by
    rcases h.stops with hall | hall
    · have hlen := hvp.length_le
      rw [hall, heq, List.length_append, List.length_cons] at hlen
      omega
    · obtain ⟨u, hu, hx⟩ := (hall i hi).resolve_left id
      exact hpre u (hvp.subset hu) hx
  obtain ⟨rest, hrest⟩ := h.first
  rcases List.append_eq_append_iff.mp (hrest.trans heq) with ⟨a, ha, _⟩ | ⟨c, hc, hcons⟩
  · exact absurd ⟨a, ha.symm⟩ hmore
  · cases c with
    | nil => exact absurd ⟨[], by rw [hc, List.append_nil, List.append_nil]⟩ hmore
    | cons x c =>
      cases hcons
      exact ⟨c, hc⟩

/-- What is found of what is asked for is what some snapshot holds. -/
theorem Walks.found_iff {tc : Nat} (h : Walks tc (fun _ => False) snaps visited) (hi : i < tc) :
    (∃ s ∈ visited, s.Has i) ↔ ∃ s ∈ snaps, s.Has i := by
  constructor
  · rintro ⟨s, hs, hx⟩
    exact ⟨s, h.first.subset hs, hx⟩
  · intro hx
    rcases h.stops with hall | hall
    · rwa [hall]
    · exact (hall i hi).resolve_left id

theorem missing_spec (htarget : 0 < targetCount) (hmax : targetCount ≤ restoreFull) (hfound : found.WellFormed)
    (hsmall : found.Small) : ∃ v, missing targetCount found = .ok v ∧ (v = true ↔
      ∃ i, (if targetCount = restoreFull then ∃ j, found.Mem j ∧ i ≤ j else i < targetCount) ∧ ¬found.Mem i) := by
  have hcheck : ∀ n : Nat, 0 < n → n ≤ restoreFull → ∃ v,
      ((found.includesAll (castSize ((n : Int) - 1))).mapError TransferError.abort |>.map not) = .ok v ∧
        (v = true ↔ ∃ i, i < n ∧ ¬found.Mem i) := by
    intro n hn hle
    have hcast : castSize ((n : Int) - 1) = n - 1 := by
      unfold restoreFull at hle
      unfold castSize
      omega
    unfold restoreFull at hle
    obtain ⟨v, hv, hiff⟩ := RegionSubset.includesAll_spec hfound.tiles
      (show n - 1 ≤ sizeMax by unfold sizeMax; omega)
    rw [hcast, hv]
    refine ⟨!v, rfl, ?_⟩
    rw [Bool.not_eq_true', ← Bool.not_eq_true, hiff, not_forall]
    refine exists_congr fun i => ?_
    rw [Classical.not_imp, Nat.le_sub_one_iff_lt hn]
  unfold missing
  dsimp only
  by_cases hfull : targetCount = restoreFull
  · rw [if_pos hfull]
    simp only [if_pos hfull]
    by_cases hempty : found.isEmpty = true
    · have hnone := RegionSubset.isEmpty_iff_mem.mp hempty
      have hstop : found.stop = sizeMax := if_pos hempty
      rw [hstop]
      exact ⟨false, rfl, ⟨nofun, fun ⟨i, ⟨j, hj, _⟩, _⟩ => absurd hj (hnone j)⟩⟩
    · have hstop := hfound.stop_mem hempty
      have hupto : ∀ x, found.Mem x → x ≤ found.stop := fun x hx => hfound.le_stop hx
      have hlt := hsmall _ hstop
      have hwrap : sizeWrap (found.stop + 1) = found.stop + 1 := Nat.mod_eq_of_lt (by unfold sizeMax; omega)
      rw [hwrap, castInt_eq_iff.mpr (by omega), if_pos (by omega)]
      obtain ⟨v, hv, hiff⟩ := hcheck (found.stop + 1) (Nat.succ_pos _) (by unfold restoreFull; omega)
      refine ⟨v, hv, hiff.trans (exists_congr fun i => and_congr_left fun _ => ?_)⟩
      exact ⟨fun hi => ⟨found.stop, hstop, Nat.le_of_lt_succ hi⟩,
        fun ⟨j, hj, hij⟩ => Nat.lt_succ_of_le (hij.trans (hupto j hj))⟩
  · rw [if_neg hfull, if_pos (by omega)]
    simp only [if_neg hfull]
    exact hcheck targetCount htarget hmax

/-- Each element that is asked for has the value of the newest snapshot that holds it, nothing else is written, and
it is told whether an element is held by none. -/
structure NewestWins (m : RegionMember) (d : Deserializer β) (memory : Nat → β) (targetCount : Nat)
    (r : RegionLoaded β) : Prop where
  newest : ∀ s ∈ m.commitSnapshots, ∀ i, m.Requested targetCount i → s.Has i →
    (∀ u ∈ m.commitSnapshots, u.Has i → u.timestamp ≤ s.timestamp) → r.transfer.memory i = d.decode (s.element i)
  written : ∀ i, r.transfer.Written i ↔ m.Requested targetCount i ∧ m.Held i
  other : ∀ i, ¬(m.Requested targetCount i ∧ m.Held i) → r.transfer.memory i = memory i
  missing : r.partialRestore = true ↔ ∃ i, m.Requested targetCount i ∧ ¬m.Held i

theorem mem_reverse_iff {s : RegionSnapshot} : s ∈ m.commitSnapshots.entries.reverse ↔ s ∈ m.commitSnapshots :=
  List.mem_reverse

theorem reverse_sorted : m.commitSnapshots.entries.reverse.Pairwise fun a b => b.timestamp < a.timestamp :=
  List.pairwise_reverse.mpr m.commitSnapshots.sorted

/-- The snapshots that a load of all of them visits. -/
theorem loadAll_spec {dst : Option Nat} (hstored : ∀ s ∈ m.commitSnapshots, s.Stored m.extent) (hpos : 0 < m.extent)
    (hne : m.commitSnapshots.entries ≠ []) (hdst : Sized dst m.extent targetCount) (htarget : 0 < targetCount)
    (hmax : targetCount ≤ restoreFull) : ∃ visited found t', m.loadAll d dst targetCount t = .ok (found, t') ∧
      found.WellFormed ∧ (∀ x, found.Mem x ↔ ∃ s ∈ visited, s.Has x) ∧
      Walks targetCount (fun _ => False) m.commitSnapshots.entries.reverse visited ∧
      Overlays d targetCount (fun _ => False) t visited t' := by
  have hempty := RegionSubset.not_mem_empty
  have hF : (∅ : RegionSubset).Mem = fun _ => False := funext fun x => propext (iff_false_intro (hempty x))
  have hle : targetCount ≤ sizeMax := hmax.trans (by decide)
  obtain ⟨visited, found, t', hload, hfound, hmem, hwalks, hover⟩ := loadEach_spec (d := d) (t := t)
    (fun s hs => hstored s (mem_reverse_iff.mp hs)) hpos hdst htarget hle RegionSubset.wellFormed_empty fun x hx => absurd hx (hempty x)
  rw [hF] at hwalks hover
  unfold loadAll
  rw [if_neg (by rwa [List.isEmpty_iff])]
  exact ⟨visited, found, t', hload, hfound, fun x => (hmem x).trans (or_iff_right (hempty x)), hwalks, hover⟩

theorem load_all_eq {dst : Option Nat} {v : Bool} (hdst : m.dstSize targetCount = .ok dst)
    (hload : m.loadAll d dst targetCount ⟨memory, []⟩ = .ok (found, t)) (hv : RegionMember.missing targetCount found = .ok v) :
    m.load d memory targetCount snapshotAll = .ok ⟨t, found, v⟩ := by
  unfold load
  rw [hdst, Except.ok_bind, if_neg (not_not.mpr rfl), hload]
  change (RegionMember.missing targetCount found >>= _) = _
  rw [hv]
  rfl

theorem written_nil : ¬(Transfer.mk memory []).Written i := fun ⟨_, hc, _⟩ => List.not_mem_nil hc

/-- One snapshot is loaded up to the target count. -/
theorem load_one {ts : Int} (hall : ts ≠ snapshotAll) (hfind : m.findSnapshot ts = .ok snap) (hs : snap.Stored m.extent)
    (hpos : 0 < m.extent) (htarget : 0 < targetCount) (hmax : targetCount ≤ restoreFull) (hcount : m.Countable targetCount)
    (d : Deserializer β) (memory : Nat → β) : ∃ t v, m.load d memory targetCount ts = .ok ⟨t, snap.protectedSubset, v⟩ ∧
      (∀ i, snap.Has i ∧ i < targetCount → t.memory i = d.decode (snap.element i)) ∧
      (∀ i, ¬(snap.Has i ∧ i < targetCount) → t.memory i = memory i) ∧
      (∀ i, t.Written i ↔ snap.Has i ∧ i < targetCount) ∧
      (v = true ↔ ∃ i, (if targetCount = restoreFull then ∃ j, snap.Has j ∧ i ≤ j else i < targetCount) ∧ ¬snap.Has i) := by
  obtain ⟨dst, hdst, hsized⟩ := dstSize_spec hcount
  obtain ⟨t, ht, hin, hout, hwritten⟩ := copyData_part (d := d) (t := ⟨memory, []⟩) hs hpos hsized htarget
    hs.wellFormed.sound fun _ hi => hi
  obtain ⟨v, hv, hiff⟩ := missing_spec htarget hmax hs.wellFormed (hs.small hpos)
  refine ⟨t, v, ?_, hin, hout, fun i => (hwritten i).trans (or_iff_right written_nil), hiff⟩
  unfold load loadOne
  rw [hdst, Except.ok_bind, if_pos hall, hfind, Except.ok_bind, if_pos htarget, ht]
  change (RegionMember.missing targetCount snap.protectedSubset >>= _) = _
  rw [hv]
  rfl

theorem load_all_of_none (hcount : m.Countable targetCount) (hnone : m.commitSnapshots.entries = [])
    (d : Deserializer β) (memory : Nat → β) :
    m.load d memory targetCount snapshotAll = .error (.lookup .nodataFound) := by
  obtain ⟨dst, hdst, _⟩ := dstSize_spec hcount
  unfold load loadAll
  rw [hdst, Except.ok_bind, if_neg (not_not.mpr rfl), hnone]
  rfl

/-- What snapshots hold is within the range of `int`. -/
theorem held_lt (hstored : ∀ s ∈ m.commitSnapshots, s.Stored m.extent) (hpos : 0 < m.extent) (h : m.Held i) :
    i < restoreFull := by
  obtain ⟨s, hs, hx⟩ := h
  exact (hstored s hs).small hpos i hx

theorem requested_iff (hstored : ∀ s ∈ m.commitSnapshots, s.Stored m.extent) (hpos : 0 < m.extent) (h : m.Held i) :
    m.Requested targetCount i ↔ i < targetCount := by
  unfold Requested
  split
  next hfull => exact iff_of_true ⟨i, h, Nat.le_refl i⟩ (hfull ▸ held_lt hstored hpos h)
  next => rfl

/-- What a walk leaves is what the newest snapshots hold of what is asked for. -/
theorem newestWins_of_walk {v : Bool} (hstored : ∀ s ∈ m.commitSnapshots, s.Stored m.extent) (hpos : 0 < m.extent)
    (hwalks : Walks targetCount (fun _ => False) m.commitSnapshots.entries.reverse visited)
    (hover : Overlays d targetCount (fun _ => False) ⟨memory, []⟩ visited t)
    (hmem : ∀ x, found.Mem x ↔ ∃ s ∈ visited, s.Has x) (hsmall : found.Small)
    (hv : v = true ↔
      ∃ i, (if targetCount = restoreFull then ∃ j, found.Mem j ∧ i ≤ j else i < targetCount) ∧ ¬found.Mem i) :
    m.NewestWins d memory targetCount ⟨t, found, v⟩ := by
  have hheld : ∀ i < targetCount, (found.Mem i ↔ m.Held i) := fun i hi => by
    rw [hmem, hwalks.found_iff hi]
    exact exists_congr fun s => and_congr_left fun _ => mem_reverse_iff
  have hwrites : ∀ i, (i < targetCount ∧ ¬False ∧ ∃ s ∈ visited, s.Has i) ↔ m.Requested targetCount i ∧ m.Held i := by
    intro i
    rw [and_iff_right not_false, ← hmem]
    constructor
    · rintro ⟨hi, hx⟩
      have hh := (hheld i hi).mp hx
      exact ⟨(requested_iff hstored hpos hh).mpr hi, hh⟩
    · rintro ⟨hr, hh⟩
      have hi := (requested_iff hstored hpos hh).mp hr
      exact ⟨hi, (hheld i hi).mpr hh⟩
  refine ⟨?_, fun i => ?_, fun i hi => hover.other i fun h => hi ((hwrites i).mp h), ?_⟩
  · intro s hs i hi hx hnew
    obtain ⟨pre, post, heq⟩ := List.append_of_mem (mem_reverse_iff.mpr hs)
    have hlt := (requested_iff hstored hpos ⟨s, hs, hx⟩).mp hi
    have hsorted := reverse_sorted (m := m)
    rw [heq] at hsorted
    have hpre : ∀ u ∈ pre, ¬u.Has i := fun u hu hux => by
      have hlater := (List.pairwise_append.mp hsorted).2.2 u hu s List.mem_cons_self
      have hle := hnew u (mem_reverse_iff.mp (heq ▸ List.mem_append_left _ hu)) hux
      omega
    obtain ⟨post', hpost⟩ := hwalks.of_newest heq hlt hpre
    exact hover.newest pre s post' hpost i hlt hx id hpre
  · exact ((hover.written i).trans (or_iff_right written_nil)).trans (hwrites i)
  · refine hv.trans ?_
    unfold Requested
    by_cases h : targetCount = restoreFull
    · have hfound : ∀ j, found.Mem j ↔ m.Held j := fun j => by
        by_cases hj : j < targetCount
        · exact hheld j hj
        · exact iff_of_false (fun hx => hj (h ▸ hsmall j hx)) fun hx => hj (h ▸ held_lt hstored hpos hx)
      simp only [if_pos h, hfound]
    · simp only [if_neg h]
      exact exists_congr fun i => and_congr_right fun hi => not_congr (hheld i hi)

/-- Loading all snapshots is newest-wins and complete, unless there are none. -/
theorem load_all_newest (hstored : ∀ s ∈ m.commitSnapshots, s.Stored m.extent) (hpos : 0 < m.extent)
    (htarget : 0 < targetCount) (hmax : targetCount ≤ restoreFull) (hcount : m.Countable targetCount)
    (d : Deserializer β) (memory : Nat → β) :
    if m.commitSnapshots.entries = [] then m.load d memory targetCount snapshotAll = .error (.lookup .nodataFound)
    else ∃ r, m.load d memory targetCount snapshotAll = .ok r ∧ m.NewestWins d memory targetCount r := by
  obtain ⟨dst, hdst, hsized⟩ := dstSize_spec hcount
  split
  next hnone => exact load_all_of_none hcount hnone d memory
  next hne =>
    obtain ⟨visited, found, t, hload, hfound, hmem, hwalks, hover⟩ := loadAll_spec (d := d) (t := ⟨memory, []⟩) hstored
      hpos hne hsized htarget hmax
    have hsmall : found.Small := fun x hx => by
      obtain ⟨s, hs, hx⟩ := (hmem x).mp hx
      exact held_lt hstored hpos ⟨s, mem_reverse_iff.mp (hwalks.first.subset hs), hx⟩
    obtain ⟨v, hv, hiff⟩ := missing_spec htarget hmax hfound hsmall
    exact ⟨_, load_all_eq hdst hload hv, newestWins_of_walk hstored hpos hwalks hover hmem hsmall hiff⟩

/-- A member of four bytes an element with two snapshots: elements 0 and 3, then element 3 alone. -/
def twoSnapshots : RegionMember where
  extent := 4
  commitSnapshots := ⟨[{ timestamp := 1, buf := ⟨16, fun _ => 1⟩, elmSize := 4, elmMaxCount := 4
                         protectedSubset := RegionSubset.zeroAndThree },
                       { timestamp := 2, buf := ⟨16, fun _ => 2⟩, elmSize := 4, elmMaxCount := 4
                         protectedSubset := {DataRegion.interval 3 3 (Nat.le_refl 3)} }],
    List.pairwise_pair.mpr (by decide)⟩

theorem twoSnapshots_stored : ∀ s ∈ twoSnapshots.commitSnapshots, s.Stored 4 := by
  intro s hs
  rcases List.mem_cons.mp hs with rfl | hs
  · have hle : ∀ x, RegionSubset.zeroAndThree.Mem x → x ≤ 3 := fun x hx => (RegionSubset.mem_singleton.mp hx).upper
    refine ⟨rfl, by decide, RegionSubset.zeroAndThree_wellFormed, rfl, by decide, fun x hx => ?_, fun x hx => ?_⟩
    · have := hle x hx
      change (x + 1) * 4 ≤ 16
      omega
    · have := hle x hx
      omega
  · cases List.mem_singleton.mp hs
    have hle : ∀ x, ({DataRegion.interval 3 3 (Nat.le_refl 3)} : RegionSubset).Mem x → x ≤ 3 := fun x hx =>
      (DataRegion.mem_interval.mp (RegionSubset.mem_singleton.mp hx)).2
    refine ⟨rfl, by decide, RegionSubset.wellFormed_singleton (s := 0) (DataRegion.fits_block rfl (by decide)), rfl,
      by decide, fun x hx => ?_, fun x hx => ?_⟩
    · have := hle x hx
      change (x + 1) * 4 ≤ 16
      omega
    · have := hle x hx
      omega

theorem load_all_newest_two : ∃ r, twoSnapshots.load ⟨false, id⟩ (fun _ => []) 2 snapshotAll = .ok r ∧
    twoSnapshots.NewestWins ⟨false, id⟩ (fun _ => []) 2 r :=
  load_all_newest twoSnapshots_stored (by decide) (by decide) (by decide) (Or.inr (by decide)) ⟨false, id⟩ fun _ => []

/-- Without any snapshot a load fails, also where it would have to report missing elements. -/
theorem load_all_nodata : (RegionMember.mk 4 IndexedSet.empty).load ⟨false, id⟩ (fun _ => []) 2 snapshotAll =
      .error (.lookup .nodataFound) ∧
    ¬∃ r, (RegionMember.mk 4 IndexedSet.empty).load ⟨false, id⟩ (fun _ => []) 2 snapshotAll = .ok r ∧
      (RegionMember.mk 4 IndexedSet.empty).NewestWins ⟨false, id⟩ (fun _ => []) 2 r := by
  refine ⟨rfl, ?_⟩
  rintro ⟨r, hr, _⟩
  cases hr

end RegionMember

end Fenix
