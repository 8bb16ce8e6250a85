import Fenix.RegionLoadAll

namespace Fenix

namespace RegionMember

open RegionSnapshot

variable {β : Type} {m : RegionMember} {d : Deserializer β} {memory : Nat → β} {targetCount i : Nat} {ts : Int}
  {snap : RegionSnapshot} {visited : List RegionSnapshot}

/-- A load consults the snapshot that it finds or, of all snapshots, those that come before all elements asked for
are held by newer ones. -/
def Consulted (m : RegionMember) (targetCount : Nat) (ts : Int) (s : RegionSnapshot) : Prop :=
  if ts = snapshotAll then
    s ∈ m.commitSnapshots ∧ ∃ i < targetCount, ∀ u ∈ m.commitSnapshots, s.timestamp < u.timestamp → ¬u.Has i
  else m.findSnapshot ts = .ok s

/-- What a load reports as found is what it writes. A load that finds no snapshot reports nothing. -/
def FoundExact (r : Except TransferError (RegionLoaded β)) : Prop :=
  match r with
  | .ok r => ∀ i, r.found.Mem i ↔ r.transfer.Written i
  | .error e => ∃ reason, e = .lookup reason

theorem findSnapshot_cases (m : RegionMember) (ts : Int) :
    (∃ s ∈ m.commitSnapshots, m.findSnapshot ts = .ok s) ∨ ∃ reason, m.findSnapshot ts = .error (.lookup reason) := by
  unfold findSnapshot
  split
  next =>
    cases h : m.commitSnapshots.last? with
    | none => exact Or.inr ⟨_, rfl⟩
    | some s => exact Or.inl ⟨s, IndexedSet.last?_mem h, rfl⟩
  next =>
    split
    next => exact Or.inr ⟨_, rfl⟩
    next =>
      cases h : m.commitSnapshots.find? ts with
      | none => exact Or.inr ⟨_, rfl⟩
      | some s => exact Or.inl ⟨s, (IndexedSet.find?_some h).1, rfl⟩

theorem visited_iff (htarget : 0 < targetCount)
    (h : Walks targetCount (fun _ => False) m.commitSnapshots.entries.reverse visited) :
    snap ∈ visited ↔ m.Consulted targetCount snapshotAll snap := by
  have hsorted := reverse_sorted (m := m)
  -- the snapshots before one in the walk are the newer ones
  have hnewer : ∀ {pre post : List RegionSnapshot}, m.commitSnapshots.entries.reverse = pre ++ snap :: post →
      ∀ u, u ∈ pre ↔ u ∈ m.commitSnapshots ∧ snap.timestamp < u.timestamp := fun {pre post} heq u => by
    rw [heq] at hsorted
    obtain ⟨_, htail, hbefore⟩ := List.pairwise_append.mp hsorted
    constructor
    · intro hu
      exact ⟨mem_reverse_iff.mp (heq ▸ List.mem_append_left _ hu), hbefore u hu snap List.mem_cons_self⟩
    · rintro ⟨hu, hlt⟩
      have hmem := mem_reverse_iff.mpr hu
      rw [heq, List.mem_append, List.mem_cons] at hmem
      rcases hmem with hu | rfl | hu
      · exact hu
      · omega
      · have := (List.pairwise_cons.mp htail).1 u hu
        omega
  unfold Consulted
  rw [if_pos rfl]
  constructor
  · intro hs
    obtain ⟨pre, post, heq⟩ := List.append_of_mem hs
    obtain ⟨rest, hrest⟩ := h.first
    rw [heq, List.append_assoc, List.cons_append] at hrest
    refine ⟨mem_reverse_iff.mp (h.first.subset hs), ?_⟩
    by_cases hpre : pre = []
    · refine ⟨0, htarget, fun u hu hlt => ?_⟩
      have := (hnewer hrest.symm u).mpr ⟨hu, hlt⟩
      rw [hpre] at this
      exact absurd this List.not_mem_nil
    · obtain ⟨i, hi, _, hno⟩ := h.needed pre snap post heq hpre
      exact ⟨i, hi, fun u hu hlt => hno u ((hnewer hrest.symm u).mpr ⟨hu, hlt⟩)⟩
  · rintro ⟨hs, i, hi, hno⟩
    obtain ⟨pre, post, heq⟩ := List.append_of_mem (mem_reverse_iff.mpr hs)
    obtain ⟨post', hpost⟩ := h.of_newest heq hi fun u hu => by
      obtain ⟨hmem, hlt⟩ := (hnewer heq u).mp hu
      exact hno u hmem hlt
    rw [hpost]
    exact List.mem_append_right _ List.mem_cons_self

/-- A load of all snapshots reports what it writes just when those that it visits have nothing past what is asked for. -/
theorem foundExact_all (hstored : ∀ s ∈ m.commitSnapshots, s.Stored m.extent) (hpos : 0 < m.extent)
    (htarget : 0 < targetCount) (hmax : targetCount ≤ restoreFull) (hcount : m.Countable targetCount)
    (d : Deserializer β) (memory : Nat → β) : FoundExact (m.load d memory targetCount snapshotAll) ↔
      ∀ s, m.Consulted targetCount snapshotAll s → ∀ i, s.Has i → i < targetCount := by
  obtain ⟨dst, hdst, hsized⟩ := dstSize_spec hcount
  by_cases hne : m.commitSnapshots.entries = []
  · rw [load_all_of_none hcount hne d memory]
    refine iff_of_true ⟨_, rfl⟩ fun s hs => ?_
    have hmem := ((if_pos rfl).mp hs : s ∈ m.commitSnapshots ∧ _).1
    rw [IndexedSet.mem_def, hne] at hmem
    exact absurd hmem List.not_mem_nil
  · obtain ⟨visited, found, t, hload, hfound, hmem, hwalks, hover⟩ := loadAll_spec (d := d) (t := ⟨memory, []⟩) hstored
      hpos hne hsized htarget hmax
    have hsmall : found.Small := fun x hx => by
      obtain ⟨s, hs, hx⟩ := (hmem x).mp hx
      exact held_lt hstored hpos ⟨s, mem_reverse_iff.mp (hwalks.first.subset hs), hx⟩
    obtain ⟨v, hv, _⟩ := missing_spec htarget hmax hfound hsmall
    rw [load_all_eq hdst hload hv]
    change (∀ i, found.Mem i ↔ t.Written i) ↔ _
    simp only [hover.written, hmem, ← visited_iff htarget hwalks, or_iff_right written_nil]
    constructor
    · exact fun h s hs i hx => ((h i).mp ⟨s, hs, hx⟩).1
    · exact fun h i => ⟨fun ⟨s, hs, hx⟩ => ⟨h s hs i hx, id, s, hs, hx⟩, fun hx => hx.2.2⟩

/-- A load of one snapshot reports what it writes just when that one has nothing past what is asked for. -/
theorem foundExact_one (hall : ts ≠ snapshotAll) (hstored : ∀ s ∈ m.commitSnapshots, s.Stored m.extent)
    (hpos : 0 < m.extent) (htarget : 0 < targetCount) (hmax : targetCount ≤ restoreFull)
    (hcount : m.Countable targetCount) (d : Deserializer β) (memory : Nat → β) :
    FoundExact (m.load d memory targetCount ts) ↔ ∀ s, m.Consulted targetCount ts s → ∀ i, s.Has i → i < targetCount := by
  have hconsulted : ∀ s, m.Consulted targetCount ts s ↔ m.findSnapshot ts = .ok s := fun s => by
    unfold Consulted
    rw [if_neg hall]
  simp only [hconsulted]
  rcases m.findSnapshot_cases ts with ⟨s, hs, hfind⟩ | ⟨reason, hfind⟩
  · obtain ⟨t, v, hload, _, _, hwritten, _⟩ := load_one hall hfind (hstored s hs) hpos htarget hmax hcount d memory
    rw [hload]
    change (∀ i, s.Has i ↔ t.Written i) ↔ _
    simp only [hwritten]
    constructor
    · intro h s' hs' i hx
      cases Except.ok.inj (hfind.symm.trans hs')
      exact ((h i).mp hx).2
    · exact fun h i => ⟨fun hx => ⟨hx, h s hfind i hx⟩, fun hx => hx.1⟩
  · obtain ⟨dst, hdst, _⟩ := dstSize_spec hcount
    have hload : m.load d memory targetCount ts = .error (.lookup reason) := by
      unfold load loadOne
      rw [hdst, Except.ok_bind, if_pos hall, hfind]
      rfl
    rw [hload]
    refine iff_of_true ⟨_, rfl⟩ fun s hs => ?_
    rw [hfind] at hs
    cases hs

/-- A load reports what it writes just when its bytes are within the range of `int` and no snapshot that it consults
has elements past those that are asked for. -/
theorem foundExact_iff (hstored : ∀ s ∈ m.commitSnapshots, s.Stored m.extent) (hpos : 0 < m.extent)
    (htarget : 0 < targetCount) (hmax : targetCount ≤ restoreFull) (d : Deserializer β) (memory : Nat → β) (ts : Int) :
    FoundExact (m.load d memory targetCount ts) ↔ m.Countable targetCount ∧
      ∀ s, m.Consulted targetCount ts s → ∀ i, s.Has i → i < targetCount := by
  by_cases hcount : m.Countable targetCount
  · rw [and_iff_right hcount]
    by_cases hall : ts = snapshotAll
    · subst hall
      exact foundExact_all hstored hpos htarget hmax hcount d memory
    · exact foundExact_one hall hstored hpos htarget hmax hcount d memory
  · refine iff_of_false (fun h => ?_) fun h => hcount h.1
    unfold load at h
    rw [dstSize_overflow hcount] at h
    obtain ⟨reason, hreason⟩ := h
    cases hreason

theorem foundExact_iff_two : FoundExact (twoSnapshots.load ⟨false, id⟩ (fun _ => []) 4 1) ↔
    twoSnapshots.Countable 4 ∧ ∀ s, twoSnapshots.Consulted 4 1 s → ∀ i, s.Has i → i < 4 :=
  foundExact_iff twoSnapshots_stored (by decide) (by decide) (by decide) ⟨false, id⟩ (fun _ => []) 1

/-- Of the elements 0 and 3 only the first is written to a target of two elements, but both are reported. -/
theorem found_past_target : ¬FoundExact (twoSnapshots.load ⟨false, id⟩ (fun _ => []) 2 1) := by
  intro h
  have hload : ∃ r, twoSnapshots.load ⟨false, id⟩ (fun _ => []) 2 1 = .ok r ∧ r.found = RegionSubset.zeroAndThree ∧
      r.transfer.calls = [(0, 1)] := ⟨_, rfl, rfl, rfl⟩
  obtain ⟨r, hr, hfound, hcalls⟩ := hload
  rw [hr] at h
  have hmem : r.found.Mem 3 := hfound ▸ RegionSubset.mem_singleton.mpr ⟨1, by decide, by decide, by decide⟩
  obtain ⟨c, hc, _, hlt⟩ := (h 3).mp hmem
  rw [hcalls] at hc
  cases List.mem_singleton.mp hc
  omega

end RegionMember

end Fenix
