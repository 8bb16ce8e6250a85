import Fenix.RankLogInvariant

namespace Fenix

theorem Region.Shaped.next_of_not_valid {r : Region} (h : r.Shaped) (hv : ¬r.Valid) :
    r.send.next = -1 ∧ r.recv.next = -1 := by
  rcases h.2 with hr | ⟨hs, hr⟩
  · exact absurd hr hv
  · rw [hs, hr]
    exact ⟨rfl, rfl⟩

namespace RankLog

section Kept

variable {l : RankLog} {k : Nat}

theorem kept_cur_cases (l : RankLog) (k : Nat) : (l.eraseRegions k).curRegion = {} ∨
    (l.eraseRegions k).curRegion ∈ l.regions.toList.take k :=
  Window.mem_keep (Window.cur_mem (l.regions.keep {} k))

theorem kept_ordered (h : l.WellFormed) :
    (l.eraseRegions k).regions.toList.Pairwise Region.Precedes :=
  Window.pairwise_keep h.ordered Region.default_precedes

theorem kept_mem {r : Region} (hr : r ∈ l.regions.toList.take k) :
    r ∈ (l.eraseRegions k).regions.toList := by
  rw [eraseRegions_regions, Window.toList_keep]
  exact List.mem_append_right _ hr

theorem kept_shaped (h : l.WellFormed) {r : Region} (hr : r ∈ (l.eraseRegions k).regions.toList) :
    r.Shaped := by
  rcases Window.mem_keep hr with rfl | hr
  · exact Region.shaped_default
  · exact h.shaped r (List.mem_of_mem_take hr)

theorem kept_logged (h : l.WellFormed) {s : SendLog} (hs : s ∈ (l.eraseRegions k).sends) :
    ∃ r ∈ l.regions.toList.take k, r.Holds s.idx := by
  obtain ⟨hs, hnot⟩ := mem_eraseRegions.mp hs
  obtain ⟨r, hr, hh⟩ := h.logged s hs
  rw [← List.take_append_drop k l.regions.toList] at hr
  rcases List.mem_append.mp hr with hr | hr
  · exact ⟨r, hr, hh⟩
  · exact absurd hh (hnot r hr)

/-- The erased regions begin where the kept ones end, or later. -/
theorem kept_next_le_first (h : l.WellFormed) {r : Region} (hr : r ∈ l.regions.toList.drop k)
    (hv : r.Valid) : (l.eraseRegions k).nextSend ≤ r.send.first := by
  have hge := hv.2.1.1
  by_cases hkv : (l.eraseRegions k).curRegion.Valid
  · rcases kept_cur_cases l k with hc | hc
    · rw [hc] at hkv
      exact absurd hkv Region.not_valid_default
    · rcases Window.take_rel_drop h.ordered hc hr with hp | hp
      · have hid := hkv.1
        omega
      · exact hp.2.2.1
  · have hn := ((kept_shaped h curRegion_mem).next_of_not_valid hkv).1
    simp only [nextSend, hn]
    omega

theorem kept_cur_mem (l : RankLog) (k : Nat) :
    l.curRegion ∈ l.regions.toList.take k ∨ l.curRegion ∈ l.regions.toList.drop k := by
  have h := curRegion_mem (l := l)
  rw [← List.take_append_drop k l.regions.toList] at h
  exact List.mem_append.mp h

/-- The current region of a window is the last of those kept, if any. -/
theorem kept_cur_of_mem (h : l.WellFormed) {r : Region} (hr : r ∈ l.regions.toList.take k) (hv : r.Valid)
    (hlast : ∀ y ∈ l.regions.toList.take k, y.id ≤ r.id) : (l.eraseRegions k).curRegion = r := by
  rcases Window.mem_toList.mp (kept_mem hr) with hm | hm
  · rcases Window.older_rel_cur (kept_ordered h) hm with hp | hp
    · have hge := hv.1
      omega
    · rcases kept_cur_cases l k with hc | hc
      · have hbad : (l.eraseRegions k).curRegion.Valid := hp.2.1
        rw [hc] at hbad
        exact absurd hbad Region.not_valid_default
      · have h₁ := hlast _ hc
        have h₂ := hp.1
        change r.id < (l.eraseRegions k).curRegion.id at h₂
        omega
  · exact hm.symm

theorem kept_next_le (h : l.WellFormed) (hv : l.curRegion.Valid) :
    (l.eraseRegions k).nextSend ≤ l.nextSend := by
  rcases kept_cur_mem l k with hm | hm
  · have hc := kept_cur_of_mem h hm hv fun y hy => id_le_cur h (List.mem_of_mem_take hy)
    simp only [nextSend, hc, Int.le_refl]
  · have h₁ := kept_next_le_first h hm hv
    have h₂ := hv.2.1.2
    simp only [nextSend] at h₁ ⊢
    omega

end Kept

theorem WellFormed.eraseRegions {l : RankLog} (h : l.WellFormed) (k : Nat) :
    (l.eraseRegions k).WellFormed := by
  refine ⟨fun r hr => kept_shaped h hr, kept_ordered h, ?_, ?_⟩
  · intro s hs
    obtain ⟨r, hr, hh⟩ := kept_logged h hs
    exact ⟨r, kept_mem hr, hh⟩
  · intro s hs i hi hin
    obtain ⟨hs, hnot⟩ := mem_eraseRegions.mp hs
    have hv : l.curRegion.Valid := by
      by_contra hv
      exact sends_empty_of_not_valid h hv s hs
    have hle := kept_next_le (k := k) h hv
    obtain ⟨s', hmem, hidx⟩ := h.closed s hs i hi (by omega)
    refine ⟨s', mem_eraseRegions.mpr ⟨hmem, ?_⟩, hidx⟩
    intro r hr hrh
    have h₁ := kept_next_le_first h hr hrh.1
    have h₂ := hrh.2.1
    omega

theorem restartRegion_regions (l : RankLog) : l.restartRegion.regions = l.regions.setCur
    { l.curRegion with
      send := { l.curRegion.send with next := l.curRegion.send.first }
      recv := { l.curRegion.recv with next := l.curRegion.recv.first } } := by
  simp only [RankLog.restartRegion, setCur_regions, eraseSends_regions]

theorem mem_restartRegion {l : RankLog} (h : l.WellFormed) (hv : l.curRegion.Valid) {s : SendLog} :
    s ∈ l.restartRegion.sends ↔ s ∈ l.sends ∧ s.idx < l.curRegion.send.first := by
  simp only [RankLog.restartRegion, setCur_sends, mem_eraseSends, and_congr_right_iff]
  intro hs
  have hlt := idx_lt_nextSend h hs
  constructor
  · intro hnot
    by_contra hge
    exact hnot ⟨hv, by omega, hlt⟩
  · intro hlt' hh
    have hge := hh.2.1
    omega

theorem WellFormed.restartRegion {l : RankLog} (h : l.WellFormed) (hv : l.curRegion.Valid) :
    l.restartRegion.WellFormed := by
  have hs := hv.2.1.1
  have hr := hv.2.2.1
  have hrv : l.restartRegion.curRegion.Valid := ⟨hv.1, ⟨hs, Int.le_refl _⟩, ⟨hr, Int.le_refl _⟩⟩
  refine ⟨?_, ?_, ?_, ?_⟩
  · intro y hy
    rw [restartRegion_regions, Window.toList_setCur] at hy
    rcases List.mem_append.mp hy with hy | hy
    · exact h.shaped y (Window.mem_toList.mpr (Or.inl hy))
    · rw [List.mem_singleton.mp hy]
      exact hrv.shaped
  · rw [restartRegion_regions]
    refine Window.pairwise_setCur h.ordered ?_
    intro y hy
    exact (older_precedes_cur h hy).trans_start (Int.le_refl _) hrv (Int.le_refl _) (Int.le_refl _)
  · intro s hs
    obtain ⟨hs, hlt⟩ := (mem_restartRegion h hv).mp hs
    obtain ⟨y, hy, hh⟩ := h.logged s hs
    rcases Window.mem_toList.mp hy with hy | rfl
    · refine ⟨y, ?_, hh⟩
      rw [restartRegion_regions]
      exact Window.mem_toList.mpr (Or.inl hy)
    · have hge := hh.2.1
      simp only [curRegion] at hlt
      omega
  · intro s hs i hi hin
    obtain ⟨hs, hlt⟩ := (mem_restartRegion h hv).mp hs
    change i < l.curRegion.send.first at hin
    have hle := hv.2.1.2
    obtain ⟨s', hmem, hidx⟩ := h.closed s hs i hi (by simp only [nextSend]; omega)
    exact ⟨s', (mem_restartRegion h hv).mpr ⟨hmem, by omega⟩, hidx⟩

end RankLog

end Fenix
