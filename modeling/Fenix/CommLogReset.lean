import Fenix.CommLogRun

namespace Fenix.CommLog

/-- After the local part of a reset to region `r` everything of `r` and of later regions is taken back. -/
structure RewoundTo (c c' : CommLog) (r : CRegion) : Prop where
  next : c'.region.next = r.first
  collectives : ∀ x ∈ c'.collectives, x.idx < r.first
  noLater : ∀ r' ∈ c'.regions.toList, r'.Valid → r'.id ≤ r.id
  peers : List.Forall₂ (fun l l' => RankLog.RewoundTo l l' r.id) c.rankLogs.entries c'.rankLogs.entries

section Kept

variable {c : CommLog}

theorem mem_take_upperBound (h : c.Ordered) {t : Int} {r : CRegion} (hr : r ∈ c.regions.toList) :
    r ∈ c.regions.toList.take (c.regions.upperBound CRegion.id t) ↔ r.id ≤ t := by
  constructor
  · exact Window.key_le_of_mem_take
  · intro hle
    rw [← List.take_append_drop (c.regions.upperBound CRegion.id t) c.regions.toList] at hr
    rcases List.mem_append.mp hr with hr | hr
    · exact hr
    · have hlt := Window.lt_key_of_mem_drop (id_sorted h) hr
      omega

theorem kept_mem (h : c.Ordered) {t : Int} {r : CRegion} (hr : r ∈ c.regions.toList) (hid : r.id ≤ t) :
    r ∈ (c.keptCollectives t).regions.toList := by
  rw [keptCollectives, eraseRegions_regions, Window.toList_keep]
  exact List.mem_append_right _ ((mem_take_upperBound h hr).mpr hid)

theorem kept_id_le {t : Int} (ht : 0 ≤ t) {r : CRegion} (hr : r ∈ (c.keptCollectives t).regions.toList) :
    r.id ≤ t := by
  rcases Window.mem_keep hr with rfl | hr
  · exact Int.le_trans (by decide) ht
  · exact Window.key_le_of_mem_take hr

/-- Erasing what follows region `r` leaves `r` as the current one. -/
theorem kept_region (h : c.Ordered) {r : CRegion} (hr : r ∈ c.regions.toList) (hv : r.Valid) :
    (c.keptCollectives r.id).region = r := by
  have hk : (c.keptCollectives r.id).Ordered := h.eraseRegions _
  have hmem := kept_mem h hr (Int.le_refl _)
  have hle := id_le_region hk hmem
  have hge := kept_id_le hv.1 (region_mem (c := c.keptCollectives r.id))
  exact (eq_region_of_id_eq hk hmem hv (by omega)).symm

end Kept

/-- The regions of the communicator are rewound exactly when the one to resume in is the current one,
whose next index and logs are set back, or one in which no collective was called. -/
theorem resetsCollectives_rewound_iff {c c' : CommLog} (h : c.Ordered) {r : CRegion}
    (hr : r ∈ c.regions.toList) (hv : r.Valid) (hres : ResetsCollectives c r.id c') :
    (c'.region.next = r.first ∧ (∀ x ∈ c'.collectives, x.idx < r.first) ∧
      ∀ r' ∈ c'.regions.toList, r'.Valid → r'.id ≤ r.id) ↔ r = c.region ∨ r.first = r.next := by
  have hle := id_le_region h hr
  have hord := h.resetsCollectives hv.1 hres
  cases hres with
  | invalid hcv =>
    rcases Window.mem_toList.mp hr with hr | rfl
    · have hid := older_id_of_not_valid h hcv hr
      have hge := hv.1
      omega
    · exact absurd hv hcv
  | older hcv hlt hk =>
    have hreg := kept_region h hr hv
    constructor
    · rintro ⟨hnext, _⟩
      rw [hreg] at hnext
      exact Or.inr hnext.symm
    · rintro (rfl | heq)
      · omega
      · refine ⟨by rw [hreg, heq], ?_, fun r' hr' _ => kept_id_le hv.1 hr'⟩
        intro x hx
        have hx := idx_lt_next hord hx
        rw [hreg] at hx
        omega
  | current hcv hid =>
    have hreg := eq_region_of_id_eq h hr hv hid.symm
    refine ⟨fun _ => Or.inl hreg, fun _ => ⟨by rw [hreg]; rfl, ?_, ?_⟩⟩
    · intro x hx
      rw [hreg]
      exact ((mem_restartCollectives h hcv).mp hx).2
    · intro r' hr' _
      have hle' := id_le_region hord hr'
      change r'.id ≤ c.region.id at hle'
      omega
  | next hcv hgt => omega

theorem resetsCollectives_exists {c : CommLog} (h : c.Ordered) {r : CRegion} (hr : r ∈ c.regions.toList)
    (hv : r.Valid) : ∃ c', ResetsCollectives c r.id c' := by
  by_cases hcv : c.region.Valid
  · have hle := id_le_region h hr
    by_cases hlt : r.id < c.region.id
    · exact ⟨_, .older hcv hlt fun _ => congrArg CRegion.id (kept_region h hr hv)⟩
    · exact ⟨_, .current hcv (by omega)⟩
  · exact ⟨c, .invalid hcv⟩

/-- What `reset_consistency` asks of the log of the traffic with a peer to resume in region `t`. -/
def PeersAccept (c : CommLog) (t : Int) : Prop := ∀ l ∈ c.rankLogs, l.activeIrecv = none ∧ ¬l.Skips t

theorem peersAccept_iff {c : CommLog} (h : c.WellFormed) {t : Int} (ht : 0 ≤ t) :
    (∃ ls, c.rankLogs.updateM (·.resetConsistency t)
      (fun _ _ h => (RankLog.sameFrame_resetConsistency h).1) = .ok ls) ↔ c.PeersAccept t := by
  refine IndexedSet.updateM_ok_exists_iff.trans (forall₂_congr fun l hl => ?_)
  exact RankLog.resetConsistency_ok_iff (h.peers l hl).1 ht

theorem peers_rewound {c : CommLog} (h : c.WellFormed) {t : Int} (ht : 0 ≤ t)
    {ls : IndexedSet RankLog RankLog.rank} (hu : c.rankLogs.updateM (·.resetConsistency t)
      (fun _ _ h => (RankLog.sameFrame_resetConsistency h).1) = .ok ls) :
    List.Forall₂ (fun l l' => RankLog.RewoundTo l l' t) c.rankLogs.entries ls.entries := by
  have hf := IndexedSet.updateM_eq_ok_iff.mp hu
  refine List.forall₂_imp_of_mem_left hf fun l hl l' hll' => ?_
  exact RankLog.resets_rewound (h.peers l hl).1 ht (RankLog.resets_of_ok ht hll').2

/-- Resetting to a retained region takes back both kinds of log exactly when every peer's log can
resume there and the region is the current one or no collective was called in it. -/
theorem resetLocal_rewinds_iff {c : CommLog} (hc : Reachable c) {r : CRegion} (hr : r ∈ c.regions.toList)
    (hv : r.Valid) : (∃ c', c.resetLocal r.id = .ok c' ∧ RewoundTo c c' r) ↔
      c.PeersAccept r.id ∧ (r = c.region ∨ r.first = r.next) := by
  have h := reachable_wellFormed hc
  constructor
  · rintro ⟨c', hr', hrew⟩
    obtain ⟨_, ls, hls, hres⟩ := resetLocal_cases hr'
    refine ⟨(peersAccept_iff h hv.1).mp ⟨ls, hls⟩, ?_⟩
    have hres := (resetCollectives_ok_iff hv.1).mp hres
    refine (resetsCollectives_rewound_iff ?_ ?_ hv hres).mp ⟨hrew.next, hrew.collectives, hrew.noLater⟩
    · exact h.own.of_same rfl rfl
    · exact hr
  · rintro ⟨hpeers, hcond⟩
    obtain ⟨ls, hls⟩ := (peersAccept_iff h hv.1).mpr hpeers
    generalize hm : ({ c with rankLogs := ls, activeRegion := if 0 ≤ r.id then r.id else c.activeRegion } :
      CommLog) = m
    have hmo : m.Ordered := hm ▸ h.own.of_same rfl rfl
    have hmr : r ∈ m.regions.toList := hm ▸ hr
    obtain ⟨c', hres⟩ := resetsCollectives_exists hmo hmr hv
    have hiff := resetsCollectives_rewound_iff hmo hmr hv hres
    obtain ⟨hnext, hcoll, hlater⟩ := hiff.mpr (hm ▸ hcond)
    refine ⟨c', ?_, hnext, hcoll, hlater, ?_⟩
    · have hge := hv.1
      unfold resetLocal
      rw [if_neg (by omega), hls]
      change CommLog.resetCollectives _ r.id = _
      rw [hm]
      exact (resetCollectives_ok_iff hv.1).mpr hres
    · rw [(onlyCollectives_resets hres).rankLogs, ← hm]
      exact peers_rewound h hv.1 hls

theorem resetLocal_rewinds_current : ∃ c c', c.rankLogs = firstSends ∧ c.collectives.entries = [⟨0, .barrier⟩] ∧
    c.resetLocal 0 = .ok c' ∧ RewoundTo c c' ⟨0, 0, 1⟩ := by
  have hcalled := (reachable_sent 0).step
    (@Step.startCollective _ _ .barrier (Or.inr ⟨Int.le_refl 0, Int.le_refl 0, Int.le_refl 0⟩) rfl)
  have hc := hcalled.step (.finishCollective rfl)
  obtain ⟨c', hr, hrewound⟩ := (resetLocal_rewinds_iff hc (r := ⟨0, 0, 1⟩) (by decide) (by decide)).mpr
    ⟨fun l hl => by
      rw [List.mem_singleton.mp hl]
      exact ⟨rfl, fun hs => hs.2.2 ⟨0, ⟨0, 1⟩, ⟨0, 0⟩⟩ (by decide) (by decide) rfl⟩, Or.inl rfl⟩
  exact ⟨_, c', rfl, rfl, hr, hrewound⟩

/-- Two regions begun, with a barrier in the first one, to which the rank then goes back. -/
theorem resetLocal_keeps_next : ∃ c r c', Reachable c ∧ r ∈ c.regions.toList ∧ r.Valid ∧
    c.PeersAccept r.id ∧ c.resetLocal r.id = .ok c' ∧ ¬RewoundTo c c' r := by
  refine ⟨{ mRank := 0, maxRegions := 2, activeRegion := 1, regions := ⟨[⟨0, 0, 1⟩], ⟨1, 1, 1⟩⟩,
            collectives := ⟨[⟨0, .barrier⟩], List.pairwise_singleton _ _⟩ }, ⟨0, 0, 1⟩,
          { mRank := 0, maxRegions := 2, activeRegion := 0, regions := ⟨[{}], ⟨0, 0, 1⟩⟩,
            collectives := ⟨[⟨0, .barrier⟩], List.pairwise_singleton _ _⟩ }, ?_, ?_, ?_, ?_, ?_, ?_⟩
  · exact (reachable_finished 0).step (@Step.beginRegion _ _ 1 (Or.inr (by decide)) rfl rfl)
  · decide
  · decide
  · intro l hl
    cases hl
  · rfl
  · intro h
    exact absurd h.next (by decide)

end Fenix.CommLog
