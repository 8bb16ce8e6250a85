import Fenix.RankLogSteps

namespace Fenix.RankLog

/-- The log with region `t` appended, in the state `append_region` leaves it. -/
def appended (l : RankLog) (t : Int) : RankLog :=
  { l.eraseSends l.regions.front with regions := l.regions.push (.following t l.curRegion) }

/-- What is left when the regions after `t` are erased. -/
def keptUpTo (l : RankLog) (t : Int) : RankLog := l.eraseRegions (l.regions.upperBound Region.id t)

@[simp] theorem appended_curRegion (l : RankLog) (t : Int) :
    (l.appended t).curRegion = .following t l.curRegion := rfl

/-- What `reset_consistency` does to resume at the beginning of region `t`. -/
inductive Resets (l : RankLog) (t : Int) : RankLog → Prop
  | invalid (hv : ¬l.curRegion.Valid) : Resets l t l
  | forgotten (hv : l.curRegion.Valid) (hlt : t < l.curRegion.id) (hk : ¬(l.keptUpTo t).curRegion.Valid) :
      Resets l t (l.keptUpTo t)
  | older (hv : l.curRegion.Valid) (hlt : t < l.curRegion.id) (hk : (l.keptUpTo t).curRegion.Valid)
      (hid : (l.keptUpTo t).curRegion.id = t) : Resets l t (l.keptUpTo t).restartRegion
  | current (hv : l.curRegion.Valid) (hid : l.curRegion.id = t) : Resets l t l.restartRegion
  | next (hv : l.curRegion.Valid) (hgt : l.curRegion.id < t) : Resets l t (l.appended t).restartRegion

theorem resumeRegion_self (l : RankLog) : l.resumeRegion l.curRegion.id = .ok l.restartRegion :=
  if_pos rfl

theorem appendRegion_following {l : RankLog} {t : Int} (h : l.curRegion.id < t) :
    l.appendRegion (.following t l.curRegion) = .ok (l.appended t) :=
  if_pos h

theorem resetConsistency_continue (l : RankLog) : l.resetConsistency (-1) = .ok l := by
  unfold resetConsistency
  rw [if_neg (by decide), if_neg (fun h => absurd h.1 (by decide))]
  by_cases hv : l.curRegion.Valid
  · have hid := hv.1
    rw [if_neg (not_not.mpr hv), if_neg (fun h => absurd h.1 (by decide)), if_neg (by omega)]
    unfold resumeRegion
    rw [if_neg (by omega), if_pos rfl]
  · rw [if_pos hv]

theorem resets_of_ok {l l' : RankLog} {t : Int} (ht : 0 ≤ t) (h : l.resetConsistency t = .ok l') :
    l.activeIrecv = none ∧ Resets l t l' := by
  unfold resetConsistency at h
  rw [if_neg (by omega)] at h
  split at h
  next => cases h
  next ha =>
    have ha : l.activeIrecv = none := by simpa [ht] using ha
    refine ⟨ha, ?_⟩
    split at h
    next hv =>
      cases Except.ok.inj h
      exact .invalid hv
    next hv =>
      have hv := not_not.mp hv
      split at h
      next hlt =>
        change (if ¬(l.keptUpTo t).curRegion.Valid then Except.ok (l.keptUpTo t)
          else if (l.keptUpTo t).curRegion.id ≠ t then _ else (l.keptUpTo t).resumeRegion t) = _ at h
        split at h
        next hk =>
          cases Except.ok.inj h
          exact .forgotten hv hlt.2 hk
        next hk =>
          split at h
          next => cases h
          next hid =>
            have hid := not_not.mp hid
            have hres := resumeRegion_self (l.keptUpTo t)
            rw [hid, h] at hres
            cases Except.ok.inj hres
            exact .older hv hlt.2 (not_not.mp hk) hid
      next hlt =>
        split at h
        next hgt =>
          rw [appendRegion_following hgt] at h
          have hres := resumeRegion_self (l.appended t)
          cases Except.ok.inj (h.symm.trans hres)
          exact .next hv hgt
        next hgt =>
          have hid : l.curRegion.id = t := by omega
          have hres := resumeRegion_self l
          rw [hid, h] at hres
          cases Except.ok.inj hres
          exact .current hv hid

theorem resetConsistency_of_resets {l l' : RankLog} {t : Int} (ht : 0 ≤ t) (ha : l.activeIrecv = none)
    (h : Resets l t l') : l.resetConsistency t = .ok l' := by
  unfold resetConsistency
  rw [if_neg (by omega), if_neg (by simp [ha])]
  cases h with
  | invalid hv => rw [if_pos hv]
  | forgotten hv hlt hk =>
    rw [if_neg (not_not.mpr hv), if_pos ⟨ht, hlt⟩]
    exact if_pos hk
  | older hv hlt hk hid =>
    rw [if_neg (not_not.mpr hv), if_pos ⟨ht, hlt⟩]
    have hres := resumeRegion_self (l.keptUpTo t)
    rw [hid] at hres
    exact (if_neg (not_not.mpr hk)).trans ((if_neg (not_not.mpr hid)).trans hres)
  | current hv hid =>
    rw [if_neg (not_not.mpr hv), if_neg (by omega), if_neg (by omega), ← hid]
    exact resumeRegion_self l
  | next hv hgt =>
    rw [if_neg (not_not.mpr hv), if_neg (by omega), if_pos hgt, appendRegion_following hgt]
    exact resumeRegion_self (l.appended t)

theorem appended_valid {l : RankLog} {t : Int} (ht : 0 ≤ t) (hv : l.curRegion.Valid) :
    (l.appended t).curRegion.Valid := by
  have hs := hv.2.1
  have hr := hv.2.2
  exact Region.valid_starting ht (Int.le_trans hs.1 hs.2) (Int.le_trans hr.1 hr.2)

theorem WellFormed.resets {l l' : RankLog} (h : l.WellFormed) {t : Int} (ht : 0 ≤ t)
    (hr : Resets l t l') : l'.WellFormed := by
  cases hr with
  | invalid => exact h
  | forgotten => exact h.eraseRegions _
  | older _ _ hk _ => exact (h.eraseRegions _).restartRegion hk
  | current hv _ => exact h.restartRegion hv
  | next hv hgt =>
    exact (h.appendFollowing ht hv (appendRegion_following hgt)).restartRegion (appended_valid ht hv)

theorem WellFormed.resetConsistency {l l' : RankLog} (h : l.WellFormed) {t : Int}
    (hr : l.resetConsistency t = .ok l') : l'.WellFormed := by
  by_cases ht : 0 ≤ t
  · exact h.resets ht (resets_of_ok ht hr).2
  · by_cases hc : t = -1
    · subst hc
      cases Except.ok.inj ((resetConsistency_continue l).symm.trans hr)
      exact h
    · unfold RankLog.resetConsistency at hr
      rw [if_pos (by omega)] at hr
      cases hr

theorem sameFrame_restartRegion (l : RankLog) : SameFrame l l.restartRegion :=
  ⟨eraseSends_rank _ _, by rw [restartRegion_regions, Window.size_setCur]⟩

theorem sameFrame_keptUpTo (l : RankLog) (t : Int) : SameFrame l (l.keptUpTo t) :=
  ⟨(foldl_eraseSends_rank _ l).1, Window.size_keep _ (Window.upperBound_le _ _)⟩

theorem sameFrame_resets {l l' : RankLog} {t : Int} (h : Resets l t l') : SameFrame l l' := by
  have hk := sameFrame_keptUpTo l t
  cases h with
  | invalid => exact ⟨rfl, rfl⟩
  | forgotten => exact hk
  | older => exact hk.trans (sameFrame_restartRegion _)
  | current => exact sameFrame_restartRegion l
  | next _ hgt => exact (sameFrame_appendRegion (appendRegion_following hgt)).trans (sameFrame_restartRegion _)

theorem sameFrame_resetConsistency {l l' : RankLog} {t : Int} (h : l.resetConsistency t = .ok l') :
    SameFrame l l' := by
  by_cases ht : 0 ≤ t
  · exact sameFrame_resets (resets_of_ok ht h).2
  · by_cases hc : t = -1
    · subst hc
      cases Except.ok.inj ((resetConsistency_continue l).symm.trans h)
      exact ⟨rfl, rfl⟩
    · unfold resetConsistency at h
      rw [if_pos (by omega)] at h
      cases h

theorem resets_activeIrecv {l l' : RankLog} {t : Int} (h : Resets l t l') :
    l'.activeIrecv = l.activeIrecv := by
  have hk : (l.keptUpTo t).activeIrecv = l.activeIrecv := (foldl_eraseSends_rank _ l).2.1
  cases h with
  | invalid => rfl
  | forgotten => exact hk
  | older => exact (eraseSends_activeIrecv _ _).trans hk
  | current => exact eraseSends_activeIrecv _ _
  | next => exact (eraseSends_activeIrecv _ _).trans (eraseSends_activeIrecv _ _)

theorem mem_take_upperBound {l : RankLog} (h : l.WellFormed) {t : Int} {r : Region} (hr : r ∈ l.regions.toList) :
    r ∈ l.regions.toList.take (l.regions.upperBound Region.id t) ↔ r.id ≤ t := by
  constructor
  · exact Window.key_le_of_mem_take
  · intro hle
    rw [← List.take_append_drop (l.regions.upperBound Region.id t) l.regions.toList] at hr
    rcases List.mem_append.mp hr with hr | hr
    · exact hr
    · have hlt := Window.lt_key_of_mem_drop (id_sorted h) hr
      omega

theorem keptUpTo_curRegion {l : RankLog} (h : l.WellFormed) {t : Int} {r : Region}
    (hr : r ∈ l.regions.toList) (hv : r.Valid) (hid : r.id = t) : (l.keptUpTo t).curRegion = r := by
  refine kept_cur_of_mem h ((mem_take_upperBound h hr).mpr (by omega)) hv ?_
  intro y hy
  have hle := Window.key_le_of_mem_take hy
  omega

/-- The current region of a log rewound to `t` is `t` with both kinds of message taken back. -/
structure RewoundTo (l l' : RankLog) (t : Int) : Prop where
  noLater : ∀ r ∈ l'.regions.toList, r.Valid → r.id ≤ t
  restarted : ∀ r ∈ l.regions.toList, r.Valid → r.id = t →
    l'.nextSend = r.send.first ∧ l'.nextRecv = r.recv.first ∧ ∀ s ∈ l'.sends, s.idx < r.send.first

theorem restartRegion_rewound {l : RankLog} (h : l.WellFormed) (hv : l.curRegion.Valid) :
    RewoundTo l l.restartRegion l.curRegion.id := by
  refine ⟨?_, ?_⟩
  · intro r hr _
    exact id_le_cur (h.restartRegion hv) hr
  · intro r hr hrv hid
    rw [eq_cur_of_id_eq h hr hrv hid]
    exact ⟨rfl, rfl, fun s hs => ((mem_restartRegion h hv).mp hs).2⟩

theorem resets_rewound {l l' : RankLog} (h : l.WellFormed) {t : Int} (ht : 0 ≤ t)
    (hr : Resets l t l') : RewoundTo l l' t := by
  cases hr with
  | invalid hv =>
    exact ⟨fun r hr hrv => absurd hrv (not_valid_of_not_valid h hv hr),
      fun r hr hrv => absurd hrv (not_valid_of_not_valid h hv hr)⟩
  | forgotten hv hlt hk =>
    refine ⟨fun r hr hrv => absurd hrv (not_valid_of_not_valid (h.eraseRegions _) hk hr), ?_⟩
    intro r hr hrv hid
    rw [keptUpTo_curRegion h hr hrv hid] at hk
    exact absurd hrv hk
  | older hv hlt hk hid =>
    have hrew := restartRegion_rewound (h.eraseRegions _) hk
    rw [show (l.eraseRegions (l.regions.upperBound Region.id t)).curRegion.id = t from hid] at hrew
    refine ⟨hrew.noLater, ?_⟩
    intro r hr hrv hrid
    refine hrew.restarted r ?_ hrv hrid
    rw [← keptUpTo_curRegion h hr hrv hrid]
    exact curRegion_mem
  | current hv hid =>
    have hrew := restartRegion_rewound h hv
    rwa [hid] at hrew
  | next hv hgt =>
    have hwf := h.appendFollowing ht hv (appendRegion_following hgt)
    refine ⟨(restartRegion_rewound hwf (appended_valid ht hv)).noLater, ?_⟩
    intro r hr _ hid
    have hle := id_le_cur h hr
    omega

/-- Region `t` is one that was passed over between two retained regions. -/
def Skips (l : RankLog) (t : Int) : Prop :=
  (∃ r ∈ l.regions.toList, r.Valid ∧ r.id < t) ∧ (∃ r ∈ l.regions.toList, r.Valid ∧ t < r.id) ∧
    ∀ r ∈ l.regions.toList, r.Valid → r.id ≠ t

theorem resets_exists_iff {l : RankLog} (h : l.WellFormed) (t : Int) :
    (∃ l', Resets l t l') ↔ ¬l.Skips t := by
  constructor
  · rintro ⟨l', hr⟩ ⟨⟨a, ha, hav, hat⟩, ⟨b, hb, hbv, hbt⟩, hne⟩
    have hble := id_le_cur h hb
    cases hr with
    | invalid hv => exact not_valid_of_not_valid h hv ha hav
    | forgotten hv hlt hk =>
      have hmem := (mem_take_upperBound h ha).mpr (Int.le_of_lt hat)
      exact not_valid_of_not_valid (h.eraseRegions _) hk (kept_mem hmem) hav
    | older hv hlt hk hid =>
      rcases kept_cur_cases l (l.regions.upperBound Region.id t) with hc | hc
      · rw [keptUpTo, hc] at hk
        exact Region.not_valid_default hk
      · exact hne _ (List.mem_of_mem_take hc) hk hid
    | current hv hid => omega
    | next hv hgt => omega
  · intro hns
    by_cases hv : l.curRegion.Valid
    · rcases Int.lt_trichotomy t l.curRegion.id with hlt | heq | hgt
      · by_cases hk : (l.keptUpTo t).curRegion.Valid
        · by_cases hid : (l.keptUpTo t).curRegion.id = t
          · exact ⟨_, .older hv hlt hk hid⟩
          · rcases kept_cur_cases l (l.regions.upperBound Region.id t) with hc | hc
            · rw [keptUpTo, hc] at hk
              exact absurd hk Region.not_valid_default
            · have hle := Window.key_le_of_mem_take hc
              refine absurd ⟨⟨_, List.mem_of_mem_take hc, hk, ?_⟩, ⟨_, curRegion_mem, hv, hlt⟩, ?_⟩ hns
              · change (l.keptUpTo t).curRegion.id < t
                change (l.keptUpTo t).curRegion.id ≤ t at hle
                omega
              · intro r hr hrv hrid
                exact hid ((congrArg Region.id (keptUpTo_curRegion h hr hrv hrid)).trans hrid)
        · exact ⟨_, .forgotten hv hlt hk⟩
      · exact ⟨_, .current hv heq.symm⟩
      · exact ⟨_, .next hv hgt⟩
    · exact ⟨_, .invalid hv⟩

/-- Resuming at `t` is refused only to a log with a receive in flight or one that passed `t` over. -/
theorem resetConsistency_ok_iff {l : RankLog} (h : l.WellFormed) {t : Int} (ht : 0 ≤ t) :
    (∃ l', l.resetConsistency t = .ok l') ↔ l.activeIrecv = none ∧ ¬l.Skips t := by
  rw [← resets_exists_iff h]
  constructor
  · rintro ⟨l', hr⟩
    exact ⟨(resets_of_ok ht hr).1, l', (resets_of_ok ht hr).2⟩
  · rintro ⟨ha, l', hr⟩
    exact ⟨l', resetConsistency_of_resets ht ha hr⟩

end Fenix.RankLog
