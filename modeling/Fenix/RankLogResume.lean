import Fenix.CommLogEndpoint
import Fenix.RankLogMeets

namespace Fenix.RankLog

/-- What is left of a log that resumes in region `t`, or where it stands if `t` is negative. -/
def resumed (l : RankLog) (t : Int) : RankLog :=
  if ¬l.curRegion.Valid ∨ t < 0 then l
  else if t < l.curRegion.id then
    if (l.keptUpTo t).curRegion.Valid then (l.keptUpTo t).restartRegion else l.keptUpTo t
  else if l.curRegion.id < t then (l.appended t).restartRegion
  else l.restartRegion

/-- The log as it stands when its regions are sent to the peer, `active` being the active region. -/
def offered (l : RankLog) (active : Int) : RankLog := if l.curRegion.Valid then l else l.setCur { id := active }

variable {l l' : RankLog} {t active : Int}

theorem resumed_of_ok (h : l.resetConsistency t = .ok l') : l' = l.resumed t := by
  unfold resumed
  by_cases ht : 0 ≤ t
  · cases (resets_of_ok ht h).2 with
    | invalid hv => rw [if_pos (Or.inl hv)]
    | forgotten hv hlt hk => rw [if_neg (by simp [hv, ht]), if_pos hlt, if_neg hk]
    | older hv hlt hk => rw [if_neg (by simp [hv, ht]), if_pos hlt, if_pos hk]
    | current hv hid => rw [if_neg (by simp [hv, ht]), if_neg (by omega), if_neg (by omega)]
    | next hv hgt => rw [if_neg (by simp [hv, ht]), if_neg (by omega), if_pos hgt]
  · rw [if_pos (Or.inr (by omega))]
    by_cases hc : t = -1
    · subst hc
      exact (Except.ok.inj ((resetConsistency_continue l).symm.trans h)).symm
    · unfold resetConsistency at h
      rw [if_pos (by omega)] at h
      cases h

theorem offered_of_ok (h : l.offerConsistency active = .ok l') : l' = l.offered active := by
  unfold offered
  obtain ⟨hv, rfl⟩ | ⟨hv, _, rfl⟩ := offerConsistency_cases h
  · rw [if_pos hv]
  · rw [if_neg hv]

theorem offered_of_valid (h : l.curRegion.Valid) : l.offered active = l := if_pos h

theorem arranged_offered (h : (l.offered active).WellFormed) (ha : 0 ≤ active) : Arranged (l.offered active).regions := by
  refine ⟨h.shaped, h.ordered, ?_⟩
  unfold offered
  split
  next hv => exact hv.1
  next => exact ha

end Fenix.RankLog
