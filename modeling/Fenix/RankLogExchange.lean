import Fenix.RankLogReplay

namespace Fenix

namespace Region

variable {w : Window Region} {r : Region}

theorem eq_cur_of_nonneg (h : w.toList.Pairwise Precedes) (hr : r ∈ w.toList) (h0 : 0 ≤ r.id) (hid : r.id = w.cur.id) :
    r = w.cur := by
  rcases Window.mem_toList.mp hr with hr | rfl
  · rcases Window.older_rel_cur h hr with hp | hp
    · omega
    · omega
  · rfl

theorem id_le_cur (h : w.toList.Pairwise Precedes) (hr : r ∈ w.toList) (h0 : 0 ≤ w.cur.id) : r.id ≤ w.cur.id := by
  rcases Window.mem_toList.mp hr with hr | rfl
  · rcases Window.older_rel_cur h hr with hp | hp
    · omega
    · omega
  · exact Int.le_refl _

theorem lowerBound_cur (h : w.toList.Pairwise Precedes) (h0 : 0 ≤ w.cur.id) :
    w.lowerBound Region.id w.cur.id = some w.cur := by
  cases hl : w.lowerBound Region.id w.cur.id with
  | none =>
    have hnone := List.find?_eq_none.mp hl w.cur w.cur_mem
    simp at hnone
  | some r =>
    obtain ⟨hr, hle⟩ := Window.lowerBound_mem hl
    exact congrArg some (eq_cur_of_nonneg h hr (h0.trans hle) (Int.le_antisymm (id_le_cur h hr h0) hle))

end Region

namespace RankLog

section Swap

variable {a b w v x y : Window Region} {r s : Region}

theorem StartsMatch.symm (h : StartsMatch r s) : StartsMatch s r := ⟨h.2.symm, h.1.symm⟩

theorem startsMatch_of_fresh (hr : r.Fresh) (hs : s.Fresh) : StartsMatch r s :=
  ⟨hr.2.1.1.symm.trans hs.2.2.1, hr.2.2.1.symm.trans hs.2.1.1⟩

/-- Two ranks in one region compare this region. -/
theorem checkOrdered_same (ha : a.toList.Pairwise Region.Precedes) (h0 : 0 ≤ a.cur.id) (hid : a.cur.id = b.cur.id) :
    checkOrdered a b =
      if StartsMatch a.cur b.cur then .ok (a, b)
      else if b.cur.Fresh then .ok (a, b.setCur (mirrored b.cur.id a.cur))
      else if a.cur.Fresh then .ok (a.setCur (mirrored a.cur.id b.cur), b)
      else .error .conflictingRegions := by
  have hfound := Region.lowerBound_cur ha h0
  rw [hid] at hfound
  unfold checkOrdered
  rw [hfound]
  simp only [hid, ne_eq, not_true_eq_false, if_false, and_true]

theorem checkOrdered_swap (ha : a.toList.Pairwise Region.Precedes) (hb : b.toList.Pairwise Region.Precedes)
    (h0 : 0 ≤ a.cur.id) (hid : a.cur.id = b.cur.id) : checkOrdered b a = (checkOrdered a b).map Prod.swap := by
  rw [checkOrdered_same ha h0 hid, checkOrdered_same hb (hid ▸ h0) hid.symm]
  by_cases hm : StartsMatch a.cur b.cur
  · rw [if_pos hm, if_pos hm.symm]
    rfl
  · rw [if_neg hm, if_neg fun h => hm h.symm]
    by_cases hfb : b.cur.Fresh
    · rw [if_neg fun hfa => hm (startsMatch_of_fresh hfa hfb), if_pos hfb, if_pos hfb]
      rfl
    · rw [if_neg hfb, if_neg hfb]
      by_cases hfa : a.cur.Fresh
      · rw [if_pos hfa, if_pos hfa]
        rfl
      · rw [if_neg hfa, if_neg hfa]
        rfl

theorem map_swap_swap {ε α β : Type} (z : Except ε (α × β)) : (z.map Prod.swap).map Prod.swap = z := by
  cases z with
  | error _ => rfl
  | ok _ => rfl

/-- Both ranks come to the same result. -/
theorem checkConsistent_swap (hw : w.toList.Pairwise Region.Precedes) (hv : v.toList.Pairwise Region.Precedes)
    (h0 : 0 ≤ w.cur.id) : checkConsistent v w = (checkConsistent w v).map Prod.swap := by
  unfold checkConsistent
  rcases Int.lt_trichotomy w.cur.id v.cur.id with hlt | heq | hgt
  · rw [if_pos hlt, if_neg (by omega), map_swap_swap]
  · rw [if_neg (by omega), if_neg (by omega)]
    exact checkOrdered_swap hw hv h0 heq
  · rw [if_pos hgt, if_neg (by omega)]

/-- Which rank it is only matters to the error. -/
theorem recoverOrdered_ok {c : Int} (h : recoverOrdered c a b = .ok (x, y)) (c' : Int) :
    recoverOrdered c' a b = .ok (x, y) := by
  unfold recoverOrdered at h ⊢
  dsimp only at h ⊢
  split at h
  next => cases h
  next h0 =>
    rw [if_neg h0]
    split at h
    next => cases h
    next ra hra =>
      split at h
      next hne =>
        rw [if_pos hne]
        split at h
        next hf =>
          rw [if_pos hf]
          exact h
        next => cases h
      next heq =>
        rw [if_neg heq]
        exact h

theorem reconcile_swap (hw : w.toList.Pairwise Region.Precedes) (hv : v.toList.Pairwise Region.Precedes)
    (h : reconcile w v = .ok (x, y)) : reconcile v w = .ok (y, x) := by
  unfold reconcile at h ⊢
  split at h
  next hvalid =>
    rw [if_pos hvalid.symm, checkConsistent_swap hw hv hvalid.2.1, h]
    rfl
  next hvalid =>
    rw [if_neg fun hn => hvalid hn.symm]
    unfold recoverInvalid at h ⊢
    split at h
    next hwv =>
      split at h
      next hvv =>
        obtain ⟨⟨c, d⟩, hrec, hswap⟩ := Except.map_eq_ok_iff.mp h
        obtain ⟨rfl, rfl⟩ := Prod.mk.inj hswap
        rw [if_neg (not_not.mpr hvv)]
        exact recoverOrdered_ok hrec _
      next => cases h
    next hwv =>
      have hwv := not_not.mp hwv
      rw [if_pos fun hvv => hvalid ⟨hvv, hwv⟩, if_pos hwv, recoverOrdered_ok h]
      rfl

end Swap

section Agreement

variable {a b w v x y : Window Region}

/-- Both windows hold the earlier of their two current regions, and its first messages are the same. -/
def Agree (w v : Window Region) : Prop :=
  ∃ r ∈ w.toList, ∃ s ∈ v.toList, r.id = min w.cur.id v.cur.id ∧ s.id = r.id ∧ StartsMatch r s

theorem Agree.symm (h : Agree w v) : Agree v w := by
  obtain ⟨r, hr, s, hs, hmin, hid, hm⟩ := h
  exact ⟨s, hs, r, hr, hid.trans (hmin.trans (min_comm _ _)), hid.symm, hm.symm⟩

/-- The window that is behind agrees in its current region. -/
theorem agree_cur {r : Region} (hr : r ∈ w.toList) (hid : v.cur.id = r.id) (hle : v.cur.id ≤ w.cur.id)
    (hm : StartsMatch r v.cur) : Agree w v :=
  ⟨r, hr, v.cur, v.cur_mem, by omega, hid, hm⟩

theorem checkOrdered_agree (hle : b.cur.id ≤ a.cur.id) (h : checkOrdered a b = .ok (x, y)) : Agree x y := by
  obtain ⟨ra, hra, hid, ⟨rfl, rfl, hm⟩ | ⟨rfl, rfl, _⟩ | ⟨rfl, rfl, _, hcur⟩⟩ := checkOrdered_cases h
  · exact agree_cur hra hid.symm hle hm
  · exact agree_cur hra hid.symm hle ⟨rfl, rfl⟩
  · exact agree_cur (Window.cur_mem _) hid.symm (Int.le_of_eq hid.symm) ⟨rfl, rfl⟩

theorem recoverOrdered_agree {c : Int} (ha : a.toList.Pairwise Region.Precedes) (hv : a.cur.Valid)
    (h : recoverOrdered c a b = .ok (x, y)) : Agree x y := by
  obtain ⟨rfl, ra, hra, _, hcases⟩ := recoverOrdered_cases h
  have hle := Region.id_le_cur ha hra hv.1
  obtain ⟨hid, rfl⟩ | ⟨_, hf, rfl⟩ := hcases
  · exact agree_cur hra hid.symm (hid ▸ hle) ⟨rfl, rfl⟩
  · exact agree_cur hra rfl hle ⟨hf.2.1.1.symm, hf.2.2.1.symm⟩

theorem reconcile_agree (hw : w.toList.Pairwise Region.Precedes) (hv : v.toList.Pairwise Region.Precedes)
    (h : reconcile w v = .ok (x, y)) : Agree x y := by
  unfold reconcile at h
  split at h
  next hvalid =>
    unfold checkConsistent at h
    split at h
    next hlt =>
      obtain ⟨⟨c, d⟩, hc, hswap⟩ := Except.map_eq_ok_iff.mp h
      obtain ⟨rfl, rfl⟩ := Prod.mk.inj hswap
      exact (checkOrdered_agree (Int.le_of_lt hlt) hc).symm
    next hge => exact checkOrdered_agree (Int.not_lt.mp hge) h
  next =>
    unfold recoverInvalid at h
    split at h
    next =>
      split at h
      next hvv =>
        obtain ⟨⟨c, d⟩, hc, hswap⟩ := Except.map_eq_ok_iff.mp h
        obtain ⟨rfl, rfl⟩ := Prod.mk.inj hswap
        exact (recoverOrdered_agree hv hvv hc).symm
      next => cases h
    next hwv => exact recoverOrdered_agree hw (not_not.mp hwv) h

end Agreement

end RankLog

end Fenix
