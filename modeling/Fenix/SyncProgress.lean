import Fenix.ResumeReplay
import Fenix.SyncSchedule
import Mathlib.Algebra.Order.BigOperators.Group.Finset

namespace Fenix

namespace CommLog

variable {c c' : CommLog} {t : Int}

theorem resetLocal_ok_iff (h : c.WellFormed) (ht : c.SyncTarget t) :
    (∃ c', c.resetLocal t = .ok c') ↔ t = -1 ∨ c.PeersAccept t := by
  rcases ht with rfl | ⟨r, hmem, hv, rfl⟩
  · exact iff_of_true ⟨c, resetLocal_continue c⟩ (Or.inl rfl)
  · have hge := hv.1
    constructor
    · rintro ⟨c', hr⟩
      obtain ⟨_, ls, hls, _⟩ := resetLocal_cases hr
      exact Or.inr ((peersAccept_iff h hge).mp ⟨ls, hls⟩)
    · rintro (heq | hpeers)
      · omega
      · obtain ⟨ls, hls⟩ := (peersAccept_iff h hge).mpr hpeers
        have hown : ({ c with rankLogs := ls, activeRegion := if 0 ≤ r.id then r.id else c.activeRegion } :
            CommLog).Ordered := h.own.of_same rfl rfl
        obtain ⟨c', hres⟩ := resetsCollectives_exists hown hmem hv
        refine ⟨c', ?_⟩
        unfold resetLocal
        rw [if_neg (by omega), hls]
        exact (resetCollectives_ok_iff hge).mpr hres

theorem mem_initiates_iff {peer : Int} : peer ∈ c.initiates ↔ (c.logs peer).curRegion.Valid := by
  rw [mem_initiates]
  unfold logs
  constructor
  · rintro ⟨l, hl, hv, hp⟩
    rw [IndexedSet.find?_eq_some_iff.mpr ⟨hl, hp⟩]
    exact hv
  · intro hv
    cases hf : c.rankLogs.find? peer with
    | none =>
      rw [hf] at hv
      exact absurd hv Region.not_valid_default
    | some l =>
      rw [hf] at hv
      exact ⟨l, (IndexedSet.find?_some hf).1, hv, (IndexedSet.find?_some hf).2⟩

/-- The regions that a rank offers to a peer are in order. -/
theorem offers_arranged (hc : Reachable c) (hr : c.resetLocal t = .ok c') (peer : Int) :
    (c.offers t peer).WellFormed ∧ RankLog.Arranged (c.offers t peer).regions := by
  have hactive : 0 ≤ c.resumeActive t := resumeActive_nonneg (reachable_wellFormed hc) t
  have hstocked : EndStocked (c'.endpoint peer) :=
    (hc.endStocked peer).step (.moves (.resetLocal (endpoint_resetLocal hr peer)))
  obtain ⟨hwf, hirecv⟩ := hstocked.wellFormed.logs
  have hlogs : (c'.endpoint peer).logs = c.resumeLogs t peer := logs_resetLocal hr peer
  rw [hlogs] at hwf hirecv
  obtain ⟨l, hl⟩ := @RankLog.offerConsistency_ok _ (c.resumeActive t) hirecv
  have hwf : (c.offers t peer).WellFormed := by
    unfold offers
    rw [← RankLog.offered_of_ok hl]
    exact hwf.offerConsistency hactive hl
  exact ⟨hwf, RankLog.arranged_offered hwf hactive⟩

end CommLog

def SyncPhase.remains : SyncPhase → Nat
  | .called _ => 3
  | .progressing => 2
  | .inBarrier => 1
  | .left _ => 0

namespace SyncRank

open CommLog

variable {n : Nat} {cs : Fin n → CommLog × Int} {i j : Fin n} {r r' : SyncRank n} {latest : Window CRegion} {least : Int}

theorem reset_ok_iff {t : Int} : (∃ r', r.reset i t = .ok r') ↔
    r.log.mRank = i ∧ ∃ c, r.log.resetLocal t = .ok c ∧ ∀ peer ∈ c.initiates, peer < n := by
  constructor
  · rintro ⟨r', hr⟩
    obtain ⟨hrank, c, hc, hknown, _⟩ := reset_cases hr
    exact ⟨hrank, c, hc, hknown⟩
  · rintro ⟨hrank, c, hc, hknown⟩
    unfold reset
    rw [if_neg (not_not.mpr hrank), hc]
    refine ⟨_, if_neg ?_⟩
    rintro ⟨peer, hpeer, hge⟩
    have hlt := hknown peer hpeer
    omega

theorem Traffic.reply_ok (h : Traffic cs i r) (j : Fin n) : ∃ r', r.reply j = .ok r' := by
  obtain ⟨hwf, hirecv⟩ := (h.ends j).wellFormed.logs
  obtain ⟨l, hl⟩ := @RankLog.offerConsistency_ok _ r.log.activeRegion hirecv
  refine ⟨_, Except.bind_eq_ok_iff.mpr ⟨(r.log.putLog l, ()), ?_, rfl⟩⟩
  unfold CommLog.offerConsistency onLog
  rw [if_neg (by omega)]
  exact Except.map_eq_ok_iff.mpr ⟨(l, ()), Except.map_eq_ok_iff.mpr ⟨l, hl, rfl⟩, rfl⟩

/-- A task is completed exactly when the regions offered meet and no send that is missing has been dropped. -/
theorem Traffic.form_ok_iff (h : Traffic cs i r) (hj : j ∈ r.tasks) {remote : Window Region}
    (hown : RankLog.Arranged ((cs i).1.offers (cs i).2 j).regions) (hremote : RankLog.Arranged remote) :
    (∃ r', r.form j remote = .ok r') ↔
      RankLog.Meets ((cs i).1.offers (cs i).2 j).regions remote ∧ ((cs i).1.offers (cs i).2 j).Supplied remote := by
  have hlog := (h.awaited j hj).2
  have hwf := (h.ends j).wellFormed.logs.1
  have hstocked := (h.ends j).stocked
  change (r.log.logs j).WellFormed at hwf
  change (r.log.logs j).Stocked at hstocked
  rw [hlog] at hwf hstocked
  rw [← RankLog.formConsistency_ok_iff hwf hstocked hown hremote]
  constructor
  · rintro ⟨r', hr⟩
    obtain ⟨out, l, hl, _⟩ := form_cases hr
    rw [hlog] at hl
    exact ⟨_, hl⟩
  · rintro ⟨⟨l, out⟩, hl⟩
    refine ⟨_, Except.bind_eq_ok_iff.mpr ⟨(r.log.putLog l, out), ?_, rfl⟩⟩
    unfold CommLog.formConsistency onLog
    rw [if_neg (by omega), hlog]
    exact Except.map_eq_ok_iff.mpr ⟨(l, out), hl, rfl⟩

theorem Exchanging.align_ok (h : Exchanging cs i r) (ha : ¬r.aligned.isSome) (hn : 0 ≤ latest.cur.next)
    (hf : Fits latest ((cs i).1.resumeRegion (cs i).2)) : ∃ r', r.align latest = .ok r' := by
  have hres := h.unaligned ha
  rw [← hres.seekRegion] at hf
  obtain ⟨c, hc⟩ := (alignRegion_ok_iff hres.own).mpr hf
  unfold SyncRank.align
  rw [if_neg (Int.not_lt.mpr hn)]
  exact ⟨_, Except.bind_eq_ok_iff.mpr ⟨c, hc, rfl⟩⟩

/-- How much a rank still has to do, the traffic with its peers aside. -/
def remains (r : SyncRank n) : Nat :=
  r.phase.remains + ((if r.contributed.isSome then 0 else 1) + (if r.aligned.isSome then 0 else 1) +
    (if r.agreed then 0 else 1))

/-- How much a rank still has to do about a peer: to send its regions and to await an answer. -/
def owes (r : SyncRank n) (j : Fin n) : Nat := (if (r.sent j).isSome then 0 else 2) + (if j ∈ r.tasks then 1 else 0)

def work (r : SyncRank n) : Nat := r.remains + ∑ j, r.owes j

theorem work_lt_of_remains (h : r'.remains < r.remains) (ho : ∀ j, r'.owes j ≤ r.owes j) : r'.work < r.work :=
  Nat.add_lt_add_of_lt_of_le h (Finset.sum_le_sum fun j _ => ho j)

theorem work_lt_of_owes (h : r'.remains = r.remains) (ho : ∀ k, r'.owes k ≤ r.owes k) (hj : r'.owes j < r.owes j) :
    r'.work < r.work :=
  Nat.add_lt_add_of_le_of_lt (Nat.le_of_eq h) (Finset.sum_lt_sum (fun k _ => ho k) ⟨j, Finset.mem_univ j, hj⟩)

theorem owes_le_one (h : (r.sent j).isSome) : r.owes j ≤ 1 := by
  unfold owes
  rw [if_pos h]
  split
  next => omega
  next => omega

theorem two_le_owes (h : ¬(r.sent j).isSome) : 2 ≤ r.owes j := by
  unfold owes
  rw [if_neg h]
  omega

theorem owes_le (hs : (r.sent j).isSome → (r'.sent j).isSome) (ht : j ∈ r'.tasks → j ∈ r.tasks) :
    r'.owes j ≤ r.owes j := by
  unfold owes
  refine Nat.add_le_add ?_ ?_
  · by_cases h : (r.sent j).isSome
    · rw [if_pos h, if_pos (hs h)]
    · rw [if_neg h]
      split
      next => omega
      next => omega
  · by_cases h : j ∈ r'.tasks
    · rw [if_pos h, if_pos (ht h)]
    · rw [if_neg h]
      exact Nat.zero_le _

theorem work_lt_of_reset {t : Int} (hr : (Sync.call cs i).reset i t = .ok r') : r'.work < (Sync.call cs i).work := by
  obtain ⟨_, c, _, _, rfl⟩ := reset_cases hr
  refine work_lt_of_remains ?_ fun j => ?_
  · unfold remains
    refine Nat.add_lt_add_of_lt_of_le (by decide : 2 < 3) ?_
    refine Nat.add_le_add_right (Nat.add_le_add_right ?_ _) _
    split
    next => exact Nat.zero_le _
    next => exact Nat.le_refl _
  · have hcalled : 2 ≤ (Sync.call cs i).owes j := two_le_owes Bool.false_ne_true
    by_cases hv : (c.logs j).curRegion.Valid
    · refine Nat.le_trans (owes_le_one ?_) (Nat.le_of_succ_le hcalled)
      dsimp only
      rw [if_pos hv]
      rfl
    · refine owes_le (fun hs => by cases hs) fun hj => ?_
      exact absurd (of_decide_eq_true (List.mem_filter.mp hj).2) hv

theorem work_lt_of_reply (hno : ¬(r.sent j).isSome) (hr : r.reply j = .ok r') : r'.work < r.work := by
  obtain ⟨_, _, l, _, _, _, rfl⟩ := reply_cases hr
  have hj : (Function.update r.sent j (some l.regions) j).isSome := by
    rw [Function.update_self]
    rfl
  have hge := two_le_owes hno
  refine work_lt_of_owes (j := j) rfl (fun k => ?_) (Nat.lt_of_le_of_lt (owes_le_one hj) hge)
  by_cases hkj : k = j
  · rw [hkj]
    exact Nat.le_trans (owes_le_one hj) (Nat.le_of_succ_le hge)
  · refine owes_le (fun hs => ?_) fun hk => (List.mem_cons.mp hk).resolve_left hkj
    dsimp only
    rwa [Function.update_of_ne hkj]

theorem work_lt_of_form {remote : Window Region} (hj : j ∈ r.tasks) (hr : r.form j remote = .ok r') :
    r'.work < r.work := by
  obtain ⟨_, l, _, _, _, rfl⟩ := form_cases hr
  refine work_lt_of_owes (j := j) rfl (fun k => owes_le (fun hs => hs) fun hk => (List.mem_filter.mp hk).1) ?_
  have hnot : j ∉ r.tasks.filter fun k => decide (k ≠ j) := by
    intro hmem
    exact of_decide_eq_true (List.mem_filter.mp hmem).2 rfl
  unfold owes
  refine Nat.add_lt_add_left ?_ _
  rw [if_pos hj]
  dsimp only
  rw [if_neg hnot]
  exact Nat.zero_lt_one

end SyncRank

namespace Sync

open CommLog SyncRank

variable {n : Nat} {cs : Fin n → CommLog × Int} {s : Sync n} {i : Fin n} {r : SyncRank n}

theorem Follows.exists_latest (h : Follows cs s) (i : Fin n) (hs : ∀ j, (s j).contributed.isSome) :
    ∃ latest, s.latest = some latest ∧ resumeLatest cs = some latest := by
  obtain ⟨latest, hl⟩ := latestRegions_isSome
    (List.mem_ofFn.mpr ⟨i, rfl⟩ : (cs i).1.resumeRegions (cs i).2 ∈ List.ofFn fun i => (cs i).1.resumeRegions (cs i).2)
  exact ⟨latest, (h.latest_eq hs).trans hl, hl⟩

theorem Follows.exists_earliest (h : Follows cs s) (i : Fin n) (hs : ∀ j, (s j).aligned.isSome) {latest : Window CRegion}
    (hl : resumeLatest cs = some latest) : ∃ least, s.earliest = some least ∧ resumeLeast latest cs = some least := by
  obtain ⟨least, hleast⟩ := Option.isSome_iff_exists.mp (List.isSome_min?_of_mem
    (List.mem_ofFn.mpr ⟨i, rfl⟩ : resumeIdx latest ((cs i).1.resumeRegion (cs i).2) ∈
      List.ofFn fun i => resumeIdx latest ((cs i).1.resumeRegion (cs i).2)))
  exact ⟨least, (h.earliest_eq hs hl).trans hleast, hleast⟩

/-- Each action leaves the rank with less to do. -/
theorem work_lt (h : Follows cs s) {a : SyncAction n} (he : s.Enabled a) (ha : s.acts a = .ok r) :
    r.work < (s a.rank).work := by
  cases a with
  | reset i =>
    obtain ⟨t, hphase⟩ := he
    simp only [Sync.acts, hphase] at ha
    rw [h.called i t hphase] at ha
    change r.work < (s i).work
    rw [h.called i t hphase]
    exact work_lt_of_reset ha
  | reply i j => exact work_lt_of_reply he.2.2 ha
  | form i j =>
    obtain ⟨_, hj, hsent⟩ := he
    obtain ⟨w, hw⟩ := Option.isSome_iff_exists.mp hsent
    simp only [Sync.acts, hw] at ha
    exact work_lt_of_form hj ha
  | join i =>
    obtain ⟨_, hno, _⟩ := he
    change (s i).join = .ok r at ha
    unfold SyncRank.join at ha
    split at ha
    next => cases ha
    next =>
      cases Except.ok.inj ha
      refine work_lt_of_remains (Nat.add_lt_add_left ?_ _) fun _ => Nat.le_refl _
      refine Nat.add_lt_add_right (Nat.add_lt_add_right ?_ _) _
      change 0 < if (s i).contributed.isSome then 0 else 1
      rw [if_neg hno]
      exact Nat.zero_lt_one
  | align i =>
    obtain ⟨_, hall, hno⟩ := he
    obtain ⟨latest, hl, _⟩ := h.exists_latest i hall
    simp only [Sync.acts, hl] at ha
    obtain ⟨_, c, _, rfl⟩ := align_cases ha
    refine work_lt_of_remains (Nat.add_lt_add_left ?_ _) fun _ => Nat.le_refl _
    refine Nat.add_lt_add_right (Nat.add_lt_add_left ?_ _) _
    change 0 < if (s i).aligned.isSome then 0 else 1
    rw [if_neg hno]
    exact Nat.zero_lt_one
  | agree i =>
    obtain ⟨_, hall, hno⟩ := he
    obtain ⟨latest, hl, hlatest⟩ := h.exists_latest i fun j => h.contributed j (hall j) j
    obtain ⟨least, hle, _⟩ := h.exists_earliest i hall hlatest
    simp only [Sync.acts, hl, hle] at ha
    cases Except.ok.inj ha
    refine work_lt_of_remains (Nat.add_lt_add_left ?_ _) fun _ => Nat.le_refl _
    refine Nat.add_lt_add_left ?_ _
    change 0 < if (s i).agreed then 0 else 1
    rw [if_neg hno]
    exact Nat.zero_lt_one
  | enter i =>
    obtain ⟨hp, _⟩ := he
    cases Except.ok.inj ha
    refine work_lt_of_remains (Nat.add_lt_add_right ?_ _) fun _ => Nat.le_refl _
    change 1 < (s i).phase.remains
    rw [hp]
    exact Nat.one_lt_two
  | leave i =>
    obtain ⟨hp, _⟩ := he
    obtain ⟨_, xs, _, rfl⟩ := leave_cases ha
    refine work_lt_of_remains (Nat.add_lt_add_right ?_ _) fun _ => Nat.le_refl _
    change 0 < (s i).phase.remains
    rw [hp]
    exact Nat.zero_lt_one

def work (s : Sync n) : Nat := ∑ i, (s i).work

theorem work_update_lt (h : r.work < (s i).work) : work (Function.update s i r) < work s := by
  refine Finset.sum_lt_sum (fun j _ => ?_) ⟨i, Finset.mem_univ i, ?_⟩
  · by_cases hj : j = i
    · subst hj
      rw [Function.update_self]
      exact Nat.le_of_lt h
    · rw [Function.update_of_ne hj]
  · rw [Function.update_self]
    exact h

theorem phase_cases (h : (s i).Started) : (s i).phase = .progressing ∨ (s i).phase = .inBarrier ∨
    ∃ xs, (s i).phase = .left xs := by
  cases hp : (s i).phase with
  | called t => exact absurd hp (h t)
  | progressing => exact Or.inl rfl
  | inBarrier => exact Or.inr (Or.inl rfl)
  | left xs => exact Or.inr (Or.inr ⟨xs, rfl⟩)

/-- A task that is left can be answered by this rank or, if the peer has not noticed it yet, by the peer. -/
theorem Follows.task_enabled (h : Follows cs s) (hs : ∀ i, (s i).Started) (hp : (s i).Progresses) {j : Fin n}
    (hj : j ∈ (s i).tasks) : ∃ a, s.Enabled a := by
  by_cases hsent : ((s j).sent i).isSome
  · exact ⟨.form i j, hp, hj, hsent⟩
  · refine ⟨.reply j i, ?_, ((h.traffic i (hs i)).awaited j hj).1, hsent⟩
    obtain hj' | hj' | ⟨xs, hj'⟩ := phase_cases (hs j)
    · exact Or.inl hj'
    · exact Or.inr hj'
    · exact absurd ((h.entered i ((h.left j xs hj').1 i)).2 j hj) hsent

/-- A rank that is not yet through with the exchange can go on with it, or another one can. -/
theorem Follows.collecting_enabled (h : Follows cs s) (hs : ∀ i, (s i).Started)
    (huse : ∀ i j, (cs i).1.InUse (cs i).2 → (cs j).1.InUse (cs j).2) (hp : (s i).Progresses)
    (hc : (s i).Collecting) : ∃ a, s.Enabled a := by
  obtain ⟨k, hk⟩ := (h.collective i (hs i)).joined hc.1
  have hall : ∀ j, (s j).contributed.isSome := fun j => (h.collective j (hs j)).starts (huse k j hk)
  by_cases haligned : ∀ j, (s j).aligned.isSome
  · exact ⟨.agree i, hp, haligned, hc.2⟩
  · obtain ⟨j, hj⟩ := not_forall.mp haligned
    refine ⟨.align j, ?_, hall, hj⟩
    obtain hp' | hp' | ⟨xs, hp'⟩ := phase_cases (hs j)
    · exact Or.inl hp'
    · exact Or.inr hp'
    · refine absurd (h.aligned j ?_ j) hj
      by_contra hno
      exact (h.entered j (Or.inr ⟨xs, hp'⟩)).1 ⟨hall j, hno⟩

/-- As long as not all ranks are through, one of them can go on. -/
theorem Follows.exists_enabled (h : Follows cs s) (huse : ∀ i j, (cs i).1.InUse (cs i).2 → (cs j).1.InUse (cs j).2)
    (hd : ¬s.Done) : ∃ a, s.Enabled a := by
  by_cases hs : ∀ i, (s i).Started
  · by_cases htask : ∃ i, (s i).Progresses ∧ ∃ j, j ∈ (s i).tasks
    · obtain ⟨i, hp, j, hj⟩ := htask
      exact h.task_enabled hs hp hj
    · by_cases hcoll : ∃ i, (s i).Progresses ∧ (s i).Collecting
      · obtain ⟨i, hp, hc⟩ := hcoll
        exact h.collecting_enabled hs huse hp hc
      · have htasks : ∀ i, (s i).Progresses → (s i).tasks = [] := by
          intro i hp
          exact List.eq_nil_iff_forall_not_mem.mpr fun j hj => htask ⟨i, hp, j, hj⟩
        by_cases henter : ∃ i, (s i).phase = .progressing
        · obtain ⟨i, hp⟩ := henter
          exact ⟨.enter i, hp, htasks i (Or.inl hp), fun hc => hcoll ⟨i, Or.inl hp, hc⟩⟩
        · have hentered : ∀ i, (s i).Entered := fun i => (phase_cases (hs i)).resolve_left fun hp => henter ⟨i, hp⟩
          obtain ⟨i, hi⟩ := not_forall.mp hd
          have hp := (hentered i).resolve_right hi
          refine ⟨.leave i, hp, hentered, fun j hj => ?_⟩
          rw [htasks i (Or.inr hp)] at hj
          cases hj
  · obtain ⟨i, hi⟩ := not_forall.mp hs
    obtain ⟨t, ht⟩ := not_forall.mp hi
    exact ⟨.reset i, t, not_not.mp ht⟩

end Sync

end Fenix
