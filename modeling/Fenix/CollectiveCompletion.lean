import Fenix.CollectiveUniform
import Fenix.SyncProgress

namespace Fenix

namespace CommLog

/-- Ranks can resume together: each is at its place and its peers accept the reset, the traffic of each pair that is
in use can be made consistent, and each resumes in a valid region. Either all of these are in use, or none is.
In the first case each fits into the latest one and there is no gap in what it has to replay. -/
structure Completable {n : Nat} (cs : Fin n → CommLog × Int) : Prop where
  placed : ∀ i, (cs i).1.mRank = i
  peers : ∀ i, (cs i).2 = -1 ∨ (cs i).1.PeersAccept (cs i).2
  known : ∀ i peer, (cs i).1.Asks (cs i).2 peer → peer < n
  meet : ∀ i j : Fin n, (cs i).1.Asks (cs i).2 j ∨ (cs j).1.Asks (cs j).2 i →
    RankLog.Meets ((cs i).1.offers (cs i).2 j).regions ((cs j).1.offers (cs j).2 i).regions ∧
      ((cs i).1.offers (cs i).2 j).Supplied ((cs j).1.offers (cs j).2 i).regions
  begun : ∀ i, ((cs i).1.resumeRegions (cs i).2).cur.Valid
  uniform : ∀ i j, (cs i).1.InUse (cs i).2 → (cs j).1.InUse (cs j).2
  fits : ∀ i, (cs i).1.InUse (cs i).2 → ∀ latest ∈ resumeLatest cs, Fits latest ((cs i).1.resumeRegion (cs i).2)
  gapless : ∀ i, (cs i).1.InUse (cs i).2 → ∀ latest ∈ resumeLatest cs, ∀ least ∈ resumeLeast latest cs,
    Gapless latest least (cs i).1 (cs i).2

end CommLog

namespace Sync

open CommLog SyncRank

variable {n : Nat} {cs : Fin n → CommLog × Int} {s : Sync n} {i j : Fin n} {r : SyncRank n}

theorem reset_ok_iff (hr : Reachable (cs i).1) (ht : (cs i).1.SyncTarget (cs i).2) :
    (∃ r, (call cs i).reset i (cs i).2 = .ok r) ↔ (cs i).1.mRank = i ∧
      ((cs i).2 = -1 ∨ (cs i).1.PeersAccept (cs i).2) ∧ ∀ peer, (cs i).1.Asks (cs i).2 peer → peer < n := by
  rw [SyncRank.reset_ok_iff, ← resetLocal_ok_iff (reachable_wellFormed hr) ht]
  refine and_congr_right fun _ => ?_
  constructor
  · rintro ⟨c, hc, hknown⟩
    refine ⟨⟨c, hc⟩, fun peer ha => hknown peer (mem_initiates_iff.mpr ?_)⟩
    rw [logs_resetLocal hc peer]
    exact ha
  · rintro ⟨⟨c, hc⟩, hknown⟩
    refine ⟨c, hc, fun peer hp => hknown peer ?_⟩
    have hv := mem_initiates_iff.mp hp
    rw [logs_resetLocal hc peer] at hv
    exact hv

/-- Of ranks of which some but not all are in use, one that is not precedes one that is. -/
theorem exists_edge (P : Fin n → Prop) {a b : Fin n} (ha : ¬P a) (hb : P b) : ∃ i, ¬P i ∧ P (right i) := by
  by_contra hno
  have hright : ∀ k : Nat, ∀ i : Fin n, i.val = (a + k) % n → ¬P i := by
    intro k
    induction k with
    | zero =>
      intro i hi
      rw [Nat.add_zero, Nat.mod_eq_of_lt a.isLt] at hi
      rwa [Fin.ext hi]
    | succ k ih =>
      intro i hi hp
      have hlt : (a + k) % n < n := Nat.mod_lt _ a.pos
      refine hno ⟨⟨(a + k) % n, hlt⟩, ih _ rfl, ?_⟩
      have heq : right ⟨(a + k) % n, hlt⟩ = i := by
        refine Fin.ext ?_
        rw [hi]
        change ((a + k) % n + 1) % n = _
        rw [Nat.mod_add_mod, Nat.add_assoc]
      rwa [heq]
  refine hright (b + n - a) b ?_ hb
  have hlt := a.isLt
  have heq : a.val + (b.val + n - a.val) = b.val + n := by omega
  rw [heq, Nat.add_mod_right, Nat.mod_eq_of_lt b.isLt]

section Enough

/-- A rank that is through with the barrier can replay. -/
theorem Follows.replays (h : Follows cs s) (hc : Completable cs) (hs : (s i).Started) (he : (s i).Entered) :
    ∃ xs, (s i).log.replayCollectives ((s i).log.completedCollectiveAll + 1) = .ok xs := by
  have hcoll := h.collective i hs
  by_cases hi : (s i).contributed.isSome
  · have hagreed : (s i).agreed := by
      by_contra hno
      exact (h.entered i he).1 ⟨hi, hno⟩
    obtain ⟨j, hj⟩ := hcoll.joined hi
    have huse := hc.uniform j i hj
    have haligned := h.aligned i hagreed
    obtain ⟨k, hk⟩ := Option.isSome_iff_exists.mp (haligned i)
    obtain ⟨_, latest, hl, ⟨c, hres, hfit⟩, hv, _⟩ := hcoll.aligned k hk
    obtain ⟨least, _, hleast⟩ := h.exists_earliest i haligned hl
    rw [hcoll.agreed hagreed latest hl least hleast]
    exact (replays_iff_gapless hres hfit hv).mpr (hc.gapless i huse latest hl least hleast)
  · have hres := hcoll.unaligned fun ha => hi (h.contributed i ha i)
    refine (replays_iff_valid hres (fun hu => hi (hcoll.starts ?_)) _).mpr (hc.begun i)
    unfold StartsCollective region at hu
    rw [hres.regions] at hu
    exact hu

variable (hc : Completable cs) (hr : ∀ i, Reachable (cs i).1) (ht : ∀ i, (cs i).1.SyncTarget (cs i).2)
include hc hr ht

theorem offers_arranged (i j : Fin n) : RankLog.Arranged ((cs i).1.offers (cs i).2 j).regions := by
  obtain ⟨c, hreset⟩ := (resetLocal_ok_iff (reachable_wellFormed (hr i)) (ht i)).mpr (hc.peers i)
  exact (CommLog.offers_arranged (hr i) hreset j).2

/-- No action that is possible fails. -/
theorem Follows.acts_ok (h : Follows cs s) {a : SyncAction n} (he : s.Enabled a) : ∃ r, s.acts a = .ok r := by
  cases a with
  | reset i =>
    obtain ⟨t, hphase⟩ := he
    have hcall := h.called i t hphase
    have htarget : (cs i).2 = t := by
      rw [hcall] at hphase
      exact SyncPhase.called.inj hphase
    simp only [Sync.acts, hphase]
    rw [hcall, ← htarget]
    exact (reset_ok_iff (hr i) (ht i)).mpr ⟨hc.placed i, hc.peers i, hc.known i⟩
  | reply i j => exact (h.traffic i (started_of_progresses he.1)).reply_ok j
  | form i j =>
    obtain ⟨hp, hj, hsent⟩ := he
    obtain ⟨w, hw⟩ := Option.isSome_iff_exists.mp hsent
    have htraffic := h.traffic i (started_of_progresses hp)
    have hremote := (h.traffic j (h.started_of_sent hsent)).sent i w hw
    simp only [Sync.acts, hw]
    rw [hremote, htraffic.form_ok_iff hj (offers_arranged hc hr ht i j) (offers_arranged hc hr ht j i)]
    exact hc.meet i j (htraffic.requested j (htraffic.awaited j hj).1)
  | join i =>
    obtain ⟨hp, hno, hright⟩ := he
    obtain ⟨k, hk⟩ := (h.collective (right i) (h.started hright)).joined hright
    exact absurd ((h.collective i (started_of_progresses hp)).starts (hc.uniform k i hk)) hno
  | align i =>
    obtain ⟨hp, hall, hno⟩ := he
    have hcoll := h.collective i (started_of_progresses hp)
    obtain ⟨k, hk⟩ := hcoll.joined (hall i)
    obtain ⟨latest, hl, hlatest⟩ := h.exists_latest i hall
    have huse := hc.uniform k i hk
    simp only [Sync.acts, hl]
    refine hcoll.align_ok hno ?_ (hc.fits i huse latest hlatest)
    exact Int.le_trans huse.1.2.2 (latestRegions_next hlatest (List.mem_ofFn.mpr ⟨i, rfl⟩))
  | agree i =>
    simp only [Sync.acts]
    split
    next => exact ⟨_, rfl⟩
    next => exact ⟨_, rfl⟩
  | enter i => exact ⟨_, rfl⟩
  | leave i =>
    obtain ⟨hp, _, htasks⟩ := he
    have hentered : (s i).Entered := Or.inl hp
    obtain ⟨hcollecting, hall⟩ := h.entered i hentered
    obtain ⟨xs, hxs⟩ := h.replays hc (started_of_entered hentered) hentered
    have hempty : (s i).tasks = [] := List.eq_nil_iff_forall_not_mem.mpr fun j hj => htasks j hj (hall j hj)
    refine ⟨_, (if_neg ?_).trans (Except.bind_eq_ok_iff.mpr ⟨xs, hxs, rfl⟩)⟩
    exact not_or.mpr ⟨not_not.mpr hempty, hcollecting⟩

theorem completes_of_completable : (consistencySync n).Completes Done (call cs) := by
  refine Schedule.completes_of_progress (I := Follows cs) work (fun s a h he => ?_)
    (fun s h hd => h.exists_enabled hc.uniform hd) (follows_call cs)
  obtain ⟨r, hr'⟩ := h.acts_ok hc hr ht he
  exact ⟨_, Except.map_eq_ok_iff.mpr ⟨r, hr', rfl⟩, follows_act hr ht h he hr', work_update_lt (work_lt h he hr')⟩

end Enough

section Needed

/-- All ranks wait for their tasks, and none has noticed the request of another for the collective exchange. -/
structure AtStart (cs : Fin n → CommLog × Int) (s : Sync n) : Prop where
  completes : (consistencySync n).Completes Done s
  follows : Follows cs s
  progressing : ∀ i, (s i).phase = .progressing
  contributed : ∀ i, (s i).contributed.isSome → (cs i).1.InUse (cs i).2

theorem Completes.acts {a : SyncAction n} (hc : (consistencySync n).Completes Done s) (he : s.Enabled a) :
    ∃ r, s.acts a = .ok r ∧ (consistencySync n).Completes Done (Function.update s a.rank r) := by
  obtain ⟨t, ht, hct⟩ := hc.act he
  obtain ⟨r, hr, rfl⟩ := Except.map_eq_ok_iff.mp ht
  exact ⟨r, hr, hct⟩

theorem AtStart.update (h : AtStart cs s) (hf : Follows cs (Function.update s i r))
    (hc : (consistencySync n).Completes Done (Function.update s i r)) (hphase : r.phase = (s i).phase)
    (hcontributed : r.contributed = (s i).contributed) : AtStart cs (Function.update s i r) := by
  refine ⟨hc, hf, fun j => ?_, fun j => ?_⟩
  · by_cases hj : j = i
    · subst hj
      rw [Function.update_self, hphase]
      exact h.progressing j
    · rw [Function.update_of_ne hj]
      exact h.progressing j
  · by_cases hj : j = i
    · subst hj
      rw [Function.update_self, hcontributed]
      exact h.contributed j
    · rw [Function.update_of_ne hj]
      exact h.contributed j

variable (hr : ∀ i, Reachable (cs i).1) (ht : ∀ i, (cs i).1.SyncTarget (cs i).2)
include hr ht

theorem inUse_of_reset (h : (call cs i).reset i (cs i).2 = .ok r) (hc : r.contributed.isSome) :
    (cs i).1.InUse (cs i).2 := by
  obtain ⟨_, c, hreset, _, rfl⟩ := reset_cases h
  dsimp only at hc
  split at hc
  next hstart =>
    unfold StartsCollective region at hstart
    rwa [(resumesAt_of_resetLocal (reachable_wellFormed (hr i)) (ht i) hreset).regions] at hstart
  next => cases hc

omit hr ht in
/-- Those of the ranks listed that have not reset their logs do so. -/
theorem run_resets {f : Sync n} (hf : ∀ i, (call cs i).reset i (cs i).2 = .ok (f i)) (is : List (Fin n))
    (hs : ∀ i, s i = call cs i ∨ s i = f i) : ∃ u, (consistencySync n).run s (is.map .reset) = .ok u ∧
      (∀ i, u i = s i ∨ u i = f i) ∧ ∀ i ∈ is, u i = f i := by
  induction is generalizing s with
  | nil => exact ⟨s, rfl, fun _ => Or.inl rfl, fun _ hi => by cases hi⟩
  | cons i is ih =>
    have hstep : ∃ m, (consistencySync n).step s (.reset i) = .ok m ∧ m i = f i ∧ ∀ j, m j = s j ∨ m j = f j := by
      rcases hs i with hi | hi
      · refine ⟨Function.update s i (f i), ?_, Function.update_self i (f i) s, fun j => ?_⟩
        · refine (Schedule.step_enabled (show s.Enabled (.reset i) from ⟨(cs i).2, congrArg SyncRank.phase hi⟩)).trans ?_
          refine Except.map_eq_ok_iff.mpr ⟨f i, ?_, rfl⟩
          have hphase : (s i).phase = .called (cs i).2 := congrArg SyncRank.phase hi
          simp only [Sync.acts, hphase]
          rw [hi]
          exact hf i
        · by_cases hj : j = i
          · subst hj
            exact Or.inr (Function.update_self j (f j) s)
          · exact Or.inl (Function.update_of_ne hj _ _)
      · refine ⟨s, if_neg ?_, hi, fun _ => Or.inl rfl⟩
        rintro ⟨t, hphase⟩
        obtain ⟨_, c, _, _, hfi⟩ := reset_cases (hf i)
        rw [hi, hfi] at hphase
        cases hphase
    obtain ⟨m, hm, hmi, hkept⟩ := hstep
    have hms : ∀ j, m j = call cs j ∨ m j = f j := by
      intro j
      rcases hkept j with hj | hj
      · rw [hj]
        exact hs j
      · exact Or.inr hj
    obtain ⟨u, hu, hukept, hall⟩ := ih hms
    refine ⟨u, Schedule.run_cons_ok_iff.mpr ⟨m, hm, hu⟩, fun j => ?_, fun j hj => ?_⟩
    · rcases hukept j with hj | hj
      · rw [hj]
        exact hkept j
      · exact Or.inr hj
    · rcases List.mem_cons.mp hj with rfl | hj
      · exact (hukept j).elim (fun h => h.trans hmi) fun h => h
      · exact hall j hj

/-- From a call that completes all ranks reset their logs. -/
theorem exists_atStart (hc : (consistencySync n).Completes Done (call cs)) :
    ∃ s, AtStart cs s ∧ ∀ i, (call cs i).reset i (cs i).2 = .ok (s i) := by
  have hreset : ∀ i, ∃ r, (call cs i).reset i (cs i).2 = .ok r := by
    intro i
    obtain ⟨r, hact, _⟩ := Completes.acts (a := .reset i) hc ⟨(cs i).2, rfl⟩
    exact ⟨r, hact⟩
  choose f hf using hreset
  obtain ⟨s, hs, _, hall⟩ := run_resets hf (List.finRange n) fun i => Or.inl rfl
  obtain rfl : s = f := funext fun i => hall i (List.mem_finRange i)
  refine ⟨s, ⟨hc.run hs, follows_run hr ht hs, fun i => ?_, fun i hi => inUse_of_reset hr ht (hf i) hi⟩, hf⟩
  obtain ⟨_, c, _, _, hi⟩ := reset_cases (hf i)
  rw [hi]

/-- The peer has noticed that this rank asks it for consistency. -/
theorem AtStart.noticed (h : AtStart cs s) (hsent : ((s i).sent j).isSome) :
    ∃ u, AtStart cs u ∧ ((u j).sent i).isSome ∧ (i ∈ (u j).tasks ∨ u j = s j) ∧ ∀ k, k ≠ j ∨ ((s j).sent i).isSome → u k = s k := by
  by_cases hback : ((s j).sent i).isSome
  · exact ⟨s, h, hback, Or.inr rfl, fun _ _ => rfl⟩
  · have he : s.Enabled (.reply j i) := ⟨Or.inl (h.progressing j), hsent, hback⟩
    obtain ⟨r, hact, hc⟩ := Completes.acts h.completes he
    have hf := follows_act hr ht h.follows he hact
    obtain ⟨_, _, l, _, _, _, rfl⟩ := reply_cases hact
    refine ⟨_, h.update hf hc rfl rfl, ?_, Or.inl ?_, fun k hk => Function.update_of_ne (hk.resolve_right hback) _ _⟩
    · change ((Function.update s j _ j).sent i).isSome
      rw [Function.update_self]
      dsimp only
      rw [Function.update_self]
      rfl
    · change i ∈ (Function.update s j _ j).tasks
      rw [Function.update_self]
      exact List.mem_cons_self

/-- A task of a rank can be completed. -/
theorem AtStart.form (h : AtStart cs s) (hj : j ∈ (s i).tasks) : ∃ u, AtStart cs u ∧
    (u i).tasks = (s i).tasks.filter fun k => decide (k ≠ j) := by
  have hawaited := ((h.follows.traffic i (started_of_progresses (Or.inl (h.progressing i)))).awaited j hj).1
  obtain ⟨u, hu, hsent, _, hkept⟩ := h.noticed hr ht hawaited
  have hi : u i = s i := by
    by_cases hij : i = j
    · subst hij
      exact hkept i (Or.inr hawaited)
    · exact hkept i (Or.inl hij)
  have he : u.Enabled (.form i j) := ⟨Or.inl (hu.progressing i), by rwa [hi], hsent⟩
  obtain ⟨r, hact, hc⟩ := Completes.acts hu.completes he
  have hf := follows_act hr ht hu.follows he hact
  obtain ⟨w, hw⟩ := Option.isSome_iff_exists.mp hsent
  simp only [Sync.acts, hw] at hact
  obtain ⟨_, l, _, _, _, rfl⟩ := form_cases hact
  refine ⟨_, hu.update hf hc rfl rfl, ?_⟩
  change (Function.update u i _ i).tasks = _
  rw [Function.update_self]
  exact congrArg (fun x : SyncRank n => x.tasks.filter fun k => decide (k ≠ j)) hi

/-- All tasks of a rank can be completed. -/
theorem AtStart.flush (h : AtStart cs s) (i : Fin n) : ∃ u, AtStart cs u ∧ (u i).tasks = [] := by
  induction hk : (s i).tasks.length using Nat.strong_induction_on generalizing s with
  | h k ih =>
    cases htasks : (s i).tasks with
    | nil => exact ⟨s, h, htasks⟩
    | cons j js =>
      have hj : j ∈ (s i).tasks := by
        rw [htasks]
        exact List.mem_cons_self
      obtain ⟨u, hu, hfilter⟩ := h.form hr ht hj
      refine ih _ ?_ hu rfl
      rw [hfilter, ← hk]
      refine List.length_filter_lt_length_iff_exists.mpr ⟨j, hj, ?_⟩
      simp

/-- A rank that does not take part in the exchange on its own can come to the barrier before it is asked to. -/
theorem AtStart.uniform (h : AtStart cs s) (hi : ¬(cs i).1.InUse (cs i).2) : ¬(cs (right i)).1.InUse (cs (right i)).2 := by
  intro hright
  have hne : right i ≠ i := fun heq => hi (heq ▸ hright)
  obtain ⟨u, hu, htasks⟩ := h.flush hr ht i
  have hno : ¬(u i).contributed.isSome := fun hc => hi (hu.contributed i hc)
  have henter : u.Enabled (.enter i) := ⟨hu.progressing i, htasks, fun hc => hno hc.1⟩
  obtain ⟨r, hact, hc⟩ := Completes.acts hu.completes henter
  cases Except.ok.inj hact
  have hasked : (u (right i)).contributed.isSome :=
    (hu.follows.collective _ (started_of_progresses (Or.inl (hu.progressing _)))).starts hright
  have hjoin : Sync.Enabled (Function.update u i { u i with phase := .inBarrier }) (.join i) := by
    refine ⟨?_, ?_, ?_⟩
    · rw [Function.update_self]
      exact Or.inr rfl
    · rw [Function.update_self]
      exact hno
    · rw [Function.update_of_ne hne]
      exact hasked
  obtain ⟨r, hact, _⟩ := Completes.acts hc hjoin
  change (Function.update u i { u i with phase := .inBarrier } i).join = .ok r at hact
  rw [Function.update_self] at hact
  cases hact

/-- Two ranks of which one asks the other can be brought to where the first one forms consistency. -/
theorem AtStart.exists_task (h : AtStart cs s) (hs : ∀ i, (call cs i).reset i (cs i).2 = .ok (s i))
    (ha : (cs i).1.Asks (cs i).2 j ∨ (cs j).1.Asks (cs j).2 i) :
    ∃ u, AtStart cs u ∧ j ∈ (u i).tasks ∧ ((u j).sent i).isSome := by
  have hasks : ∀ a b : Fin n, (cs a).1.Asks (cs a).2 b → b ∈ (s a).tasks ∧ ((s a).sent b).isSome := by
    intro a b hab
    obtain ⟨_, c, hc, _, hsa⟩ := reset_cases (hs a)
    have hv : (c.logs b).curRegion.Valid := by
      rw [logs_resetLocal hc b]
      exact hab
    rw [hsa]
    refine ⟨List.mem_filter.mpr ⟨List.mem_finRange b, decide_eq_true hv⟩, ?_⟩
    dsimp only
    rw [if_pos hv]
    rfl
  by_cases hij : (cs i).1.Asks (cs i).2 j
  · obtain ⟨htask, hsent⟩ := hasks i j hij
    obtain ⟨u, hu, hback, _, hkept⟩ := h.noticed hr ht hsent
    refine ⟨u, hu, ?_, hback⟩
    by_cases heq : i = j
    · subst heq
      rwa [hkept i (Or.inr hsent)]
    · rwa [hkept i (Or.inl heq)]
  · obtain ⟨_, hsent⟩ := hasks j i (ha.resolve_left hij)
    have hne : j ≠ i := by
      rintro rfl
      exact hij (ha.resolve_left hij)
    obtain ⟨u, hu, hback, htask, hkept⟩ := h.noticed hr ht hsent
    refine ⟨u, hu, htask.resolve_right fun heq => ?_, ?_⟩
    · rw [heq] at hback
      obtain ⟨_, c, hc, _, hsi⟩ := reset_cases (hs i)
      rw [hsi] at hback
      dsimp only at hback
      split at hback
      next hv =>
        rw [logs_resetLocal hc j] at hv
        exact hij hv
      next => cases hback
    · rwa [hkept j (Or.inl hne)]

/-- A sync that completes is one of ranks that can resume together. -/
theorem completable_of_completes (hc : (consistencySync n).Completes Done (call cs)) : Completable cs := by
  obtain ⟨s, hs, hreset⟩ := exists_atStart hr ht hc
  have hlocal := fun i => (reset_ok_iff (hr i) (ht i)).mp ⟨s i, hreset i⟩
  have huse : ∀ i j, (cs i).1.InUse (cs i).2 → (cs j).1.InUse (cs j).2 := by
    intro i j hi
    by_contra hj
    obtain ⟨k, hk, hright⟩ := exists_edge (fun i => (cs i).1.InUse (cs i).2) hj hi
    exact hs.uniform hr ht hk hright
  have hpeers : ∀ i j : Fin n, RankLog.Arranged ((cs i).1.offers (cs i).2 j).regions := by
    intro i j
    obtain ⟨_, c, hc, _⟩ := reset_cases (hreset i)
    exact (CommLog.offers_arranged (hr i) hc j).2
  obtain ⟨as, u, hu, hd⟩ := hc.exists_done
  have hcases := done_cases (follows_run hr ht hu) hd
  refine ⟨fun i => (hlocal i).1, fun i => (hlocal i).2.1, fun i => (hlocal i).2.2, fun i j ha => ?_, fun i => ?_, huse,
    fun i hi latest hl => ?_, fun i hi latest hl least hleast => ?_⟩
  · obtain ⟨v, hv, htask, hsent⟩ := hs.exists_task hr ht hreset ha
    obtain ⟨r, hact, _⟩ := Completes.acts (a := .form i j) hv.completes ⟨Or.inl (hv.progressing i), htask, hsent⟩
    obtain ⟨w, hw⟩ := Option.isSome_iff_exists.mp hsent
    have htraffic := hv.follows.traffic i (started_of_progresses (Or.inl (hv.progressing i)))
    have hremote := (hv.follows.traffic j (started_of_progresses (Or.inl (hv.progressing j)))).sent i w hw
    simp only [Sync.acts, hw] at hact
    rw [hremote] at hact
    exact (htraffic.form_ok_iff htask (hpeers i j) (hpeers j i)).mp ⟨r, hact⟩
  · obtain ⟨⟨k, hk⟩, _⟩ | hfresh := hcases
    · exact (huse k i hk).1
    · obtain ⟨hno, hres, m, xs, _, hxs⟩ := hfresh i
      refine (replays_iff_valid hres (fun hstart => hno ?_) m).mp ⟨xs, hxs⟩
      unfold StartsCollective region at hstart
      rwa [hres.regions] at hstart
  · obtain ⟨_, v, _, hv, _, hf⟩ | hfresh := hcases
    · cases Option.some.inj (hv.symm.trans hl)
      exact (hf i).1.fits
    · exact absurd hi (hfresh i).1
  · obtain ⟨_, v, m, hv, hm, hf⟩ | hfresh := hcases
    · cases Option.some.inj (hv.symm.trans hl)
      cases Option.some.inj (hm.symm.trans hleast)
      obtain ⟨⟨⟨c, hres, hfit⟩, hvalid, _⟩, xs, _, hxs⟩ := hf i
      exact (replays_iff_gapless hres hfit hvalid).mp ⟨xs, hxs⟩
    · exact absurd hi (hfresh i).1

end Needed

/-- Whatever order the ranks get on in, a sync completes exactly when they can resume together. -/
theorem sync_completes_iff (hr : ∀ i, Reachable (cs i).1) (ht : ∀ i, (cs i).1.SyncTarget (cs i).2) :
    (consistencySync n).Completes Done (call cs) ↔ Completable cs :=
  ⟨completable_of_completes hr ht, fun hc => completes_of_completable hc hr ht⟩

theorem sync_completes_inside : (consistencySync 2).Completes Done (call insideSecond) := by
  have hpeer : ∀ peer, (insideSecond 0).1.Asks (insideSecond 0).2 peer → peer = 1 := by
    intro peer ha
    by_contra hne
    have hnone : (insideSecond 0).1.logs peer = .create 2 peer := by
      change (firstSends.find? peer).getD _ = _
      have hfind : firstSends.find? peer = none :=
        List.find?_eq_none.mpr fun l hl => by
          obtain rfl := List.mem_singleton.mp hl
          simpa using Ne.symm hne
      rw [hfind]
      rfl
    unfold Asks resumeLogs at ha
    rw [hnone] at ha
    exact absurd ha Region.not_valid_default
  have hnone : ∀ peer, ¬(insideSecond 1).1.Asks (insideSecond 1).2 peer := fun peer => Region.not_valid_default
  have huse : ∀ i, (insideSecond i).1.InUse (insideSecond i).2 := Fin.forall_fin_two.mpr ⟨by decide, by decide⟩
  refine (sync_completes_iff insideSecond_reachable fun _ => Or.inl rfl).mpr ⟨?_, fun _ => Or.inl rfl, ?_, ?_,
    fun i => (huse i).1, fun _ j _ => huse j, ?_, ?_⟩
  · exact Fin.forall_fin_two.mpr ⟨rfl, rfl⟩
  · refine Fin.forall_fin_two.mpr ⟨fun peer ha => ?_, fun peer ha => absurd ha (hnone peer)⟩
    rw [hpeer peer ha]
    decide
  · refine Fin.forall_fin_two.mpr ⟨Fin.forall_fin_two.mpr ⟨fun ha => ?_, fun _ => ⟨by decide, ?_⟩⟩,
      Fin.forall_fin_two.mpr ⟨fun _ => ⟨by decide, ?_⟩, fun ha => absurd ha (not_or.mpr ⟨hnone _, hnone _⟩)⟩⟩
    · exact absurd (hpeer _ (ha.elim id id)) (by decide)
    · intro r hl k hfirst _ hnext
      cases Option.some.inj hl
      change (0 : Int) ≤ k at hfirst
      change k < 1 at hnext
      refine ⟨⟨0, ⟨0, 0, []⟩, 0⟩, List.mem_singleton.mpr rfl, ?_⟩
      change (0 : Int) = k
      omega
    · intro r _ k _ hrecv hnext
      change (0 : Int) ≤ k at hrecv
      change k < -1 at hnext
      omega
  · refine Fin.forall_fin_two.mpr ⟨fun _ latest hl => ?_, fun _ latest hl => ?_⟩
    · cases Option.some.inj hl
      exact fun _ _ => rfl
    · cases Option.some.inj hl
      exact fun _ _ => rfl
  · refine Fin.forall_fin_two.mpr ⟨?_, ?_⟩
    · rintro _ latest hl least hm ⟨⟨x, hx, hk⟩, _⟩
      cases Option.some.inj hl
      cases Option.some.inj hm
      cases List.mem_singleton.mp hx
      exact absurd hk (by decide)
    · rintro _ latest hl least hm ⟨⟨x, hx, hk⟩, _⟩
      cases Option.some.inj hl
      cases Option.some.inj hm
      cases List.mem_singleton.mp hx
      exact absurd hk (by decide)

/-- Two ranks that have not begun a region sync to continue where they are. -/
theorem sync_aborts_before_first_region : ∃ (cs : Fin 2 → CommLog × Int) (as : List (SyncAction 2)),
    (∀ i, CommLog.Reachable (cs i).1) ∧ (∀ i, (cs i).1.SyncTarget (cs i).2) ∧
    (consistencySync 2).run (call cs) as = .error .assertion := by
  refine ⟨fun i => (create i 2, -1), lockstep 2, fun i => .create i (by decide), fun _ => Or.inl rfl, rfl⟩

end Sync

end Fenix
