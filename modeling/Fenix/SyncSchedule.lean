import Fenix.CollectiveResume
import Fenix.ConsistencySync
import Fenix.RankLogResume

namespace Fenix

theorem ofFn_filterMap_id {α : Type} {n : Nat} {f : Fin n → Option α} {g : Fin n → α} (h : ∀ j, f j = some (g j)) :
    (List.ofFn f).filterMap id = List.ofFn g := by
  rw [funext h, ← Function.comp_def, ← List.map_ofFn, List.filterMap_map]
  exact List.filterMap_some

theorem latestRegions_mem {ws : List (Window CRegion)} {w : Window CRegion} (h : latestRegions ws = some w) :
    w ∈ ws := by
  induction ws generalizing w with
  | nil => cases h
  | cons v vs ih =>
    unfold latestRegions at h
    split at h
    next =>
      cases Option.some.inj h
      exact List.mem_cons_self
    next u hu =>
      split at h
      next =>
        cases Option.some.inj h
        exact List.mem_cons_self
      next =>
        cases Option.some.inj h
        exact List.mem_cons_of_mem _ (ih hu)

theorem latestRegions_isSome {ws : List (Window CRegion)} {w : Window CRegion} (h : w ∈ ws) :
    ∃ v, latestRegions ws = some v := by
  cases ws with
  | nil => cases h
  | cons v vs =>
    unfold latestRegions
    split
    next => exact ⟨v, rfl⟩
    next =>
      split
      next => exact ⟨_, rfl⟩
      next => exact ⟨_, rfl⟩

theorem latestRegions_next {ws : List (Window CRegion)} {w v : Window CRegion} (h : latestRegions ws = some v)
    (hw : w ∈ ws) : w.cur.next ≤ v.cur.next := by
  induction ws generalizing v with
  | nil => cases hw
  | cons u us ih =>
    unfold latestRegions at h
    split at h
    next hnone =>
      cases Option.some.inj h
      rcases List.mem_cons.mp hw with rfl | hw
      · exact Int.le_refl _
      · obtain ⟨x, hx⟩ := latestRegions_isSome hw
        rw [hnone] at hx
        cases hx
    next x hx =>
      split at h
      next hle =>
        cases Option.some.inj h
        rcases List.mem_cons.mp hw with rfl | hw
        · exact Int.le_refl _
        · exact Int.le_trans (ih hx hw) hle
      next hlt =>
        cases Option.some.inj h
        rcases List.mem_cons.mp hw with rfl | hw
        · omega
        · exact ih hx hw

namespace CommLog

/-- The log of the traffic with a peer that a rank resumes with. -/
def resumeLogs (c : CommLog) (t peer : Int) : RankLog := (c.logs peer).resumed t

/-- Whether a rank that resumes asks a peer for consistency. -/
def Asks (c : CommLog) (t peer : Int) : Prop := (c.resumeLogs t peer).curRegion.Valid

/-- The log of the traffic with a peer as it stands when its regions are sent to the peer. -/
def offers (c : CommLog) (t peer : Int) : RankLog := (c.resumeLogs t peer).offered (c.resumeActive t)

/-- Whether a rank resumes in a region that is in use, so that it starts the collective exchange. -/
def InUse (c : CommLog) (t : Int) : Prop := (c.resumeRegions t).cur.Valid ∧ ¬(c.resumeRegions t).cur.Fresh

instance (c : CommLog) (t : Int) : Decidable (c.InUse t) := inferInstanceAs (Decidable (_ ∧ _))

variable {c c' : CommLog} {t : Int}

theorem logs_putLog (l : RankLog) (peer : Int) : (c.putLog l).logs peer = if l.rank = peer then l else c.logs peer := by
  change ((c.putLog l).endpoint peer).logs = _
  rw [endpoint_putLog]
  split
  next => rfl
  next => rfl

theorem logs_resetLocal (h : c.resetLocal t = .ok c') (peer : Int) : c'.logs peer = c.resumeLogs t peer := by
  have he := endpoint_resetLocal h peer
  unfold Endpoint.resetLocal at he
  split at he
  next => cases he
  next =>
    change (c'.endpoint peer).logs = ((c.endpoint peer).logs).resumed t
    dsimp only at he
    split at he
    next hl =>
      rw [← Except.ok.inj he]
      unfold Endpoint.logs
      rw [hl]
      exact (if_pos (Or.inl Region.not_valid_default)).symm
    next l hl =>
      obtain ⟨l', hr, he⟩ := Except.map_eq_ok_iff.mp he
      rw [← he]
      unfold Endpoint.logs
      rw [hl]
      exact RankLog.resumed_of_ok hr

theorem mem_initiates {peer : Int} : peer ∈ c.initiates ↔ ∃ l ∈ c.rankLogs, l.curRegion.Valid ∧ l.rank = peer := by
  unfold initiates
  rw [List.mem_map]
  constructor
  · rintro ⟨l, hl, rfl⟩
    obtain ⟨hl, hv⟩ := IndexedSet.mem_filter.mp hl
    exact ⟨l, hl, of_decide_eq_true hv, rfl⟩
  · rintro ⟨l, hl, hv, rfl⟩
    exact ⟨l, IndexedSet.mem_filter.mpr ⟨hl, decide_eq_true hv⟩, rfl⟩

theorem ResumesAt.of_same {d d' : CommLog} (h : ResumesAt c t d) (hregions : d'.regions = d.regions)
    (hactive : d'.activeRegion = d.activeRegion) (hop : d'.activeOp = d.activeOp)
    (hcoll : d'.collectives = d.collectives) : ResumesAt c t d' where
  own := h.own.of_same hregions hcoll
  used := hregions ▸ h.used
  regions := hregions.trans h.regions
  active := hactive.trans h.active
  activeOp := hop.trans h.activeOp
  collectives x := by
    have hx := h.collectives x
    unfold region at hx ⊢
    rw [hregions, hcoll]
    exact hx

theorem Fitted.of_same {latest : Window CRegion} {d d' : CommLog} (h : Fitted latest c d) (hregions : d'.regions = d.regions)
    (hactive : d'.activeRegion = d.activeRegion) (hop : d'.activeOp = d.activeOp)
    (hcoll : d'.collectives = d.collectives) : Fitted latest c d' := by
  have hregion : d'.region = d.region := congrArg Window.cur hregions
  exact ⟨hactive.trans h.activeRegion, hop.trans h.activeOp, hregion ▸ h.next, hcoll ▸ h.collectives, hregion ▸ h.id,
    hregion ▸ h.id_lt⟩

/-- The latest regions that ranks with these targets come to know. -/
def resumeLatest {n : Nat} (cs : Fin n → CommLog × Int) : Option (Window CRegion) :=
  latestRegions (List.ofFn fun i => (cs i).1.resumeRegions (cs i).2)

/-- The least index that ranks with these targets resume at. -/
def resumeLeast {n : Nat} (latest : Window CRegion) (cs : Fin n → CommLog × Int) : Option Int :=
  (List.ofFn fun i => resumeIdx latest ((cs i).1.resumeRegion (cs i).2)).min?

/-- How a rank stands once it is fitted into the latest regions. -/
structure FormedAt (latest : Window CRegion) (c : CommLog) (t : Int) (d : CommLog) : Prop where
  reset : ∃ c', ResumesAt c t c' ∧ Fitted latest c' d
  valid : d.region.Valid
  fits : Fits latest (c.resumeRegion t)

end CommLog

namespace SyncRank

open CommLog

variable {n : Nat} {cs : Fin n → CommLog × Int} {i j : Fin n} {r r' : SyncRank n}

/-- The rank has reset its log. -/
def Started (r : SyncRank n) : Prop := ∀ t, r.phase ≠ .called t

/-- How the traffic with the peers of rank `i` stands. -/
structure Traffic (cs : Fin n → CommLog × Int) (i : Fin n) (r : SyncRank n) : Prop where
  ends : ∀ peer, EndStocked (r.log.endpoint peer)
  active : r.log.activeRegion = (cs i).1.resumeActive (cs i).2
  unsent : ∀ j : Fin n, ¬(r.sent j).isSome → r.log.logs j = (cs i).1.resumeLogs (cs i).2 j ∧ ¬(cs i).1.Asks (cs i).2 j
  sent : ∀ j : Fin n, ∀ w ∈ r.sent j, w = ((cs i).1.offers (cs i).2 j).regions
  awaited : ∀ j ∈ r.tasks, (r.sent j).isSome ∧ r.log.logs j = (cs i).1.offers (cs i).2 j
  requested : ∀ j : Fin n, (r.sent j).isSome → (cs i).1.Asks (cs i).2 j ∨ (cs j).1.Asks (cs j).2 i

/-- How the collective exchange stands with rank `i`. -/
structure Exchanging (cs : Fin n → CommLog × Int) (i : Fin n) (r : SyncRank n) : Prop where
  contributed : ∀ w ∈ r.contributed, w = (cs i).1.resumeRegions (cs i).2
  starts : (cs i).1.InUse (cs i).2 → r.contributed.isSome
  joined : r.contributed.isSome → ∃ j, (cs j).1.InUse (cs j).2
  unaligned : ¬r.aligned.isSome → ResumesAt (cs i).1 (cs i).2 r.log
  aligned : ∀ k ∈ r.aligned, r.log.region.next = k ∧ ∃ latest ∈ resumeLatest cs, FormedAt latest (cs i).1 (cs i).2 r.log
  agreed : r.agreed → ∀ latest ∈ resumeLatest cs, ∀ least ∈ resumeLeast latest cs, r.log.completedCollectiveAll + 1 = least

/-- What is done stays done. -/
structure Grows (r r' : SyncRank n) : Prop where
  sent : ∀ j, (r.sent j).isSome → (r'.sent j).isSome
  contributed : r.contributed.isSome → r'.contributed.isSome
  aligned : r.aligned.isSome → r'.aligned.isSome
  entered : r.Entered → r'.Entered

theorem started_of_progresses (h : r.Progresses) : r.Started := by
  intro t ht
  rcases h with h | h
  · cases ht.symm.trans h
  · cases ht.symm.trans h

theorem started_of_entered (h : r.Entered) : r.Started := by
  intro t ht
  rcases h with h | ⟨xs, h⟩
  · cases ht.symm.trans h
  · cases ht.symm.trans h

/-- Only the log of the traffic with one peer is changed. -/
theorem Exchanging.putLog (h : Exchanging cs i r) {l : RankLog} (hlog : r'.log = r.log.putLog l)
    (hc : r'.contributed = r.contributed) (ha : r'.aligned = r.aligned) (hg : r'.agreed = r.agreed) :
    Exchanging cs i r' where
  contributed := hc ▸ h.contributed
  starts := hc ▸ h.starts
  joined := hc ▸ h.joined
  unaligned := by
    rw [ha, hlog]
    exact fun hn => (h.unaligned hn).of_same rfl rfl rfl rfl
  aligned := by
    rw [ha, hlog]
    intro k hk
    obtain ⟨hnext, latest, hl, ⟨c, hr, hf⟩, hv, hfits⟩ := h.aligned k hk
    exact ⟨hnext, latest, hl, ⟨c, hr, hf.of_same rfl rfl rfl rfl⟩, hv, hfits⟩
  agreed := by
    rw [hg, hlog]
    exact h.agreed

/-- Only the regions and collectives of the communicator are changed. -/
theorem Traffic.of_only (h : Traffic cs i r) (hlogs : ∀ peer, r'.log.endpoint peer = r.log.endpoint peer)
    (hactive : r'.log.activeRegion = r.log.activeRegion) (hsent : r'.sent = r.sent) (htasks : r'.tasks = r.tasks) :
    Traffic cs i r' := by
  have hlog : ∀ peer, r'.log.logs peer = r.log.logs peer := fun peer => congrArg Endpoint.logs (hlogs peer)
  refine ⟨fun peer => hlogs peer ▸ h.ends peer, hactive.trans h.active, ?_, hsent ▸ h.sent, ?_, hsent ▸ h.requested⟩
  · intro j
    rw [hsent, hlog]
    exact h.unsent j
  · intro j
    rw [hsent, htasks, hlog]
    exact h.awaited j

section Actions

variable {w : Window Region} {latest : Window CRegion} {t least : Int}

theorem reset_cases (h : r.reset i t = .ok r') : r.log.mRank = i ∧ ∃ c, r.log.resetLocal t = .ok c ∧
    (∀ peer ∈ c.initiates, peer < n) ∧
    r' = { log := c, phase := .progressing,
           sent := fun j => if (c.logs j).curRegion.Valid then some (c.logs j).regions else none,
           tasks := (List.finRange n).filter fun j => decide ((c.logs j).curRegion.Valid),
           contributed := if c.StartsCollective then some c.regions else none } := by
  unfold reset at h
  split at h
  next => cases h
  next hplaced =>
    obtain ⟨c, hc, h⟩ := Except.bind_eq_ok_iff.mp h
    split at h
    next => cases h
    next hknown =>
      cases Except.ok.inj h
      refine ⟨not_not.mp hplaced, c, hc, fun peer hpeer => ?_, ?_⟩
      · by_contra hge
        exact hknown ⟨peer, hpeer, by omega⟩
      · simp only [decide_eq_true_eq]

theorem reply_cases (h : r.reply j = .ok r') : ∃ c, r.log.offerConsistency j = .ok (c, ()) ∧
    ∃ l, (r.log.logs j).offerConsistency r.log.activeRegion = .ok l ∧ c = r.log.putLog l ∧ l.rank = j ∧
    r' = { r with log := r.log.putLog l, sent := Function.update r.sent j (some l.regions), tasks := j :: r.tasks } := by
  obtain ⟨⟨c, _⟩, hc, h⟩ := Except.bind_eq_ok_iff.mp h
  cases Except.ok.inj h
  obtain ⟨_, l, hl, rfl⟩ := onLog_eq hc
  have hl := map_unit_eq hl
  have hrank := (RankLog.sameFrame_offerConsistency hl).1.trans (r.log.rank_logs j)
  refine ⟨_, hc, l, hl, rfl, hrank, ?_⟩
  rw [logs_putLog, if_pos hrank]

theorem form_cases (h : r.form j w = .ok r') : ∃ out, ∃ l, (r.log.logs j).formConsistency w = .ok (l, out) ∧
    r.log.formConsistency j w = .ok (r.log.putLog l, out) ∧ l.rank = j ∧
    r' = { r with log := r.log.putLog l, tasks := r.tasks.filter fun k => decide (k ≠ j) } := by
  obtain ⟨⟨c, out⟩, hc, h⟩ := Except.bind_eq_ok_iff.mp h
  cases Except.ok.inj h
  obtain ⟨_, l, hl, rfl⟩ := onLog_eq hc
  exact ⟨out, l, hl, hc, (RankLog.formConsistency_rank hl).trans (r.log.rank_logs j), rfl⟩

theorem align_cases (h : r.align latest = .ok r') : 0 ≤ latest.cur.next ∧ ∃ c,
    r.log.alignRegion latest.cur.next latest = .ok c ∧ r' = { r with log := c, aligned := some c.region.next } := by
  unfold align at h
  split at h
  next => cases h
  next hn =>
    obtain ⟨c, hc, h⟩ := Except.bind_eq_ok_iff.mp h
    exact ⟨Int.not_lt.mp hn, c, hc, (Except.ok.inj h).symm⟩

theorem leave_cases (h : r.leave = .ok r') : r.tasks = [] ∧ ∃ xs,
    r.log.replayCollectives (r.log.completedCollectiveAll + 1) = .ok xs ∧ r' = { r with phase := .left xs } := by
  unfold leave at h
  split at h
  next => cases h
  next hno =>
    obtain ⟨xs, hxs, h⟩ := Except.bind_eq_ok_iff.mp h
    exact ⟨not_not.mp (not_or.mp hno).1, xs, hxs, (Except.ok.inj h).symm⟩

theorem traffic_reset (hr : Reachable (cs i).1) (ht : (cs i).1.SyncTarget (cs i).2)
    (h : (Sync.call cs i).reset i (cs i).2 = .ok r') : Traffic cs i r' := by
  obtain ⟨_, c, hc, _, rfl⟩ := reset_cases h
  have hlogs : ∀ j : Fin n, c.logs j = (cs i).1.resumeLogs (cs i).2 j := fun j => logs_resetLocal hc j
  have hasks : ∀ j : Fin n, (c.logs j).curRegion.Valid ↔ (cs i).1.Asks (cs i).2 j := fun j => by
    rw [hlogs j]
    exact Iff.rfl
  have hoffers : ∀ j : Fin n, (c.logs j).curRegion.Valid → c.logs j = (cs i).1.offers (cs i).2 j := fun j hv => by
    rw [hlogs j] at hv ⊢
    exact (RankLog.offered_of_valid hv).symm
  constructor
  · exact fun peer => (hr.endStocked peer).step (.moves (.resetLocal (endpoint_resetLocal hc peer)))
  · exact (resumesAt_of_resetLocal (reachable_wellFormed hr) ht hc).active
  · intro j hno
    refine ⟨hlogs j, fun ha => hno ?_⟩
    dsimp only
    rw [if_pos ((hasks j).mpr ha)]
    rfl
  · intro j w hw
    dsimp only at hw
    split at hw
    next hv =>
      rw [← Option.some.inj hw, hoffers j hv]
    next => cases hw
  · intro j hj
    have hv := of_decide_eq_true (List.mem_filter.mp hj).2
    refine ⟨?_, hoffers j hv⟩
    dsimp only
    rw [if_pos hv]
    rfl
  · intro j hsome
    dsimp only at hsome
    split at hsome
    next hv => exact Or.inl ((hasks j).mp hv)
    next => cases hsome

theorem collective_reset (hr : Reachable (cs i).1) (ht : (cs i).1.SyncTarget (cs i).2)
    (h : (Sync.call cs i).reset i (cs i).2 = .ok r') : Exchanging cs i r' := by
  obtain ⟨_, c, hc, _, rfl⟩ := reset_cases h
  have hres := resumesAt_of_resetLocal (reachable_wellFormed hr) ht hc
  have hstarts : c.StartsCollective ↔ (cs i).1.InUse (cs i).2 := by
    unfold StartsCollective region InUse
    rw [hres.regions]
  constructor
  · intro w hw
    dsimp only at hw
    split at hw
    next => exact (Option.some.inj hw).symm.trans hres.regions
    next => cases hw
  · intro huse
    dsimp only
    rw [if_pos (hstarts.mpr huse)]
    rfl
  · intro hsome
    dsimp only at hsome
    split at hsome
    next hstart => exact ⟨i, hstarts.mp hstart⟩
    next => cases hsome
  · exact fun _ => hres
  · exact fun k hk => by cases hk
  · exact fun hagreed => by cases hagreed

theorem Traffic.reply (h : Traffic cs i r) (hreq : (cs i).1.Asks (cs i).2 j ∨ (cs j).1.Asks (cs j).2 i)
    (hno : ¬(r.sent j).isSome) (hr : r.reply j = .ok r') : Traffic cs i r' := by
  obtain ⟨c, hc, l, hl, rfl, hrank, rfl⟩ := reply_cases hr
  have hloffers : l = (cs i).1.offers (cs i).2 j := by
    rw [RankLog.offered_of_ok hl, (h.unsent j hno).1, h.active]
    rfl
  have hkept : ∀ k : Fin n, k ≠ j → (r.log.putLog l).logs k = r.log.logs k := fun k hk => by
    rw [logs_putLog, if_neg]
    rw [hrank]
    exact fun heq => hk (Fin.ext (by omega))
  constructor
  · exact fun peer => (h.ends peer).step (endpointStep_of_step (.offer hc) peer)
  · exact h.active
  · intro k hk
    by_cases hkj : k = j
    · subst hkj
      exact absurd (by simp) hk
    · rw [hkept k hkj]
      exact h.unsent k (by simpa [Function.update_of_ne hkj] using hk)
  · intro k w hw
    by_cases hkj : k = j
    · subst hkj
      dsimp only at hw
      rw [Function.update_self] at hw
      rw [← Option.some.inj hw, hloffers]
    · exact h.sent k w (by simpa [Function.update_of_ne hkj] using hw)
  · intro k hk
    by_cases hkj : k = j
    · subst hkj
      refine ⟨by simp, ?_⟩
      dsimp only
      rw [logs_putLog, if_pos hrank, hloffers]
    · dsimp only
      rw [hkept k hkj, Function.update_of_ne hkj]
      exact h.awaited k ((List.mem_cons.mp hk).resolve_left hkj)
  · intro k hk
    by_cases hkj : k = j
    · subst hkj
      exact hreq
    · exact h.requested k (by simpa [Function.update_of_ne hkj] using hk)

theorem Traffic.form (h : Traffic cs i r) (hj : j ∈ r.tasks) (hr : r.form j w = .ok r') : Traffic cs i r' := by
  obtain ⟨out, l, hl, hc, hrank, rfl⟩ := form_cases hr
  have hkept : ∀ k : Fin n, k ≠ j → (r.log.putLog l).logs k = r.log.logs k := fun k hk => by
    rw [logs_putLog, if_neg]
    rw [hrank]
    exact fun heq => hk (Fin.ext (by omega))
  constructor
  · exact fun peer => (h.ends peer).step (endpointStep_of_step (.form hc) peer)
  · exact h.active
  · intro k hk
    have hkj : k ≠ j := fun heq => hk (heq ▸ (h.awaited j hj).1)
    dsimp only
    rw [hkept k hkj]
    exact h.unsent k hk
  · exact h.sent
  · intro k hk
    obtain ⟨hk, hkj⟩ := List.mem_filter.mp hk
    dsimp only
    rw [hkept k (of_decide_eq_true hkj)]
    exact h.awaited k hk
  · exact h.requested

theorem Traffic.align (h : Traffic cs i r) (hr : r.align latest = .ok r') : Traffic cs i r' := by
  obtain ⟨_, c, hc, rfl⟩ := align_cases hr
  have honly := onlyCollectives_align hc
  exact h.of_only honly.endpoint honly.activeRegion rfl rfl

theorem Exchanging.join (h : Exchanging cs i r) (ha : ¬r.aligned.isSome) (hj : ∃ j, (cs j).1.InUse (cs j).2)
    (hr : r.join = .ok r') : Exchanging cs i r' := by
  unfold SyncRank.join at hr
  split at hr
  next => cases hr
  next =>
    cases Except.ok.inj hr
    refine ⟨fun w hw => ?_, fun _ => rfl, fun _ => hj, h.unaligned, h.aligned, h.agreed⟩
    exact (Option.some.inj hw).symm.trans (h.unaligned ha).regions

theorem Exchanging.align (h : Exchanging cs i r) (hwf : (cs i).1.WellFormed) (ha : ¬r.aligned.isSome)
    (hl : resumeLatest cs = some latest) (hu : 0 ≤ latest.cur.next → ∀ r ∈ latest.toList, r.id = -1 ∨ r.Valid)
    (hr : r.align latest = .ok r') : Exchanging cs i r' := by
  obtain ⟨hn, c, hc, rfl⟩ := align_cases hr
  have hres := h.unaligned ha
  refine ⟨h.contributed, h.starts, h.joined, fun hno => absurd rfl hno, fun k hk => ?_, fun hg => ?_⟩
  · refine ⟨Option.some.inj hk, latest, hl, ⟨r.log, hres, fitted_of_alignRegion hres.own hc⟩, ?_, ?_⟩
    · exact region_valid_of_alignRegion (hres.seekRegion_id hwf) hn (hu hn) hres.own hc
    · rw [← hres.seekRegion]
      exact (alignRegion_ok_iff hres.own).mp ⟨c, hc⟩
  · have hsame := (onlyCollectives_align hc).completedCollectiveAll
    intro v hv m hm
    change c.completedCollectiveAll + 1 = m
    rw [hsame]
    exact h.agreed hg v hv m hm

theorem Exchanging.agree (h : Exchanging cs i r) (hl : resumeLeast latest cs = some least)
    (hlatest : resumeLatest cs = some latest) : Exchanging cs i (r.agree latest.cur.next least) where
  contributed := h.contributed
  starts := h.starts
  joined := h.joined
  unaligned hn := (h.unaligned hn).of_same rfl rfl rfl rfl
  aligned k hk := by
    obtain ⟨hnext, v, hv, ⟨c, hr, hf⟩, hvalid, hfits⟩ := h.aligned k hk
    exact ⟨hnext, v, hv, ⟨c, hr, hf.of_same rfl rfl rfl rfl⟩, hvalid, hfits⟩
  agreed _ v hv m hm := by
    cases Option.some.inj (hlatest.symm.trans hv)
    cases Option.some.inj (hl.symm.trans hm)
    change least - 1 + 1 = least
    omega

end Actions

end SyncRank

namespace Sync

open CommLog SyncRank

variable {n : Nat} {cs : Fin n → CommLog × Int} {s : Sync n} {i : Fin n} {r : SyncRank n}

theorem resumeLatest_used (hr : ∀ i, Reachable (cs i).1) (ht : ∀ i, (cs i).1.SyncTarget (cs i).2) {latest : Window CRegion}
    (hl : resumeLatest cs = some latest) (hn : 0 ≤ latest.cur.next) : ∀ r ∈ latest.toList, r.id = -1 ∨ r.Valid := by
  obtain ⟨i, rfl⟩ := List.mem_ofFn.mp (latestRegions_mem hl)
  obtain ⟨d, hown, hused, hregions⟩ := exists_resumed (reachable_wellFormed (hr i)) (ht i)
  rw [← hregions] at hn ⊢
  intro r hmem
  rcases Window.mem_toList.mp hmem with hold | rfl
  · exact hused r hold
  · exact Or.inr (region_valid_of_next hown hn)

/-- How the ranks stand in the course of a sync. -/
structure Follows (cs : Fin n → CommLog × Int) (s : Sync n) : Prop where
  called : ∀ i t, (s i).phase = .called t → s i = call cs i
  traffic : ∀ i, (s i).Started → Traffic cs i (s i)
  collective : ∀ i, (s i).Started → Exchanging cs i (s i)
  contributed : ∀ i, (s i).aligned.isSome → ∀ j, (s j).contributed.isSome
  aligned : ∀ i, (s i).agreed → ∀ j, (s j).aligned.isSome
  entered : ∀ i, (s i).Entered → ¬(s i).Collecting ∧ ∀ j ∈ (s i).tasks, ((s j).sent i).isSome
  left : ∀ i xs, (s i).phase = .left xs → (∀ j, (s j).Entered) ∧ (s i).tasks = [] ∧
    (s i).log.replayCollectives ((s i).log.completedCollectiveAll + 1) = .ok xs

theorem follows_call (cs : Fin n → CommLog × Int) : Follows cs (call cs) where
  called _ _ _ := rfl
  traffic i h := absurd rfl (h (cs i).2)
  collective i h := absurd rfl (h (cs i).2)
  contributed _ h := by cases h
  aligned _ h := by cases h
  entered _ h := by
    rcases h with h | ⟨xs, h⟩
    · cases h
    · cases h
  left _ _ h := by cases h

/-- One rank gets on, and the others stay as they are. -/
theorem Follows.update (h : Follows cs s) (hs : r.Started) (htraffic : Traffic cs i r) (hcoll : Exchanging cs i r)
    (hg : Grows (s i) r) (hc : r.aligned.isSome → ∀ j, (s j).contributed.isSome)
    (ha : r.agreed → ∀ j, (s j).aligned.isSome)
    (he : r.Entered → ¬r.Collecting ∧ ∀ j ∈ r.tasks, ((s j).sent i).isSome)
    (hl : ∀ xs, r.phase = .left xs → (∀ j, (s j).Entered) ∧ r.tasks = [] ∧
      r.log.replayCollectives (r.log.completedCollectiveAll + 1) = .ok xs) : Follows cs (Function.update s i r) := by
  have hgrows : ∀ j, Grows (s j) (Function.update s i r j) := by
    intro j
    by_cases hj : j = i
    · subst hj
      rw [Function.update_self]
      exact hg
    · rw [Function.update_of_ne hj]
      exact ⟨fun _ hk => hk, fun hk => hk, fun hk => hk, fun hk => hk⟩
  have hcases : ∀ (P : Fin n → SyncRank n → Prop), P i r → (∀ j, P j (s j)) → ∀ j, P j (Function.update s i r j) := by
    intro P hi hall j
    by_cases hj : j = i
    · subst hj
      rw [Function.update_self]
      exact hi
    · rw [Function.update_of_ne hj]
      exact hall j
  constructor
  · exact hcases (fun j x => ∀ t, x.phase = .called t → x = call cs j) (fun t ht => absurd ht (hs t)) h.called
  · exact hcases (fun j x => x.Started → Traffic cs j x) (fun _ => htraffic) h.traffic
  · exact hcases (fun j x => x.Started → Exchanging cs j x) (fun _ => hcoll) h.collective
  · exact hcases (fun _ x => x.aligned.isSome → ∀ k, (Function.update s i r k).contributed.isSome)
      (fun hx k => (hgrows k).contributed (hc hx k)) fun j hx k => (hgrows k).contributed (h.contributed j hx k)
  · exact hcases (fun _ x => x.agreed → ∀ k, (Function.update s i r k).aligned.isSome)
      (fun hx k => (hgrows k).aligned (ha hx k)) fun j hx k => (hgrows k).aligned (h.aligned j hx k)
  · refine hcases (fun j x => x.Entered → ¬x.Collecting ∧ ∀ k ∈ x.tasks, ((Function.update s i r k).sent j).isSome)
      (fun hx => ?_) fun j hx => ?_
    · exact ⟨(he hx).1, fun k hk => (hgrows k).sent i ((he hx).2 k hk)⟩
    · exact ⟨(h.entered j hx).1, fun k hk => (hgrows k).sent j ((h.entered j hx).2 k hk)⟩
  · refine hcases (fun _ x => ∀ xs, x.phase = .left xs → (∀ k, (Function.update s i r k).Entered) ∧ x.tasks = [] ∧
      x.log.replayCollectives (x.log.completedCollectiveAll + 1) = .ok xs) (fun xs hx => ?_) fun j xs hx => ?_
    · exact ⟨fun k => (hgrows k).entered ((hl xs hx).1 k), (hl xs hx).2⟩
    · exact ⟨fun k => (hgrows k).entered ((h.left j xs hx).1 k), (h.left j xs hx).2⟩

theorem Follows.started (h : Follows cs s) (hc : (s i).contributed.isSome) : (s i).Started := by
  intro t ht
  rw [h.called i t ht] at hc
  cases hc

theorem Follows.started_of_sent (h : Follows cs s) {j : Fin n} (hc : ((s i).sent j).isSome) : (s i).Started := by
  intro t ht
  rw [h.called i t ht] at hc
  cases hc

theorem Follows.latest_eq (h : Follows cs s) (hs : ∀ j, (s j).contributed.isSome) : s.latest = resumeLatest cs := by
  have hall : ∀ j, (s j).contributed = some ((cs j).1.resumeRegions (cs j).2) := by
    intro j
    obtain ⟨w, hw⟩ := Option.isSome_iff_exists.mp (hs j)
    rw [hw, (h.collective j (h.started (hs j))).contributed w hw]
  unfold Sync.latest resumeLatest
  rw [ofFn_filterMap_id hall]

theorem Follows.earliest_eq (h : Follows cs s) (hs : ∀ j, (s j).aligned.isSome) {latest : Window CRegion}
    (hl : resumeLatest cs = some latest) : s.earliest = resumeLeast latest cs := by
  have hall : ∀ j, (s j).aligned = some (resumeIdx latest ((cs j).1.resumeRegion (cs j).2)) := by
    intro j
    obtain ⟨k, hk⟩ := Option.isSome_iff_exists.mp (hs j)
    obtain ⟨hnext, v, hv, ⟨c, hr, hf⟩, _⟩ :=
      (h.collective j (h.started (h.contributed j (hs j) j))).aligned k hk
    cases Option.some.inj (hl.symm.trans hv)
    rw [hk, ← hnext, hf.next, hr.seekRegion]
  unfold Sync.earliest resumeLeast
  rw [ofFn_filterMap_id hall]

/-- A rank that goes on with its traffic or the exchange stays where it is in `reset_consistency`. -/
theorem Follows.progress (h : Follows cs s) (hp : (s i).Progresses) (hphase : r.phase = (s i).phase)
    (htraffic : Traffic cs i r) (hcoll : Exchanging cs i r) (hg : Grows (s i) r)
    (hc : r.aligned.isSome → ∀ j, (s j).contributed.isSome) (ha : r.agreed → ∀ j, (s j).aligned.isSome)
    (he : (s i).Entered → ¬r.Collecting ∧ ∀ j ∈ r.tasks, ((s j).sent i).isSome) :
    Follows cs (Function.update s i r) := by
  have hs := started_of_progresses hp
  refine h.update (fun t ht => hs t (hphase.symm.trans ht)) htraffic hcoll hg hc ha (fun hr => he ?_) fun xs hx => ?_
  · unfold SyncRank.Entered at hr ⊢
    rwa [hphase] at hr
  · rw [hphase] at hx
    rcases hp with hp | hp
    · cases hx.symm.trans hp
    · cases hx.symm.trans hp

theorem Follows.reset (h : Follows cs s) (hr : ∀ i, Reachable (cs i).1) (ht : ∀ i, (cs i).1.SyncTarget (cs i).2)
    (he : s.Enabled (.reset i)) (ha : s.acts (.reset i) = .ok r) : Follows cs (Function.update s i r) := by
  obtain ⟨t, hphase⟩ := he
  have hcall := h.called i t hphase
  have ht' : (cs i).2 = t := by
    rw [hcall] at hphase
    exact SyncPhase.called.inj hphase
  simp only [Sync.acts, hphase] at ha
  rw [hcall, ← ht'] at ha
  have htraffic := traffic_reset (hr i) (ht i) ha
  have hcoll := collective_reset (hr i) (ht i) ha
  obtain ⟨_, c, _, _, rfl⟩ := reset_cases ha
  refine h.update (fun _ hx => by cases hx) htraffic hcoll ?_ (fun hx => by cases hx) (fun hx => by cases hx) ?_ ?_
  · rw [hcall]
    refine ⟨fun _ hx => ?_, fun hx => ?_, fun hx => ?_, fun hx => absurd rfl (started_of_entered hx (cs i).2)⟩
    · cases hx
    · cases hx
    · cases hx
  · rintro (hx | ⟨_, hx⟩)
    · cases hx
    · cases hx
  · exact fun xs hx => by cases hx

theorem Follows.reply (h : Follows cs s) {j : Fin n} (he : s.Enabled (.reply i j))
    (ha : s.acts (.reply i j) = .ok r) : Follows cs (Function.update s i r) := by
  obtain ⟨hp, hsent, hno⟩ := he
  have hs := started_of_progresses hp
  have hreq := ((h.traffic j (h.started_of_sent hsent)).requested i hsent).symm
  have htraffic := (h.traffic i hs).reply hreq hno ha
  obtain ⟨_, _, l, _, rfl, _, rfl⟩ := reply_cases ha
  refine h.progress hp rfl htraffic ((h.collective i hs).putLog rfl rfl rfl rfl) ?_ (h.contributed i) (h.aligned i) ?_
  · refine ⟨fun k hk => ?_, fun hx => hx, fun hx => hx, fun hx => hx⟩
    by_cases hkj : k = j
    · subst hkj
      simp
    · dsimp only
      rw [Function.update_of_ne hkj]
      exact hk
  · intro hen
    refine ⟨(h.entered i hen).1, fun k hk => ?_⟩
    rcases List.mem_cons.mp hk with rfl | hk
    · exact hsent
    · exact (h.entered i hen).2 k hk

theorem Follows.form (h : Follows cs s) {j : Fin n} (he : s.Enabled (.form i j))
    (ha : s.acts (.form i j) = .ok r) : Follows cs (Function.update s i r) := by
  obtain ⟨hp, hj, hsent⟩ := he
  have hs := started_of_progresses hp
  obtain ⟨w, hw⟩ := Option.isSome_iff_exists.mp hsent
  simp only [Sync.acts, hw] at ha
  have htraffic := (h.traffic i hs).form hj ha
  obtain ⟨_, l, _, _, _, rfl⟩ := form_cases ha
  refine h.progress hp rfl htraffic ((h.collective i hs).putLog rfl rfl rfl rfl) ?_ (h.contributed i) (h.aligned i) ?_
  · exact ⟨fun _ hx => hx, fun hx => hx, fun hx => hx, fun hx => hx⟩
  · exact fun hen => ⟨(h.entered i hen).1, fun k hk => (h.entered i hen).2 k (List.mem_filter.mp hk).1⟩

theorem Follows.join (h : Follows cs s) (he : s.Enabled (.join i))
    (ha : s.acts (.join i) = .ok r) : Follows cs (Function.update s i r) := by
  obtain ⟨hp, hno, hright⟩ := he
  have hs := started_of_progresses hp
  have hasked := (h.collective (right i) (h.started hright)).joined hright
  have haligned : ¬(s i).aligned.isSome := fun hx => hno (h.contributed i hx i)
  have hcoll := (h.collective i hs).join haligned hasked ha
  have ha' : (s i).phase ≠ .inBarrier ∧ r = { s i with contributed := some (s i).log.regions } := by
    change (s i).join = .ok r at ha
    unfold SyncRank.join at ha
    split at ha
    next => cases ha
    next hb => exact ⟨hb, (Except.ok.inj ha).symm⟩
  obtain ⟨hb, rfl⟩ := ha'
  refine h.progress hp rfl ((h.traffic i hs).of_only (fun _ => rfl) rfl rfl rfl) hcoll ?_ (h.contributed i)
    (h.aligned i) fun hen => ?_
  · exact ⟨fun _ hx => hx, fun _ => rfl, fun hx => hx, fun hx => hx⟩
  · rcases hen with hen | ⟨_, hen⟩
    · exact absurd hen hb
    · rcases hp with hp | hp
      · cases hen.symm.trans hp
      · cases hen.symm.trans hp

theorem Follows.align (h : Follows cs s) (hr : ∀ i, Reachable (cs i).1) (ht : ∀ i, (cs i).1.SyncTarget (cs i).2)
    (he : s.Enabled (.align i)) (ha : s.acts (.align i) = .ok r) : Follows cs (Function.update s i r) := by
  obtain ⟨hp, hall, hno⟩ := he
  have hs := started_of_progresses hp
  have hlatest := h.latest_eq hall
  cases hl : s.latest with
  | none =>
    simp only [Sync.acts, hl] at ha
    cases Except.ok.inj ha
    rw [Function.update_eq_self]
    exact h
  | some latest =>
    simp only [Sync.acts, hl] at ha
    rw [hl] at hlatest
    have hcoll := (h.collective i hs).align (reachable_wellFormed (hr i)) hno hlatest.symm
      (resumeLatest_used hr ht hlatest.symm) ha
    have htraffic := (h.traffic i hs).align ha
    obtain ⟨_, c, _, rfl⟩ := align_cases ha
    refine h.progress hp rfl htraffic hcoll ?_ (fun _ => hall) (h.aligned i) fun hen => ?_
    · exact ⟨fun _ hx => hx, fun hx => hx, fun _ => rfl, fun hx => hx⟩
    · exact ⟨(h.entered i hen).1, (h.entered i hen).2⟩

theorem Follows.agree (h : Follows cs s) (he : s.Enabled (.agree i))
    (ha : s.acts (.agree i) = .ok r) : Follows cs (Function.update s i r) := by
  obtain ⟨hp, hall, hno⟩ := he
  have hs := started_of_progresses hp
  have hlatest := h.latest_eq fun j => h.contributed j (hall j) j
  cases hl : s.latest with
  | none =>
    simp only [Sync.acts, hl] at ha
    cases Except.ok.inj ha
    rw [Function.update_eq_self]
    exact h
  | some latest =>
    rw [hl] at hlatest
    have hearliest := h.earliest_eq hall hlatest.symm
    cases hle : s.earliest with
    | none =>
      simp only [Sync.acts, hl, hle] at ha
      cases Except.ok.inj ha
      rw [Function.update_eq_self]
      exact h
    | some least =>
      simp only [Sync.acts, hl, hle] at ha
      cases Except.ok.inj ha
      have hcoll := (h.collective i hs).agree (hearliest.symm.trans hle) hlatest.symm
      refine h.progress hp rfl ((h.traffic i hs).of_only (fun _ => rfl) rfl rfl rfl) hcoll ?_ (h.contributed i)
        (fun _ => hall) fun hen => ?_
      · exact ⟨fun _ hx => hx, fun hx => hx, fun hx => hx, fun hx => hx⟩
      · exact ⟨fun hx => hx.2 rfl, (h.entered i hen).2⟩

theorem Follows.enter (h : Follows cs s) (he : s.Enabled (.enter i))
    (ha : s.acts (.enter i) = .ok r) : Follows cs (Function.update s i r) := by
  obtain ⟨hp, htasks, hno⟩ := he
  have hs := started_of_progresses (Or.inl hp)
  cases Except.ok.inj ha
  refine h.update (fun _ hx => by cases hx) ((h.traffic i hs).of_only (fun _ => rfl) rfl rfl rfl) ?_ ?_
    (h.contributed i) (h.aligned i) ?_ fun xs hx => by cases hx
  · have hc := h.collective i hs
    exact ⟨hc.contributed, hc.starts, hc.joined, hc.unaligned, hc.aligned, hc.agreed⟩
  · exact ⟨fun _ hx => hx, fun hx => hx, fun hx => hx, fun _ => Or.inl rfl⟩
  · intro _
    refine ⟨hno, fun k hk => ?_⟩
    dsimp only at hk
    rw [htasks] at hk
    cases hk

theorem Follows.leave (h : Follows cs s) (he : s.Enabled (.leave i))
    (ha : s.acts (.leave i) = .ok r) : Follows cs (Function.update s i r) := by
  obtain ⟨hp, hall, _⟩ := he
  have hs := started_of_progresses (Or.inr hp)
  obtain ⟨htasks, xs, hxs, rfl⟩ := leave_cases ha
  refine h.update (fun _ hx => by cases hx) ((h.traffic i hs).of_only (fun _ => rfl) rfl rfl rfl) ?_ ?_
    (h.contributed i) (h.aligned i) ?_ fun ys hys => ?_
  · have hc := h.collective i hs
    exact ⟨hc.contributed, hc.starts, hc.joined, hc.unaligned, hc.aligned, hc.agreed⟩
  · exact ⟨fun _ hx => hx, fun hx => hx, fun hx => hx, fun _ => Or.inr ⟨xs, rfl⟩⟩
  · exact fun _ => h.entered i (Or.inl hp)
  · cases SyncPhase.left.inj hys
    exact ⟨hall, htasks, hxs⟩

theorem follows_act (hr : ∀ i, Reachable (cs i).1) (ht : ∀ i, (cs i).1.SyncTarget (cs i).2) (h : Follows cs s)
    {a : SyncAction n} (he : s.Enabled a) (ha : s.acts a = .ok r) : Follows cs (Function.update s a.rank r) := by
  cases a with
  | reset i => exact h.reset hr ht he ha
  | reply i j => exact h.reply he ha
  | form i j => exact h.form he ha
  | join i => exact h.join he ha
  | align i => exact h.align hr ht he ha
  | agree i => exact h.agree he ha
  | enter i => exact h.enter he ha
  | leave i => exact h.leave he ha

/-- Every order of actions keeps to the course. -/
theorem follows_run (hr : ∀ i, Reachable (cs i).1) (ht : ∀ i, (cs i).1.SyncTarget (cs i).2) {as : List (SyncAction n)}
    (h : (consistencySync n).run (call cs) as = .ok s) : Follows cs s := by
  refine Schedule.run_invariant (I := Follows cs) (fun s a t hs he ha => ?_) (follows_call cs) h
  obtain ⟨r, hr', rfl⟩ := Except.map_eq_ok_iff.mp ha
  exact follows_act hr ht hs he hr'

end Sync

end Fenix
