import Fenix.RankLogReplay

namespace Fenix

namespace Region

theorem not_holds_starting {id s r i : Int} : ¬(starting id s r).Holds i := by
  intro h
  have hlo := h.2.1
  have hhi := h.2.2
  rw [starting_send, MsgRange.start_first] at hlo
  rw [starting_send, MsgRange.start_next] at hhi
  omega

theorem Precedes.not_holds {a b : Region} (h : a.Precedes b) {i : Int} (ha : a.Holds i) : ¬b.Holds i := by
  intro hb
  rcases h with h | h
  · have hge := ha.1.1
    omega
  · have hlt := ha.2.2
    have hle := hb.2.1
    omega

end Region

namespace RankLog

variable {l l' : RankLog}

/-- What the regions that are left hold has been held before, and its sends are not erased. -/
theorem Stocked.of_held (h : l.Stocked)
    (hr : ∀ r ∈ l'.regions.toList, ∀ i, r.Holds i → ∃ r' ∈ l.regions.toList, r'.Holds i)
    (hs : ∀ s ∈ l.sends, (∃ r ∈ l'.regions.toList, r.Holds s.idx) → s ∈ l'.sends) : l'.Stocked := by
  intro r hmem i hi
  obtain ⟨r', hmem', hi'⟩ := hr r hmem i hi
  obtain ⟨s, hsend, rfl⟩ := h r' hmem' i hi'
  exact ⟨s, hs s hsend ⟨r, hmem, hi⟩, rfl⟩

theorem stocked_create (maxRegions : Nat) (rank : Int) : (create maxRegions rank).Stocked := by
  intro r hr i hi
  change r ∈ (Window.fill (maxRegions - 1) ({} : Region)).toList at hr
  rw [Window.toList_fill] at hr
  have hv := hi.1
  rw [List.eq_of_mem_replicate hr] at hv
  exact absurd hv Region.not_valid_default

theorem Stocked.appendRegion (h : l.Stocked) (hwf : l.WellFormed) {id s r : Int}
    (ha : l.appendRegion (.starting id s r) = .ok l') : l'.Stocked := by
  obtain ⟨_, rfl⟩ := appendRegion_eq ha
  refine h.of_held (fun y hy i hi => ?_) fun t ht ⟨y, hy, hi⟩ => ?_
  · rcases Window.mem_push hy with hy | rfl
    · exact ⟨y, List.mem_of_mem_tail hy, hi⟩
    · exact absurd hi Region.not_holds_starting
  · rcases Window.mem_push hy with hy | rfl
    · exact mem_eraseSends.mpr ⟨ht, not_front_holds hwf hy hi⟩
    · exact absurd hi Region.not_holds_starting

theorem Stocked.ensureConsistency (h : l.Stocked) (hwf : l.WellFormed) {active : Int}
    (he : l.ensureConsistency active = .ok l') : l'.Stocked := by
  obtain ⟨m, hm, he⟩ := Except.bind_eq_ok_iff.mp he
  split at he
  next => cases he
  next =>
    cases Except.ok.inj he
    split at hm
    next => exact Except.ok.inj hm ▸ h
    next => exact h.appendRegion hwf hm

theorem Stocked.send (h : l.Stocked) (hwf : l.WellFormed) {active tag : Int} (ha : 0 ≤ active) {buf : MPIBuffer}
    {out : Option SendLog} (hs : l.send active buf tag = .ok (l', out)) : l'.Stocked := by
  obtain ⟨m, hm, _, _, rfl, _⟩ := send_cases hs
  have hstock := h.ensureConsistency hwf hm
  obtain ⟨hmwf, hv, _⟩ := hwf.ensureConsistency ha hm
  have hlater : ∀ r ∈ m.regions.toList, ∀ i, r.Holds i → ∃ s ∈ m.sends.insert ⟨m.nextSend, buf, tag⟩, s.idx = i := by
    intro r hr i hi
    obtain ⟨s, hs, hidx⟩ := hstock r hr i hi
    exact ⟨s, (mem_insert_next hmwf).mpr (Or.inl hs), hidx⟩
  intro r hr i hi
  rcases Window.mem_toList.mp hr with hr | rfl
  · exact hlater r (Window.mem_toList.mpr (Or.inl hr)) i hi
  · by_cases hnew : i = m.nextSend
    · exact ⟨_, (mem_insert_next hmwf).mpr (Or.inr rfl), hnew.symm⟩
    · have hlo := hi.2.1
      have hhi : i < m.nextSend + 1 := hi.2.2
      exact hlater _ curRegion_mem i ⟨hv, hlo, by unfold nextSend at hhi hnew; omega⟩

theorem Stocked.irecv (h : l.Stocked) (hwf : l.WellFormed) {active : Int} {r : IrecvLog}
    (hr : l.irecv active r = .ok l') : l'.Stocked := by
  obtain ⟨_, m, hm, _, rfl⟩ := irecv_cases hr
  have hstock := h.ensureConsistency hwf hm
  exact hstock

theorem Stocked.wait (h : l.Stocked) {request : Nat} (hw : l.wait request = .ok l') : l'.Stocked := by
  obtain ⟨_, hv, rfl⟩ := wait_cases hw
  intro r hr i hi
  rcases Window.mem_toList.mp hr with hr | rfl
  · exact h r (Window.mem_toList.mpr (Or.inl hr)) i hi
  · exact h _ curRegion_mem i ⟨hv, hi.2⟩

theorem Stocked.beginRegion (h : l.Stocked) (hwf : l.WellFormed) {id : Int} (hb : l.beginRegion id = .ok l') :
    l'.Stocked := by
  obtain ⟨_, ⟨rfl, _⟩ | ⟨_, ha⟩ | ⟨_, ha⟩⟩ := beginRegion_cases hb
  · exact h
  · exact h.appendRegion hwf ha
  · exact h.appendRegion hwf ha

theorem Stocked.eraseRegions (h : l.Stocked) (hwf : l.WellFormed) (k : Nat) : (l.eraseRegions k).Stocked := by
  have hkept : ∀ r ∈ (l.eraseRegions k).regions.toList, ∀ i, r.Holds i → r ∈ l.regions.toList.take k := by
    intro r hr i hi
    rcases Window.mem_keep hr with rfl | hr
    · exact absurd hi.1 Region.not_valid_default
    · exact hr
  refine h.of_held (fun r hr i hi => ⟨r, List.mem_of_mem_take (hkept r hr i hi), hi⟩) fun s hs ⟨r, hr, hi⟩ => ?_
  refine mem_eraseRegions.mpr ⟨hs, fun y hy => ?_⟩
  exact (Window.take_rel_drop hwf.ordered (hkept r hr _ hi) hy).not_holds hi

theorem Stocked.restartRegion (h : l.Stocked) (hwf : l.WellFormed) (hv : l.curRegion.Valid) :
    l.restartRegion.Stocked := by
  have holder : ∀ r ∈ l.restartRegion.regions.toList, ∀ i, r.Holds i → r ∈ l.regions.older := by
    intro r hr i hi
    rw [restartRegion_regions, Window.toList_setCur] at hr
    rcases List.mem_append.mp hr with hr | hr
    · exact hr
    · cases List.mem_singleton.mp hr
      have hlo : l.curRegion.send.first ≤ i := hi.2.1
      have hhi : i < l.curRegion.send.first := hi.2.2
      omega
  refine h.of_held (fun r hr i hi => ?_) fun s hs ⟨r, hr, hi⟩ => ?_
  · exact ⟨r, Window.mem_toList.mpr (Or.inl (holder r hr i hi)), hi⟩
  · refine (mem_restartRegion hwf hv).mpr ⟨hs, ?_⟩
    rcases older_precedes_cur hwf (holder r hr _ hi) with hp | hp
    · have hge := hi.1.1
      omega
    · exact Int.lt_of_lt_of_le hi.2.2 hp.2.2.1

theorem Stocked.resets (h : l.Stocked) (hwf : l.WellFormed) {t : Int} (ht : 0 ≤ t) (hr : Resets l t l') :
    l'.Stocked := by
  cases hr with
  | invalid => exact h
  | forgotten => exact h.eraseRegions hwf _
  | older _ _ hk _ => exact (h.eraseRegions hwf _).restartRegion (hwf.eraseRegions _) hk
  | current hv _ => exact h.restartRegion hwf hv
  | next hv hgt =>
    have happend := appendRegion_following hgt
    exact (h.appendRegion hwf happend).restartRegion (hwf.appendFollowing ht hv happend) (appended_valid ht hv)

theorem Stocked.resetConsistency (h : l.Stocked) (hwf : l.WellFormed) {t : Int}
    (hr : l.resetConsistency t = .ok l') : l'.Stocked := by
  by_cases ht : 0 ≤ t
  · exact h.resets hwf ht (resets_of_ok ht hr).2
  · by_cases hc : t = -1
    · subst hc
      cases Except.ok.inj ((resetConsistency_continue l).symm.trans hr)
      exact h
    · unfold RankLog.resetConsistency at hr
      rw [if_pos (by omega)] at hr
      cases hr

/-- The current region is replaced by one without messages. -/
theorem Stocked.exchangeCur (h : l.Stocked) {r : Region} (hr : ∀ i, ¬r.Holds i)
    (hregions : l'.regions = l.regions.setCur r) (hsends : l'.sends = l.sends) : l'.Stocked := by
  intro y hy i hi
  rw [hregions, Window.toList_setCur] at hy
  rw [hsends]
  rcases List.mem_append.mp hy with hy | hy
  · exact h y (Window.mem_toList.mpr (Or.inl hy)) i hi
  · cases List.mem_singleton.mp hy
    exact absurd hi (hr i)

theorem Stocked.offerConsistency (h : l.Stocked) {active : Int} (ho : l.offerConsistency active = .ok l') :
    l'.Stocked := by
  obtain ⟨_, rfl⟩ | ⟨_, _, rfl⟩ := offerConsistency_cases ho
  · exact h
  · refine h.exchangeCur (r := { id := active }) (fun i hi => ?_) rfl rfl
    have hge : (0 : Int) ≤ -1 := hi.1.2.1.1
    omega

theorem Stocked.formConsistency (h : l.Stocked) (hwf : l.WellFormed) {remote : Window Region}
    {out : List SendLog × Option IrecvLog} (hf : l.formConsistency remote = .ok (l', out)) : l'.Stocked := by
  obtain ⟨hr | ⟨id, s, r, hr, _⟩, _, hsends, _⟩ := formConsistency_realigned hwf hf
  · unfold Stocked
    rw [hr, hsends]
    exact h
  · exact h.exchangeCur (fun _ => Region.not_holds_starting) hr hsends

end RankLog

end Fenix
