import Fenix.RankLogReset

namespace Fenix.RankLog

/-- The peer is owed nothing of an earlier sync, and the next send is the `n`th. -/
structure Counted (l : RankLog) (n : Int) : Prop where
  unsent : l.alreadySent < 0
  nonneg : 0 ≤ n
  next : l.curRegion.Valid ∧ l.nextSend = n ∨ ¬l.curRegion.Valid ∧ n = 0

/-- The log is at the region that is active, or can begin it. -/
def Placed (l : RankLog) (active : Int) : Prop :=
  l.curRegion.Valid ∧ l.curRegion.id = active ∨ ¬l.curRegion.Valid ∧ l.curRegion.id < active

theorem appendRegion_alreadySent {l l' : RankLog} {r : Region} (h : l.appendRegion r = .ok l') :
    l'.alreadySent = l.alreadySent := by
  obtain ⟨_, rfl⟩ := appendRegion_eq h
  exact eraseSends_alreadySent l _

theorem Counted.next_of_valid {l : RankLog} {n : Int} (h : l.Counted n) (hv : l.curRegion.Valid) : l.nextSend = n := by
  rcases h.next with hn | hn
  · exact hn.2
  · exact absurd hv hn.1

theorem Counted.eq_zero {l : RankLog} {n : Int} (h : l.Counted n) (hv : ¬l.curRegion.Valid) : n = 0 := by
  rcases h.next with hn | hn
  · exact absurd hn.1 hv
  · exact hn.2

section Operations

variable {l l' m : RankLog} {active n : Int}

theorem Counted.ensureConsistency (h : l.Counted n) (hwf : l.WellFormed) (ha : 0 ≤ active)
    (he : l.ensureConsistency active = .ok m) : m.Counted n := by
  have hv := (hwf.ensureConsistency ha he).2.1
  obtain ⟨m', hm, he⟩ := Except.bind_eq_ok_iff.mp he
  split at he
  next => cases he
  next =>
    cases Except.ok.inj he
    split at hm
    next => exact Except.ok.inj hm ▸ h
    next hn =>
      refine ⟨(appendRegion_alreadySent hm).trans_lt h.unsent, h.nonneg, Or.inl ⟨hv, ?_⟩⟩
      obtain ⟨_, rfl⟩ := appendRegion_eq hm
      exact (h.eq_zero hn).symm

/-- The send is issued, under the next number. -/
theorem Counted.send (h : l.Counted n) (hwf : l.WellFormed) (ha : 0 ≤ active) {buf : MPIBuffer} {tag : Int}
    {out : Option SendLog} (hs : l.send active buf tag = .ok (l', out)) :
    l'.Counted (n + 1) ∧ out = some ⟨n, buf, tag⟩ := by
  obtain ⟨m, hm, _, _, rfl, rfl⟩ := send_cases hs
  obtain ⟨hmwf, hv, _⟩ := hwf.ensureConsistency ha hm
  have hc := h.ensureConsistency hwf ha hm
  have hnext := hc.next_of_valid hv
  have hunsent := hc.unsent
  have hnonneg := h.nonneg
  refine ⟨⟨hunsent, by omega, Or.inl ⟨hv.oneSent, ?_⟩⟩, ?_⟩
  · exact congrArg (· + 1) hnext
  · rw [hnext, if_neg (by omega)]

/-- The first use of a log begins its traffic. -/
theorem ensureConsistency_of_not_valid (hv : ¬l.curRegion.Valid) (hm : l.ensureConsistency active = .ok m) :
    l.curRegion.id < active ∧ m.alreadySent = l.alreadySent ∧ m.nextSend = 0 := by
  obtain ⟨m', ha, hm⟩ := Except.bind_eq_ok_iff.mp hm
  rw [if_neg hv] at ha
  split at hm
  next => cases hm
  next =>
    cases Except.ok.inj hm
    have hskip := appendRegion_alreadySent ha
    obtain ⟨hlt, rfl⟩ := appendRegion_eq ha
    exact ⟨hlt, hskip, rfl⟩

theorem Counted.irecv (h : l.Counted n) (hwf : l.WellFormed) (ha : 0 ≤ active) {r : IrecvLog}
    (hs : l.irecv active r = .ok l') : l'.Counted n := by
  obtain ⟨_, m, hm, _, rfl⟩ := irecv_cases hs
  have hc := h.ensureConsistency hwf ha hm
  exact ⟨hc.unsent, hc.nonneg, hc.next⟩

theorem Counted.wait (h : l.Counted n) {request : Nat} (hs : l.wait request = .ok l') : l'.Counted n := by
  obtain ⟨_, hv, rfl⟩ := wait_cases hs
  exact ⟨h.unsent, h.nonneg, Or.inl ⟨hv.oneReceived, h.next_of_valid hv⟩⟩

theorem Counted.beginRegion (h : l.Counted n) {id : Int} (hs : l.beginRegion id = .ok l') : l'.Counted n := by
  obtain ⟨hid, ⟨rfl, _⟩ | ⟨hv, ha⟩ | ⟨hv, ha⟩⟩ := beginRegion_cases hs
  · exact h
  · refine ⟨(appendRegion_alreadySent ha).trans_lt h.unsent, h.nonneg, Or.inl ⟨?_, ?_⟩⟩
    · obtain ⟨_, rfl⟩ := appendRegion_eq ha
      exact appended_valid hid hv
    · obtain ⟨_, rfl⟩ := appendRegion_eq ha
      exact h.next_of_valid hv
  · refine ⟨(appendRegion_alreadySent ha).trans_lt h.unsent, h.nonneg, Or.inl ⟨?_, ?_⟩⟩
    · obtain ⟨_, rfl⟩ := appendRegion_eq ha
      exact Region.valid_starting hid (Int.le_refl 0) (Int.le_refl 0)
    · obtain ⟨_, rfl⟩ := appendRegion_eq ha
      exact (h.eq_zero hv).symm

theorem Placed.ensureConsistency (h : l.Placed active) :
    ∃ m, l.ensureConsistency active = .ok m ∧ m.curRegion.id = active := by
  unfold RankLog.ensureConsistency
  rcases h with ⟨hv, hid⟩ | ⟨hv, hlt⟩
  · refine ⟨l, ?_, hid⟩
    rw [if_pos hv]
    exact if_neg (by omega)
  · rw [if_neg hv]
    have happend : l.appendRegion (.starting active 0 0) = .ok
        { l.eraseSends l.regions.front with regions := l.regions.push (.starting active 0 0) } := if_pos hlt
    rw [happend]
    exact ⟨_, if_neg (Int.lt_irrefl active), rfl⟩

/-- What is logged last is the send before the next one. -/
theorem WellFormed.last_send (h : l.WellFormed) {s : SendLog} (hs : s ∈ l.sends.last?) : s.idx = l.nextSend - 1 := by
  have hmem := IndexedSet.last?_mem hs
  have hlt := idx_lt_nextSend h hmem
  by_contra hne
  obtain ⟨s', hs', hidx⟩ := h.closed s hmem (l.nextSend - 1) (by omega) (by omega)
  have hle := IndexedSet.key_le_last hs hs'
  omega

theorem Placed.send (h : l.Placed active) (hwf : l.WellFormed) (ha : 0 ≤ active) (buf : MPIBuffer) (tag : Int) :
    ∃ l' out, l.send active buf tag = .ok (l', out) := by
  obtain ⟨m, hm, hid⟩ := h.ensureConsistency
  have hmwf := (hwf.ensureConsistency ha hm).1
  unfold RankLog.send
  rw [hm]
  refine ⟨_, _, (if_neg (not_not.mpr hid)).trans (if_neg ?_)⟩
  rintro ⟨s, hs, hne⟩
  exact hne (hmwf.last_send hs)

theorem Placed.irecv (h : l.Placed active) (hnone : l.activeIrecv = none) (r : IrecvLog) :
    ∃ l', l.irecv active r = .ok l' := by
  obtain ⟨m, hm, hid⟩ := h.ensureConsistency
  unfold RankLog.irecv
  rw [if_neg (by simp [hnone]), hm]
  exact ⟨_, if_neg (not_not.mpr hid)⟩

theorem wait_ok {r : IrecvLog} (hr : l.activeIrecv = some r) (hv : l.curRegion.Valid) :
    ∃ l', l.wait r.request = .ok l' := by
  unfold RankLog.wait
  rw [hr]
  exact ⟨_, (if_neg (not_not.mpr rfl)).trans (if_neg (not_not.mpr hv))⟩

theorem placed_send (hwf : l.WellFormed) (ha : 0 ≤ active) {buf : MPIBuffer} {tag : Int} {out : Option SendLog}
    (hs : l.send active buf tag = .ok (l', out)) : l'.Placed active := by
  obtain ⟨m, hm, hid, _, rfl, _⟩ := send_cases hs
  exact Or.inl ⟨(hwf.ensureConsistency ha hm).2.1.oneSent, hid⟩

theorem placed_irecv (hwf : l.WellFormed) (ha : 0 ≤ active) {r : IrecvLog} (hs : l.irecv active r = .ok l') :
    l'.Placed active := by
  obtain ⟨_, m, hm, hid, rfl⟩ := irecv_cases hs
  exact Or.inl ⟨(hwf.ensureConsistency ha hm).2.1, hid⟩

theorem Placed.wait (h : l.Placed active) {request : Nat} (hs : l.wait request = .ok l') : l'.Placed active := by
  obtain ⟨_, hv, rfl⟩ := wait_cases hs
  rcases h with ⟨_, hid⟩ | ⟨hn, _⟩
  · exact Or.inl ⟨hv.oneReceived, hid⟩
  · exact absurd hv hn

/-- Regions begun in order leave the log at the last one. -/
theorem Placed.beginRegion (h : l.Placed active) {id : Int} (hid : active ≤ id) (hs : l.beginRegion id = .ok l') :
    l'.Placed id := by
  obtain ⟨hnonneg, ⟨rfl, he, hle⟩ | ⟨hv, ha⟩ | ⟨hv, ha⟩⟩ := beginRegion_cases hs
  · rcases h with ⟨hv, heq⟩ | ⟨hn, hlt⟩
    · exact Or.inl ⟨hv, by omega⟩
    · omega
  · obtain ⟨_, rfl⟩ := appendRegion_eq ha
    exact Or.inl ⟨appended_valid hnonneg hv, rfl⟩
  · obtain ⟨_, rfl⟩ := appendRegion_eq ha
    exact Or.inl ⟨Region.valid_starting hnonneg (Int.le_refl 0) (Int.le_refl 0), rfl⟩

end Operations

end Fenix.RankLog
