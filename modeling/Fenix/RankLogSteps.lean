import Fenix.RankLogErase

namespace Fenix.RankLog

theorem sends_empty_of_fresh {l : RankLog} (h : l.WellFormed) (hf : l.curRegion.Fresh) (s : SendLog) :
    s ∉ l.sends := by
  intro hs
  obtain ⟨r, hr, hh⟩ := h.logged s hs
  have h₁ := hh.1.2.1.1
  have h₂ := hh.2.1
  have h₃ := idx_lt_nextSend h hs
  have h₄ := hf.2.1
  simp only [nextSend, MsgRange.Fresh] at h₃ h₄
  omega

/-- A log that holds no send may exchange its current region for a later one. -/
theorem WellFormed.exchangeCur {l : RankLog} (h : l.WellFormed) {r : Region} (hs : r.Shaped)
    (hp : ∀ y ∈ l.regions.older, y.Precedes r) (he : ∀ s, s ∉ l.sends) : (l.setCur r).WellFormed :=
  h.setCur hs hp (fun s hs => absurd hs (he s)) fun s hs => absurd hs (he s)

theorem precedes_of_fresh {l : RankLog} (h : l.WellFormed) (hf : l.curRegion.Fresh) {r : Region}
    (hv : r.Valid) (hid : l.curRegion.id ≤ r.id) : ∀ y ∈ l.regions.older, y.Precedes r := by
  intro y hy
  have h₁ := hf.2.1.1
  have h₂ := hf.2.2.1
  have h₃ := hv.2.1.1
  have h₄ := hv.2.2.1
  exact (older_precedes_cur h hy).trans_start hid hv (by omega) (by omega)

theorem precedes_of_not_valid {l : RankLog} (h : l.WellFormed) (hv : ¬l.curRegion.Valid) (r : Region) :
    ∀ y ∈ l.regions.older, y.Precedes r :=
  fun _ hy => Or.inl (older_id_of_not_valid h hv hy)

/-- How forming consistency may change the window of one side. -/
def Realigned (w w' : Window Region) : Prop :=
  w' = w ∨ ∃ id s r, w' = w.setCur (.starting id s r) ∧ w.cur.id ≤ id ∧ (w.cur.Fresh ∨ ¬w.cur.Valid)

theorem Region.Fresh.valid {r : Region} (h : r.Fresh) : r.Valid := by
  have h₁ := h.2.1
  have h₂ := h.2.2
  simp only [MsgRange.Fresh] at h₁ h₂
  refine ⟨h.1, ⟨?_, ?_⟩, ⟨?_, ?_⟩⟩ <;> omega

theorem checkOrdered_cases {a b a' b' : Window Region} (h : checkOrdered a b = .ok (a', b')) :
    ∃ ra ∈ a.toList, ra.id = b.cur.id ∧
      (a' = a ∧ b' = b ∧ StartsMatch ra b.cur ∨
       a' = a ∧ b' = b.setCur (mirrored b.cur.id ra) ∧ b.cur.Fresh ∨
       a' = a.setCur (mirrored ra.id b.cur) ∧ b' = b ∧ ra.Fresh ∧ ra.id = a.cur.id) := by
  unfold checkOrdered at h
  split at h
  next => cases h
  next ra hra =>
    dsimp only at h
    split at h
    next => cases h
    next hid =>
      refine ⟨ra, (Window.lowerBound_mem hra).1, (not_not.mp hid).symm, ?_⟩
      split at h
      next hm =>
        cases Except.ok.inj h
        exact Or.inl ⟨rfl, rfl, hm⟩
      next =>
        split at h
        next hf =>
          cases Except.ok.inj h
          exact Or.inr (Or.inl ⟨rfl, rfl, hf⟩)
        next =>
          split at h
          next hf =>
            cases Except.ok.inj h
            exact Or.inr (Or.inr ⟨rfl, rfl, hf⟩)
          next => cases h

theorem checkConsistent_realigned {mine remote mine' remote' : Window Region}
    (ho : mine.toList.Pairwise Region.Precedes)
    (h : checkConsistent mine remote = .ok (mine', remote')) : Realigned mine mine' := by
  unfold checkConsistent at h
  split at h
  next =>
    obtain ⟨⟨a', b'⟩, hc, hs⟩ := Except.map_eq_ok_iff.mp h
    obtain ⟨rfl, rfl⟩ := Prod.mk.inj hs
    obtain ⟨ra, _, _, h | h | h⟩ := checkOrdered_cases hc
    · exact Or.inl h.2.1
    · exact Or.inr ⟨_, _, _, h.2.1, Int.le_refl _, Or.inl h.2.2⟩
    · exact Or.inl h.2.1
  next =>
    obtain ⟨ra, hra, _, h | h | ⟨h, _, hf, hid⟩⟩ := checkOrdered_cases h
    · exact Or.inl h.1
    · exact Or.inl h.1
    · have hcur := Region.eq_cur_of_id_eq ho hra (Region.Fresh.valid hf) hid
      exact Or.inr ⟨_, _, _, h, Int.le_of_eq hid.symm, Or.inl (hcur ▸ hf)⟩

theorem recoverOrdered_cases {curId : Int} {a b a' b' : Window Region}
    (h : recoverOrdered curId a b = .ok (a', b')) :
    a' = a ∧ ∃ ra ∈ a.toList, b.cur.id ≤ ra.id ∧
      (ra.id = b.cur.id ∧ b' = b.setCur (mirrored b.cur.id ra) ∨
       ra.id ≠ b.cur.id ∧ ra.Fresh ∧ b' = b.setCur (.starting ra.id 0 0)) := by
  unfold recoverOrdered at h
  dsimp only at h
  split at h
  next => cases h
  next =>
    split at h
    next => cases h
    next ra hra =>
      obtain ⟨hmem, hle⟩ := Window.lowerBound_mem hra
      split at h
      next hne =>
        split at h
        next hf =>
          cases Except.ok.inj h
          exact ⟨rfl, ra, hmem, hle, Or.inr ⟨hne, hf, rfl⟩⟩
        next => cases h
      next heq =>
        cases Except.ok.inj h
        exact ⟨rfl, ra, hmem, hle, Or.inl ⟨not_not.mp heq, rfl⟩⟩

theorem recoverInvalid_realigned {mine remote mine' remote' : Window Region}
    (h : recoverInvalid mine remote = .ok (mine', remote')) : Realigned mine mine' := by
  unfold recoverInvalid at h
  split at h
  next hv =>
    split at h
    next =>
      obtain ⟨⟨a', b'⟩, hc, hs⟩ := Except.map_eq_ok_iff.mp h
      obtain ⟨rfl, rfl⟩ := Prod.mk.inj hs
      obtain ⟨_, ra, _, hle, h | h⟩ := recoverOrdered_cases hc
      · exact Or.inr ⟨_, _, _, h.2, Int.le_refl _, Or.inr hv⟩
      · exact Or.inr ⟨_, _, _, h.2.2, hle, Or.inr hv⟩
    next => cases h
  next => exact Or.inl (recoverOrdered_cases h).1

/-- What a completed exchange leaves of the log. -/
theorem formConsistency_cases {l l' : RankLog} {remote : Window Region}
    {out : List SendLog × Option IrecvLog} (h : l.formConsistency remote = .ok (l', out)) :
    ∃ mine theirs,
      reconcile l.regions remote = .ok (mine, theirs) ∧ mine.cur.Valid ∧ theirs.cur.Valid ∧
      l' = { l with regions := mine, alreadySent := theirs.cur.recv.next - 1 } ∧
      l'.replayMessages = .ok out := by
  unfold formConsistency at h
  obtain ⟨⟨mine, theirs⟩, hc, h⟩ := Except.bind_eq_ok_iff.mp h
  dsimp only at h
  split at h
  next hv =>
    obtain ⟨replayed, hr, h⟩ := Except.bind_eq_ok_iff.mp h
    cases Except.ok.inj h
    exact ⟨mine, theirs, hc, hv.1, hv.2, rfl, hr⟩
  next => cases h

theorem realigned_of_reconcile {mine remote mine' remote' : Window Region} (ho : mine.toList.Pairwise Region.Precedes)
    (h : reconcile mine remote = .ok (mine', remote')) : Realigned mine mine' := by
  unfold reconcile at h
  split at h
  next => exact checkConsistent_realigned ho h
  next => exact recoverInvalid_realigned h

theorem formConsistency_realigned {l l' : RankLog} (h : l.WellFormed) {remote : Window Region}
    {out : List SendLog × Option IrecvLog} (hf : l.formConsistency remote = .ok (l', out)) :
    Realigned l.regions l'.regions ∧ l'.curRegion.Valid ∧ l'.sends = l.sends ∧ l'.rank = l.rank ∧
      l'.activeIrecv = l.activeIrecv := by
  obtain ⟨mine, theirs, hc, hmv, _, rfl, _⟩ := formConsistency_cases hf
  exact ⟨realigned_of_reconcile h.ordered hc, hmv, rfl, rfl, rfl⟩

/-- Only the window matters, as the sends stay. -/
theorem WellFormed.of_setCur {l l' : RankLog} {r : Region} (hwf : (l.setCur r).WellFormed)
    (hr : l'.regions = l.regions.setCur r) (hs : l'.sends = l.sends) : l'.WellFormed := by
  refine ⟨?_, ?_, ?_, ?_⟩
  · rw [hr]
    exact hwf.shaped
  · rw [hr]
    exact hwf.ordered
  · rw [hr, hs]
    exact hwf.logged
  · rw [hs, nextSend, curRegion, hr]
    exact hwf.closed

theorem WellFormed.realigned {l : RankLog} (h : l.WellFormed) {w : Window Region} (hr : Realigned l.regions w)
    (hv : w.cur.Valid) (skip : Int) : ({ l with regions := w, alreadySent := skip } : RankLog).WellFormed := by
  rcases hr with rfl | ⟨id, sf, rf, rfl, hid, hc⟩
  · exact ⟨h.shaped, h.ordered, h.logged, h.closed⟩
  · refine WellFormed.of_setCur (l := l) ?_ rfl rfl
    have hrv : (Region.starting id sf rf).Valid := hv
    rcases hc with hc | hc
    · exact h.exchangeCur hrv.shaped (precedes_of_fresh h hc hrv hid) (sends_empty_of_fresh h hc)
    · exact h.exchangeCur hrv.shaped (precedes_of_not_valid h hc _) (sends_empty_of_not_valid h hc)

theorem WellFormed.formConsistency {l l' : RankLog} (h : l.WellFormed) {remote : Window Region}
    {out : List SendLog × Option IrecvLog} (hf : l.formConsistency remote = .ok (l', out)) :
    l'.WellFormed := by
  obtain ⟨mine, theirs, hc, hmv, _, rfl, _⟩ := formConsistency_cases hf
  exact h.realigned (realigned_of_reconcile h.ordered hc) hmv _

theorem WellFormed.ensureConsistency {l l' : RankLog} (h : l.WellFormed) {active : Int} (ha : 0 ≤ active)
    (he : l.ensureConsistency active = .ok l') :
    l'.WellFormed ∧ l'.curRegion.Valid ∧ active ≤ l'.curRegion.id := by
  obtain ⟨m, hm, he⟩ := Except.bind_eq_ok_iff.mp he
  split at he
  next => cases he
  next hle =>
    cases Except.ok.inj he
    split at hm
    next hv =>
      cases Except.ok.inj hm
      exact ⟨h, hv, by omega⟩
    next hv =>
      refine ⟨h.appendStarting ha hv hm, ?_, by omega⟩
      obtain ⟨_, rfl⟩ := appendRegion_eq hm
      exact Region.valid_starting ha (Int.le_refl 0) (Int.le_refl 0)

/-- The log of a send: the one with consistency ensured, and the next index used up. -/
theorem send_cases {l l' : RankLog} {active tag : Int} {buf : MPIBuffer} {out : Option SendLog}
    (h : l.send active buf tag = .ok (l', out)) :
    ∃ m, l.ensureConsistency active = .ok m ∧ m.curRegion.id = active ∧
      (∀ s ∈ m.sends.last?, s.idx = m.nextSend - 1) ∧
      l' = { m.setCur { m.curRegion with
          send := { m.curRegion.send with next := m.nextSend + 1 } } with
        sends := m.sends.insert ⟨m.nextSend, buf, tag⟩ } ∧
      out = if m.nextSend ≤ m.alreadySent then none else some ⟨m.nextSend, buf, tag⟩ := by
  unfold RankLog.send at h
  obtain ⟨m, hm, h⟩ := Except.bind_eq_ok_iff.mp h
  refine ⟨m, hm, ?_⟩
  split at h
  next => cases h
  next hid =>
    split at h
    next => cases h
    next hlast =>
      obtain ⟨h₁, h₂⟩ := Prod.mk.inj (Except.ok.inj h)
      refine ⟨not_not.mp hid, ?_, h₁.symm, h₂.symm⟩
      intro s hs
      by_contra hne
      exact hlast ⟨s, hs, hne⟩

theorem entries_insert_next {l : RankLog} (h : l.WellFormed) (buf : MPIBuffer) (tag : Int) :
    (l.sends.insert ⟨l.nextSend, buf, tag⟩).entries = l.sends.entries ++ [⟨l.nextSend, buf, tag⟩] :=
  IndexedSet.entries_insert_last fun _ hs => idx_lt_nextSend h hs

theorem mem_insert_next {l : RankLog} (h : l.WellFormed) {buf : MPIBuffer} {tag : Int} {s : SendLog} :
    s ∈ l.sends.insert ⟨l.nextSend, buf, tag⟩ ↔ s ∈ l.sends ∨ s = ⟨l.nextSend, buf, tag⟩ := by
  rw [IndexedSet.mem_def, entries_insert_next h, List.mem_append, List.mem_singleton,
    IndexedSet.mem_def]

theorem WellFormed.send {l l' : RankLog} (h : l.WellFormed) {active tag : Int} (ha : 0 ≤ active)
    {buf : MPIBuffer} {out : Option SendLog} (hs : l.send active buf tag = .ok (l', out)) :
    l'.WellFormed := by
  obtain ⟨m, hm, hid, hlast, rfl, _⟩ := send_cases hs
  obtain ⟨hwf, hv, _⟩ := h.ensureConsistency ha hm
  have hle := hv.2.1.2
  have hge := hv.2.1.1
  have hext : ({ m.curRegion with send := { m.curRegion.send with next := m.nextSend + 1 } } : Region).Valid := hv.oneSent
  refine ⟨?_, ?_, ?_, ?_⟩
  · intro y hy
    rcases List.mem_append.mp hy with hy | hy
    · exact hwf.shaped y (Window.mem_toList.mpr (Or.inl hy))
    · rw [List.mem_singleton.mp hy]
      exact hext.shaped
  · refine Window.pairwise_setCur hwf.ordered ?_
    intro y hy
    exact (older_precedes_cur hwf hy).trans_start (Int.le_refl _) hext (Int.le_refl _) (Int.le_refl _)
  · intro s hmem
    rcases (mem_insert_next hwf).mp hmem with hmem | rfl
    · obtain ⟨y, hy, hh⟩ := hwf.logged s hmem
      rcases Window.mem_toList.mp hy with hy | rfl
      · exact ⟨y, Window.mem_toList.mpr (Or.inl hy), hh⟩
      · refine ⟨_, Window.cur_mem _, hext, hh.2.1, ?_⟩
        have hlt := idx_lt_nextSend hwf hmem
        exact Int.lt_trans hlt (Int.lt_succ _)
    · exact ⟨_, Window.cur_mem _, hext, hle, Int.lt_succ _⟩
  · intro s hmem i hi hin
    change i < m.nextSend + 1 at hin
    by_cases hlt : i < m.nextSend
    · rcases (mem_insert_next hwf).mp hmem with hmem | rfl
      · obtain ⟨s', hs', hidx⟩ := hwf.closed s hmem i hi hlt
        exact ⟨s', (mem_insert_next hwf).mpr (Or.inl hs'), hidx⟩
      · change m.nextSend ≤ i at hi
        omega
    · exact ⟨_, (mem_insert_next hwf).mpr (Or.inr rfl), by change m.nextSend = i; omega⟩

theorem irecv_cases {l l' : RankLog} {active : Int} {r : IrecvLog} (h : l.irecv active r = .ok l') :
    l.activeIrecv = none ∧ ∃ m, l.ensureConsistency active = .ok m ∧ m.curRegion.id = active ∧
      l' = { m with activeIrecv := some r } := by
  unfold RankLog.irecv at h
  split at h
  next => cases h
  next ha =>
    obtain ⟨m, hm, h⟩ := Except.bind_eq_ok_iff.mp h
    split at h
    next => cases h
    next hid => exact ⟨by simpa using ha, m, hm, not_not.mp hid, (Except.ok.inj h).symm⟩

theorem WellFormed.setIrecv {l : RankLog} (h : l.WellFormed) (r : Option IrecvLog) :
    ({ l with activeIrecv := r } : RankLog).WellFormed :=
  ⟨h.shaped, h.ordered, h.logged, h.closed⟩

theorem WellFormed.irecv {l l' : RankLog} (h : l.WellFormed) {active : Int} (ha : 0 ≤ active)
    {r : IrecvLog} (hr : l.irecv active r = .ok l') :
    l'.WellFormed := by
  obtain ⟨_, m, hm, _, rfl⟩ := irecv_cases hr
  obtain ⟨hwf, _, _⟩ := h.ensureConsistency ha hm
  exact hwf.setIrecv _

theorem wait_cases {l l' : RankLog} {request : Nat} (h : l.wait request = .ok l') :
    (∃ r, l.activeIrecv = some r ∧ r.request = request) ∧ l.curRegion.Valid ∧
      l' = { l.setCur { l.curRegion with
          recv := { l.curRegion.recv with next := l.nextRecv + 1 } } with activeIrecv := none } := by
  unfold RankLog.wait at h
  split at h
  next => cases h
  next log hl =>
    split at h
    next => cases h
    next hreq =>
      split at h
      next => cases h
      next hv => exact ⟨⟨log, hl, not_not.mp hreq⟩, not_not.mp hv, (Except.ok.inj h).symm⟩

theorem WellFormed.wait {l l' : RankLog} (h : l.WellFormed) {request : Nat}
    (hw : l.wait request = .ok l') : l'.WellFormed := by
  obtain ⟨_, hv, rfl⟩ := wait_cases hw
  have hle := hv.2.2.2
  have hext : ({ l.curRegion with recv := { l.curRegion.recv with next := l.nextRecv + 1 } } : Region).Valid :=
    hv.oneReceived
  have hwf : (l.setCur { l.curRegion with
      recv := { l.curRegion.recv with next := l.nextRecv + 1 } }).WellFormed := by
    refine h.setCur hext.shaped ?_ ?_ ?_
    · intro y hy
      exact (older_precedes_cur h hy).trans_start (Int.le_refl _) hext (Int.le_refl _) (Int.le_refl _)
    · intro s _ hh
      exact ⟨hext, hh.2⟩
    · intro s _ i _ hin
      exact hin
  exact hwf.setIrecv none

theorem beginRegion_cases {l l' : RankLog} {id : Int} (h : l.beginRegion id = .ok l') :
    0 ≤ id ∧ (l' = l ∧ l.curRegion.Empty ∧ id ≤ l.curRegion.id ∨
      l.curRegion.Valid ∧ l.appendRegion (.following id l.curRegion) = .ok l' ∨
      ¬l.curRegion.Valid ∧ l.appendRegion (.starting id 0 0) = .ok l') := by
  unfold RankLog.beginRegion at h
  split at h
  next => cases h
  next hid =>
    refine ⟨by omega, ?_⟩
    split at h
    next hlt =>
      split at h
      next he => exact Or.inl ⟨(Except.ok.inj h).symm, he, Int.le_of_lt hlt⟩
      next => cases h
    next =>
      split at h
      next heq =>
        split at h
        next => cases h
        next =>
          split at h
          next he => exact Or.inl ⟨(Except.ok.inj h).symm, he, Int.le_of_eq heq.symm⟩
          next => cases h
      next =>
        split at h
        next hv => exact Or.inr (Or.inl ⟨hv, h⟩)
        next hv => exact Or.inr (Or.inr ⟨hv, h⟩)

theorem WellFormed.beginRegion {l l' : RankLog} (h : l.WellFormed) {id : Int}
    (hb : l.beginRegion id = .ok l') : l'.WellFormed := by
  obtain ⟨hid, ⟨rfl, _⟩ | ⟨hv, hb⟩ | ⟨hv, hb⟩⟩ := beginRegion_cases hb
  · exact h
  · exact h.appendFollowing hid hv hb
  · exact h.appendStarting hid hv hb

/-- The log is about the same peer and keeps as many regions. -/
def SameFrame (l l' : RankLog) : Prop := l'.rank = l.rank ∧ l'.regions.size = l.regions.size

theorem SameFrame.trans {l m n : RankLog} (h : SameFrame l m) (h' : SameFrame m n) : SameFrame l n :=
  ⟨h'.1.trans h.1, h'.2.trans h.2⟩

theorem sameFrame_appendRegion {l l' : RankLog} {r : Region} (h : l.appendRegion r = .ok l') :
    SameFrame l l' := by
  obtain ⟨_, rfl⟩ := appendRegion_eq h
  exact ⟨eraseSends_rank _ _, Window.size_push _ _⟩

theorem sameFrame_ensureConsistency {l l' : RankLog} {active : Int}
    (h : l.ensureConsistency active = .ok l') : SameFrame l l' := by
  obtain ⟨m, hm, h⟩ := Except.bind_eq_ok_iff.mp h
  split at h
  next => cases h
  next =>
    cases Except.ok.inj h
    split at hm
    next => exact Except.ok.inj hm ▸ ⟨rfl, rfl⟩
    next => exact sameFrame_appendRegion hm

theorem sameFrame_send {l l' : RankLog} {active tag : Int} {buf : MPIBuffer} {out : Option SendLog}
    (h : l.send active buf tag = .ok (l', out)) : SameFrame l l' := by
  obtain ⟨m, hm, _, _, rfl, _⟩ := send_cases h
  exact (sameFrame_ensureConsistency hm).trans ⟨rfl, rfl⟩

theorem sameFrame_irecv {l l' : RankLog} {active : Int} {r : IrecvLog}
    (h : l.irecv active r = .ok l') : SameFrame l l' := by
  obtain ⟨_, m, hm, _, rfl⟩ := irecv_cases h
  exact (sameFrame_ensureConsistency hm).trans ⟨rfl, rfl⟩

theorem sameFrame_wait {l l' : RankLog} {request : Nat} (h : l.wait request = .ok l') : SameFrame l l' := by
  obtain ⟨_, _, rfl⟩ := wait_cases h
  exact ⟨rfl, rfl⟩

theorem sameFrame_beginRegion {l l' : RankLog} {id : Int} (h : l.beginRegion id = .ok l') :
    SameFrame l l' := by
  obtain ⟨_, ⟨rfl, _⟩ | ⟨_, h⟩ | ⟨_, h⟩⟩ := beginRegion_cases h
  · exact ⟨rfl, rfl⟩
  · exact sameFrame_appendRegion h
  · exact sameFrame_appendRegion h

theorem offerConsistency_cases {l l' : RankLog} {active : Int}
    (h : l.offerConsistency active = .ok l') :
    l.curRegion.Valid ∧ l' = l ∨
      ¬l.curRegion.Valid ∧ l.activeIrecv = none ∧ l' = l.setCur { id := active } := by
  unfold RankLog.offerConsistency at h
  split at h
  next hv => exact Or.inl ⟨hv, (Except.ok.inj h).symm⟩
  next hv =>
    split at h
    next => cases h
    next ha => exact Or.inr ⟨hv, by simpa using ha, (Except.ok.inj h).symm⟩

theorem offerConsistency_ok {l : RankLog} {active : Int} (h : ¬l.curRegion.Valid → l.activeIrecv = none) :
    ∃ l', l.offerConsistency active = .ok l' := by
  unfold RankLog.offerConsistency
  split
  next => exact ⟨l, rfl⟩
  next hv =>
    rw [h hv]
    exact ⟨_, rfl⟩

theorem WellFormed.offerConsistency {l l' : RankLog} (h : l.WellFormed) {active : Int} (ha : 0 ≤ active)
    (ho : l.offerConsistency active = .ok l') : l'.WellFormed := by
  obtain ⟨_, rfl⟩ | ⟨hv, _, rfl⟩ := offerConsistency_cases ho
  · exact h
  · refine h.exchangeCur ⟨?_, Or.inr ⟨rfl, rfl⟩⟩ (precedes_of_not_valid h hv _)
      (sends_empty_of_not_valid h hv)
    exact Int.le_trans (by decide) ha

theorem sameFrame_offerConsistency {l l' : RankLog} {active : Int}
    (h : l.offerConsistency active = .ok l') : SameFrame l l' := by
  obtain ⟨_, rfl⟩ | ⟨_, _, rfl⟩ := offerConsistency_cases h
  · exact ⟨rfl, rfl⟩
  · exact ⟨rfl, rfl⟩

theorem sameFrame_formConsistency {l l' : RankLog} (h : l.WellFormed) {remote : Window Region}
    {out : List SendLog × Option IrecvLog} (hf : l.formConsistency remote = .ok (l', out)) :
    SameFrame l l' := by
  obtain ⟨hr, _, _, hrank, _⟩ := formConsistency_realigned h hf
  rcases hr with hr | ⟨_, _, _, hr, _⟩
  · exact ⟨hrank, congrArg Window.size hr⟩
  · exact ⟨hrank, (congrArg Window.size hr).trans rfl⟩

end Fenix.RankLog
