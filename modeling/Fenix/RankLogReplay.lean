import Fenix.Consecutive
import Fenix.RankLogReset

namespace Fenix.RankLog

/-- All sends of the retained regions are logged. -/
def Stocked (l : RankLog) : Prop := ∀ r ∈ l.regions.toList, ∀ i, r.Holds i → ∃ s ∈ l.sends, s.idx = i

theorem contiguousFrom_iff {idx : Int} {ss : List SendLog} :
    contiguousFrom idx ss = true ↔ Consecutive idx (ss.map SendLog.idx) := by
  induction ss generalizing idx with
  | nil => simp [contiguousFrom, Consecutive]
  | cons s ss ih => simp only [contiguousFrom, Bool.and_eq_true, decide_eq_true_eq, ih, List.map_cons, Consecutive]

section Replay

variable {l : RankLog}

/-- What is issued again are the sends that the peer still misses. -/
theorem replayMessages_cases {out : List SendLog × Option IrecvLog} (hr : l.replayMessages = .ok out) :
    out = (l.sends.since (l.alreadySent + 1), l.activeIrecv) ∧
      Consecutive (l.alreadySent + 1) (out.1.map SendLog.idx) ∧ (out.1 = [] → l.nextSend ≤ l.alreadySent + 1) := by
  unfold replayMessages at hr
  dsimp only at hr
  split at hr
  next => cases hr
  next hmissing =>
    split at hr
    next hc =>
      cases Except.ok.inj hr
      refine ⟨rfl, contiguousFrom_iff.mp hc, fun hnil => ?_⟩
      by_contra hlt
      exact hmissing ⟨hnil, by omega⟩
    next => cases hr

/-- The sends issued again are the ones from the peer's next one up to the own next one. -/
theorem replayMessages_consecutive (h : l.WellFormed) {out : List SendLog × Option IrecvLog}
    (hr : l.replayMessages = .ok out) : Consecutive (l.alreadySent + 1) (out.1.map SendLog.idx) ∧
      l.alreadySent + 1 + out.1.length = max (l.alreadySent + 1) l.nextSend := by
  obtain ⟨hout, hc, hnil⟩ := replayMessages_cases hr
  refine ⟨hc, ?_⟩
  have hmem : ∀ i, i ∈ out.1.map SendLog.idx ↔ ∃ s ∈ l.sends, l.alreadySent + 1 ≤ s.idx ∧ s.idx = i := by
    intro i
    rw [List.mem_map, hout]
    simp only [IndexedSet.mem_since, and_assoc]
  have hin : ∀ i, i ∈ out.1.map SendLog.idx ↔ l.alreadySent + 1 ≤ i ∧ i < l.alreadySent + 1 + out.1.length := by
    intro i
    rw [hc.mem_iff, List.length_map]
  cases hl : out.1 with
  | nil =>
    have hle := hnil hl
    rw [List.length_nil]
    omega
  | cons x xs =>
    rw [hl] at hin hmem
    have hlen : (0 : Int) < ((x :: xs).length : Int) := by
      rw [List.length_cons]
      omega
    obtain ⟨s, hs, hle, hidx⟩ := (hmem _).mp ((hin (l.alreadySent + (x :: xs).length)).mpr ⟨by omega, by omega⟩)
    have hlt := idx_lt_nextSend h hs
    obtain ⟨s', hs', hidx'⟩ := h.closed s hs (l.nextSend - 1) (by omega) (by omega)
    have hlast := (hin (l.nextSend - 1)).mp ((hmem _).mpr ⟨s', hs', by omega, hidx'⟩)
    omega

/-- The replay goes through exactly when nothing that the peer misses is missing here. -/
theorem replayMessages_ok_iff (h : l.WellFormed) : (∃ out, l.replayMessages = .ok out) ↔
    ∀ i, l.alreadySent < i → i < l.nextSend → ∃ s ∈ l.sends, s.idx = i := by
  constructor
  · rintro ⟨out, hr⟩ i hlo hhi
    obtain ⟨hc, hlen⟩ := replayMessages_consecutive h hr
    have hin : i ∈ out.1.map SendLog.idx := by
      rw [hc.mem_iff, List.length_map]
      omega
    obtain ⟨s, hs, hidx⟩ := List.mem_map.mp hin
    rw [(replayMessages_cases hr).1] at hs
    exact ⟨s, (IndexedSet.mem_since.mp hs).1, hidx⟩
  · intro hall
    refine ⟨(l.sends.since (l.alreadySent + 1), l.activeIrecv), ?_⟩
    unfold replayMessages
    dsimp only
    rw [if_neg, if_pos]
    · refine contiguousFrom_iff.mpr (Consecutive.of_sorted (m := max (l.alreadySent + 1) l.nextSend) ?_ fun i => ?_)
      · exact List.pairwise_map.mpr (IndexedSet.since_sorted _ _)
      · rw [List.mem_map]
        constructor
        · rintro ⟨s, hs, rfl⟩
          obtain ⟨hs, hle⟩ := IndexedSet.mem_since.mp hs
          have hlt := idx_lt_nextSend h hs
          omega
        · intro hi
          obtain ⟨s, hs, hidx⟩ := hall i (by omega) (by omega)
          exact ⟨s, IndexedSet.mem_since.mpr ⟨hs, by omega⟩, hidx⟩
    · rintro ⟨hnil, hlt⟩
      obtain ⟨s, hs, hidx⟩ := hall (l.alreadySent + 1) (by omega) (by omega)
      have hin : s ∈ l.sends.since (l.alreadySent + 1) := IndexedSet.mem_since.mpr ⟨hs, by omega⟩
      rw [hnil] at hin
      cases hin

end Replay

end Fenix.RankLog
