import Fenix.PairInvariant
import Fenix.RankLogMeets

namespace Fenix

namespace Endpoint

variable {e e' : Endpoint}

theorem stocked_saved (h : e.logs.Stocked) (hs : e.saved = .ok e') : e'.logs.Stocked := by
  unfold Endpoint.saved at hs
  split at hs
  next =>
    cases Except.ok.inj hs
    exact h
  next =>
    split at hs
    next =>
      cases Except.ok.inj hs
      exact RankLog.stocked_create _ _
    next =>
      split at hs
      next => cases hs
      next =>
        cases Except.ok.inj hs
        exact h

/-- Every step keeps the sends of the retained regions. -/
theorem stocked_moves (h : e.logs.Stocked) (hwf : e.WellFormed) (hm : e.Moves e') : e'.logs.Stocked := by
  have hlogs := hwf.logs.1
  cases hm with
  | send hs =>
    obtain ⟨⟨l, _⟩, hl, he⟩ := Except.map_eq_ok_iff.mp hs
    cases he
    exact h.send hlogs hwf.active hl
  | irecv hs =>
    obtain ⟨l, hl, rfl⟩ := Except.map_eq_ok_iff.mp hs
    exact h.irecv hlogs hl
  | wait hs =>
    obtain ⟨l, hl, rfl⟩ := Except.map_eq_ok_iff.mp hs
    exact h.wait hl
  | beginRegion hs =>
    obtain ⟨_, _, ⟨_, he⟩ | hb⟩ := Pair.beginRegion_logs hs
    · rw [he]
      exact h
    · exact h.beginRegion hlogs hb
  | abandonIrecv =>
    unfold logs abandonIrecv
    cases hl : e.log with
    | none => exact RankLog.stocked_create _ _
    | some l =>
      rw [logs, hl] at h
      exact h
  | resetLocal hs =>
    unfold Endpoint.resetLocal at hs
    split at hs
    next => cases hs
    next =>
      dsimp only at hs
      split at hs
      next hl =>
        cases Except.ok.inj hs
        exact h
      next l hl =>
        obtain ⟨l', hr, rfl⟩ := Except.map_eq_ok_iff.mp hs
        rw [logs, hl] at h hlogs
        exact RankLog.Stocked.resetConsistency h hlogs hr
  | offerConsistency hs =>
    obtain ⟨l, hl, rfl⟩ := Except.map_eq_ok_iff.mp hs
    exact h.offerConsistency hl
  | formConsistency hs =>
    obtain ⟨⟨l, _⟩, hl, he⟩ := Except.map_eq_ok_iff.mp hs
    cases he
    exact h.formConsistency hlogs hl

end Endpoint

namespace Side

/-- The log of the rank and those it has serialised have the sends of their regions. -/
structure Stocked (s : Side) : Prop where
  endpoint : s.endpoint.logs.Stocked
  stored : ∀ e ∈ s.stored, e.logs.Stocked

theorem Stocked.changes {s s' : Side} (h : s.Stocked) (hwf : s.WellFormed) (hc : s.Changes s') : s'.Stocked := by
  cases hc with
  | kept he hs => exact ⟨he ▸ h.endpoint, hs ▸ h.stored⟩
  | moves hm hs => exact ⟨Endpoint.stocked_moves h.endpoint hwf.endpoint hm, hs ▸ h.stored⟩
  | restored he hs => exact ⟨h.stored _ he, hs ▸ h.stored⟩
  | fresh he hs =>
    refine ⟨?_, hs ▸ h.stored⟩
    rw [he]
    exact RankLog.stocked_create _ _
  | stores he hsaved hs =>
    refine ⟨he ▸ h.endpoint, fun e hmem => ?_⟩
    rw [hs] at hmem
    rcases List.mem_append.mp hmem with hmem | hmem
    · exact h.stored e hmem
    · rw [List.mem_singleton.mp hmem]
      exact Endpoint.stocked_saved h.endpoint hsaved

/-- The regions that a rank has sent are in order, and the last one has an id. A rank that has not yet formed
consistency has the ones it has sent. -/
structure Offers (s : Side) : Prop where
  arranged : ∀ w ∈ s.phase.offer, RankLog.Arranged w
  held : ∀ w, s.phase = .offered w → s.endpoint.logs.regions = w

theorem offers_of_none {s : Side} (h : s.phase.offer = none) : s.Offers where
  arranged w hw := by
    rw [h] at hw
    cases hw
  held w hw := by
    rw [hw] at h
    cases h

theorem Offers.of_same {s s' : Side} (h : s.Offers) (hp : s'.phase = s.phase)
    (he : s'.endpoint = s.endpoint) : s'.Offers where
  arranged := hp ▸ h.arranged
  held := by
    rw [hp, he]
    exact h.held

/-- A rank that has not started to sync. -/
theorem offers_of_quiet {s : Side} (h : s.phase = .running ∨ s.phase = .failed ∨ s.phase = .reset) : s.Offers := by
  refine offers_of_none ?_
  rcases h with h | h | h
  · rw [h]
    rfl
  · rw [h]
    rfl
  · rw [h]
    rfl

end Side

namespace Pair

variable {p q : Pair} {a : Bool}

theorem Reachable.stocked (h : Reachable p) (b : Bool) : (p.side b).Stocked := by
  induction h with
  | create ranks => exact ⟨RankLog.stocked_create _ _, fun _ he => absurd he List.not_mem_nil⟩
  | step hp hs ih => exact ih.changes (hp.wellFormed b) (step_changes hs b)

theorem offers_setSide {s : Side} (h : ∀ b, (p.side b).Offers) (hs : s.Offers) (b : Bool) :
    ((p.setSide a s).side b).Offers := by
  by_cases hb : b = a
  · subst hb
    rw [side_setSide_self]
    exact hs
  · rw [side_setSide_of_ne p hb]
    exact h b

theorem offers_does (h : ∀ b, (p.side b).Offers) (hwf : ∀ b, (p.side b).WellFormed) {act : Action}
    (hd : Does p act q) : ∀ b, (q.side b).Offers := by
  have htransmit : ∀ {p : Pair} {a : Bool} {ms : List SendLog}, (∀ b, (p.side b).Offers) →
      ∀ b, ((p.transmit a ms).side b).Offers := by
    intro p a ms hp
    exact offers_setSide hp ((hp !a).of_same rfl rfl)
  cases hd with
  | nothing => exact h
  | send hr => exact htransmit (offers_setSide h (Side.offers_of_quiet (Or.inl hr)))
  | irecv hr => exact offers_setSide h (Side.offers_of_quiet (Or.inl hr))
  | @deliver a => exact offers_setSide h ((h a).of_same rfl rfl)
  | wait hr => exact offers_setSide h (Side.offers_of_quiet (Or.inl hr))
  | beginRegion hr => exact offers_setSide h (Side.offers_of_quiet (Or.inl hr))
  | store hr => exact offers_setSide h (Side.offers_of_quiet (Or.inl hr))
  | fail => exact fun _ => Side.offers_of_quiet (Or.inr (Or.inl rfl))
  | abandon hf => exact offers_setSide h (Side.offers_of_quiet (Or.inr (Or.inl hf)))
  | restore hf => exact offers_setSide h (Side.offers_of_quiet (Or.inr (Or.inl hf)))
  | reset => exact offers_setSide h (Side.offers_of_quiet (Or.inr (Or.inr rfl)))
  | @offer a e hr hstart he =>
    refine offers_setSide h ⟨fun w hw => ?_, fun w hw => ?_⟩
    · cases Option.mem_some.mp hw
      have hlogs := ((hwf a).endpoint.offerConsistency he).logs.1
      refine ⟨hlogs.shaped, hlogs.ordered, ?_⟩
      obtain ⟨l, hl, rfl⟩ := Except.map_eq_ok_iff.mp he
      obtain ⟨hv, rfl⟩ | ⟨_, _, rfl⟩ := RankLog.offerConsistency_cases hl
      · exact hv.1
      · exact (hwf a).endpoint.active
    · cases hw
      rfl
  | @form a own remote e toSend r ho =>
    refine htransmit (offers_setSide h ⟨fun w hw => (h a).arranged w ?_, fun w hw => by cases hw⟩)
    rw [show (p.side a).phase = _ from ho]
    exact hw
  | resumeFormed => exact fun _ => Side.offers_of_quiet (Or.inl rfl)
  | resumeReset => exact fun _ => Side.offers_of_quiet (Or.inl rfl)

theorem Reachable.offers (h : Reachable p) (b : Bool) : (p.side b).Offers := by
  induction h generalizing b with
  | create ranks => exact Side.offers_of_none rfl
  | step hp hs ih => exact offers_does ih (fun c => hp.wellFormed c) (does_of_step hs) b

theorem form_ok_iff {own remote : Window Region} :
    (∃ q, p.form a own remote = .ok q) ↔ ∃ formed, (p.endpoint a).logs.formConsistency remote = .ok formed := by
  rw [← Except.map_ok_exists_iff (f := fun formed : RankLog × List SendLog × Option IrecvLog =>
    ((p.endpoint a).setLog formed.1, formed.2))]
  constructor
  · rintro ⟨q, h⟩
    obtain ⟨formed, hf, _⟩ := Except.bind_eq_ok_iff.mp h
    exact ⟨formed, hf⟩
  · rintro ⟨formed, hf⟩
    exact ⟨_, Except.bind_eq_ok_iff.mpr ⟨formed, hf, rfl⟩⟩

/-- In every run a rank that has reset can send its regions. Forming consistency with those of the peer
completes exactly when the windows meet, which is the same for both ranks, and no send that the peer is
missing has been dropped. -/
theorem consistency_completes_iff (hp : Reachable p) : (∀ a, ∃ q, p.step (.offer a) = .ok q) ∧
    ∀ a own remote, p.phase a = .offered own → (p.phase !a).offer = some remote →
      ((∃ q, p.step (.form a) = .ok q) ↔ RankLog.Meets own remote ∧ (p.endpoint a).logs.Supplied remote) ∧
      (RankLog.Meets own remote ↔ RankLog.Meets remote own) := by
  refine ⟨fun a => ?_, fun a own remote ho hr => ?_⟩
  · simp only [step]
    split
    next =>
      have hlogs := (hp.wellFormed a).endpoint.logs.2
      exact Except.map_ok_exists_iff.mpr (Except.map_ok_exists_iff.mpr (RankLog.offerConsistency_ok hlogs))
    next => exact ⟨p, rfl⟩
  · have hremote := (hp.offers !a).arranged remote hr
    have hown : RankLog.Arranged own := (hp.offers a).arranged own (by
      rw [show (p.side a).phase = _ from ho]
      rfl)
    refine ⟨?_, RankLog.meets_comm hown hremote⟩
    simp only [step, ho, hr]
    cases (hp.offers a).held own ho
    rw [form_ok_iff]
    exact RankLog.formConsistency_ok_iff (hp.wellFormed a).endpoint.logs.1 (hp.stocked a).endpoint hown hremote

/-- One rank goes on two regions after the only message. -/
def ahead : List Action :=
  [.beginRegion false 0, .beginRegion true 0, .send false ⟨0, 0, []⟩ 0, .irecv true ⟨0, 0, 0, 0⟩, .deliver true,
    .wait true, .beginRegion false 1, .beginRegion false 2, .fail, .reset false (-1), .reset true (-1), .offer false,
    .offer true]

theorem consistency_completes_ahead : ∃ p, Reachable p ∧ ∃ q, p.step (.form false) = .ok q := by
  have hrun : ∃ p, Pair.run (.create (fun a => a.toNat) 3) ahead = .ok p ∧ ∃ own remote, p.phase false = .offered own ∧
      (p.phase true).offer = some remote ∧ RankLog.Meets own remote ∧ (p.endpoint false).logs.Supplied remote := by
    refine ⟨_, rfl, _, _, rfl, rfl, by decide, fun r _ i _ hnext hlt => ?_⟩
    exact absurd (Int.lt_of_le_of_lt hnext hlt) (by decide)
  obtain ⟨p, hrun, own, remote, ho, hr, hmeets, hsupplied⟩ := hrun
  have hp := (Reachable.create (fun a => a.toNat) (by decide)).run hrun
  exact ⟨p, hp, ((consistency_completes_iff hp).2 false own remote ho hr).1.mpr ⟨hmeets, hsupplied⟩⟩

/-- With a window of two regions the rank that is ahead has dropped the one that the other is in. -/
theorem consistency_ahead_aborts : ∃ p, Reachable p ∧ (∀ a, ∃ own, p.phase a = .offered own) ∧
    ∀ a, p.step (.form a) = .error .remoteUnknown := by
  have hrun : ∃ p, Pair.run (.create (fun a => a.toNat) 2) ahead = .ok p ∧ (∀ a, ∃ own, p.phase a = .offered own) ∧
      ∀ a, p.step (.form a) = .error .remoteUnknown := by
    refine ⟨_, rfl, fun a => ?_, fun a => ?_⟩
    · cases a
      · exact ⟨_, rfl⟩
      · exact ⟨_, rfl⟩
    · cases a
      · rfl
      · rfl
  obtain ⟨p, hrun, h⟩ := hrun
  exact ⟨p, (Reachable.create (fun a => a.toNat) (by decide)).run hrun, h⟩

end Pair

end Fenix
