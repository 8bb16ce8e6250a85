import Fenix.PairDelivery
import Fenix.PairRollback
import Fenix.RankLogWindow

namespace Fenix

namespace Endpoint

variable {gap : Region → Prop} {e e' : Endpoint}

theorem linked_saved (h : e.logs.Linked gap) (hs : e.saved = .ok e') : e'.logs.Linked gap := by
  unfold Endpoint.saved at hs
  split at hs
  next =>
    cases Except.ok.inj hs
    exact h
  next =>
    split at hs
    next =>
      cases Except.ok.inj hs
      exact RankLog.linked_create gap _ _
    next =>
      split at hs
      next => cases hs
      next =>
        cases Except.ok.inj hs
        exact h

theorem linked_send (h : e.logs.Linked gap) {buf : MPIBuffer} {tag : Int} {out : Option SendLog}
    (hs : e.send buf tag = .ok (e', out)) : e'.logs.Linked gap := by
  obtain ⟨⟨l, _⟩, hl, he⟩ := Except.map_eq_ok_iff.mp hs
  cases he
  exact h.send hl

theorem linked_irecv (h : e.logs.Linked gap) {r : IrecvLog} (hs : e.irecv r = .ok e') : e'.logs.Linked gap := by
  obtain ⟨l, hl, rfl⟩ := Except.map_eq_ok_iff.mp hs
  exact h.irecv hl

theorem linked_wait (h : e.logs.Linked gap) {request : Nat} (hs : e.wait request = .ok e') : e'.logs.Linked gap := by
  obtain ⟨l, hl, rfl⟩ := Except.map_eq_ok_iff.mp hs
  exact h.wait hl

theorem linked_beginRegion (h : e.logs.Linked gap) {id : Int} (hs : e.beginRegion id = .ok e') :
    e'.logs.Linked gap := by
  obtain ⟨_, _, ⟨_, he⟩ | hb⟩ := Pair.beginRegion_logs hs
  · rw [he]
    exact h
  · exact h.beginRegion hb

theorem linked_abandonIrecv (h : e.logs.Linked gap) : e.abandonIrecv.logs.Linked gap := by
  unfold logs abandonIrecv
  cases hl : e.log with
  | none => exact RankLog.linked_create gap _ _
  | some l =>
    rw [logs, hl] at h
    exact h

theorem linked_resetLocal (h : e.logs.Linked gap) {target : Int} (hs : e.resetLocal target = .ok e') :
    e'.logs.Linked gap := by
  unfold Endpoint.resetLocal at hs
  split at hs
  next => cases hs
  next =>
    dsimp only at hs
    split at hs
    next hl =>
      cases Except.ok.inj hs
      exact h
    next l hl =>
      obtain ⟨l', hr, rfl⟩ := Except.map_eq_ok_iff.mp hs
      rw [logs, hl] at h
      exact RankLog.Linked.resetConsistency h hr

theorem linked_offerConsistency (h : e.logs.Linked gap) (hwf : e.WellFormed) (hs : e.offerConsistency = .ok e') :
    e'.logs.Linked gap := by
  obtain ⟨l, hl, rfl⟩ := Except.map_eq_ok_iff.mp hs
  exact h.offerConsistency hwf.logs.1 hl

theorem linked_formConsistency (h : e.logs.Linked gap) (hwf : e.WellFormed) {remote : Window Region}
    {out : List SendLog × Option IrecvLog} (hs : e.formConsistency remote = .ok (e', out))
    (hgap : e.logs.Shifts e'.logs → ∀ y ∈ e.logs.regions.older, y.Valid → gap y) : e'.logs.Linked gap := by
  obtain ⟨⟨l, _⟩, hl, he⟩ := Except.map_eq_ok_iff.mp hs
  cases he
  exact h.formConsistency hwf.logs.1 hl hgap

end Endpoint

namespace Side

/-- The log of the rank and those it has serialised have gaps where they are allowed only. -/
structure Linked (gap : Region → Prop) (s : Side) : Prop where
  endpoint : s.endpoint.logs.Linked gap
  stored : ∀ e ∈ s.stored, e.logs.Linked gap

variable {gap : Region → Prop} {s : Side}

theorem Linked.setEndpoint (h : s.Linked gap) {s' : Side} (he : s'.endpoint.logs.Linked gap)
    (hs : s'.stored = s.stored) : s'.Linked gap :=
  ⟨he, hs ▸ h.stored⟩

theorem Linked.store (h : s.Linked gap) {e : Endpoint} (hs : s.endpoint.saved = .ok e) :
    ({ s with stored := s.stored ++ [e] } : Side).Linked gap := by
  refine ⟨h.endpoint, fun e' hmem => ?_⟩
  rcases List.mem_append.mp hmem with hmem | hmem
  · exact h.stored e' hmem
  · rw [List.mem_singleton.mp hmem]
    exact Endpoint.linked_saved h.endpoint hs

end Side

namespace Pair

section Links

variable {gap : Region → Prop} {p q : Pair} {a : Bool}

theorem endpoint_setSide_self (p : Pair) (a : Bool) (s : Side) : (p.setSide a s).endpoint a = s.endpoint :=
  congrArg Side.endpoint (p.side_setSide_self a s)

/-- A side's new end is linked as the old one was, and what it has stored stays. -/
theorem linked_setSide {s : Side} (h : ∀ b, (p.side b).Linked gap) (he : s.endpoint.logs.Linked gap)
    (hs : s.stored = (p.side a).stored) (b : Bool) : ((p.setSide a s).side b).Linked gap := by
  by_cases hb : b = a
  · subst hb
    rw [side_setSide_self]
    exact (h b).setEndpoint he hs
  · rw [side_setSide_of_ne p hb]
    exact h b

theorem linked_setEndpoint {e : Endpoint} (h : ∀ b, (p.side b).Linked gap) (he : e.logs.Linked gap) (b : Bool) :
    ((p.setEndpoint a e).side b).Linked gap := by
  apply linked_setSide h
  · exact he
  · rfl

theorem linked_transmit {ms : List SendLog} (h : ∀ b, (p.side b).Linked gap) (b : Bool) :
    ((p.transmit a ms).side b).Linked gap := by
  apply linked_setSide h
  · exact (h !a).endpoint
  · rfl

theorem linked_restored (h : ∀ b, (p.side b).Linked gap) (k : Nat) :
    (((p.side a).stored[k]?.getD (p.endpoint a).fresh).logs).Linked gap := by
  cases hk : (p.side a).stored[k]? with
  | none => exact RankLog.linked_create gap _ _
  | some e => exact (h a).stored e (List.mem_of_getElem? hk)

/-- What a step does to the regions leaves a gap when it forms consistency only. -/
theorem linked_does {act : Action} (hp : Reachable p) (h : Does p act q) (hl : ∀ b, (p.side b).Linked gap)
    (hform : ∀ a, act = .form a → (p.endpoint a).logs.Shifts (q.endpoint a).logs →
      ∀ y ∈ (p.endpoint a).logs.regions.older, y.Valid → gap y) (b : Bool) : (q.side b).Linked gap := by
  cases h with
  | nothing => exact hl b
  | send _ he =>
    apply linked_transmit
    exact linked_setEndpoint hl (Endpoint.linked_send (hl _).endpoint he)
  | irecv _ he => exact linked_setEndpoint hl (Endpoint.linked_irecv (hl _).endpoint he) b
  | @deliver a =>
    apply linked_setSide hl
    · exact (hl a).endpoint
    · rfl
  | @wait a _ _ _ _ _ _ he =>
    apply linked_setSide hl
    · exact Endpoint.linked_wait (hl a).endpoint he
    · rfl
  | beginRegion _ he => exact linked_setEndpoint hl (Endpoint.linked_beginRegion (hl _).endpoint he) b
  | @store a _ _ he =>
    by_cases hb : b = a
    · subst hb
      rw [side_setSide_self]
      exact (hl b).store he
    · rw [side_setSide_of_ne p hb]
      exact hl b
  | fail => exact (hl b).setEndpoint (hl b).endpoint rfl
  | @abandon a => exact linked_setEndpoint hl (Endpoint.linked_abandonIrecv (hl a).endpoint) b
  | @restore a k => exact linked_setEndpoint hl (linked_restored hl k) b
  | @reset a _ _ _ he =>
    apply linked_setSide hl
    · exact Endpoint.linked_resetLocal (hl a).endpoint he
    · rfl
  | @offer a _ _ _ he =>
    apply linked_setSide hl
    · exact Endpoint.linked_offerConsistency (hl a).endpoint (hp.wellFormed a).endpoint he
    · rfl
  | @form a _ _ _ _ _ _ _ he =>
    apply linked_transmit
    apply linked_setSide hl
    · refine Endpoint.linked_formConsistency (hl a).endpoint (hp.wellFormed a).endpoint he fun hs => ?_
      apply hform a rfl
      rw [endpoint_transmit, endpoint_setSide_self]
      exact hs
    · rfl
  | resumeFormed => exact (hl b).setEndpoint (hl b).endpoint rfl
  | resumeReset => exact (hl b).setEndpoint (hl b).endpoint rfl

end Links

section Windows

variable {p q : Pair}

theorem Reachable.linked (h : Reachable p) (b : Bool) : (p.side b).Linked Region.Fresh := by
  induction h generalizing b with
  | create ranks => exact ⟨RankLog.linked_create _ _ _, fun _ he => absurd he List.not_mem_nil⟩
  | step hp hs ih =>
    refine linked_does hp (does_of_step hs) ih (fun a _ hshift y hy hv => ?_) b
    exact (RankLog.older_precedes_cur (hp.wellFormed a).endpoint.logs.1 hy).fresh hv hshift.1

/-- The regions of a rank, now and in each log that it has serialised, are a chain without gaps. -/
def Chained (p : Pair) : Prop := ∀ a, ∀ e ∈ (p.side a).endpoint :: (p.side a).stored,
  ∃ unused linked, RankLog.LogWindow e.logs unused [] linked

theorem chained_iff (hp : Reachable p) : p.Chained ↔ ∀ a, (p.side a).Linked fun _ => False := by
  constructor
  · intro h a
    have hwf := hp.wellFormed a
    have hstock := hp.stocked a
    refine ⟨?_, fun e he => ?_⟩
    · exact (RankLog.linked_iff_logWindow hwf.endpoint.logs.1 hstock.endpoint).mpr (h a _ List.mem_cons_self)
    · exact (RankLog.linked_iff_logWindow (hwf.stored e he).logs.1 (hstock.stored e he)).mpr
        (h a e (List.mem_cons_of_mem _ he))
  · intro h a e he
    have hwf := hp.wellFormed a
    have hstock := hp.stocked a
    rcases List.mem_cons.mp he with rfl | he
    · exact (RankLog.linked_iff_logWindow hwf.endpoint.logs.1 hstock.endpoint).mp (h a).endpoint
    · exact (RankLog.linked_iff_logWindow (hwf.stored e he).logs.1 (hstock.stored e he)).mp ((h a).stored e he)

/-- The step forms consistency and moves the messages of a region that follows on another one. -/
def Shifts (p : Pair) (act : Action) (q : Pair) : Prop :=
  ∃ a, act = .form a ∧ (p.endpoint a).logs.Shifts (q.endpoint a).logs

theorem step_chained_iff {act : Action} (hp : Reachable p) (h : p.step act = .ok q) (hc : p.Chained) :
    q.Chained ↔ ¬p.Shifts act q := by
  have hl := (chained_iff hp).mp hc
  rw [chained_iff (hp.step h)]
  constructor
  · rintro hq ⟨a, rfl, hshift⟩
    have hside := (hq a).endpoint
    cases does_of_step h with
    | nothing => exact hshift.2.2 rfl
    | form ho hr he =>
      rw [endpoint_transmit, endpoint_setSide_self] at hshift
      change RankLog.Linked _ (endpoint _ _).logs at hside
      rw [endpoint_transmit, endpoint_setSide_self] at hside
      obtain ⟨⟨l, _⟩, hf, heq⟩ := Except.map_eq_ok_iff.mp he
      cases heq
      exact (RankLog.formConsistency_linked_iff (hl a).endpoint (hp.wellFormed a).endpoint.logs.1 hf).mp hside hshift
  · intro hn
    exact linked_does hp (does_of_step h) hl fun a hact hshift => absurd ⟨a, hact, hshift⟩ hn

/-- Regions that never had a message may precede a gap, and the others are a chain whose sends are all kept. A
gap is left by forming consistency only. -/
theorem log_window (hp : Reachable p) :
    (∀ a, ∃ unused fresh linked, RankLog.LogWindow (p.endpoint a).logs unused fresh linked) ∧
    ∀ act q, p.step act = .ok q → p.Chained → (q.Chained ↔ ¬p.Shifts act q) := by
  refine ⟨fun a => ?_, fun act q h hc => step_chained_iff hp h hc⟩
  exact (hp.linked a).endpoint.logWindow (hp.wellFormed a).endpoint.logs.1 (hp.stocked a).endpoint

theorem log_window_overtaken : ∃ p, Reachable p ∧
    (∃ unused fresh linked, RankLog.LogWindow (p.endpoint true).logs unused fresh linked) ∧
    ∀ q, p.step .resume = .ok q → p.Chained → (q.Chained ↔ ¬p.Shifts .resume q) := by
  have hrun : ∃ p, Pair.run (.create (fun a => a.toNat) 3) overtaken = .ok p := ⟨_, rfl⟩
  obtain ⟨p, hrun⟩ := hrun
  have hp := (Reachable.create (fun a => a.toNat) (by decide)).run hrun
  have hwindow := log_window hp
  exact ⟨p, hp, hwindow.1 true, hwindow.2 .resume⟩

/-- Region 1 begins after the lost message, region 0 ends before it. -/
theorem log_window_gap : ¬ ∀ p, Reachable p → ∀ a, ∃ unused linked,
    RankLog.LogWindow (p.endpoint a).logs unused [] linked := by
  intro h
  have hrun : ∃ p, Pair.run (.create (fun a => a.toNat) 3) overtaken = .ok p ∧
      (p.endpoint true).logs.regions.toList = [{}, .starting 0 0 0, .starting 1 0 1] := ⟨_, rfl, by decide⟩
  obtain ⟨p, hrun, hregions⟩ := hrun
  have hp := (Reachable.create (fun a => a.toNat) (by decide)).run hrun
  have hlinked := (RankLog.linked_iff_logWindow (hp.wellFormed true).endpoint.logs.1 (hp.stocked true).endpoint).mpr
    (h p hp true)
  change (p.endpoint true).logs.regions.toList.IsChain _ at hlinked
  rw [hregions] at hlinked
  have hlink := (List.isChain_cons_cons.mp (List.isChain_cons_cons.mp hlinked).2).1
  rcases hlink (by decide) with hgap | hcontinues
  · exact hgap
  · have hrecv : (1 : Int) = 0 := hcontinues.2
    omega

end Windows

end Pair

end Fenix
