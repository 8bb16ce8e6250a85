import Fenix.Pair

namespace Fenix

namespace Endpoint

/-- Where a rank's region is set, its log is in order, and a receive is posted in a valid region only. -/
structure WellFormed (e : Endpoint) : Prop where
  active : 0 ≤ e.activeRegion
  log : ∀ l ∈ e.log, l.WellFormed ∧ (¬l.curRegion.Valid → l.activeIrecv = none)

/-- What an operation of the rank, or the sync after a failure, makes of its end. -/
inductive Moves (e : Endpoint) : Endpoint → Prop
  | send {buf : MPIBuffer} {tag : Int} {e' : Endpoint} {out : Option SendLog} (h : e.send buf tag = .ok (e', out)) :
      Moves e e'
  | irecv {r : IrecvLog} {e' : Endpoint} (h : e.irecv r = .ok e') : Moves e e'
  | wait {request : Nat} {e' : Endpoint} (h : e.wait request = .ok e') : Moves e e'
  | beginRegion {id : Int} {e' : Endpoint} (h : e.beginRegion id = .ok e') : Moves e e'
  | abandonIrecv : Moves e e.abandonIrecv
  | resetLocal {target : Int} {e' : Endpoint} (h : e.resetLocal target = .ok e') : Moves e e'
  | offerConsistency {e' : Endpoint} (h : e.offerConsistency = .ok e') : Moves e e'
  | formConsistency {remote : Window Region} {e' : Endpoint} {out : List SendLog × Option IrecvLog}
      (h : e.formConsistency remote = .ok (e', out)) : Moves e e'

theorem WellFormed.logs {e : Endpoint} (h : e.WellFormed) :
    e.logs.WellFormed ∧ (¬e.logs.curRegion.Valid → e.logs.activeIrecv = none) := by
  unfold Endpoint.logs
  cases hl : e.log with
  | none => exact ⟨RankLog.wellFormed_create _ _, fun _ => rfl⟩
  | some l => exact h.log l hl

theorem WellFormed.setLog {e : Endpoint} (h : e.WellFormed) {l : RankLog} (hl : l.WellFormed)
    (hv : ¬l.curRegion.Valid → l.activeIrecv = none) : (e.setLog l).WellFormed := by
  refine ⟨h.active, fun m hm => ?_⟩
  cases Option.mem_some.mp hm
  exact ⟨hl, hv⟩

theorem wellFormed_fresh (e : Endpoint) : e.fresh.WellFormed :=
  ⟨Int.le_refl 0, fun _ hl => absurd hl (by simp [fresh])⟩

theorem WellFormed.saved {e e' : Endpoint} (h : e.WellFormed) (hs : e.saved = .ok e') : e'.WellFormed := by
  unfold Endpoint.saved at hs
  split at hs
  next =>
    cases Except.ok.inj hs
    exact h
  next l hl =>
    split at hs
    next =>
      cases Except.ok.inj hs
      exact ⟨h.active, fun _ hm => absurd hm (by simp)⟩
    next =>
      split at hs
      next => cases hs
      next =>
        cases Except.ok.inj hs
        exact h

/-- The current region of a log is valid once the log has been used. -/
theorem WellFormed.use {e : Endpoint} (h : e.WellFormed) {l : RankLog} (hl : l.WellFormed) (hv : l.curRegion.Valid) :
    (e.setLog l).WellFormed :=
  h.setLog hl fun hn => absurd hv hn

theorem WellFormed.send {e e' : Endpoint} (h : e.WellFormed) {buf : MPIBuffer} {tag : Int} {out : Option SendLog}
    (hs : e.send buf tag = .ok (e', out)) : e'.WellFormed := by
  obtain ⟨⟨l, o⟩, hl, he⟩ := Except.map_eq_ok_iff.mp hs
  cases he
  refine h.use (h.logs.1.send h.active hl) ?_
  obtain ⟨m, hm, _, _, rfl, _⟩ := RankLog.send_cases hl
  exact (h.logs.1.ensureConsistency h.active hm).2.1.oneSent

theorem WellFormed.irecv {e e' : Endpoint} (h : e.WellFormed) {r : IrecvLog} (hs : e.irecv r = .ok e') :
    e'.WellFormed := by
  obtain ⟨l, hl, rfl⟩ := Except.map_eq_ok_iff.mp hs
  refine h.use (h.logs.1.irecv h.active hl) ?_
  obtain ⟨_, m, hm, _, rfl⟩ := RankLog.irecv_cases hl
  exact (h.logs.1.ensureConsistency h.active hm).2.1

theorem WellFormed.wait {e e' : Endpoint} (h : e.WellFormed) {request : Nat} (hs : e.wait request = .ok e') :
    e'.WellFormed := by
  obtain ⟨l, hl, rfl⟩ := Except.map_eq_ok_iff.mp hs
  refine h.setLog (h.logs.1.wait hl) fun _ => ?_
  obtain ⟨_, _, rfl⟩ := RankLog.wait_cases hl
  rfl

theorem WellFormed.beginRegion {e e' : Endpoint} (h : e.WellFormed) {id : Int} (hs : e.beginRegion id = .ok e') :
    e'.WellFormed := by
  unfold Endpoint.beginRegion at hs
  split at hs
  next => cases hs
  next hid =>
    split at hs
    next hl =>
      cases Except.ok.inj hs
      exact ⟨Int.not_lt.mp hid, h.log⟩
    next l hl =>
      obtain ⟨l', hb, rfl⟩ := Except.map_eq_ok_iff.mp hs
      obtain ⟨hwf, hv⟩ := h.log l hl
      refine ⟨Int.not_lt.mp hid, fun m hm => ?_⟩
      cases Option.mem_some.mp hm
      refine ⟨hwf.beginRegion hb, fun hn => ?_⟩
      obtain ⟨_, ⟨rfl, _⟩ | ⟨hcur, ha⟩ | ⟨_, ha⟩⟩ := RankLog.beginRegion_cases hb
      · exact hv hn
      · obtain ⟨_, rfl⟩ := RankLog.appendRegion_eq ha
        exact absurd (RankLog.appended_valid (by omega) hcur) hn
      · obtain ⟨_, rfl⟩ := RankLog.appendRegion_eq ha
        exact absurd (Region.valid_starting (by omega) (Int.le_refl 0) (Int.le_refl 0)) hn

theorem WellFormed.abandonIrecv {e : Endpoint} (h : e.WellFormed) : e.abandonIrecv.WellFormed := by
  refine ⟨h.active, fun m hm => ?_⟩
  obtain ⟨l, hl, rfl⟩ := Option.map_eq_some_iff.mp (Option.mem_def.mp hm)
  exact ⟨(h.log l hl).1.setIrecv none, fun _ => rfl⟩

theorem WellFormed.resetLocal {e e' : Endpoint} (h : e.WellFormed) {target : Int}
    (hs : e.resetLocal target = .ok e') : e'.WellFormed := by
  unfold Endpoint.resetLocal at hs
  have hactive := h.active
  have hnonneg : 0 ≤ if 0 ≤ target then target else e.activeRegion := by
    split
    next ht => exact ht
    next => exact hactive
  split at hs
  next => cases hs
  next ht =>
    dsimp only at hs
    split at hs
    next hl =>
      cases Except.ok.inj hs
      exact ⟨hnonneg, h.log⟩
    next l hl =>
      obtain ⟨l', hr, rfl⟩ := Except.map_eq_ok_iff.mp hs
      obtain ⟨hwf, hv⟩ := h.log l hl
      refine ⟨hnonneg, fun m hm => ?_⟩
      cases Option.mem_some.mp hm
      refine ⟨hwf.resetConsistency hr, fun hn => ?_⟩
      by_cases h0 : 0 ≤ target
      · obtain ⟨ha, hres⟩ := RankLog.resets_of_ok h0 hr
        rw [RankLog.resets_activeIrecv hres, ha]
      · have hc : target = -1 := by omega
        subst hc
        cases Except.ok.inj ((RankLog.resetConsistency_continue l).symm.trans hr)
        exact hv hn

theorem WellFormed.offerConsistency {e e' : Endpoint} (h : e.WellFormed) (hs : e.offerConsistency = .ok e') :
    e'.WellFormed := by
  obtain ⟨l, hl, rfl⟩ := Except.map_eq_ok_iff.mp hs
  refine h.setLog (h.logs.1.offerConsistency h.active hl) fun hn => ?_
  obtain ⟨hv, rfl⟩ | ⟨_, ha, rfl⟩ := RankLog.offerConsistency_cases hl
  · exact absurd hv hn
  · exact ha

theorem WellFormed.formConsistency {e e' : Endpoint} (h : e.WellFormed) {remote : Window Region}
    {out : List SendLog × Option IrecvLog} (hs : e.formConsistency remote = .ok (e', out)) : e'.WellFormed := by
  obtain ⟨⟨l, o⟩, hl, he⟩ := Except.map_eq_ok_iff.mp hs
  cases he
  exact h.use (h.logs.1.formConsistency hl) (RankLog.formConsistency_realigned h.logs.1 hl).2.1

theorem WellFormed.moves {e e' : Endpoint} (h : e.WellFormed) (hm : e.Moves e') : e'.WellFormed := by
  cases hm with
  | send hs => exact h.send hs
  | irecv hs => exact h.irecv hs
  | wait hs => exact h.wait hs
  | beginRegion hs => exact h.beginRegion hs
  | abandonIrecv => exact h.abandonIrecv
  | resetLocal hs => exact h.resetLocal hs
  | offerConsistency hs => exact h.offerConsistency hs
  | formConsistency hs => exact h.formConsistency hs

end Endpoint

namespace Side

/-- What a step makes of the end of a side and of the logs it has serialised. -/
inductive Changes (s s' : Side) : Prop
  | kept (he : s'.endpoint = s.endpoint) (hs : s'.stored = s.stored)
  | moves (he : s.endpoint.Moves s'.endpoint) (hs : s'.stored = s.stored)
  | restored (he : s'.endpoint ∈ s.stored) (hs : s'.stored = s.stored)
  | fresh (he : s'.endpoint = s.endpoint.fresh) (hs : s'.stored = s.stored)
  | stores {e : Endpoint} (he : s'.endpoint = s.endpoint) (h : s.endpoint.saved = .ok e) (hs : s'.stored = s.stored ++ [e])

structure WellFormed (s : Side) : Prop where
  endpoint : s.endpoint.WellFormed
  stored : ∀ e ∈ s.stored, e.WellFormed

theorem WellFormed.changes {s s' : Side} (h : s.WellFormed) (hc : s.Changes s') : s'.WellFormed := by
  cases hc with
  | kept he hs => exact ⟨he ▸ h.endpoint, hs ▸ h.stored⟩
  | moves he hs => exact ⟨h.endpoint.moves he, hs ▸ h.stored⟩
  | restored he hs => exact ⟨h.stored _ he, hs ▸ h.stored⟩
  | fresh he hs => exact ⟨he ▸ Endpoint.wellFormed_fresh _, hs ▸ h.stored⟩
  | stores he hsaved hs =>
    refine ⟨he ▸ h.endpoint, fun e hmem => ?_⟩
    rw [hs] at hmem
    rcases List.mem_append.mp hmem with hmem | hmem
    · exact h.stored e hmem
    · rw [List.mem_singleton.mp hmem]
      exact h.endpoint.saved hsaved

end Side

namespace Pair

@[simp] theorem side_setSide_self (p : Pair) (a : Bool) (s : Side) : (p.setSide a s).side a = s := by
  simp [setSide]

theorem side_setSide_of_ne (p : Pair) {a b : Bool} (h : b ≠ a) (s : Side) : (p.setSide a s).side b = p.side b := by
  simp [setSide, h]

@[simp] theorem side_setSide_not (p : Pair) (a : Bool) (s : Side) : (p.setSide a s).side (!a) = p.side !a :=
  p.side_setSide_of_ne (Bool.not_ne_self a) s

theorem changes_setSide {p : Pair} {a : Bool} {s : Side} (h : (p.side a).Changes s) (b : Bool) :
    (p.side b).Changes ((p.setSide a s).side b) := by
  by_cases hb : b = a
  · subst hb
    rw [side_setSide_self]
    exact h
  · rw [side_setSide_of_ne p hb]
    exact .kept rfl rfl

theorem changes_setEndpoint {p : Pair} {a : Bool} {e : Endpoint} (h : (p.endpoint a).Moves e) (b : Bool) :
    (p.side b).Changes ((p.setEndpoint a e).side b) :=
  changes_setSide (s := { p.side a with endpoint := e }) (.moves h rfl) b

/-- Messages under way are no part of the ends. -/
theorem changes_transmit {p q : Pair} (a : Bool) (ms : List SendLog) {b : Bool}
    (h : (p.side b).Changes (q.side b)) : (p.side b).Changes ((q.transmit a ms).side b) := by
  have hside : ((q.transmit a ms).side b).endpoint = (q.side b).endpoint ∧
      ((q.transmit a ms).side b).stored = (q.side b).stored := by
    unfold transmit
    by_cases hb : b = !a
    · subst hb
      rw [side_setSide_self]
      exact ⟨rfl, rfl⟩
    · rw [side_setSide_of_ne q hb]
      exact ⟨rfl, rfl⟩
  obtain ⟨he', hs'⟩ := hside
  cases h with
  | kept he hs => exact .kept (he'.trans he) (hs'.trans hs)
  | moves he hs => exact .moves (he' ▸ he) (hs'.trans hs)
  | restored he hs => exact .restored (he' ▸ he) (hs'.trans hs)
  | fresh he hs => exact .fresh (he'.trans he) (hs'.trans hs)
  | stores he hsaved hs => exact .stores (he'.trans he) hsaved (hs'.trans hs)

theorem beginRegion_logs {e e' : Endpoint} {id : Int} (h : e.beginRegion id = .ok e') :
    0 ≤ id ∧ e'.activeRegion = id ∧ (e.log = none ∧ e'.logs = e.logs ∨ e.logs.beginRegion id = .ok e'.logs) := by
  unfold Endpoint.beginRegion at h
  split at h
  next => cases h
  next hid =>
    split at h
    next hl =>
      cases Except.ok.inj h
      exact ⟨Int.not_lt.mp hid, rfl, Or.inl ⟨hl, rfl⟩⟩
    next l hl =>
      obtain ⟨l', hb, rfl⟩ := Except.map_eq_ok_iff.mp h
      refine ⟨Int.not_lt.mp hid, rfl, Or.inr ?_⟩
      rw [Endpoint.logs, hl]
      exact hb

theorem wait_cases {p q : Pair} {a : Bool} (h : p.wait a = .ok q) :
    q = p ∨ ∃ r m e, (p.endpoint a).logs.activeIrecv = some r ∧ (p.side a).mailbox.find? r.accepts = some m ∧
      (p.endpoint a).wait r.request = .ok e ∧ q = p.setSide a { p.side a with
        endpoint := e, mailbox := (p.side a).mailbox.eraseP r.accepts } := by
  unfold wait at h
  split at h
  next => exact Or.inl (Except.ok.inj h).symm
  next r hr =>
    split at h
    next => exact Or.inl (Except.ok.inj h).symm
    next m hm =>
      obtain ⟨e, he, h⟩ := Except.bind_eq_ok_iff.mp h
      exact Or.inr ⟨r, m, e, hr, hm, he, (Except.ok.inj h).symm⟩

/-- What a step does, when it is possible. -/
inductive Does (p : Pair) : Action → Pair → Prop
  | nothing {act : Action} : Does p act p
  | send {a : Bool} {buf : MPIBuffer} {tag : Int} {e : Endpoint} {out : Option SendLog} (hr : p.phase a = .running)
      (he : (p.endpoint a).send buf tag = .ok (e, out)) :
      Does p (.send a buf tag) ((p.setEndpoint a e).transmit a out.toList)
  | irecv {a : Bool} {r : IrecvLog} {e : Endpoint} (hr : p.phase a = .running)
      (he : (p.endpoint a).irecv r = .ok e) : Does p (.irecv a r) (p.setEndpoint a e)
  | deliver {a : Bool} {m : SendLog} {rest : List SendLog} (hin : (p.side a).incoming = m :: rest) :
      Does p (.deliver a) (p.setSide a { p.side a with
        incoming := rest, mailbox := (p.side a).mailbox ++ [m], arrived := (p.side a).arrived ++ [m] })
  | wait {a : Bool} {r : IrecvLog} {m : SendLog} {e : Endpoint} (hr : p.phase a = .running)
      (hposted : (p.endpoint a).logs.activeIrecv = some r) (hm : (p.side a).mailbox.find? r.accepts = some m)
      (he : (p.endpoint a).wait r.request = .ok e) :
      Does p (.wait a) (p.setSide a { p.side a with endpoint := e, mailbox := (p.side a).mailbox.eraseP r.accepts })
  | beginRegion {a : Bool} {id : Int} {e : Endpoint} (hr : p.phase a = .running)
      (he : (p.endpoint a).beginRegion id = .ok e) : Does p (.beginRegion a id) (p.setEndpoint a e)
  | store {a : Bool} {e : Endpoint} (hr : p.phase a = .running) (he : (p.endpoint a).saved = .ok e) :
      Does p (.store a) (p.setSide a { p.side a with stored := (p.side a).stored ++ [e] })
  | fail : Does p .fail { side := fun a => (p.side a).fail, synced := false }
  | abandon {a : Bool} (hf : p.phase a = .failed) : Does p (.abandon a) (p.setEndpoint a (p.endpoint a).abandonIrecv)
  | restore {a : Bool} {k : Nat} (hf : p.phase a = .failed) :
      Does p (.restore a k) (p.setEndpoint a ((p.side a).stored[k]?.getD (p.endpoint a).fresh))
  | reset {a : Bool} {target : Int} {e : Endpoint} (hf : p.phase a = .failed)
      (he : (p.endpoint a).resetLocal target = .ok e) :
      Does p (.reset a target) (p.setSide a { p.side a with endpoint := e, phase := .reset })
  | offer {a : Bool} {e : Endpoint} (hr : p.phase a = .reset)
      (hstart : (p.endpoint a).Logging ∨ (p.phase !a).offer.isSome) (he : (p.endpoint a).offerConsistency = .ok e) :
      Does p (.offer a) (p.setSide a { p.side a with endpoint := e, phase := .offered e.logs.regions })
  | form {a : Bool} {own remote : Window Region} {e : Endpoint} {toSend : List SendLog} {irecv : Option IrecvLog}
      (ho : p.phase a = .offered own) (hr : (p.phase !a).offer = some remote)
      (he : (p.endpoint a).formConsistency remote = .ok (e, toSend, irecv)) :
      Does p (.form a) ((p.setSide a { p.side a with
        endpoint := e, phase := .formed own, resumedAt := e.logs.nextRecv }).transmit a toSend)
  | resumeFormed (hf : ∀ a, ∃ own, p.phase a = .formed own) :
      Does p .resume { side := fun a => { p.side a with phase := .running }, synced := true }
  | resumeReset (hr : ∀ a, p.phase a = .reset) (hl : ∀ a, ¬(p.endpoint a).Logging) :
      Does p .resume { p with side := fun a => { p.side a with phase := .running } }

theorem does_of_form {p q : Pair} {a : Bool} (h : p.step (.form a) = .ok q) : Does p (.form a) q := by
  simp only [step] at h
  split at h
  next own remote ho hr =>
    obtain ⟨⟨e, toSend, r⟩, he, h⟩ := Except.bind_eq_ok_iff.mp h
    cases Except.ok.inj h
    exact .form ho hr he
  next => exact Except.ok.inj h ▸ .nothing

theorem does_of_resume {p q : Pair} (h : p.step .resume = .ok q) : Does p .resume q := by
  simp only [step] at h
  split at h
  next hf ht =>
    cases Except.ok.inj h
    exact .resumeFormed (Bool.forall_bool.mpr ⟨⟨_, hf⟩, ⟨_, ht⟩⟩)
  next hf ht =>
    split at h
    next => exact Except.ok.inj h ▸ .nothing
    next hl =>
      cases Except.ok.inj h
      exact .resumeReset (Bool.forall_bool.mpr ⟨hf, ht⟩) (Bool.forall_bool.mpr (not_or.mp hl))
  next => exact Except.ok.inj h ▸ .nothing

theorem does_of_step {p q : Pair} {act : Action} (h : p.step act = .ok q) : Does p act q := by
  cases act with
  | send a buf tag =>
    obtain rfl | ⟨hr, h⟩ := Except.guarded_cases h
    · exact .nothing
    · obtain ⟨⟨e, out⟩, he, h⟩ := Except.bind_eq_ok_iff.mp h
      cases Except.ok.inj h
      exact .send hr he
  | irecv a r =>
    obtain rfl | ⟨hr, h⟩ := Except.guarded_cases h
    · exact .nothing
    · obtain ⟨e, he, rfl⟩ := Except.map_eq_ok_iff.mp h
      exact .irecv hr he
  | deliver a =>
    cases Except.ok.inj h
    unfold deliver
    split
    next => exact .nothing
    next hin => exact .deliver hin
  | wait a =>
    obtain rfl | ⟨hr, h⟩ := Except.guarded_cases h
    · exact .nothing
    · obtain rfl | ⟨r, m, e, hposted, hm, he, rfl⟩ := wait_cases h
      · exact .nothing
      · exact .wait hr hposted hm he
  | beginRegion a id =>
    obtain rfl | ⟨hr, h⟩ := Except.guarded_cases h
    · exact .nothing
    · obtain ⟨e, he, rfl⟩ := Except.map_eq_ok_iff.mp h
      exact .beginRegion hr he
  | store a =>
    obtain rfl | ⟨hr, h⟩ := Except.guarded_cases h
    · exact .nothing
    · obtain ⟨e, he, rfl⟩ := Except.map_eq_ok_iff.mp h
      exact .store hr he
  | fail => exact Except.ok.inj h ▸ .fail
  | abandon a =>
    cases Except.ok.inj h
    split
    next hf => exact .abandon hf
    next => exact .nothing
  | restore a k =>
    cases Except.ok.inj h
    split
    next hf => exact .restore hf
    next => exact .nothing
  | reset a target =>
    obtain rfl | ⟨hf, h⟩ := Except.guarded_cases h
    · exact .nothing
    · obtain ⟨e, he, rfl⟩ := Except.map_eq_ok_iff.mp h
      exact .reset hf he
  | offer a =>
    obtain rfl | ⟨hr, h⟩ := Except.guarded_cases h
    · exact .nothing
    · obtain ⟨e, he, rfl⟩ := Except.map_eq_ok_iff.mp h
      exact .offer hr.1 hr.2 he
  | form a => exact does_of_form h
  | resume => exact does_of_resume h

theorem step_changes {p q : Pair} {act : Action} (h : p.step act = .ok q) (b : Bool) :
    (p.side b).Changes (q.side b) := by
  cases does_of_step h with
  | nothing => exact .kept rfl rfl
  | send _ he => exact changes_transmit _ _ (changes_setEndpoint (.send he) b)
  | irecv _ he => exact changes_setEndpoint (.irecv he) b
  | deliver =>
    refine changes_setSide ?_ b
    exact .kept rfl rfl
  | wait _ _ _ he =>
    refine changes_setSide ?_ b
    exact .moves (.wait he) rfl
  | beginRegion _ he => exact changes_setEndpoint (.beginRegion he) b
  | store _ he =>
    refine changes_setSide ?_ b
    exact .stores rfl he rfl
  | fail => exact .kept rfl rfl
  | abandon => exact changes_setEndpoint .abandonIrecv b
  | @restore a k =>
    refine changes_setSide ?_ b
    cases hk : (p.side a).stored[k]? with
    | none => exact .fresh rfl rfl
    | some e => exact .restored (List.mem_of_getElem? hk) rfl
  | reset _ he =>
    refine changes_setSide ?_ b
    exact .moves (.resetLocal he) rfl
  | offer _ _ he =>
    refine changes_setSide ?_ b
    exact .moves (.offerConsistency he) rfl
  | form _ _ he =>
    refine changes_transmit _ _ (changes_setSide ?_ b)
    exact .moves (.formConsistency he) rfl
  | resumeFormed => exact .kept rfl rfl
  | resumeReset => exact .kept rfl rfl

theorem Reachable.wellFormed {p : Pair} (h : Reachable p) (b : Bool) : (p.side b).WellFormed := by
  induction h with
  | create ranks =>
    exact ⟨⟨Int.le_refl 0, fun _ hl => absurd hl (Option.not_mem_none _)⟩, fun _ he => absurd he List.not_mem_nil⟩
  | step _ hs ih => exact ih.changes (step_changes hs b)

def run (p : Pair) (acts : List Action) : Except Abort Pair := acts.foldlM step p

theorem Reachable.run {p q : Pair} (h : Reachable p) {acts : List Action} (hr : p.run acts = .ok q) : Reachable q := by
  induction acts generalizing p with
  | nil =>
    cases Except.ok.inj hr
    exact h
  | cons act acts ih =>
    obtain ⟨p', hs, hr⟩ := Except.bind_eq_ok_iff.mp hr
    exact ih (h.step hs) hr

/-- No side is at work or has started to sync. -/
def Quiet (p : Pair) : Prop := ∀ a, p.phase a = .failed ∨ p.phase a = .reset

/-- No message is under way, and none has arrived. -/
def Idle (p : Pair) : Prop := ∀ a, (p.side a).incoming = [] ∧ (p.side a).mailbox = [] ∧ (p.side a).arrived = []

theorem phase_setSide_of_ne (p : Pair) {a b : Bool} (h : b ≠ a) (s : Side) : (p.setSide a s).phase b = p.phase b :=
  congrArg Side.phase (p.side_setSide_of_ne h s)

@[simp] theorem phase_setSide_self (p : Pair) (a : Bool) (s : Side) : (p.setSide a s).phase a = s.phase :=
  congrArg Side.phase (p.side_setSide_self a s)

@[simp] theorem phase_setEndpoint (p : Pair) (a b : Bool) (e : Endpoint) : (p.setEndpoint a e).phase b = p.phase b := by
  unfold setEndpoint
  by_cases hb : b = a
  · subst hb
    rw [phase_setSide_self]
    rfl
  · rw [phase_setSide_of_ne p hb]

@[simp] theorem phase_transmit (p : Pair) (a b : Bool) (ms : List SendLog) : (p.transmit a ms).phase b = p.phase b := by
  unfold transmit
  by_cases hb : b = !a
  · subst hb
    rw [phase_setSide_self]
    rfl
  · rw [phase_setSide_of_ne p hb]

theorem Quiet.not_running {p : Pair} (h : p.Quiet) (a : Bool) : p.phase a ≠ .running := by
  intro hr
  rcases h a with hq | hq
  · rw [hr] at hq
    cases hq
  · rw [hr] at hq
    cases hq

/-- A side that is not quiet makes the pair not quiet. -/
theorem Quiet.of_setSide {p : Pair} {a : Bool} {s : Side} (h : (p.setSide a s).Quiet)
    (hp : p.phase a = .failed ∨ p.phase a = .reset) : p.Quiet := by
  intro b
  by_cases hb : b = a
  · rw [hb]
    exact hp
  · rw [← phase_setSide_of_ne p hb s]
    exact h b

theorem Idle.setSide {p : Pair} (h : p.Idle) {a : Bool} {s : Side} (hi : s.incoming = (p.side a).incoming)
    (hm : s.mailbox = (p.side a).mailbox) (ha : s.arrived = (p.side a).arrived) : (p.setSide a s).Idle := by
  intro b
  by_cases hb : b = a
  · subst hb
    rw [side_setSide_self, hi, hm, ha]
    exact h b
  · rw [side_setSide_of_ne p hb]
    exact h b

/-- From the failure up to the first side that starts to sync, nothing is sent. -/
theorem idle_step {p q : Pair} {act : Action} (hp : p.Quiet → p.Idle) (h : p.step act = .ok q) (hq : q.Quiet) :
    q.Idle := by
  cases does_of_step h with
  | nothing => exact hp hq
  | send hr => exact absurd (by simpa using hr) (hq.not_running _)
  | irecv hr => exact absurd (by simpa using hr) (hq.not_running _)
  | @deliver a m rest hin =>
    have hphase := hq a
    rw [phase_setSide_self] at hphase
    have hquiet : p.Quiet := hq.of_setSide hphase
    rw [(hp hquiet a).1] at hin
    cases hin
  | @wait a r m e hr =>
    refine absurd ?_ (hq.not_running a)
    rw [phase_setSide_self]
    exact hr
  | beginRegion hr => exact absurd (by simpa using hr) (hq.not_running _)
  | @store a e hr =>
    refine absurd ?_ (hq.not_running a)
    rw [phase_setSide_self]
    exact hr
  | fail => exact fun a => ⟨rfl, rfl, rfl⟩
  | abandon hf => exact (hp (hq.of_setSide (Or.inl hf))).setSide rfl rfl rfl
  | restore hf => exact (hp (hq.of_setSide (Or.inl hf))).setSide rfl rfl rfl
  | reset hf => exact (hp (hq.of_setSide (Or.inl hf))).setSide rfl rfl rfl
  | @offer a =>
    have hphase := hq a
    simp at hphase
  | @form a =>
    have hphase := hq a
    simp at hphase
  | resumeFormed => exact absurd rfl (hq.not_running false)
  | resumeReset => exact absurd rfl (hq.not_running false)

theorem Reachable.idle {p : Pair} (h : Reachable p) (hq : p.Quiet) : p.Idle := by
  induction h with
  | create ranks => exact fun _ => ⟨rfl, rfl, rfl⟩
  | step _ hs ih => exact idle_step ih hs hq

end Pair

end Fenix
