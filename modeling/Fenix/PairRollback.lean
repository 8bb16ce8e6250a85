import Fenix.PairReexecution

namespace Fenix

namespace Endpoint

/-- What the program does with an end, and the region it begins in doing so. -/
inductive Works (e : Endpoint) : Endpoint → Option Int → Prop
  | kept : Works e e none
  | send {buf : MPIBuffer} {tag : Int} {e' : Endpoint} {out : Option SendLog} (h : e.send buf tag = .ok (e', out)) :
      Works e e' none
  | irecv {r : IrecvLog} {e' : Endpoint} (h : e.irecv r = .ok e') : Works e e' none
  | wait {request : Nat} {e' : Endpoint} (h : e.wait request = .ok e') : Works e e' none
  | beginRegion {id : Int} {e' : Endpoint} (h : e.beginRegion id = .ok e') : Works e e' (some id)

/-- The log is at the active region, or can begin it. -/
def Placed (e : Endpoint) : Prop := e.logs.Placed e.activeRegion

/-- Regions begun in order keep the log placed. -/
theorem Works.placed {e e' : Endpoint} {o : Option Int} (h : e.Works e' o) (hwf : e.WellFormed) (hp : e.Placed)
    (ho : ∀ id ∈ o, e.activeRegion ≤ id) : e'.Placed ∧ e'.activeRegion = o.getD e.activeRegion := by
  cases h with
  | kept => exact ⟨hp, rfl⟩
  | send h =>
    obtain ⟨⟨l, _⟩, hl, he⟩ := Except.map_eq_ok_iff.mp h
    cases he
    exact ⟨RankLog.placed_send hwf.logs.1 hwf.active hl, rfl⟩
  | irecv h =>
    obtain ⟨l, hl, rfl⟩ := Except.map_eq_ok_iff.mp h
    exact ⟨RankLog.placed_irecv hwf.logs.1 hwf.active hl, rfl⟩
  | wait h =>
    obtain ⟨l, hl, rfl⟩ := Except.map_eq_ok_iff.mp h
    exact ⟨RankLog.Placed.wait hp hl, rfl⟩
  | beginRegion h =>
    obtain ⟨hid, hactive, ⟨hnone, hlogs⟩ | hbegin⟩ := Pair.beginRegion_logs h
    · refine ⟨?_, hactive⟩
      unfold Placed
      rw [hactive, hlogs, Endpoint.logs, hnone]
      refine Or.inr ⟨Region.not_valid_default, ?_⟩
      change -1 < _
      omega
    · refine ⟨?_, hactive⟩
      unfold Placed
      rw [hactive]
      exact RankLog.Placed.beginRegion hp (ho _ rfl) hbegin

end Endpoint

namespace Pair

theorem endpoint_setSide_of_ne (p : Pair) {a b : Bool} (h : b ≠ a) (s : Side) :
    (p.setSide a s).endpoint b = p.endpoint b :=
  congrArg Side.endpoint (p.side_setSide_of_ne h s)

@[simp] theorem endpoint_transmit (p : Pair) (a b : Bool) (ms : List SendLog) :
    (p.transmit a ms).endpoint b = p.endpoint b := by
  unfold transmit
  by_cases hb : b = !a
  · subst hb
    rw [endpoint, side_setSide_self]
    rfl
  · exact p.endpoint_setSide_of_ne hb _

section Run

variable {p q : Pair} {acts : List Action} {got : List (Bool × IrecvLog × SendLog)}

theorem Works.working (h : Works p acts got q) (hp : p.Working [] []) : q.Working acts got := by
  induction h with
  | refl => exact hp
  | step _ hw hs ih => exact ih.step hw hs

theorem works_setSide {a : Bool} {s : Side} {o : Option Int} (h : (p.endpoint a).Works s.endpoint o) (b : Bool) :
    (p.endpoint b).Works ((p.setSide a s).endpoint b) (if b = a then o else none) := by
  by_cases hb : b = a
  · subst hb
    rw [if_pos rfl, show (p.setSide b s).endpoint b = s.endpoint from congrArg Side.endpoint (p.side_setSide_self b s)]
    exact h
  · rw [if_neg hb, endpoint_setSide_of_ne p hb]
    exact .kept

/-- What a step of the program does with the end of `b`. -/
theorem Working.works (h : p.Working acts got) {act : Action} (hw : act.Work) (hs : p.step act = .ok q) (b : Bool) :
    (p.endpoint b).Works (q.endpoint b) (regionsOf b [act]).head? := by
  cases act with
  | send a buf tag =>
    simp only [Pair.step, show p.phase a = .running from (h a).running, if_true] at hs
    obtain ⟨⟨e, out⟩, he, hs⟩ := Except.bind_eq_ok_iff.mp hs
    cases Except.ok.inj hs
    rw [endpoint_transmit]
    have hworks := works_setSide (s := { p.side a with endpoint := e }) (.send he) b
    rw [ite_self] at hworks
    exact hworks
  | irecv a r =>
    simp only [Pair.step, show p.phase a = .running from (h a).running, if_true] at hs
    obtain ⟨e, he, rfl⟩ := Except.map_eq_ok_iff.mp hs
    have hworks := works_setSide (s := { p.side a with endpoint := e }) (.irecv he) b
    rw [ite_self] at hworks
    exact hworks
  | deliver a =>
    cases Except.ok.inj hs
    unfold deliver
    split
    next => exact .kept
    next m rest _ =>
      have hworks := works_setSide (p := p) (a := a) (s := { p.side a with
        incoming := rest, mailbox := (p.side a).mailbox ++ [m], arrived := (p.side a).arrived ++ [m] }) .kept b
      rw [ite_self] at hworks
      exact hworks
  | wait a =>
    simp only [Pair.step, show p.phase a = .running from (h a).running, if_true] at hs
    obtain rfl | ⟨r, m, e, _, _, he, rfl⟩ := wait_cases hs
    · exact .kept
    · have hworks := works_setSide (s := { p.side a with
        endpoint := e, mailbox := (p.side a).mailbox.eraseP r.accepts }) (.wait he) b
      rw [ite_self] at hworks
      exact hworks
  | beginRegion a id =>
    simp only [Pair.step, show p.phase a = .running from (h a).running, if_true] at hs
    obtain ⟨e, he, rfl⟩ := Except.map_eq_ok_iff.mp hs
    have hworks := works_setSide (s := { p.side a with endpoint := e }) (.beginRegion he) b
    have hregions : (regionsOf b [.beginRegion a id]).head? = if b = a then some id else none := by
      by_cases hb : a = b
      · simp [regionsOf, hb]
      · simp [regionsOf, hb, Ne.symm hb]
    rw [hregions]
    exact hworks
  | store a =>
    simp only [Pair.step, show p.phase a = .running from (h a).running, if_true] at hs
    obtain ⟨e, he, rfl⟩ := Except.map_eq_ok_iff.mp hs
    have hworks := works_setSide (p := p) (a := a) (s := { p.side a with
      stored := (p.side a).stored ++ [e] }) .kept b
    rw [ite_self] at hworks
    exact hworks
  | fail | abandon | restore | reset | offer | form | resume => exact hw.elim

theorem regionsOf_concat (a : Bool) (acts : List Action) (act : Action) :
    regionsOf a (acts ++ [act]) = regionsOf a acts ++ (regionsOf a [act]).head?.toList := by
  unfold regionsOf
  rw [List.filterMap_append]
  cases act with
  | beginRegion b id =>
    by_cases hb : b = a
    · simp [hb]
    · simp [hb]
  | _ => rfl

/-- Begun in order, the last region is the active one. -/
theorem Works.placed (h : Works p acts got q) (hp : p.Working [] []) {a : Bool} (ho : p.InOrder a acts)
    (hplaced : (p.endpoint a).Placed) : (q.endpoint a).Placed ∧
      (q.endpoint a).activeRegion ∈ (p.endpoint a).activeRegion :: regionsOf a acts := by
  induction h with
  | refl => exact ⟨hplaced, List.mem_singleton.mpr rfl⟩
  | @step acts got q q' act hrun hw hs ih =>
    unfold InOrder at ho
    rw [regionsOf_concat, ← List.cons_append] at ho
    obtain ⟨hbefore, _, hlast⟩ := List.pairwise_append.mp ho
    obtain ⟨hq, hactive⟩ := ih hbefore
    have hwork := hrun.working hp
    obtain ⟨hq', hactive'⟩ := (hwork.works hw hs a).placed (hwork a).wellFormed.endpoint hq fun id hid =>
      hlast _ hactive id (Option.mem_toList.mpr hid)
    refine ⟨hq', ?_⟩
    rw [hactive', regionsOf_concat, ← List.cons_append]
    cases ho' : (regionsOf a [act]).head? with
    | none => exact List.mem_append_left _ hactive
    | some id => exact List.mem_append_right _ (List.mem_singleton.mpr rfl)

/-- A pair at work whose logs are placed goes on as two ranks that have never met. -/
theorem Working.reexecutesOnce (hp : p.Working [] []) (hplaced : ∀ a, (p.endpoint a).Placed) : p.ReexecutesOnce where
  transmits h a := by
    have hside := h.working hp !a
    rw [hside.sentTo, Bool.not_not]
  receives h a := by
    have hside := h.working hp a
    rw [← hside.sentTo]
    exact ⟨_, hside.receives⟩
  sends := by
    intro acts got q h a ho buf tag
    have hside := h.working hp a
    have hq := (h.placed hp ho (hplaced a)).1
    obtain ⟨l, out, hl⟩ := RankLog.Placed.send hq hside.wellFormed.endpoint.logs.1 hside.wellFormed.endpoint.active
      buf tag
    simp only [Pair.step, show q.phase a = .running from hside.running, if_true, Endpoint.send, hl]
    exact ⟨_, rfl⟩
  posts := by
    intro acts got q h a ho hnone r
    obtain ⟨l, hl⟩ := RankLog.Placed.irecv (h.placed hp ho (hplaced a)).1 hnone r
    simp only [Pair.step, show q.phase a = .running from (h.working hp a).running, if_true, Endpoint.irecv, hl]
    exact ⟨_, rfl⟩
  completes := by
    intro acts got q h a
    have hside := h.working hp a
    simp only [Pair.step, show q.phase a = .running from hside.running, if_true, Pair.wait]
    split
    next => exact ⟨_, rfl⟩
    next r hr =>
      split
      next => exact ⟨_, rfl⟩
      next m _ =>
        -- a receive is only posted in a valid region
        have hv : (q.endpoint a).logs.curRegion.Valid := by
          by_contra hn
          have hnone := hside.wellFormed.endpoint.logs.2 hn
          cases hnone.symm.trans hr
        obtain ⟨l, hl⟩ := RankLog.wait_ok hr hv
        rw [Endpoint.wait, hl]
        exact ⟨_, rfl⟩

end Run

end Pair

/-- A rank that goes back to work. -/
def Side.resumed (s : Side) : Side := { s with phase := .running }

namespace Pair

section Rollback

variable {p q : Pair}

theorem not_valid_of_not_logging {e : Endpoint} (h : ¬e.Logging) : ¬e.logs.curRegion.Valid := by
  intro hv
  unfold Endpoint.logs at hv
  cases hl : e.log with
  | none =>
    rw [hl] at hv
    exact Region.not_valid_default hv
  | some l =>
    rw [hl] at hv
    exact h ⟨l, hl, hv⟩

/-- Two ranks that both reset past the first region of their traffic resume without a sync. -/
theorem resume_of_reset (hr : ∀ a, p.phase a = .reset) (hf : ∀ a, ¬(p.endpoint a).Logging)
    (hs : p.step .resume = .ok q) : ∀ a, q.side a = (p.side a).resumed := by
  simp only [step, hr false, hr true] at hs
  rw [if_neg (not_or.mpr ⟨hf false, hf true⟩)] at hs
  cases Except.ok.inj hs
  exact fun _ => rfl

theorem endpoint_of_resumed {a : Bool} (h : q.side a = (p.side a).resumed) : q.endpoint a = p.endpoint a := by
  rw [endpoint, h]
  rfl

theorem resume_ok (hr : ∀ a, p.phase a = .reset) (hf : ∀ a, ¬(p.endpoint a).Logging) : ∃ q, p.step .resume = .ok q := by
  simp only [step, hr false, hr true]
  rw [if_neg (not_or.mpr ⟨hf false, hf true⟩)]
  exact ⟨_, rfl⟩

/-- What the earlier sync has left: nothing to skip, and no region that has been begun but not formed. -/
def Forgotten (p : Pair) (a : Bool) : Prop :=
  (p.endpoint a).logs.alreadySent < 0 ∧ (p.endpoint a).logs.curRegion.id < (p.endpoint a).activeRegion

theorem resumed_working (hp : Reachable p) (hr : ∀ a, p.phase a = .reset) (hf : ∀ a, ¬(p.endpoint a).Logging)
    (hq : ∀ a, q.side a = (p.side a).resumed) (hn : ∀ a, (p.endpoint a).logs.alreadySent < 0) :
    q.Working [] [] := by
  intro a
  obtain ⟨hin, hmail, harr⟩ := hp.idle (fun b => Or.inr (hr b)) a
  rw [hq a]
  refine ⟨hp.wellFormed a |>.changes (.kept rfl rfl), rfl, ?_, ?_, ?_⟩
  · exact ⟨hn a, Int.le_refl 0, Or.inr ⟨not_valid_of_not_logging (hf a), rfl⟩⟩
  · exact List.append_eq_nil_iff.mpr ⟨harr, hin⟩
  · simp [Side.sentTo, Side.resumed, hin, harr, hmail, Receives, receiptsOf]

/-- Nothing has been sent yet, so the first send of a side that skips is lost. -/
theorem forgotten_of_reexecutesOnce (hp : Reachable p) (hr : ∀ a, p.phase a = .reset)
    (hf : ∀ a, ¬(p.endpoint a).Logging) (hq : ∀ a, q.side a = (p.side a).resumed)
    (h : q.ReexecutesOnce) (a : Bool) : p.Forgotten a := by
  have hwf := hp.wellFormed a
  have hrun : q.phase a = .running := congrArg Side.phase (hq a)
  have hend := endpoint_of_resumed (hq a)
  obtain ⟨q', hs⟩ := h.sends .refl a (List.pairwise_singleton _ _) ⟨0, 0, []⟩ 0
  have hsent := h.transmits (@Works.step _ _ _ _ _ (.send a ⟨0, 0, []⟩ 0) Works.refl trivial hs) a
  simp only [step, hrun, if_true, hend] at hs
  obtain ⟨⟨e, out⟩, he, hs⟩ := Except.bind_eq_ok_iff.mp hs
  cases Except.ok.inj hs
  obtain ⟨⟨l, out⟩, hl, heq⟩ := Except.map_eq_ok_iff.mp he
  cases heq
  obtain ⟨m, hm, _, _, _, hout⟩ := RankLog.send_cases hl
  obtain ⟨hlt, hskip⟩ := RankLog.ensureConsistency_of_not_valid (not_valid_of_not_logging (hf a)) hm
  refine ⟨?_, hlt⟩
  by_contra hge
  have hnone : out = none := by
    rw [hout, hskip.1, hskip.2]
    exact if_pos (Int.not_lt.mp hge)
  obtain ⟨hin, _, harr⟩ := hp.idle (fun b => Or.inr (hr b)) !a
  have hempty : (q.side !a).sentTo = [] := by
    rw [hq]
    exact List.append_eq_nil_iff.mpr ⟨harr, hin⟩
  have hone : ((q.setEndpoint a ((p.endpoint a).setLog l)).side !a).sentTo = (q.side !a).sentTo := by
    rw [setEndpoint, side_setSide_not]
  have hkeep : (((q.setEndpoint a ((p.endpoint a).setLog l)).transmit a []).side !a).sentTo = [] := by
    rw [transmit, side_setSide_self, Side.transmit, List.append_nil, hone]
    exact hempty
  rw [hnone] at hsent
  have hlen := congrArg List.length (hkeep.symm.trans hsent)
  simp [numbered, sendsOf] at hlen

/-- After a reset past the first region of their traffic, the re-executed program of two ranks sends
and receives as if they had never met exactly when the earlier syncs have left nothing behind. -/
theorem reexecutesOnce_iff (hp : Reachable p) (hr : ∀ a, p.phase a = .reset) (hf : ∀ a, ¬(p.endpoint a).Logging)
    (hs : p.step .resume = .ok q) : q.ReexecutesOnce ↔ ∀ a, p.Forgotten a := by
  have hq := resume_of_reset hr hf hs
  constructor
  · exact forgotten_of_reexecutesOnce hp hr hf hq
  · intro h
    refine (resumed_working hp hr hf hq fun a => (h a).1).reexecutesOnce fun a => ?_
    rw [endpoint_of_resumed (hq a)]
    exact Or.inr ⟨not_valid_of_not_logging (hf a), (h a).2⟩

/-- Two ranks whose traffic begins in region 1, up to a failure. -/
def firstMet : List Action :=
  [.beginRegion false 0, .beginRegion true 0, .beginRegion false 1, .beginRegion true 1, .send false ⟨0, 0, []⟩ 0,
    .irecv true ⟨0, 0, 0, 0⟩, .deliver true, .wait true, .fail]

theorem reexecutesOnce_firstMet : ∃ p q, Reachable p ∧ p.step .resume = .ok q ∧ q.ReexecutesOnce := by
  have hp : ∃ p, Pair.run (.create (fun a => a.toNat) 2) (firstMet ++ [.reset false 0, .reset true 0]) = .ok p ∧
      (∀ a, p.phase a = .reset) ∧ (∀ a, ¬(p.endpoint a).Logging) ∧ ∀ a, p.Forgotten a := by
    refine ⟨_, rfl, ?_, ?_, fun a => ?_⟩
    · decide
    · decide
    · cases a
      · exact ⟨by decide, by decide⟩
      · exact ⟨by decide, by decide⟩
  obtain ⟨p, hrun, hr, hf, hforgotten⟩ := hp
  have hreach := (Reachable.create (fun a => a.toNat) (by decide)).run hrun
  obtain ⟨q, hs⟩ := resume_ok hr hf
  exact ⟨p, q, hreach, hs, (reexecutesOnce_iff hreach hr hf hs).mpr hforgotten⟩

/-- The two ranks sync after the failure, fail again, and go back to region 0: the first send is skipped. -/
theorem reexecution_skips : ∃ p q, Reachable p ∧ (∀ a, p.phase a = .reset) ∧ (∀ a, ¬(p.endpoint a).Logging) ∧
    p.step .resume = .ok q ∧ ¬q.ReexecutesOnce := by
  have hp : ∃ p, Pair.run (.create (fun a => a.toNat) 2) (firstMet ++ [.reset false (-1), .reset true (-1), .offer false,
      .offer true, .form false, .form true, .resume, .fail, .reset false 0, .reset true 0]) = .ok p ∧
      (∀ a, p.phase a = .reset) ∧ (∀ a, ¬(p.endpoint a).Logging) ∧ ¬p.Forgotten false := by
    refine ⟨_, rfl, ?_, ?_, fun h => absurd h.1 ?_⟩
    · decide
    · decide
    · decide
  obtain ⟨p, hrun, hr, hf, hforgotten⟩ := hp
  have hreach := (Reachable.create (fun a => a.toNat) (by decide)).run hrun
  obtain ⟨q, hs⟩ := resume_ok hr hf
  refine ⟨p, q, hreach, hr, hf, hs, fun h => hforgotten ?_⟩
  exact forgotten_of_reexecutesOnce hreach hr hf (resume_of_reset hr hf hs) h false

end Rollback

end Pair

end Fenix
