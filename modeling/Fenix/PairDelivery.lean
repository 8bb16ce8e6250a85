import Fenix.PairCompletion
import Fenix.RankLogFresh

namespace Fenix

namespace RankLog

/-- What has been sent since consistency was formed are the messages from the first that the peer
was missing up to the next one. -/
structure Feeds (l : RankLog) (ms : List SendLog) : Prop where
  valid : l.curRegion.Valid
  consecutive : Consecutive (l.alreadySent + 1) (ms.map SendLog.idx)
  upTo : l.alreadySent + 1 + ms.length = max (l.alreadySent + 1) l.nextSend

section Feeds

variable {l l' : RankLog} {ms : List SendLog} {active : Int}

theorem Feeds.of_same (h : l.Feeds ms) (hv : l'.curRegion.Valid) (hs : l'.alreadySent = l.alreadySent)
    (hn : l'.nextSend = l.nextSend) : l'.Feeds ms := by
  refine ⟨hv, ?_, ?_⟩
  · rw [hs]
    exact h.consecutive
  · rw [hs, hn]
    exact h.upTo

theorem Feeds.ensureConsistency (h : l.Feeds ms) (he : l.ensureConsistency active = .ok l') : l' = l := by
  obtain ⟨m, hm, he⟩ := Except.bind_eq_ok_iff.mp he
  rw [if_pos h.valid] at hm
  cases Except.ok.inj hm
  split at he
  next => cases he
  next => exact (Except.ok.inj he).symm

/-- A send is skipped as long as the peer has the message. -/
theorem Feeds.send (h : l.Feeds ms) {buf : MPIBuffer} {tag : Int} {out : Option SendLog}
    (hs : l.send active buf tag = .ok (l', out)) :
    l'.Feeds (ms ++ out.toList) ∧ l'.alreadySent = l.alreadySent := by
  obtain ⟨m, hm, _, _, rfl, rfl⟩ := send_cases hs
  cases h.ensureConsistency hm
  have hc := h.consecutive
  have hu := h.upTo
  refine ⟨⟨h.valid.oneSent, ?_, ?_⟩, rfl⟩
  · by_cases hskip : l.nextSend ≤ l.alreadySent
    · rw [if_pos hskip, Option.toList_none, List.append_nil]
      exact hc
    · have hnext : l.nextSend = l.alreadySent + 1 + (ms.map SendLog.idx).length := by
        rw [List.length_map]
        omega
      rw [if_neg hskip, Option.toList_some, List.map_append, List.map_singleton]
      dsimp only
      rw [hnext]
      exact hc.concat
  · change l.alreadySent + 1 + _ = max (l.alreadySent + 1) (l.nextSend + 1)
    rw [List.length_append]
    split
    next =>
      rw [Option.toList_none, List.length_nil]
      omega
    next =>
      rw [Option.toList_some, List.length_singleton]
      omega

theorem Feeds.irecv (h : l.Feeds ms) {r : IrecvLog} (hs : l.irecv active r = .ok l') :
    l'.Feeds ms ∧ l'.alreadySent = l.alreadySent := by
  obtain ⟨_, m, hm, _, rfl⟩ := irecv_cases hs
  cases h.ensureConsistency hm
  exact ⟨h.of_same h.valid rfl rfl, rfl⟩

theorem Feeds.wait (h : l.Feeds ms) {request : Nat} (hs : l.wait request = .ok l') :
    l'.Feeds ms ∧ l'.alreadySent = l.alreadySent := by
  obtain ⟨_, hv, rfl⟩ := wait_cases hs
  exact ⟨h.of_same hv.oneReceived rfl rfl, rfl⟩

theorem Feeds.beginRegion (h : l.Feeds ms) {id : Int} (hs : l.beginRegion id = .ok l') :
    l'.Feeds ms ∧ l'.alreadySent = l.alreadySent := by
  obtain ⟨hid, ⟨rfl, _⟩ | ⟨hv, ha⟩ | ⟨hv, _⟩⟩ := beginRegion_cases hs
  · exact ⟨h, rfl⟩
  · have hskip := appendRegion_alreadySent ha
    obtain ⟨_, rfl⟩ := appendRegion_eq ha
    exact ⟨h.of_same (appended_valid hid hv) hskip rfl, hskip⟩
  · exact absurd h.valid hv

theorem feeds_of_formConsistency (h : l.WellFormed) {remote : Window Region} {out : List SendLog × Option IrecvLog}
    (hf : l.formConsistency remote = .ok (l', out)) : l'.Feeds out.1 := by
  have hwf := h.formConsistency hf
  obtain ⟨_, _, _, hv, _, rfl, hr⟩ := formConsistency_cases hf
  obtain ⟨hc, hlen⟩ := replayMessages_consecutive hwf hr
  exact ⟨hv, hc, hlen⟩

end Feeds

end RankLog

namespace Side

@[simp] theorem sentTo_transmit (s : Side) (ms : List SendLog) : (s.transmit ms).sentTo = s.sentTo ++ ms :=
  (List.append_assoc _ _ _).symm

theorem transmit_nil (s : Side) : s.transmit [] = s := by
  unfold transmit
  rw [List.append_nil]

/-- The rank has formed consistency with what the peer has offered. -/
structure Formed (s t : Side) (own : Window Region) : Prop where
  ordered : own.toList.Pairwise Region.Precedes
  resumedAt : s.resumedAt = s.endpoint.logs.nextRecv
  agreed : ∃ remote theirs, t.phase.offer = some remote ∧
    RankLog.reconcile own remote = .ok (s.endpoint.logs.regions, theirs) ∧
    s.endpoint.logs.alreadySent = theirs.cur.recv.next - 1

/-- How the messages that `s` has sent to `t` stand, from one failure to the next. -/
inductive Standing (s t : Side) (synced : Bool) : Prop
  | unsynced (hp : s.phase = .running) (hs : synced = false)
  | synced (hp : s.phase = .running) (hs : synced = true) (hfeeds : s.endpoint.logs.Feeds t.sentTo)
      (hat : t.resumedAt = s.endpoint.logs.alreadySent + 1)
  | waiting (hp : s.phase = .failed ∨ s.phase = .reset) (hs : synced = false) (hnone : t.sentTo = [])
  | offered (hp : s.phase = .offered s.endpoint.logs.regions) (hs : synced = false) (hnone : t.sentTo = [])
  | formed {own : Window Region} (hp : s.phase = .formed own) (hs : synced = false)
      (hfeeds : s.endpoint.logs.Feeds t.sentTo) (hformed : s.Formed t own)

section Standing

variable {s s' t t' : Side} {synced : Bool}

/-- The peer goes on, with what has been sent to it. -/
theorem Standing.receiver (h : s.Standing t synced) (hsent : t'.sentTo = t.sentTo)
    (hoffer : ∀ w, t.phase.offer = some w → t'.phase.offer = some w)
    (hat : synced = true → t'.resumedAt = t.resumedAt) : s.Standing t' synced := by
  cases h with
  | unsynced hp hs => exact .unsynced hp hs
  | synced hp hs hfeeds hres => exact .synced hp hs (hsent ▸ hfeeds) ((hat hs).trans hres)
  | waiting hp hs hnone => exact .waiting hp hs (hsent.trans hnone)
  | offered hp hs hnone => exact .offered hp hs (hsent.trans hnone)
  | formed hp hs hfeeds hformed =>
    obtain ⟨remote, theirs, hremote, hagreed⟩ := hformed.agreed
    exact .formed hp hs (hsent ▸ hfeeds) ⟨hformed.ordered, hformed.resumedAt, remote, theirs, hoffer _ hremote, hagreed⟩

theorem Standing.sender (h : s.Standing t synced) (he : s'.endpoint = s.endpoint) (hp : s'.phase = s.phase)
    (hat : s'.resumedAt = s.resumedAt) : s'.Standing t synced := by
  cases h with
  | unsynced hr hs => exact .unsynced (hp.trans hr) hs
  | synced hr hs hfeeds hres => exact .synced (hp.trans hr) hs (he ▸ hfeeds) (he ▸ hres)
  | waiting hw hs hnone => exact .waiting (hp.symm ▸ hw) hs hnone
  | offered ho hs hnone => exact .offered (by rw [hp, he, ho]) hs hnone
  | formed hf hs hfeeds hformed =>
    refine .formed (hp.trans hf) hs (he ▸ hfeeds) ⟨hformed.ordered, ?_, ?_⟩
    · rw [hat, he, hformed.resumedAt]
    · rw [he]
      exact hformed.agreed

/-- A rank at work sends the next messages. -/
theorem Standing.work (h : s.Standing t synced) (hr : s.phase = .running) (hp : s'.phase = .running)
    (ms : List SendLog) (hf : s.endpoint.logs.Feeds t.sentTo → s'.endpoint.logs.Feeds (t.sentTo ++ ms) ∧
      s'.endpoint.logs.alreadySent = s.endpoint.logs.alreadySent) : s'.Standing (t.transmit ms) synced := by
  cases h with
  | unsynced _ hs => exact .unsynced hp hs
  | synced _ hs hfeeds hat =>
    obtain ⟨hfeeds', hskip⟩ := hf hfeeds
    rw [← hskip] at hat
    rw [← sentTo_transmit] at hfeeds'
    exact .synced hp hs hfeeds' hat
  | waiting hw => rcases hw with hw | hw <;> cases hw.symm.trans hr
  | offered ho => cases ho.symm.trans hr
  | formed hf => cases hf.symm.trans hr

theorem Standing.keep (h : s.Standing t synced) (hr : s.phase = .running) (hp : s'.phase = .running)
    (hf : s.endpoint.logs.Feeds t.sentTo → s'.endpoint.logs.Feeds t.sentTo ∧
      s'.endpoint.logs.alreadySent = s.endpoint.logs.alreadySent) : s'.Standing t synced := by
  have hwork := h.work hr hp [] fun hfeeds => by
    rw [List.append_nil]
    exact hf hfeeds
  rwa [transmit_nil] at hwork

theorem Standing.nothing_sent (h : s.Standing t synced) (hp : s.phase = .failed ∨ s.phase = .reset) :
    synced = false ∧ t.sentTo = [] := by
  cases h with
  | unsynced hr => rcases hp with hp | hp <;> cases hr.symm.trans hp
  | synced hr => rcases hp with hp | hp <;> cases hr.symm.trans hp
  | waiting _ hs hnone => exact ⟨hs, hnone⟩
  | offered ho => rcases hp with hp | hp <;> cases ho.symm.trans hp
  | formed hf => rcases hp with hp | hp <;> cases hf.symm.trans hp

theorem Standing.of_offered (h : s.Standing t synced) {own : Window Region} (hp : s.phase = .offered own) :
    synced = false ∧ t.sentTo = [] ∧ s.endpoint.logs.regions = own := by
  cases h with
  | unsynced hr => cases hr.symm.trans hp
  | synced hr => cases hr.symm.trans hp
  | waiting hw => rcases hw with hw | hw <;> cases hw.symm.trans hp
  | offered ho hs hnone =>
    cases ho.symm.trans hp
    exact ⟨hs, hnone, rfl⟩
  | formed hf => cases hf.symm.trans hp

theorem Standing.of_formed (h : s.Standing t synced) {own : Window Region} (hp : s.phase = .formed own) :
    synced = false ∧ s.endpoint.logs.Feeds t.sentTo ∧ s.Formed t own := by
  cases h with
  | unsynced hr => cases hr.symm.trans hp
  | synced hr => cases hr.symm.trans hp
  | waiting hw => rcases hw with hw | hw <;> cases hw.symm.trans hp
  | offered ho => cases ho.symm.trans hp
  | formed hf hs hfeeds hformed =>
    cases hf.symm.trans hp
    exact ⟨hs, hfeeds, hformed⟩

theorem Standing.of_synced (h : s.Standing t true) :
    s.endpoint.logs.Feeds t.sentTo ∧ t.resumedAt = s.endpoint.logs.alreadySent + 1 := by
  cases h with
  | unsynced _ hs => cases hs
  | synced _ _ hfeeds hat => exact ⟨hfeeds, hat⟩
  | waiting _ hs => cases hs
  | offered _ hs => cases hs
  | formed _ hs => cases hs

/-- Once both have formed consistency, they have come to the same result, and the peer expects the first message
that it is sent. -/
theorem Formed.resumes {own own' : Window Region} (hs : s.Formed t own) (ht : t.Formed s own') (hps : s.phase = .formed own)
    (hpt : t.phase = .formed own') : t.resumedAt = s.endpoint.logs.alreadySent + 1 ∧
      RankLog.reconcile own own' = .ok (s.endpoint.logs.regions, t.endpoint.logs.regions) := by
  obtain ⟨remote, theirs, hremote, hagreed, hskip⟩ := hs.agreed
  obtain ⟨remote', theirs', hremote', hagreed', _⟩ := ht.agreed
  rw [hpt] at hremote
  rw [hps] at hremote'
  cases hremote
  cases hremote'
  have hswap := RankLog.reconcile_swap hs.ordered ht.ordered hagreed
  obtain ⟨hregions, _⟩ := Prod.mk.inj (Except.ok.inj (hagreed'.symm.trans hswap))
  refine ⟨?_, ?_⟩
  · rw [ht.resumedAt, RankLog.nextRecv, RankLog.curRegion, hregions, hskip]
    omega
  · rw [hregions]
    exact hagreed

end Standing

end Side

namespace Pair

/-- How the messages of both ranks stand. -/
def Standing (p : Pair) : Prop := ∀ a, (p.side a).Standing (p.side !a) p.synced

section Standing

variable {p q : Pair} {a : Bool} {s : Side} {ms : List SendLog}

theorem Standing.peer (h : p.Standing) (a : Bool) : (p.side !a).Standing (p.side a) p.synced := by
  have hpeer := h !a
  rwa [Bool.not_not] at hpeer

theorem standing_setSide (hs : s.Standing (p.side !a) p.synced) (ht : (p.side !a).Standing s p.synced) :
    (p.setSide a s).Standing := by
  intro b
  by_cases hb : b = a
  · subst hb
    rw [side_setSide_self, side_setSide_not]
    exact hs
  · have hb : b = !a := Bool.eq_not_of_ne hb
    subst hb
    rw [side_setSide_not, Bool.not_not, side_setSide_self]
    exact ht

theorem standing_transmit (hs : s.Standing ((p.side !a).transmit ms) p.synced)
    (ht : (p.side !a).Standing s p.synced) : ((p.setSide a s).transmit a ms).Standing := by
  unfold transmit
  refine standing_setSide ?_ ?_
  · rw [Bool.not_not, side_setSide_self, side_setSide_not]
    exact ht.sender rfl rfl rfl
  · rw [Bool.not_not, side_setSide_self, side_setSide_not]
    exact hs

theorem Standing.does (h : p.Standing) (hwf : ∀ a, (p.side a).WellFormed) {act : Action} (hd : Does p act q) :
    q.Standing := by
  cases hd with
  | nothing => exact h
  | @send a buf tag e out hr he =>
    obtain ⟨⟨l, o⟩, hl, heq⟩ := Except.map_eq_ok_iff.mp he
    cases heq
    refine standing_transmit ((h a).work hr ?_ _ ?_) ((h.peer a).receiver rfl (fun _ hw => hw) fun _ => rfl)
    · exact hr
    · exact fun hfeeds => hfeeds.send hl
  | @irecv a r e hr he =>
    obtain ⟨l, hl, rfl⟩ := Except.map_eq_ok_iff.mp he
    refine standing_setSide ((h a).keep hr hr fun hfeeds => hfeeds.irecv hl) ?_
    exact (h.peer a).receiver rfl (fun _ hw => hw) fun _ => rfl
  | @deliver a m rest hin =>
    refine standing_setSide ((h a).sender rfl rfl rfl) ((h.peer a).receiver ?_ (fun _ hw => hw) fun _ => rfl)
    rw [Side.sentTo, Side.sentTo, hin]
    exact (List.append_cons _ _ _).symm
  | @wait a r m e hr hposted hm he =>
    obtain ⟨l, hl, rfl⟩ := Except.map_eq_ok_iff.mp he
    refine standing_setSide ((h a).keep hr hr fun hfeeds => hfeeds.wait hl) ?_
    exact (h.peer a).receiver rfl (fun _ hw => hw) fun _ => rfl
  | @beginRegion a id e hr he =>
    refine standing_setSide ((h a).keep hr hr fun hfeeds => ?_) ?_
    · obtain ⟨_, _, ⟨_, hlogs⟩ | hb⟩ := beginRegion_logs he
      · dsimp only
        rw [hlogs]
        exact ⟨hfeeds, rfl⟩
      · exact hfeeds.beginRegion hb
    · exact (h.peer a).receiver rfl (fun _ hw => hw) fun _ => rfl
  | @store a e hr he =>
    refine standing_setSide ((h a).sender rfl rfl rfl) ?_
    exact (h.peer a).receiver rfl (fun _ hw => hw) fun _ => rfl
  | fail => exact fun a => .waiting (Or.inl rfl) rfl rfl
  | @abandon a hf =>
    obtain ⟨hs, hnone⟩ := (h a).nothing_sent (Or.inl hf)
    refine standing_setSide (.waiting (Or.inl hf) hs hnone) ?_
    exact (h.peer a).receiver rfl (fun _ hw => hw) fun _ => rfl
  | @restore a k hf =>
    obtain ⟨hs, hnone⟩ := (h a).nothing_sent (Or.inl hf)
    refine standing_setSide (.waiting (Or.inl hf) hs hnone) ?_
    exact (h.peer a).receiver rfl (fun _ hw => hw) fun _ => rfl
  | @reset a target e hf he =>
    obtain ⟨hs, hnone⟩ := (h a).nothing_sent (Or.inl hf)
    have hoffer : (p.side a).phase.offer = none := by
      rw [show (p.side a).phase = .failed from hf]
      rfl
    refine standing_setSide (.waiting (Or.inr rfl) hs hnone) ((h.peer a).receiver rfl ?_ fun _ => rfl)
    exact fun w hw => absurd (hoffer.symm.trans hw) (by simp)
  | @offer a e hr hstart he =>
    obtain ⟨hs, hnone⟩ := (h a).nothing_sent (Or.inr hr)
    have hoffer : (p.side a).phase.offer = none := by
      rw [show (p.side a).phase = .reset from hr]
      rfl
    refine standing_setSide (.offered rfl hs hnone) ((h.peer a).receiver rfl ?_ fun _ => rfl)
    exact fun w hw => absurd (hoffer.symm.trans hw) (by simp)
  | @form a own remote e toSend r ho hr he =>
    obtain ⟨hs, hnone, rfl⟩ := (h a).of_offered ho
    obtain ⟨⟨l, out⟩, hl, heq⟩ := Except.map_eq_ok_iff.mp he
    cases heq
    have hlogs := (hwf a).endpoint.logs.1
    have hfeeds := RankLog.feeds_of_formConsistency hlogs hl
    obtain ⟨mine, theirs, hc, _, _, rfl, _⟩ := RankLog.formConsistency_cases hl
    refine standing_transmit (.formed rfl hs ?_ ⟨hlogs.ordered, rfl, remote, theirs, hr, hc, rfl⟩) ?_
    · rw [Side.sentTo_transmit, hnone]
      exact hfeeds
    · refine (h.peer a).receiver rfl (fun w hw => ?_) fun hsynced => ?_
      · rw [show (p.side a).phase = _ from ho] at hw
        exact hw
      · rw [hs] at hsynced
        cases hsynced
  | resumeFormed hf =>
    intro a
    obtain ⟨own, hown⟩ := hf a
    obtain ⟨own', hown'⟩ := hf !a
    obtain ⟨_, hfeeds, hformed⟩ := (h a).of_formed hown
    obtain ⟨_, _, hformed'⟩ := (h.peer a).of_formed hown'
    exact .synced rfl rfl hfeeds (hformed.resumes hformed' hown hown').1
  | resumeReset hr =>
    intro a
    exact .unsynced rfl ((h a).nothing_sent (Or.inr (hr a))).1

theorem Reachable.standing (h : Reachable p) : p.Standing := by
  induction h with
  | create ranks => exact fun _ => .unsynced rfl rfl
  | step hp hs ih => exact ih.does (fun a => hp.wellFormed a) (does_of_step hs)

end Standing

section Delivery

variable {p q : Pair} {a : Bool}

/-- Both ranks have formed consistency, and nothing has failed since. -/
def Formed (p : Pair) : Prop := p.synced = true ∨ ∀ a, ∃ own, p.phase a = .formed own

theorem Standing.feeds (h : p.Standing) (hf : p.Formed) (a : Bool) :
    (p.endpoint !a).logs.Feeds (p.side a).sentTo ∧ (p.side a).resumedAt = (p.endpoint !a).logs.alreadySent + 1 := by
  rcases hf with hs | hf
  · have hpeer := h.peer a
    rw [hs] at hpeer
    exact hpeer.of_synced
  · obtain ⟨own, hown⟩ := hf a
    obtain ⟨own', hown'⟩ := hf !a
    obtain ⟨_, _, hformed⟩ := (h a).of_formed hown
    obtain ⟨_, hfeeds, hformed'⟩ := (h.peer a).of_formed hown'
    exact ⟨hfeeds, (hformed'.resumes hformed hown' hown).1⟩

theorem Standing.phase_cases (h : p.Standing) (hf : p.Formed) (b : Bool) :
    p.phase b = .running ∨ ∃ own, p.phase b = .formed own := by
  rcases hf with hs | hf
  · have hb := h b
    rw [hs] at hb
    cases hb with
    | unsynced _ hs => cases hs
    | synced hp => exact Or.inl hp
    | waiting _ hs => cases hs
    | offered _ hs => cases hs
    | formed _ hs => cases hs
  · exact Or.inr (hf b)

theorem Formed.of_same (h : p.Formed) (hs : q.synced = p.synced) (hp : ∀ b, q.phase b = p.phase b) : q.Formed := by
  rcases h with h | h
  · exact Or.inl (hs.trans h)
  · refine Or.inr fun b => ?_
    rw [hp b]
    exact h b

theorem resumedAt_setSide {s : Side} (hs : s.resumedAt = (p.side a).resumedAt) (b : Bool) :
    ((p.setSide a s).side b).resumedAt = (p.side b).resumedAt := by
  by_cases hb : b = a
  · subst hb
    rw [side_setSide_self]
    exact hs
  · rw [side_setSide_of_ne p hb]

theorem resumedAt_transmit (ms : List SendLog) (b : Bool) : ((p.transmit a ms).side b).resumedAt = (p.side b).resumedAt := by
  unfold transmit
  exact resumedAt_setSide (by rfl) b

theorem phase_setSide {s : Side} (hs : s.phase = (p.side a).phase) (b : Bool) : (p.setSide a s).phase b = p.phase b := by
  by_cases hb : b = a
  · subst hb
    rw [phase_setSide_self]
    exact hs
  · rw [phase_setSide_of_ne p hb]

/-- Until something fails, ranks that have formed consistency go on from where it left them. -/
theorem Formed.does (h : p.Formed) (hp : p.Standing) {act : Action} (hne : act ≠ .fail) (hd : Does p act q) :
    q.Formed ∧ ∀ b, (q.side b).resumedAt = (p.side b).resumedAt := by
  have hphase : ∀ {b}, p.phase b ≠ .failed ∧ p.phase b ≠ .reset ∧ ∀ w, p.phase b ≠ .offered w := by
    intro b
    rcases hp.phase_cases h b with hb | ⟨own, hb⟩
    · rw [hb]
      exact ⟨nofun, nofun, nofun⟩
    · rw [hb]
      exact ⟨nofun, nofun, nofun⟩
  cases hd with
  | nothing => exact ⟨h, fun _ => rfl⟩
  | send =>
    refine ⟨h.of_same rfl fun b => ?_, fun b => ?_⟩
    · rw [phase_transmit, phase_setEndpoint]
    · rw [resumedAt_transmit]
      unfold setEndpoint
      exact resumedAt_setSide (by rfl) b
  | irecv => exact ⟨h.of_same rfl (phase_setSide rfl), resumedAt_setSide rfl⟩
  | deliver => exact ⟨h.of_same rfl (phase_setSide rfl), resumedAt_setSide rfl⟩
  | wait => exact ⟨h.of_same rfl (phase_setSide rfl), resumedAt_setSide rfl⟩
  | beginRegion => exact ⟨h.of_same rfl (phase_setSide rfl), resumedAt_setSide rfl⟩
  | store => exact ⟨h.of_same rfl (phase_setSide rfl), resumedAt_setSide rfl⟩
  | fail => exact absurd rfl hne
  | abandon hf => exact absurd hf hphase.1
  | restore hf => exact absurd hf hphase.1
  | reset hf => exact absurd hf hphase.1
  | offer hr => exact absurd hr hphase.2.1
  | form ho => exact absurd ho (hphase.2.2 _)
  | resumeFormed => exact ⟨Or.inl rfl, fun _ => rfl⟩
  | resumeReset hr => exact absurd (hr false) hphase.2.1

theorem Formed.run (h : p.Formed) (hp : Reachable p) {as : List Action} (hno : .fail ∉ as) (hr : p.run as = .ok q) :
    q.Formed ∧ ∀ b, (q.side b).resumedAt = (p.side b).resumedAt := by
  induction as generalizing p with
  | nil =>
    cases Except.ok.inj hr
    exact ⟨h, fun _ => rfl⟩
  | cons act as ih =>
    unfold Pair.run at hr
    rw [List.foldlM_cons] at hr
    obtain ⟨m, hm, hr⟩ := Except.bind_eq_ok_iff.mp hr
    obtain ⟨hact, hno⟩ := not_or.mp (List.mem_cons.not.mp hno)
    obtain ⟨hf, hat⟩ := h.does hp.standing (Ne.symm hact) (does_of_step hm)
    obtain ⟨hf, hat'⟩ := ih hf (hp.step hm) hno hr
    exact ⟨hf, fun b => (hat' b).trans (hat b)⟩

/-- The messages for `a` are sent from number `start` on, one after the other, up to the last that the peer has sent. -/
def Delivers (p : Pair) (a : Bool) (start : Int) : Prop :=
  Consecutive start ((p.side a).sentTo.map SendLog.idx) ∧
    start + (p.side a).sentTo.length = max start (p.endpoint !a).logs.nextSend

theorem Reachable.delivers (hp : Reachable p) (hf : p.Formed) (a : Bool) : p.Delivers a (p.side a).resumedAt := by
  obtain ⟨hfeeds, hat⟩ := hp.standing.feeds hf a
  unfold Delivers
  rw [hat]
  exact ⟨hfeeds.consecutive, hfeeds.upTo⟩

/-- Messages that the peer has sent cannot be delivered from two numbers on. -/
theorem Delivers.unique {m n : Int} (hm : p.Delivers a m) (hn : p.Delivers a n) (hlt : n < (p.endpoint !a).logs.nextSend) :
    m = n := by
  obtain ⟨hcm, hm⟩ := hm
  obtain ⟨hcn, hn⟩ := hn
  cases hs : (p.side a).sentTo with
  | nil =>
    rw [hs, List.length_nil] at hn
    omega
  | cons x xs =>
    rw [hs] at hcm hcn
    exact hcm.1.symm.trans hcn.1

/-- A message is sent in region 0 and received in region 1, and both ranks go on to region 2. -/
def crossing : List Action :=
  [.beginRegion false 0, .beginRegion true 0, .send false ⟨0, 0, []⟩ 0, .beginRegion false 1, .beginRegion true 1,
    .irecv true ⟨0, 0, 0, 0⟩, .deliver true, .wait true, .beginRegion false 2, .beginRegion true 2]

/-- One rank posts a receive in region 0 and goes on to region 1, where the message is lost with a failure. -/
def overtaken : List Action :=
  [.beginRegion false 0, .beginRegion true 0, .irecv true ⟨0, 0, 0, 0⟩, .send false ⟨0, 0, []⟩ 0,
    .beginRegion false 1, .beginRegion true 1, .fail, .abandon true, .reset false (-1), .reset true (-1),
    .offer false, .offer true, .form false, .form true]

end Delivery

end Pair

end Fenix
