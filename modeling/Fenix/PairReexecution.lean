import Fenix.Matching
import Fenix.PairInvariant
import Fenix.RankLogFresh

namespace Fenix

/-- The steps of the program itself, and those of the network. -/
def Action.Work : Action → Prop
  | .send .. => True
  | .irecv .. => True
  | .deliver _ => True
  | .wait _ => True
  | .beginRegion .. => True
  | .store _ => True
  | _ => False

namespace Pair

/-- The receive that a step completes and the message it takes, with the rank that receives. -/
def received (p : Pair) : Action → Option (Bool × IrecvLog × SendLog)
  | .wait a =>
    (p.endpoint a).logs.activeIrecv.bind fun r => ((p.side a).mailbox.find? r.accepts).map fun m => (a, r, m)
  | _ => none

/-- The work done on the way from `p`, with the receives that have completed. -/
inductive Works (p : Pair) : List Action → List (Bool × IrecvLog × SendLog) → Pair → Prop
  | refl : Works p [] [] p
  | step {acts : List Action} {got : List (Bool × IrecvLog × SendLog)} {q q' : Pair} {act : Action}
      (h : Works p acts got q) (hw : act.Work) (hs : q.step act = .ok q') :
      Works p (acts ++ [act]) (got ++ (q.received act).toList) q'

/-- What `a` sends. -/
def sendsOf (a : Bool) (acts : List Action) : List (MPIBuffer × Int) :=
  acts.filterMap fun
    | .send b buf tag => if b = a then some (buf, tag) else none
    | _ => none

/-- The sends of a program, numbered from zero. -/
def numbered (xs : List (MPIBuffer × Int)) : List SendLog := xs.mapIdx fun i x => ⟨i, x.1, x.2⟩

/-- What `a` receives. -/
def receiptsOf (a : Bool) (got : List (Bool × IrecvLog × SendLog)) : List (IrecvLog × SendLog) :=
  got.filterMap fun g => if g.1 = a then some g.2 else none

def regionsOf (a : Bool) (acts : List Action) : List Int :=
  acts.filterMap fun
    | .beginRegion b id => if b = a then some id else none
    | _ => none

/-- A rank does not go back to a region before the one it is in. -/
def InOrder (p : Pair) (a : Bool) (acts : List Action) : Prop :=
  ((p.endpoint a).activeRegion :: regionsOf a acts).Pairwise (· ≤ ·)

/-- The traffic is as between two ranks that have never met: each send is transmitted once, under the
number it has in the program, each receive takes the first message it accepts that is left, and what
a rank does next in its region does not fail. -/
structure ReexecutesOnce (p : Pair) : Prop where
  transmits : ∀ {acts got q}, Works p acts got q → ∀ a, (q.side !a).sentTo = numbered (sendsOf a acts)
  receives : ∀ {acts got q}, Works p acts got q → ∀ a, ∃ rest,
    Receives IrecvLog.accepts (receiptsOf a got) (numbered (sendsOf (!a) acts)) rest
  sends : ∀ {acts got q}, Works p acts got q → ∀ a, p.InOrder a acts → ∀ buf tag,
    ∃ q', q.step (.send a buf tag) = .ok q'
  posts : ∀ {acts got q}, Works p acts got q → ∀ a, p.InOrder a acts → (q.endpoint a).logs.activeIrecv = none →
    ∀ r, ∃ q', q.step (.irecv a r) = .ok q'
  completes : ∀ {acts got q}, Works p acts got q → ∀ a, ∃ q', q.step (.wait a) = .ok q'

@[simp] theorem numbered_concat (xs : List (MPIBuffer × Int)) (x : MPIBuffer × Int) :
    numbered (xs ++ [x]) = numbered xs ++ [⟨xs.length, x.1, x.2⟩] := by
  simp [numbered, List.mapIdx_concat]

end Pair

namespace Side

/-- A rank at work that has sent `mine`, for which the peer has sent `theirs`, and that has received `got`. -/
structure Working (s : Side) (mine theirs : List (MPIBuffer × Int)) (got : List (IrecvLog × SendLog)) : Prop where
  wellFormed : s.WellFormed
  running : s.phase = .running
  counted : s.endpoint.logs.Counted mine.length
  sentTo : s.sentTo = Pair.numbered theirs
  receives : Receives IrecvLog.accepts got s.sentTo (s.mailbox ++ s.incoming)

variable {s s' : Side} {mine theirs : List (MPIBuffer × Int)} {got : List (IrecvLog × SendLog)}

/-- Only what the rank keeps for itself has changed. -/
theorem Working.of_same (h : s.Working mine theirs got) {mine' : List (MPIBuffer × Int)} (hwf : s'.WellFormed)
    (hc : s'.endpoint.logs.Counted mine'.length) (hp : s'.phase = s.phase) (hi : s'.incoming = s.incoming)
    (hm : s'.mailbox = s.mailbox) (ha : s'.arrived = s.arrived) : s'.Working mine' theirs got := by
  have hsent : s'.sentTo = s.sentTo := by rw [Side.sentTo, Side.sentTo, ha, hi]
  refine ⟨hwf, hp.trans h.running, hc, hsent.trans h.sentTo, ?_⟩
  rw [hsent, hm, hi]
  exact h.receives

theorem Working.transmit (h : s.Working mine theirs got) (buf : MPIBuffer) (tag : Int) :
    (s.transmit [⟨theirs.length, buf, tag⟩]).Working mine (theirs ++ [(buf, tag)]) got := by
  have hsent : (s.transmit [⟨theirs.length, buf, tag⟩]).sentTo = s.sentTo ++ [⟨theirs.length, buf, tag⟩] :=
    (List.append_assoc _ _ _).symm
  refine ⟨⟨h.wellFormed.endpoint, h.wellFormed.stored⟩, h.running, h.counted, ?_, ?_⟩
  · rw [hsent, h.sentTo, Pair.numbered_concat]
  · rw [hsent]
    have happend := h.receives.append_messages [⟨theirs.length, buf, tag⟩]
    rw [List.append_assoc] at happend
    exact happend

theorem Working.deliver (h : s.Working mine theirs got) {m : SendLog} {rest : List SendLog}
    (hin : s.incoming = m :: rest) : Side.Working
      { s with incoming := rest, mailbox := s.mailbox ++ [m], arrived := s.arrived ++ [m] } mine theirs got := by
  have hsent : s.sentTo = s.arrived ++ [m] ++ rest := by
    rw [Side.sentTo, hin, List.append_assoc, List.singleton_append]
  refine ⟨⟨h.wellFormed.endpoint, h.wellFormed.stored⟩, h.running, h.counted, ?_, ?_⟩
  · exact hsent.symm.trans h.sentTo
  · have hreceives := h.receives
    rw [hsent, hin, List.append_cons s.mailbox] at hreceives
    exact hreceives

/-- A receive completes with the first message in the mailbox that it accepts. -/
theorem Working.wait (h : s.Working mine theirs got) {r : IrecvLog} {m : SendLog} {e : Endpoint}
    (hm : s.mailbox.find? r.accepts = some m) (hwf : e.WellFormed) (hc : e.logs.Counted mine.length) : Side.Working
      { s with endpoint := e, mailbox := s.mailbox.eraseP r.accepts } mine theirs (got ++ [(r, m)]) := by
  refine ⟨⟨hwf, h.wellFormed.stored⟩, h.running, hc, h.sentTo, ?_⟩
  have hconcat := h.receives.concat (Receives.find?_append_of_some hm s.incoming)
  rw [Receives.eraseP_append_of_some hm] at hconcat
  exact hconcat

end Side

namespace Pair

/-- What the ranks have done since they resumed. -/
def Working (p : Pair) (acts : List Action) (got : List (Bool × IrecvLog × SendLog)) : Prop :=
  ∀ a, (p.side a).Working (sendsOf a acts) (sendsOf (!a) acts) (receiptsOf a got)

section Step

variable {p q : Pair} {acts : List Action} {got : List (Bool × IrecvLog × SendLog)}

theorem sendsOf_concat (a : Bool) (acts : List Action) (act : Action) :
    sendsOf a (acts ++ [act]) = sendsOf a acts ++ sendsOf a [act] := List.filterMap_append

theorem receiptsOf_append (a : Bool) (got more : List (Bool × IrecvLog × SendLog)) :
    receiptsOf a (got ++ more) = receiptsOf a got ++ receiptsOf a more := List.filterMap_append

/-- A side changes for itself, in a step that is neither a send nor the end of a receive. -/
theorem Working.of_side (h : p.Working acts got) {a : Bool} {s : Side} {act : Action}
    (hs : s.Working (sendsOf a acts) (sendsOf (!a) acts) (receiptsOf a got)) (hact : ∀ b, sendsOf b [act] = [])
    (hg : p.received act = none) : (p.setSide a s).Working (acts ++ [act]) (got ++ (p.received act).toList) := by
  intro b
  rw [hg, Option.toList_none, List.append_nil, sendsOf_concat, sendsOf_concat, hact, hact, List.append_nil,
    List.append_nil]
  by_cases hb : b = a
  · subst hb
    rw [side_setSide_self]
    exact hs
  · rw [side_setSide_of_ne p hb]
    exact h b

theorem Working.keep (h : p.Working acts got) {act : Action} (hact : ∀ b, sendsOf b [act] = [])
    (hg : p.received act = none) : p.Working (acts ++ [act]) (got ++ (p.received act).toList) := by
  intro b
  rw [hg, Option.toList_none, List.append_nil, sendsOf_concat, sendsOf_concat, hact, hact, List.append_nil,
    List.append_nil]
  exact h b

theorem Working.send (h : p.Working acts got) {a : Bool} {buf : MPIBuffer} {tag : Int} {e : Endpoint}
    {out : Option SendLog} (he : (p.endpoint a).send buf tag = .ok (e, out)) :
    ((p.setEndpoint a e).transmit a out.toList).Working (acts ++ [.send a buf tag])
      (got ++ (p.received (.send a buf tag)).toList) := by
  obtain ⟨⟨l, o⟩, hl, heq⟩ := Except.map_eq_ok_iff.mp he
  cases heq
  have hwf := (h a).wellFormed
  obtain ⟨hcounted, rfl⟩ := (h a).counted.send hwf.endpoint.logs.1 hwf.endpoint.active hl
  have hmine : sendsOf a [.send a buf tag] = [(buf, tag)] := by simp [sendsOf]
  have htheirs : sendsOf (!a) [.send a buf tag] = [] := by simp [sendsOf]
  intro b
  rw [show p.received (.send a buf tag) = none from rfl, Option.toList_none, List.append_nil, sendsOf_concat,
    sendsOf_concat]
  by_cases hb : b = a
  · subst hb
    rw [hmine, htheirs, List.append_nil, transmit, side_setSide_of_ne _ (Bool.self_ne_not b), setEndpoint,
      side_setSide_self]
    refine (h b).of_same ⟨hwf.endpoint.send he, hwf.stored⟩ ?_ rfl rfl rfl rfl
    rw [List.length_append]
    exact hcounted
  · have hb : b = !a := Bool.eq_not_of_ne hb
    subst hb
    rw [Bool.not_not, hmine, htheirs, List.append_nil, transmit, side_setSide_self, setEndpoint, side_setSide_not]
    have htransmit := (h !a).transmit buf tag
    rw [Bool.not_not] at htransmit
    exact htransmit

theorem Working.wait (h : p.Working acts got) {a : Bool} (hs : p.wait a = .ok q) :
    q.Working (acts ++ [.wait a]) (got ++ (p.received (.wait a)).toList) := by
  unfold Pair.wait at hs
  split at hs
  next hnone =>
    cases Except.ok.inj hs
    exact h.keep (fun _ => rfl) (by simp [received, hnone])
  next r hr =>
    split at hs
    next hnone =>
      cases Except.ok.inj hs
      exact h.keep (fun _ => rfl) (by simp [received, hr, hnone])
    next m hm =>
      obtain ⟨e, he, hs⟩ := Except.bind_eq_ok_iff.mp hs
      cases Except.ok.inj hs
      have hgot : p.received (.wait a) = some (a, r, m) := by simp [received, hr, hm]
      have hwf := (h a).wellFormed
      have hcounted : e.logs.Counted (sendsOf a acts).length := by
        obtain ⟨l, hl, rfl⟩ := Except.map_eq_ok_iff.mp he
        exact (h a).counted.wait hl
      intro b
      rw [hgot, Option.toList_some, receiptsOf_append, sendsOf_concat, sendsOf_concat,
        show sendsOf b [.wait a] = [] from rfl, show sendsOf (!b) [.wait a] = [] from rfl, List.append_nil,
        List.append_nil]
      by_cases hb : b = a
      · subst hb
        rw [side_setSide_self, show receiptsOf b [(b, r, m)] = [(r, m)] by simp [receiptsOf]]
        exact (h b).wait hm (hwf.endpoint.wait he) hcounted
      · rw [side_setSide_of_ne p hb,
          show receiptsOf b [(a, r, m)] = [] by simp [receiptsOf, Ne.symm hb], List.append_nil]
        exact h b

theorem Working.step (h : p.Working acts got) {act : Action} (hw : act.Work) (hs : p.step act = .ok q) :
    q.Working (acts ++ [act]) (got ++ (p.received act).toList) := by
  cases act with
  | send a buf tag =>
    simp only [Pair.step, show p.phase a = .running from (h a).running, if_true] at hs
    obtain ⟨⟨e, out⟩, he, hs⟩ := Except.bind_eq_ok_iff.mp hs
    cases Except.ok.inj hs
    exact h.send he
  | irecv a r =>
    simp only [Pair.step, show p.phase a = .running from (h a).running, if_true] at hs
    obtain ⟨e, he, rfl⟩ := Except.map_eq_ok_iff.mp hs
    have hwf := (h a).wellFormed
    refine h.of_side ((h a).of_same ⟨hwf.endpoint.irecv he, hwf.stored⟩ ?_ rfl rfl rfl rfl) (fun _ => rfl) rfl
    obtain ⟨l, hl, rfl⟩ := Except.map_eq_ok_iff.mp he
    exact (h a).counted.irecv hwf.endpoint.logs.1 hwf.endpoint.active hl
  | deliver a =>
    cases Except.ok.inj hs
    unfold deliver
    split
    next => exact h.keep (fun _ => rfl) rfl
    next m rest hin => exact h.of_side ((h a).deliver hin) (fun _ => rfl) rfl
  | wait a =>
    simp only [Pair.step, show p.phase a = .running from (h a).running, if_true] at hs
    exact h.wait hs
  | beginRegion a id =>
    simp only [Pair.step, show p.phase a = .running from (h a).running, if_true] at hs
    obtain ⟨e, he, rfl⟩ := Except.map_eq_ok_iff.mp hs
    have hwf := (h a).wellFormed
    refine h.of_side ((h a).of_same ⟨hwf.endpoint.beginRegion he, hwf.stored⟩ ?_ rfl rfl rfl rfl) (fun _ => rfl) rfl
    obtain ⟨_, _, ⟨_, hlogs⟩ | hb⟩ := beginRegion_logs he
    · rw [hlogs]
      exact (h a).counted
    · exact (h a).counted.beginRegion hb
  | store a =>
    simp only [Pair.step, show p.phase a = .running from (h a).running, if_true] at hs
    obtain ⟨e, he, rfl⟩ := Except.map_eq_ok_iff.mp hs
    have hwf : Side.WellFormed { p.side a with stored := (p.side a).stored ++ [e] } :=
      (h a).wellFormed.changes (.stores rfl he rfl)
    exact h.of_side ((h a).of_same hwf (h a).counted rfl rfl rfl rfl) (fun _ => rfl) rfl
  | fail | abandon | restore | reset | offer | form | resume => exact hw.elim

end Step

end Pair

end Fenix
