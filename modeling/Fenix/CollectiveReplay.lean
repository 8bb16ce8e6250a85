import Fenix.CollectiveOps
import Mathlib.Logic.Relation

namespace Fenix

/-- A rank with respect to the collective at one index of its log: the memory of the application, the log of the
collective, whether `begin` is still in it, what is posted on the present communicator, whether that is complete, and
what is written of the log. `entry` tells the call and the memory that it found. -/
structure ReplayRank where
  memory : Memory UInt8
  log : Option LoggedOp := none
  active : Bool := false
  posted : Option Posted := none
  done : Bool := false
  saved : Option CollectiveOp := none
  entry : Option (CollectiveCall × Memory UInt8) := none

namespace ReplayRank

variable (lib : MPILibrary) (me : Int)

/-- The application calls the collective. -/
def call (x : CollectiveCall) (s : ReplayRank) : Except Abort ReplayRank :=
  (x.log lib me s.memory).map fun l => { s with log := some l, active := true, entry := some (x, s.memory) }

/-- The nonblocking collective is started, by `begin` or by `replay`. -/
def post (s : ReplayRank) : Except Abort ReplayRank :=
  match s.log with
  | none => .error .missingCollective
  | some l => (l.post lib me s.memory).map fun (l, p) => { s with log := some l, posted := some p }

/-- What a rank receives is put where it was posted to go. -/
def receive (bs : Option (List UInt8)) (s : ReplayRank) : ReplayRank :=
  match s.log, s.posted, bs with
  | some l, some p, some bs =>
    let (m, l) := l.deliver s.memory bs p.target
    { s with memory := m, log := some l }
  | _, _, _ => s

/-- What is posted completes; `begin` releases the buffer of the user and returns. -/
def complete (bs : Option (List UInt8)) (s : ReplayRank) : ReplayRank :=
  let s := s.receive bs
  { s with log := if s.active then s.log.map LoggedOp.release else s.log, active := false, done := true }

/-- The communicator fails. A collective that is not complete may have left anything where it receives. -/
def fail (scraps : Option (List UInt8)) (s : ReplayRank) : ReplayRank :=
  { if s.done then s else s.receive scraps with posted := none, done := false }

/-- The application writes its memory, or another collective does for it. -/
def overwrite (m : Memory UInt8) (s : ReplayRank) : ReplayRank := { s with memory := m }

/-- The log is stored. -/
def save (s : ReplayRank) : ReplayRank := { s with saved := s.log.map LoggedOp.recorded }

/-- Another process takes over the rank, with the log as it was stored last. -/
def restart (m : Memory UInt8) (s : ReplayRank) : ReplayRank :=
  { memory := m, log := s.saved.map LoggedOp.restore, saved := s.saved }

/-- The log of the collective is dropped: it failed where the recovery is manual, or its region is erased. -/
def drop (s : ReplayRank) : ReplayRank := { s with log := none, active := false }

end ReplayRank

/-- The ranks of a communicator with respect to the collective at one index. -/
abbrev ReplayState (n : Nat) := Fin n → ReplayRank

namespace ReplayState

variable {n : Nat}

inductive Action (n : Nat) where
  | call (r : Fin n) (x : CollectiveCall)
  | post (r : Fin n)
  | complete (r : Fin n)
  | fail (scraps : Fin n → Option (List UInt8))
  | overwrite (r : Fin n) (m : Memory UInt8)
  | save (r : Fin n)
  | restart (r : Fin n) (m : Memory UInt8)
  | drop (r : Fin n)

/-- What the ranks can do, in any order. A program makes the same collective of an index whenever it comes to it, a rank
in a collective does nothing else, and a process that takes over starts on a communicator of its own. -/
inductive Step (lib : MPILibrary) (c : Collective n) : Action n → ReplayState n → ReplayState n → Prop
  | call {s : ReplayState n} {r : Fin n} {x : CollectiveCall} {t : ReplayRank} (hl : (s r).log = none)
      (hp : (s r).posted = none) (hc : c.Conforms lib r (s r).memory x) (h : (s r).call lib r.val x = .ok t) :
      Step lib c (.call r x) s (Function.update s r t)
  | post {s : ReplayState n} {r : Fin n} {t : ReplayRank} (hp : (s r).posted = none)
      (h : (s r).post lib r.val = .ok t) : Step lib c (.post r) s (Function.update s r t)
  | complete {s : ReplayState n} {r : Fin n} {bs : Option (List UInt8)} (hd : (s r).done = false)
      (h : outcome lib (fun q => (s q).posted) r = some bs) :
      Step lib c (.complete r) s (Function.update s r ((s r).complete bs))
  | fail {s : ReplayState n} (scraps : Fin n → Option (List UInt8))
      (h : ∀ r bs, scraps r = some bs → bs.length = c.size) :
      Step lib c (.fail scraps) s (fun r => (s r).fail (scraps r))
  | overwrite {s : ReplayState n} {r : Fin n} {m : Memory UInt8} (ha : (s r).active = false) :
      Step lib c (.overwrite r m) s (Function.update s r ((s r).overwrite m))
  | save {s : ReplayState n} {r : Fin n} (ha : (s r).active = false) :
      Step lib c (.save r) s (Function.update s r (s r).save)
  | restart {s : ReplayState n} {r : Fin n} {m : Memory UInt8} (hp : (s r).posted = none) :
      Step lib c (.restart r m) s (Function.update s r ((s r).restart m))
  | drop {s : ReplayState n} {r : Fin n} (hp : (s r).posted = none ∨ (s r).done = true) :
      Step lib c (.drop r) s (Function.update s r (s r).drop)

/-- The runs of the ranks from before the collective. -/
inductive Reachable (lib : MPILibrary) (c : Collective n) : ReplayState n → Prop
  | start (m : Fin n → Memory UInt8) : Reachable lib c fun r => { memory := m r }
  | step {a : Action n} {s s' : ReplayState n} (hr : Reachable lib c s) (h : Step lib c a s s') : Reachable lib c s'

/-- Two memories are the same but for what a write of `size` bytes at `p` hides; at zero nothing is written. -/
structure Masks (size p : Nat) (m m' : Memory UInt8) : Prop where
  hides : ∀ bs, bs.length = size → m.write p bs = m'.write p bs
  null : p = 0 → m = m'

/-- What holds of a rank throughout a run. -/
structure Good (lib : MPILibrary) (c : Collective n) (r : Fin n) (s : ReplayRank) : Prop where
  carries : ∀ l, s.log = some l → c.Carries lib r l
  released : s.active = false → ∀ l, s.log = some l → ∀ p, l.wrapped r.val = some p → p = 0
  entered : s.active = true → ∃ l x m, s.log = some l ∧ s.entry = some (x, m) ∧
    (∀ p, l.wrapped r.val = some p → p = x.dest ∧ (p = 0 → c.size = 0) ∧ Masks c.size p s.memory m) ∧
    (l.wrapped r.val = none → s.memory = m)
  posted : ∀ p, s.posted = some p → p.kind = c.kind ∧ p.sends = c.sends r ∧
    (s.done = false → ∃ l, s.log = some l ∧ p.target = l.target r.val)
  saved : ∀ o, s.saved = some o → c.Carries lib r (.restore o) ∧
    ∀ p, (LoggedOp.restore o).wrapped r.val = some p → p = 0
  pending : s.posted = none ∨ s.active = true → s.done = false

/-- The memory after something may have been received. -/
def landed (place : Option Nat) (bs : Option (List UInt8)) (m : Memory UInt8) : Memory UInt8 :=
  match place, bs with
  | some p, some bs => if p = 0 then m else m.write p bs
  | _, _ => m

variable {lib : MPILibrary} {c : Collective n} {r : Fin n} {t t' : ReplayRank} {s s' : ReplayState n} {a : Action n}
  {l : LoggedOp} {bs : Option (List UInt8)} {x : CollectiveCall} {m m' : Memory UInt8} {size p : Nat}

section Outcome

variable {posted : Fin n → Option Posted}

theorem sent_eq {k : CollectiveKind}
    (hg : ∀ q p, posted q = some p → p.kind = c.kind ∧ p.sends = c.sends q)
    (ha : ∀ q, (posted q).map (·.kind) = some k) (hs : ∀ q, c.sends q = some (c.input q)) :
    (List.ofFn fun q => ((posted q).bind (·.sends)).getD []) = List.ofFn c.input := by
  congr 1
  funext q
  obtain ⟨p, hp, _⟩ := Option.map_eq_some_iff.mp (ha q)
  rw [hp, Option.bind_some, (hg q p hp).2, hs q]
  rfl

/-- What MPI makes of what the ranks posted of a collective is the result of the collective. -/
theorem outcome_eq (hg : ∀ q p, posted q = some p → p.kind = c.kind ∧ p.sends = c.sends q)
    (h : outcome lib posted r = some bs) : bs = c.result lib r := by
  obtain ⟨p, hp, h⟩ := Option.bind_eq_some_iff.mp h
  have hk := (hg r p hp).1
  unfold Collective.result
  rw [← hk]
  cases hkind : p.kind with
  | barrier =>
    simp only [hkind] at h
    split at h
    next =>
      cases Option.some.inj h
      rfl
    next => cases h
  | bcast root =>
    simp only [hkind] at h ⊢
    split at h
    next hroot =>
      rw [if_pos hroot]
      exact (Option.some.inj h).symm
    next hroot =>
      obtain ⟨q, hq, h⟩ := Option.bind_eq_some_iff.mp h
      obtain ⟨o, ho, h⟩ := Option.bind_eq_some_iff.mp h
      split at h
      next =>
        obtain ⟨xs, hxs, rfl⟩ := Option.map_eq_some_iff.mp h
        have hsends := (hg q o ho).2
        unfold Collective.sends at hsends
        rw [← hk, hkind, hxs] at hsends
        simp only at hsends
        split at hsends
        next =>
          rw [if_neg hroot, hq, Option.map_some]
          exact hsends
        next => cases hsends
      next => cases h
  | reduce root op datatype =>
    simp only [hkind] at h ⊢
    split at h
    next hroot =>
      rw [if_neg hroot]
      exact (Option.some.inj h).symm
    next hroot =>
      rw [if_pos (not_not.mp hroot)]
      split at h
      next hall =>
        rw [← Option.some.inj h, sent_eq hg hall]
        intro q
        rw [Collective.sends, ← hk, hkind]
      next => cases h
  | allreduce op datatype =>
    simp only [hkind] at h ⊢
    split at h
    next hall =>
      rw [← Option.some.inj h, sent_eq hg hall]
      intro q
      rw [Collective.sends, ← hk, hkind]
    next => cases h

/-- Once all ranks have posted a collective, every rank can complete it. -/
theorem outcome_of_all (lib : MPILibrary) (hg : ∀ q p, posted q = some p → p.kind = c.kind ∧ p.sends = c.sends q)
    (hall : ∀ q, (posted q).isSome) (r : Fin n) : outcome lib posted r = some (c.result lib r) := by
  have hkinds (q : Fin n) : (posted q).map (·.kind) = some c.kind := by
    obtain ⟨p, hp⟩ := Option.isSome_iff_exists.mp (hall q)
    rw [hp, Option.map_some, (hg q p hp).1]
  suffices h : (outcome lib posted r).isSome by
    obtain ⟨bs, hbs⟩ := Option.isSome_iff_exists.mp h
    rw [hbs, outcome_eq hg hbs]
  obtain ⟨p, hp⟩ := Option.isSome_iff_exists.mp (hall r)
  have hk := (hg r p hp).1
  unfold outcome
  rw [hp, Option.bind_some]
  cases hkind : p.kind with
  | barrier =>
    rw [hkind] at hk
    simp [hkinds, ← hk]
  | bcast root =>
    rw [hkind] at hk
    obtain ⟨q, hq⟩ := Option.isSome_iff_exists.mp (c.rooted root hk.symm)
    obtain ⟨o, ho⟩ := Option.isSome_iff_exists.mp (hall q)
    have hroot : root = q.val := by
      unfold rank? at hq
      split at hq
      next h =>
        cases Option.some.inj hq
        simp only
        omega
      next => cases hq
    have hsends : o.sends = some (c.input q) := by
      rw [(hg q o ho).2, Collective.sends, ← hk]
      exact if_pos hroot
    simp only
    split
    next => rfl
    next => simp [hq, ho, (hg q o ho).1, hk, hsends]
  | reduce root op datatype =>
    rw [hkind] at hk
    simp only
    split
    next => rfl
    next => simp [hkinds, ← hk]
  | allreduce op datatype =>
    rw [hkind] at hk
    simp [hkinds, ← hk]

end Outcome

theorem Masks.landed {xs : List UInt8} (h : Masks size p m m') (hxs : xs.length = size) :
    Masks size p (landed (some p) (some xs) m) m' := by
  unfold ReplayState.landed
  simp only
  split
  next => exact h
  next hne =>
    refine ⟨fun ys hys => ?_, fun h0 => absurd h0 hne⟩
    rw [Memory.write_write (hxs.trans hys.symm), h.hides ys hys]

/-- What is received, complete or not, changes the memory where the log has it and nothing else. -/
theorem Good.receive (h : Good lib c r t) {q : Posted} (hp : t.posted = some q) (hd : t.done = false)
    (hbs : ∀ xs, bs = some xs → xs.length = c.size) : ∃ l l', t.log = some l ∧
      t.receive bs = { t with memory := landed (l.wrapped r.val) bs t.memory, log := some l' } ∧
      c.Carries lib r l' ∧ l'.wrapped r.val = l.wrapped r.val := by
  obtain ⟨l, hl, htarget⟩ := (h.posted q hp).2.2 hd
  have hc := h.carries l hl
  obtain ⟨mem, log, active, posted, done, saved, entry⟩ := t
  simp only at hl hp
  subst hl hp
  cases bs with
  | none => exact ⟨l, l, rfl, by cases l.wrapped r.val <;> rfl, hc, rfl⟩
  | some xs =>
    cases hw : l.wrapped r.val with
    | none =>
      have hnone : q.target = none := by rw [htarget, LoggedOp.target, hw]; rfl
      refine ⟨l, l, rfl, ?_, hc, rfl⟩
      simp only [ReplayRank.receive, hnone, hw]
      rfl
    | some p =>
      obtain ⟨l', heq, hc', hw'⟩ := hc.deliver hw (hbs xs rfl) mem
      refine ⟨l, l', rfl, ?_, hc', hw'.trans hw.symm⟩
      simp only [ReplayRank.receive, htarget, heq, hw]
      rfl

theorem good_start : Good lib c r { memory := m } := ⟨nofun, nofun, nofun, nofun, nofun, fun _ => rfl⟩

theorem Good.call (h : Good lib c r t) (hp : t.posted = none) (hx : c.Conforms lib r t.memory x)
    (ht : t.call lib r.val x = .ok t') : Good lib c r t' := by
  obtain ⟨l, hlog, hc, hdest⟩ := hx.log
  obtain ⟨_, hl', rfl⟩ := Except.map_eq_ok_iff.mp ht
  cases Except.ok.inj (hlog.symm.trans hl')
  refine ⟨?_, nofun, ?_, ?_, h.saved, fun _ => h.pending (Or.inl hp)⟩
  · intro l' hl'
    cases Option.some.inj hl'
    exact hc
  · intro _
    refine ⟨l, x, t.memory, rfl, rfl, fun p hp => ?_, fun _ => rfl⟩
    exact ⟨(hdest p hp).1, (hdest p hp).2, fun _ _ => rfl, fun _ => rfl⟩
  · intro p hp'
    cases hp.symm.trans hp'

/-- A log that carries the collective and receives where it did is as good as before. -/
theorem Good.relog (h : Good lib c r t) {l l' : LoggedOp} (hl : t.log = some l) (hc : c.Carries lib r l')
    (hw : l'.wrapped r.val = l.wrapped r.val) {m : Memory UInt8}
    (hm : ∀ p, l.wrapped r.val = some p → ∀ m', Masks c.size p t.memory m' → Masks c.size p m m')
    (hn : l.wrapped r.val = none → m = t.memory) : Good lib c r { t with memory := m, log := some l' } := by
  refine ⟨?_, ?_, ?_, ?_, h.saved, h.pending⟩
  · intro k hk
    cases Option.some.inj hk
    exact hc
  · intro ha k hk p hp
    cases Option.some.inj hk
    exact h.released ha l hl p (hw.symm.trans hp)
  · intro ha
    obtain ⟨k, x, m₀, hk, hx, hin, hout⟩ := h.entered ha
    cases Option.some.inj (hl.symm.trans hk)
    refine ⟨l', x, m₀, rfl, hx, fun p hp => ?_, fun hnone => ?_⟩
    · obtain ⟨hdest, hsize, hmask⟩ := hin p (hw.symm.trans hp)
      exact ⟨hdest, hsize, hm p (hw.symm.trans hp) m₀ hmask⟩
    · exact (hn (hw.symm.trans hnone)).trans (hout (hw.symm.trans hnone))
  · intro p hp
    have hposted := h.posted p hp
    refine ⟨hposted.1, hposted.2.1, fun hd => ⟨l', rfl, ?_⟩⟩
    obtain ⟨k, hk, htarget⟩ := hposted.2.2 hd
    cases Option.some.inj (hl.symm.trans hk)
    rw [htarget, LoggedOp.target, LoggedOp.target, hw]

/-- The log is always fit to be posted. -/
theorem Good.post_ok (h : Good lib c r t) (hl : t.log = some l) : ∃ l', c.Carries lib r l' ∧
    l'.wrapped r.val = l.wrapped r.val ∧ t.post lib r.val =
      .ok { t with log := some l', posted := some ⟨c.kind, c.sends r, l.target r.val⟩ } := by
  obtain ⟨l', hpost, hc, hw⟩ := (h.carries l hl).post t.memory
  refine ⟨l', hc, hw, ?_⟩
  rw [ReplayRank.post, hl]
  simp only [hpost]
  rfl

theorem Good.post (h : Good lib c r t) (hnone : t.posted = none) (ht : t.post lib r.val = .ok t') : Good lib c r t' := by
  cases hl : t.log with
  | none =>
    rw [ReplayRank.post, hl] at ht
    cases ht
  | some l =>
    obtain ⟨l', hc, hw, hpost⟩ := h.post_ok hl
    cases Except.ok.inj (hpost.symm.trans ht)
    have hg := h.relog hl hc hw (fun _ _ _ hm => hm) fun _ => rfl
    refine ⟨hg.carries, hg.released, hg.entered, ?_, hg.saved, fun _ => h.pending (Or.inl hnone)⟩
    intro p hp
    cases Option.some.inj hp
    refine ⟨rfl, rfl, fun _ => ⟨l', rfl, ?_⟩⟩
    simp only [LoggedOp.target, hw]

theorem Good.receives (h : Good lib c r t) {q : Posted} (hp : t.posted = some q) (hd : t.done = false)
    (hbs : ∀ xs, bs = some xs → xs.length = c.size) : Good lib c r (t.receive bs) := by
  obtain ⟨l, l', hl, heq, hc, hw⟩ := h.receive hp hd hbs
  rw [heq]
  apply h.relog hl hc hw
  · intro p hwrapped m' hmask
    rw [hwrapped]
    cases bs with
    | none => exact hmask
    | some xs => exact hmask.landed (hbs xs rfl)
  · intro hnone
    rw [hnone]
    rfl

theorem Good.complete (h : Good lib c r t) {q : Posted} (hp : t.posted = some q) (hd : t.done = false)
    (hbs : ∀ xs, bs = some xs → xs.length = c.size) : Good lib c r (t.complete bs) := by
  obtain ⟨l, l', hl, heq, hc, hw⟩ := h.receive hp hd hbs
  have hposted := h.posted q hp
  have hcomplete : t.complete bs = { t with
      memory := landed (l.wrapped r.val) bs t.memory, log := some (if t.active then l'.release else l'),
      active := false, done := true } := by
    rw [ReplayRank.complete, heq]
    cases t.active with
    | false => rfl
    | true => rfl
  rw [hcomplete]
  refine ⟨?_, ?_, nofun, ?_, h.saved, ?_⟩
  · intro k hk
    cases Option.some.inj hk
    split
    next => exact hc.release.1
    next => exact hc
  · intro _ k hk p hwrapped
    cases Option.some.inj hk
    split at hwrapped
    next => exact hc.release.2 p hwrapped
    next ha => exact h.released (Bool.eq_false_iff.mpr ha) l hl p (hw.symm.trans hwrapped)
  · intro p hp'
    cases Option.some.inj (hp.symm.trans hp')
    exact ⟨hposted.1, hposted.2.1, nofun⟩
  · rintro (hnone | ha)
    · cases hp.symm.trans hnone
    · cases ha

theorem Good.fail (h : Good lib c r t) (hbs : ∀ xs, bs = some xs → xs.length = c.size) : Good lib c r (t.fail bs) := by
  have hforget {u : ReplayRank} (hu : Good lib c r u) : Good lib c r { u with posted := none, done := false } :=
    ⟨hu.carries, hu.released, hu.entered, nofun, hu.saved, fun _ => rfl⟩
  unfold ReplayRank.fail
  cases hd : t.done with
  | true => exact hforget h
  | false =>
    cases hp : t.posted with
    | none =>
      have hsame : t.receive bs = t := by
        unfold ReplayRank.receive
        rw [hp]
        cases t.log with
        | none => rfl
        | some l => rfl
      rw [hsame]
      exact hforget h
    | some q => exact hforget (h.receives hp hd hbs)

theorem Good.overwrite (h : Good lib c r t) (ha : t.active = false) (m : Memory UInt8) : Good lib c r (t.overwrite m) := by
  refine ⟨h.carries, h.released, ?_, h.posted, h.saved, h.pending⟩
  intro hact
  change t.active = true at hact
  rw [ha] at hact
  cases hact

theorem Good.save (h : Good lib c r t) : Good lib c r t.save := by
  refine ⟨h.carries, h.released, h.entered, h.posted, ?_, h.pending⟩
  intro o ho
  obtain ⟨l, hl, rfl⟩ := Option.map_eq_some_iff.mp ho
  exact (h.carries l hl).restore

theorem Good.restart (h : Good lib c r t) (m : Memory UInt8) : Good lib c r (t.restart m) := by
  refine ⟨?_, ?_, nofun, nofun, h.saved, fun _ => rfl⟩
  · intro l hl
    obtain ⟨o, ho, rfl⟩ := Option.map_eq_some_iff.mp hl
    exact (h.saved o ho).1
  · intro _ l hl
    obtain ⟨o, ho, rfl⟩ := Option.map_eq_some_iff.mp hl
    exact (h.saved o ho).2

theorem Good.drop (h : Good lib c r t) (hp : t.posted = none ∨ t.done = true) : Good lib c r t.drop := by
  refine ⟨nofun, nofun, nofun, ?_, h.saved, ?_⟩
  · intro q hq
    have hposted := h.posted q hq
    refine ⟨hposted.1, hposted.2.1, fun hd => ?_⟩
    rcases hp with hp | hp
    · cases hp.symm.trans hq
    · cases hp.symm.trans hd
  · rintro (hnone | ha)
    · exact h.pending (Or.inl hnone)
    · cases ha

/-- What the ranks have posted is the collective. -/
theorem posted_of_good (h : ∀ r, Good lib c r (s r)) (q : Fin n) (p : Posted) (hp : (s q).posted = some p) :
    p.kind = c.kind ∧ p.sends = c.sends q :=
  ⟨((h q).posted p hp).1, ((h q).posted p hp).2.1⟩

theorem length_outcome (h : ∀ r, Good lib c r (s r)) (ho : outcome lib (fun q => (s q).posted) r = some bs)
    (xs : List UInt8) (hxs : bs = some xs) : xs.length = c.size :=
  Collective.length_result ((outcome_eq (posted_of_good h) ho).symm.trans hxs)

theorem posted_of_outcome (h : outcome lib (fun q => (s q).posted) r = some bs) : ∃ q, (s r).posted = some q :=
  (Option.bind_eq_some_iff.mp h).imp fun _ hq => hq.1

theorem good_update (h : ∀ r, Good lib c r (s r)) (ht : Good lib c r t) (q : Fin n) :
    Good lib c q (Function.update s r t q) := by
  by_cases hq : q = r
  · subst hq
    rw [Function.update_self]
    exact ht
  · rw [Function.update_of_ne hq]
    exact h q

theorem good_step (h : ∀ r, Good lib c r (s r)) (hs : Step lib c a s s') (q : Fin n) : Good lib c q (s' q) := by
  cases hs with
  | call _ hp hc ht => exact good_update h ((h _).call hp hc ht) q
  | post hp ht => exact good_update h ((h _).post hp ht) q
  | complete hd ho =>
    obtain ⟨p, hp⟩ := posted_of_outcome ho
    exact good_update h ((h _).complete hp hd (length_outcome h ho)) q
  | fail scraps hscraps => exact (h q).fail (hscraps q)
  | overwrite ha => exact good_update h ((h _).overwrite ha _) q
  | save _ => exact good_update h (h _).save q
  | restart _ => exact good_update h ((h _).restart _) q
  | drop hp => exact good_update h ((h _).drop hp) q

theorem good_of_reachable (h : Reachable lib c s) (r : Fin n) : Good lib c r (s r) := by
  induction h generalizing r with
  | start m => exact good_start
  | step _ hs ih => exact good_step ih hs r

theorem result_of_wrapped (h : Good lib c r t) (hl : t.log = some l) :
    (c.result lib r).isSome ↔ (l.wrapped r.val).isSome := by
  rw [Collective.receives_iff (h.carries l hl).kind, LoggedOp.wrapped, Option.isSome_map]

/-- What a rank that completes has in its memory. -/
theorem memory_complete (h : ∀ r, Good lib c r (s r)) (hd : (s r).done = false)
    (ho : outcome lib (fun q => (s q).posted) r = some bs) : ∃ l, (s r).log = some l ∧
      ((s r).complete bs).memory = landed (l.wrapped r.val) (c.result lib r) (s r).memory := by
  obtain ⟨p, hp⟩ := posted_of_outcome ho
  obtain ⟨l, l', hl, heq, _⟩ := (h r).receive hp hd (length_outcome h ho)
  refine ⟨l, hl, ?_⟩
  rw [← outcome_eq (posted_of_good h) ho]
  exact congrArg ReplayRank.memory heq

theorem landed_released (h : Good lib c r t) (ha : t.active = false) (hl : t.log = some l) :
    landed (l.wrapped r.val) bs m = m := by
  cases hw : l.wrapped r.val with
  | none => rfl
  | some p =>
    rw [h.released ha l hl p hw]
    cases bs with
    | none => rfl
    | some xs => rfl

/-- A failure leaves the memory of a rank alone that is not in the collective. -/
theorem memory_fail (h : Good lib c r t) (ha : t.active = false) (hbs : ∀ xs, bs = some xs → xs.length = c.size) :
    (t.fail bs).memory = t.memory := by
  unfold ReplayRank.fail
  cases hd : t.done with
  | true => rfl
  | false =>
    cases hp : t.posted with
    | none =>
      unfold ReplayRank.receive
      rw [hp]
      cases t.log with
      | none => rfl
      | some l => rfl
    | some q =>
      obtain ⟨l, l', hl, heq, _⟩ := h.receive hp hd hbs
      rw [heq]
      exact landed_released h ha hl

/-- Once a collective returned, its replays never write to the memory of the user: only the application does, or the
process that takes over. -/
theorem replay_frame (h : Reachable lib c s) (hs : Step lib c a s s') (ha : (s r).active = false)
    (hown : ∀ m, a ≠ .overwrite r m ∧ a ≠ .restart r m) : (s' r).memory = (s r).memory := by
  have hgood := good_of_reachable h
  have hother {q : Fin n} {t : ReplayRank} (hq : q = r → t.memory = (s r).memory) :
      (Function.update s q t r).memory = (s r).memory := by
    by_cases hqr : q = r
    · rw [hqr, Function.update_self]
      exact hq hqr
    · rw [Function.update_of_ne (Ne.symm hqr)]
  cases hs with
  | call hl _ _ ht =>
    apply hother
    rintro rfl
    obtain ⟨l, _, rfl⟩ := Except.map_eq_ok_iff.mp ht
    rfl
  | post _ ht =>
    apply hother
    rintro rfl
    cases hl : (s _).log with
    | none =>
      rw [ReplayRank.post, hl] at ht
      cases ht
    | some l =>
      obtain ⟨l', _, _, hpost⟩ := (hgood _).post_ok hl
      cases Except.ok.inj (hpost.symm.trans ht)
      rfl
  | complete hd ho =>
    apply hother
    rintro rfl
    obtain ⟨l, hl, hmem⟩ := memory_complete hgood hd ho
    rw [hmem, landed_released (hgood _) ha hl]
  | fail scraps hscraps => exact memory_fail (hgood r) ha (hscraps r)
  | overwrite _ =>
    apply hother
    rintro rfl
    exact absurd rfl (hown _).1
  | save _ =>
    apply hother
    rintro rfl
    rfl
  | restart _ =>
    apply hother
    rintro rfl
    exact absurd rfl (hown _).2
  | drop _ =>
    apply hother
    rintro rfl
    rfl

section Progress

/-- Steps that need no failure: a rank posts what is logged, or completes it. -/
def Advances (lib : MPILibrary) (c : Collective n) (s s' : ReplayState n) : Prop :=
  ∃ r, Step lib c (.post r) s s' ∨ Step lib c (.complete r) s s'

/-- Every rank has the collective in its log. -/
structure Ready (lib : MPILibrary) (c : Collective n) (s : ReplayState n) : Prop where
  good : ∀ r, Good lib c r (s r)
  logged : ∀ r, (s r).log.isSome

theorem Ready.post (h : Ready lib c s) (r : Fin n) : ∃ s', Relation.ReflTransGen (Advances lib c) s s' ∧
    Ready lib c s' ∧ (s' r).posted.isSome ∧ ∀ q, (s q).posted.isSome → (s' q).posted.isSome := by
  cases hp : (s r).posted with
  | some p => exact ⟨s, .refl, h, by rw [hp]; rfl, fun _ => id⟩
  | none =>
    obtain ⟨l, hl⟩ := Option.isSome_iff_exists.mp (h.logged r)
    obtain ⟨l', _, _, hpost⟩ := (h.good r).post_ok hl
    have hstep : Step lib c (.post r) s _ := .post hp hpost
    refine ⟨_, .single ⟨r, Or.inl hstep⟩, ⟨good_step h.good hstep, fun q => ?_⟩, ?_, fun q hq => ?_⟩
    · by_cases hqr : q = r
      · rw [hqr, Function.update_self]
        rfl
      · rw [Function.update_of_ne hqr]
        exact h.logged q
    · rw [Function.update_self]
      rfl
    · by_cases hqr : q = r
      · rw [hqr, Function.update_self]
        rfl
      · rw [Function.update_of_ne hqr]
        exact hq

theorem Ready.complete (h : Ready lib c s) (hall : ∀ q, (s q).posted.isSome) (r : Fin n) :
    ∃ s', Relation.ReflTransGen (Advances lib c) s s' ∧ Ready lib c s' ∧ (∀ q, (s' q).posted.isSome) ∧
      (s' r).active = false ∧ ∀ q, (s q).active = false → (s' q).active = false := by
  cases ha : (s r).active with
  | false => exact ⟨s, .refl, h, hall, ha, fun _ => id⟩
  | true =>
    have hd := (h.good r).pending (Or.inr ha)
    have ho := outcome_of_all lib (posted_of_good h.good) hall r
    have hstep : Step lib c (.complete r) s _ := .complete hd ho
    obtain ⟨p, hp⟩ := Option.isSome_iff_exists.mp (hall r)
    obtain ⟨l, l', hl, heq, _⟩ := (h.good r).receive hp hd (length_outcome h.good ho)
    refine ⟨_, .single ⟨r, Or.inr hstep⟩, ⟨good_step h.good hstep, fun q => ?_⟩, fun q => ?_, ?_, fun q hq => ?_⟩
    · by_cases hqr : q = r
      · rw [hqr, Function.update_self, ReplayRank.complete, heq]
        split
        next => rfl
        next => rfl
      · rw [Function.update_of_ne hqr]
        exact h.logged q
    · by_cases hqr : q = r
      · rw [hqr, Function.update_self, ReplayRank.complete, heq]
        exact hall r
      · rw [Function.update_of_ne hqr]
        exact hall q
    · rw [Function.update_self]
      rfl
    · by_cases hqr : q = r
      · rw [hqr, Function.update_self]
        rfl
      · rw [Function.update_of_ne hqr]
        exact hq

theorem Ready.post_all (h : Ready lib c s) (rs : List (Fin n)) : ∃ s', Relation.ReflTransGen (Advances lib c) s s' ∧
    Ready lib c s' ∧ (∀ r ∈ rs, (s' r).posted.isSome) ∧ ∀ q, (s q).posted.isSome → (s' q).posted.isSome := by
  induction rs generalizing s with
  | nil => exact ⟨s, .refl, h, nofun, fun _ => id⟩
  | cons r rs ih =>
    obtain ⟨s₁, hrun, h₁, hr, hkeep⟩ := h.post r
    obtain ⟨s₂, hrun', h₂, hrs, hkeep'⟩ := ih h₁
    refine ⟨s₂, hrun.trans hrun', h₂, ?_, fun q hq => hkeep' q (hkeep q hq)⟩
    intro q hq
    rcases List.mem_cons.mp hq with rfl | hq
    · exact hkeep' q hr
    · exact hrs q hq

theorem Ready.complete_all (h : Ready lib c s) (hall : ∀ q, (s q).posted.isSome) (rs : List (Fin n)) :
    ∃ s', Relation.ReflTransGen (Advances lib c) s s' ∧ (∀ r ∈ rs, (s' r).active = false) ∧
      ∀ q, (s q).active = false → (s' q).active = false := by
  induction rs generalizing s with
  | nil => exact ⟨s, .refl, nofun, fun _ => id⟩
  | cons r rs ih =>
    obtain ⟨s₁, hrun, h₁, hall₁, hr, hkeep⟩ := h.complete hall r
    obtain ⟨s₂, hrun', hrs, hkeep'⟩ := ih h₁ hall₁
    refine ⟨s₂, hrun.trans hrun', ?_, fun q hq => hkeep' q (hkeep q hq)⟩
    intro q hq
    rcases List.mem_cons.mp hq with rfl | hq
    · exact hkeep' q hr
    · exact hrs q hq

/-- Whatever failed before, once every rank has the collective in its log and nothing fails any more, all calls of it
can return: no log is unfit to be posted, and the ranks that returned already replay what the others wait for. -/
theorem all_return (h : Reachable lib c s) (hlog : ∀ r, (s r).log.isSome) :
    ∃ s', Relation.ReflTransGen (Advances lib c) s s' ∧ ∀ r, (s' r).active = false := by
  have hready : Ready lib c s := ⟨good_of_reachable h, hlog⟩
  obtain ⟨s₁, hrun, h₁, hall, _⟩ := hready.post_all (List.finRange n)
  obtain ⟨s₂, hrun', hret, _⟩ := h₁.complete_all (fun q => hall q (List.mem_finRange q)) (List.finRange n)
  exact ⟨s₂, hrun.trans hrun', fun r => hret r (List.mem_finRange r)⟩

end Progress

section Pair

/-- Bytes as elements, reduced to the first contribution. -/
def pairLibrary : MPILibrary where
  typeSize _ := 1
  typeExtent _ := 1
  combine _ _ xs := xs.headD []
  combine_length := by
    intro op datatype xs size hne hall
    cases xs with
    | nil => exact absurd rfl hne
    | cons x xs => exact hall x List.mem_cons_self

/-- Rank 0 of two broadcasts a byte. -/
def pairCollective : Collective 2 where
  kind := .bcast 0
  size := 1
  input _ := [7]
  length_input _ := rfl
  rooted := by
    intro root h
    cases h
    rfl

/-- The call of both ranks. -/
def pairCall : CollectiveCall := .bcast 1 1 0 0

theorem pairCall_lays : pairLibrary.Lays 0 1 1 := ⟨by decide, rfl, rfl, by decide⟩

/-- Rank 0 returned and wrote its buffer since; then the attempt of rank 1 failed and left another byte there. -/
def pairFailed : ReplayState 2 := fun r => if r.val = 0
  then { memory := fun _ => 9, log := some (.bcast 0 { internalBuf := [7], mCount := 1, mType := 0 }),
         entry := some (pairCall, fun _ => 7) }
  else { memory := Memory.write (fun _ => 7) 1 [3], log := some (.bcast 0 { userBuf := 1, mCount := 1, mType := 0 }),
         active := true, entry := some (pairCall, fun _ => 7) }

theorem pairFailed_reachable : Reachable pairLibrary pairCollective pairFailed := by
  have h₀ : Reachable pairLibrary pairCollective _ := .start fun _ _ => 7
  have h₁ := h₀.step (.call (r := 0) (x := pairCall) rfl rfl ⟨rfl, pairCall_lays, rfl⟩ rfl)
  have h₂ := h₁.step (.post (r := 0) rfl rfl)
  have h₃ := h₂.step (.complete (r := 0) rfl rfl)
  have h₄ := h₃.step (.overwrite (r := 0) (m := fun _ => 9) rfl)
  have h₅ := h₄.step (.call (r := 1) (x := pairCall) rfl rfl ⟨rfl, pairCall_lays, by decide⟩ rfl)
  have h₆ := h₅.step (.post (r := 1) rfl rfl)
  have h₇ := h₆.step (.fail (fun _ => some [3]) (by intro r bs h; cases h; rfl))
  have heq {s : ReplayState 2} (hs : Reachable pairLibrary pairCollective s) (h : ∀ r, s r = pairFailed r) :
      Reachable pairLibrary pairCollective pairFailed := funext h ▸ hs
  exact heq h₇ (Fin.forall_fin_two.mpr ⟨rfl, rfl⟩)

theorem replay_frame_pair : ∃ s' : ReplayState 2, Step pairLibrary pairCollective (.post 0) pairFailed s' ∧
    (s' 0).memory = (pairFailed 0).memory := by
  have hstep : Step pairLibrary pairCollective (.post 0) pairFailed _ := .post rfl rfl
  exact ⟨_, hstep, replay_frame pairFailed_reachable hstep rfl fun _ => ⟨nofun, nofun⟩⟩

theorem all_return_pair : ∃ s', Relation.ReflTransGen (Advances pairLibrary pairCollective) pairFailed s' ∧
    ∀ r, (s' r).active = false :=
  all_return pairFailed_reachable (Fin.forall_fin_two.mpr ⟨rfl, rfl⟩)

end Pair

end ReplayState

end Fenix
