import Fenix.OpBuffer

namespace Fenix

/-- A logged collective with its buffers. -/
inductive LoggedOp where
  | barrier
  | bcast (root : Int) (buf : OpBuffer)
  | reduce (root op : Int) (sbuf rbuf : OpBuffer)
  | allreduce (op : Int) (sbuf rbuf : OpBuffer)
  deriving DecidableEq, Repr

/-- The arguments of a collective of the application. A `send` that is `none` is `MPI_IN_PLACE`. -/
inductive CollectiveCall where
  | barrier
  | bcast (buffer : Nat) (count datatype root : Int)
  | reduce (send : Option Nat) (recv : Nat) (count datatype op root : Int)
  | allreduce (send : Option Nat) (recv : Nat) (count datatype op : Int)
  deriving DecidableEq, Repr

/-- The address that the result of a call goes to. -/
def CollectiveCall.dest : CollectiveCall → Nat
  | .barrier => 0
  | .bcast buffer _ _ _ => buffer
  | .reduce _ recv _ _ _ _ => recv
  | .allreduce _ recv _ _ _ => recv

/-- What MPI matches the calls of the ranks by. -/
inductive CollectiveKind where
  | barrier
  | bcast (root : Int)
  | reduce (root op datatype : Int)
  | allreduce (op datatype : Int)
  deriving DecidableEq, Repr

/-- A collective that is posted: its kind, what the rank contributes and where it receives. -/
structure Posted where
  kind : CollectiveKind
  sends : Option (List UInt8)
  target : Option Place
  deriving DecidableEq, Repr

section Create

variable (lib : MPILibrary) (me : Int) (m : Memory UInt8)

def BcastLog.create (buffer : Nat) (count datatype root : Int) : Except Abort LoggedOp :=
  if root = me then (OpBuffer.copy lib m buffer count datatype).map fun b => .bcast root b.moved
  else .ok (.bcast root (OpBuffer.wrap buffer count datatype).moved)

def ReduceLog.create (send : Option Nat) (recv : Nat) (count datatype op root : Int) : Except Abort LoggedOp :=
  (OpBuffer.copy lib m (send.getD recv) count datatype).map fun sbuf =>
    .reduce root op sbuf (if root = me then (OpBuffer.wrap recv count datatype).moved else {})

def AllreduceLog.create (send : Option Nat) (recv : Nat) (count datatype op : Int) : Except Abort LoggedOp :=
  (OpBuffer.copy lib m (send.getD recv) count datatype).map fun sbuf =>
    .allreduce op sbuf (OpBuffer.wrap recv count datatype)

/-- The log that is made when the application calls a collective. -/
def CollectiveCall.log : CollectiveCall → Except Abort LoggedOp
  | .barrier => .ok .barrier
  | .bcast buffer count datatype root => BcastLog.create lib me m buffer count datatype root
  | .reduce send recv count datatype op root => ReduceLog.create lib me m send recv count datatype op root
  | .allreduce send recv count datatype op => AllreduceLog.create lib m send recv count datatype op

end Create

namespace LoggedOp

def kind : LoggedOp → CollectiveKind
  | .barrier => .barrier
  | .bcast root _ => .bcast root
  | .reduce root op sbuf _ => .reduce root op sbuf.mType
  | .allreduce op sbuf _ => .allreduce op sbuf.mType

/-- The buffer that a rank sends from. -/
def sendBuf (me : Int) : LoggedOp → Option OpBuffer
  | .barrier => none
  | .bcast root buf => if root = me then some buf else none
  | .reduce _ _ sbuf _ => some sbuf
  | .allreduce _ sbuf _ => some sbuf

/-- The buffer that a rank receives into. -/
def recvBuf (me : Int) : LoggedOp → Option OpBuffer
  | .barrier => none
  | .bcast root buf => if root = me then none else some buf
  | .reduce root _ _ rbuf => if root = me then some rbuf else none
  | .allreduce _ _ rbuf => some rbuf

/-- The nonblocking collective that `begin` and `replay` start. -/
def post (lib : MPILibrary) (me : Int) (m : Memory UInt8) : LoggedOp → Except Abort (LoggedOp × Posted)
  | .barrier => .ok (.barrier, ⟨.barrier, none, none⟩)
  | .bcast root buf => do
    let (place, buf) ← buf.pass lib
    if root = me then return (.bcast root buf, ⟨.bcast root, some (buf.contents lib m place), none⟩)
    else return (.bcast root buf, ⟨.bcast root, none, some place⟩)
  | .reduce root op sbuf rbuf => do
    let (recv, rbuf) ← if root = me then (rbuf.pass lib).map fun (place, rbuf) => (some place, rbuf)
      else .ok (none, rbuf)
    let (place, sbuf) ← sbuf.pass lib
    return (.reduce root op sbuf rbuf, ⟨.reduce root op sbuf.mType, some (sbuf.contents lib m place), recv⟩)
  | .allreduce op sbuf rbuf => do
    let (place, sbuf) ← sbuf.pass lib
    let (recv, rbuf) ← rbuf.pass lib
    return (.allreduce op sbuf rbuf, ⟨.allreduce op sbuf.mType, some (sbuf.contents lib m place), some recv⟩)

/-- Put what is received into the buffer's own data. -/
def receive (bs : List UInt8) : LoggedOp → LoggedOp
  | .barrier => .barrier
  | .bcast root buf => .bcast root { buf with internalBuf := bs }
  | .reduce root op sbuf rbuf => .reduce root op sbuf { rbuf with internalBuf := bs }
  | .allreduce op sbuf rbuf => .allreduce op sbuf { rbuf with internalBuf := bs }

/-- What MPI writes where the posted collective receives. -/
def deliver (m : Memory UInt8) (l : LoggedOp) (bs : List UInt8) : Option Place → Memory UInt8 × LoggedOp
  | none => (m, l)
  | some (.user p) => (m.write p bs, l)
  | some .internal => (m, l.receive bs)

/-- The reference to a buffer of the user is released once `begin` gets that far. -/
def release : LoggedOp → LoggedOp
  | .barrier => .barrier
  | .bcast root buf => .bcast root buf.releaseUserBuf
  | .reduce root op sbuf rbuf => .reduce root op sbuf rbuf.releaseUserBuf
  | .allreduce op sbuf rbuf => .allreduce op sbuf rbuf.releaseUserBuf

/-- What is written of a log: the buffer that is received into is left out of a reduction. -/
def recorded : LoggedOp → CollectiveOp
  | .barrier => .barrier
  | .bcast root buf => .bcast root buf.recorded
  | .reduce root op sbuf _ => .reduce root op sbuf.recorded
  | .allreduce op sbuf _ => .allreduce op sbuf.recorded

/-- A log read again: a reduction creates the buffer that it receives into. -/
def restore : CollectiveOp → LoggedOp
  | .barrier => .barrier
  | .bcast root buf => .bcast root (OpBuffer.ofRecorded buf).moved
  | .reduce root op sbuf =>
    .reduce root op (OpBuffer.ofRecorded sbuf).moved (OpBuffer.create sbuf.count sbuf.datatype).moved
  | .allreduce op sbuf =>
    .allreduce op (OpBuffer.ofRecorded sbuf).moved (OpBuffer.create sbuf.count sbuf.datatype).moved

end LoggedOp

/-- The rank that a root is, if it is one. -/
def rank? (n : Nat) (root : Int) : Option (Fin n) :=
  if h : 0 ≤ root ∧ root.toNat < n then some ⟨root.toNat, h.2⟩ else none

/-- What MPI makes of the collectives that the ranks posted: for a rank that can complete, what it receives if anything.
A root completes on its own, as does a rank that just sends to one. -/
def outcome (lib : MPILibrary) {n : Nat} (posted : Fin n → Option Posted) (r : Fin n) :
    Option (Option (List UInt8)) :=
  let sent : List (List UInt8) := List.ofFn fun q => ((posted q).bind (·.sends)).getD []
  (posted r).bind fun p =>
    match p.kind with
    | .barrier => if ∀ q, (posted q).map (·.kind) = some p.kind then some none else none
    | .bcast root =>
      if root = r.val then some none
      else (rank? n root).bind fun q => (posted q).bind fun o => if o.kind = p.kind then o.sends.map some else none
    | .reduce root op datatype =>
      if root ≠ r.val then some none
      else if ∀ q, (posted q).map (·.kind) = some p.kind then some (some (lib.combine op datatype sent)) else none
    | .allreduce op datatype =>
      if ∀ q, (posted q).map (·.kind) = some p.kind then some (some (lib.combine op datatype sent)) else none

/-- The collective at one index of the log, as the program has all ranks call it: with what they contribute. -/
structure Collective (n : Nat) where
  kind : CollectiveKind
  size : Nat
  input : Fin n → List UInt8
  length_input : ∀ r, (input r).length = size
  rooted : ∀ root, kind = .bcast root → (rank? n root).isSome

namespace Collective

variable {n : Nat}

/-- What a rank contributes, if anything. -/
def sends (c : Collective n) (r : Fin n) : Option (List UInt8) :=
  match c.kind with
  | .barrier => none
  | .bcast root => if root = r.val then some (c.input r) else none
  | .reduce _ _ _ => some (c.input r)
  | .allreduce _ _ => some (c.input r)

/-- What a rank receives, if anything, by the meaning of the collective. -/
def result (lib : MPILibrary) (c : Collective n) (r : Fin n) : Option (List UInt8) :=
  match c.kind with
  | .barrier => none
  | .bcast root => if root = r.val then none else (rank? n root).map c.input
  | .reduce root op datatype => if root = r.val then some (lib.combine op datatype (List.ofFn c.input)) else none
  | .allreduce op datatype => some (lib.combine op datatype (List.ofFn c.input))

/-- What a failure-free collective makes of the memory of a rank that calls it. -/
def effect (lib : MPILibrary) (c : Collective n) (r : Fin n) (x : CollectiveCall) (m : Memory UInt8) : Memory UInt8 :=
  match c.result lib r with
  | none => m
  | some bs => m.write x.dest bs

/-- A call of the application on a rank that makes the collective, with what the rank contributes in its memory. -/
def Conforms (lib : MPILibrary) (c : Collective n) (r : Fin n) (m : Memory UInt8) : CollectiveCall → Prop
  | .barrier => c.kind = .barrier
  | .bcast buffer count datatype root =>
    c.kind = .bcast root ∧ lib.Lays datatype count c.size ∧
      if root = r.val then m.read buffer c.size = c.input r else buffer = 0 → c.size = 0
  | .reduce send recv count datatype op root =>
    c.kind = .reduce root op datatype ∧ lib.Lays datatype count c.size ∧
      m.read (send.getD recv) c.size = c.input r ∧ (root = r.val → recv = 0 → c.size = 0)
  | .allreduce send recv count datatype op =>
    c.kind = .allreduce op datatype ∧ lib.Lays datatype count c.size ∧
      m.read (send.getD recv) c.size = c.input r ∧ (recv = 0 → c.size = 0)

/-- A log is for the collective: it has a copy of what the rank contributes and room for what it receives. -/
structure Carries (lib : MPILibrary) (c : Collective n) (r : Fin n) (l : LoggedOp) : Prop where
  kind : l.kind = c.kind
  sends : ∀ b, l.sendBuf r.val = some b → b.Holds lib (c.input r)
  receives : ∀ b, l.recvBuf r.val = some b → b.Sized lib c.size

end Collective

namespace LoggedOp

/-- The user's memory that the buffer wraps which a rank receives into. -/
def wrapped (me : Int) (l : LoggedOp) : Option Nat := (l.recvBuf me).map OpBuffer.userBuf

/-- Where a rank receives. -/
def target (me : Int) (l : LoggedOp) : Option Place :=
  (l.wrapped me).map fun p => if p ≠ 0 then .user p else .internal

end LoggedOp

variable {lib : MPILibrary} {n : Nat} {c : Collective n} {r : Fin n} {l : LoggedOp} {m : Memory UInt8}
  {call : CollectiveCall} {bs : List UInt8}

theorem Collective.sends_eq (h : l.kind = c.kind) :
    c.sends r = (l.sendBuf r.val).map fun _ => c.input r := by
  unfold Collective.sends
  rw [← h]
  cases l with
  | barrier => rfl
  | bcast root buf =>
    simp only [LoggedOp.kind, LoggedOp.sendBuf]
    split
    next => rfl
    next => rfl
  | reduce root op sbuf rbuf => rfl
  | allreduce op sbuf rbuf => rfl

theorem Collective.receives_iff (h : l.kind = c.kind) :
    (c.result lib r).isSome ↔ (l.recvBuf r.val).isSome := by
  unfold Collective.result
  rw [← h]
  cases l with
  | barrier => simp [LoggedOp.kind, LoggedOp.recvBuf]
  | bcast root buf =>
    have hroot := c.rooted root h.symm
    simp only [LoggedOp.kind, LoggedOp.recvBuf]
    split
    next => simp
    next => simp [hroot]
  | reduce root op sbuf rbuf =>
    simp only [LoggedOp.kind, LoggedOp.recvBuf]
    split
    next => simp
    next => simp
  | allreduce op sbuf rbuf => simp [LoggedOp.kind, LoggedOp.recvBuf]

theorem Collective.length_result (h : c.result lib r = some bs) : bs.length = c.size := by
  have hcombine {op datatype : Int} : (lib.combine op datatype (List.ofFn c.input)).length = c.size := by
    apply lib.combine_length
    · intro hnil
      have := congrArg List.length hnil
      rw [List.length_ofFn] at this
      exact absurd r.isLt (by simp at this; omega)
    · intro x hx
      obtain ⟨q, rfl⟩ := List.mem_ofFn.mp hx
      exact c.length_input q
  unfold Collective.result at h
  split at h
  next => cases h
  next =>
    split at h
    next => cases h
    next =>
      obtain ⟨q, _, rfl⟩ := Option.map_eq_some_iff.mp h
      exact c.length_input q
  next =>
    split at h
    next =>
      cases Option.some.inj h
      exact hcombine
    next => cases h
  next =>
    cases Option.some.inj h
    exact hcombine

/-- The log made for a conforming call carries the collective and receives where the call says. -/
theorem Collective.Conforms.log (h : c.Conforms lib r m call) : ∃ l, call.log lib r.val m = .ok l ∧
    c.Carries lib r l ∧ ∀ p, l.wrapped r.val = some p → p = call.dest ∧ (p = 0 → c.size = 0) := by
  cases call with
  | barrier => exact ⟨.barrier, rfl, ⟨h.symm, nofun, nofun⟩, nofun⟩
  | bcast buffer count datatype root =>
    obtain ⟨hk, hl, hif⟩ := h
    change ∃ l, BcastLog.create lib r.val m buffer count datatype root = .ok l ∧ _
    unfold BcastLog.create
    by_cases hroot : root = r.val
    · rw [if_pos hroot] at hif ⊢
      obtain ⟨b, hb, hold, _⟩ := OpBuffer.copy_holds lib m buffer hl
      rw [hif] at hold
      refine ⟨.bcast root b.moved, by rw [hb]; rfl, ⟨hk.symm, ?_, ?_⟩, ?_⟩
      · intro b' hb'
        rw [LoggedOp.sendBuf, if_pos hroot] at hb'
        cases Option.some.inj hb'
        exact hold.moved
      · intro b' hb'
        rw [LoggedOp.recvBuf, if_pos hroot] at hb'
        cases hb'
      · rw [LoggedOp.wrapped, LoggedOp.recvBuf, if_pos hroot]
        nofun
    · rw [if_neg hroot] at hif ⊢
      refine ⟨_, rfl, ⟨hk.symm, ?_, ?_⟩, ?_⟩
      · intro b' hb'
        rw [LoggedOp.sendBuf, if_neg hroot] at hb'
        cases hb'
      · intro b' hb'
        rw [LoggedOp.recvBuf, if_neg hroot] at hb'
        cases Option.some.inj hb'
        exact (OpBuffer.wrap_sized hl).moved
      · intro p hp
        rw [LoggedOp.wrapped, LoggedOp.recvBuf, if_neg hroot] at hp
        cases Option.some.inj hp
        exact ⟨rfl, hif⟩
  | reduce send recv count datatype op root =>
    obtain ⟨hk, hl, hin, hdest⟩ := h
    obtain ⟨b, hb, hold, htype⟩ := OpBuffer.copy_holds lib m (send.getD recv) hl
    rw [hin] at hold
    have hlog : ReduceLog.create lib r.val m send recv count datatype op root = .ok (.reduce root op b
        (if root = r.val then (OpBuffer.wrap recv count datatype).moved else {})) := by
      rw [ReduceLog.create, hb]
      rfl
    refine ⟨_, hlog, ⟨?_, ?_, ?_⟩, ?_⟩
    · rw [LoggedOp.kind, htype, hk]
    · intro b' hb'
      cases Option.some.inj hb'
      exact hold
    · intro b' hb'
      by_cases hroot : root = r.val
      · rw [LoggedOp.recvBuf, if_pos hroot, if_pos hroot] at hb'
        cases Option.some.inj hb'
        exact (OpBuffer.wrap_sized hl).moved
      · rw [LoggedOp.recvBuf, if_neg hroot] at hb'
        cases hb'
    · intro p hp
      by_cases hroot : root = r.val
      · rw [LoggedOp.wrapped, LoggedOp.recvBuf, if_pos hroot, if_pos hroot] at hp
        cases Option.some.inj hp
        exact ⟨rfl, hdest hroot⟩
      · rw [LoggedOp.wrapped, LoggedOp.recvBuf, if_neg hroot] at hp
        cases hp
  | allreduce send recv count datatype op =>
    obtain ⟨hk, hl, hin, hdest⟩ := h
    obtain ⟨b, hb, hold, htype⟩ := OpBuffer.copy_holds lib m (send.getD recv) hl
    rw [hin] at hold
    have hlog : AllreduceLog.create lib m send recv count datatype op = .ok (.allreduce op b
        (OpBuffer.wrap recv count datatype)) := by
      rw [AllreduceLog.create, hb]
      rfl
    refine ⟨_, hlog, ⟨?_, ?_, ?_⟩, ?_⟩
    · rw [LoggedOp.kind, htype, hk]
    · intro b' hb'
      cases Option.some.inj hb'
      exact hold
    · intro b' hb'
      cases Option.some.inj hb'
      exact OpBuffer.wrap_sized hl
    · intro p hp
      cases Option.some.inj hp
      exact ⟨rfl, hdest⟩

namespace Collective.Carries

theorem post_bcast {root : Int} {b : OpBuffer} (h : c.Carries lib r (.bcast root b)) (m : Memory UInt8) :
    ∃ b', (LoggedOp.bcast root b).post lib r.val m = .ok (.bcast root b', ⟨.bcast root,
        (LoggedOp.bcast root b).sendBuf r.val |>.map fun _ => c.input r, (LoggedOp.bcast root b).target r.val⟩) ∧
      c.Carries lib r (.bcast root b') ∧ b'.userBuf = b.userBuf := by
  by_cases hroot : root = r.val
  · have hb : ∀ b, (LoggedOp.bcast root b).sendBuf r.val = some b := fun _ => if_pos hroot
    have hn : ∀ b, (LoggedOp.bcast root b).recvBuf r.val = none := fun _ => if_pos hroot
    obtain ⟨b', hpass, hold, hdata, huser, _⟩ := (h.sends b (hb b)).pass m
    refine ⟨b', ?_, ⟨h.kind, ?_, ?_⟩, huser⟩
    · simp only [LoggedOp.post, hpass, Except.ok_bind, if_pos hroot, hdata, hb, LoggedOp.target, LoggedOp.wrapped, hn]
      rfl
    · intro x hx
      rw [hb] at hx
      cases Option.some.inj hx
      exact hold
    · rw [hn]
      exact nofun
  · have hb : ∀ b, (LoggedOp.bcast root b).sendBuf r.val = none := fun _ => if_neg hroot
    have hn : ∀ b, (LoggedOp.bcast root b).recvBuf r.val = some b := fun _ => if_neg hroot
    obtain ⟨b', hpass, hsized, huser, _⟩ := (h.receives b (hn b)).pass
    refine ⟨b', ?_, ⟨h.kind, ?_, ?_⟩, huser⟩
    · simp only [LoggedOp.post, hpass, Except.ok_bind, if_neg hroot, hb, LoggedOp.target, LoggedOp.wrapped, hn]
      rfl
    · rw [hb]
      exact nofun
    · rw [hn]
      intro x hx
      cases Option.some.inj hx
      exact hsized

theorem post_reduce {root op : Int} {sbuf rbuf : OpBuffer} (h : c.Carries lib r (.reduce root op sbuf rbuf))
    (m : Memory UInt8) : ∃ s' b', (LoggedOp.reduce root op sbuf rbuf).post lib r.val m = .ok (.reduce root op s' b',
        ⟨.reduce root op sbuf.mType, some (c.input r), (LoggedOp.reduce root op sbuf rbuf).target r.val⟩) ∧
      c.Carries lib r (.reduce root op s' b') ∧ b'.userBuf = rbuf.userBuf := by
  obtain ⟨s', hs, hold, hdata, _, htype⟩ := (h.sends sbuf rfl).pass m
  have hkind : (LoggedOp.reduce root op s' rbuf).kind = c.kind := by
    rw [← h.kind, LoggedOp.kind, LoggedOp.kind, htype]
  have hsends : ∀ rbuf b, (LoggedOp.reduce root op s' rbuf).sendBuf r.val = some b → b.Holds lib (c.input r) := by
    intro _ b hb
    cases Option.some.inj hb
    exact hold
  by_cases hroot : root = r.val
  · have hn : ∀ s b, (LoggedOp.reduce root op s b).recvBuf r.val = some b := fun _ _ => if_pos hroot
    obtain ⟨b', hpass, hsized, huser, _⟩ := (h.receives rbuf (hn sbuf rbuf)).pass
    refine ⟨s', b', ?_, ⟨hkind, hsends b', ?_⟩, huser⟩
    · simp only [LoggedOp.post, hpass, hs, if_pos hroot, LoggedOp.target, LoggedOp.wrapped, hn]
      change Except.ok _ = _
      rw [hdata, htype]
      rfl
    · rw [hn]
      intro x hx
      cases Option.some.inj hx
      exact hsized
  · have hn : ∀ s b, (LoggedOp.reduce root op s b).recvBuf r.val = none := fun _ _ => if_neg hroot
    refine ⟨s', rbuf, ?_, ⟨hkind, hsends rbuf, ?_⟩, rfl⟩
    · simp only [LoggedOp.post, hs, if_neg hroot, LoggedOp.target, LoggedOp.wrapped, hn]
      change Except.ok _ = _
      rw [hdata, htype]
      rfl
    · rw [hn]
      exact nofun

theorem post_allreduce {op : Int} {sbuf rbuf : OpBuffer} (h : c.Carries lib r (.allreduce op sbuf rbuf))
    (m : Memory UInt8) : ∃ s' b', (LoggedOp.allreduce op sbuf rbuf).post lib r.val m = .ok (.allreduce op s' b',
        ⟨.allreduce op sbuf.mType, some (c.input r), (LoggedOp.allreduce op sbuf rbuf).target r.val⟩) ∧
      c.Carries lib r (.allreduce op s' b') ∧ b'.userBuf = rbuf.userBuf := by
  obtain ⟨s', hs, hold, hdata, _, htype⟩ := (h.sends sbuf rfl).pass m
  obtain ⟨b', hpass, hsized, huser, _⟩ := (h.receives rbuf rfl).pass
  refine ⟨s', b', ?_, ⟨?_, ?_, ?_⟩, huser⟩
  · simp only [LoggedOp.post, hpass, hs]
    change Except.ok _ = _
    rw [hdata, htype]
    rfl
  · rw [← h.kind, LoggedOp.kind, LoggedOp.kind, htype]
  · intro x hx
    cases Option.some.inj hx
    exact hold
  · intro x hx
    cases Option.some.inj hx
    exact hsized

/-- What is posted of a log: the collective, with the rank's contribution. -/
theorem post (h : c.Carries lib r l) (m : Memory UInt8) : ∃ l', l.post lib r.val m =
    .ok (l', ⟨c.kind, c.sends r, l.target r.val⟩) ∧ c.Carries lib r l' ∧ l'.wrapped r.val = l.wrapped r.val := by
  rw [Collective.sends_eq h.kind, ← h.kind]
  cases l with
  | barrier => exact ⟨.barrier, rfl, h, rfl⟩
  | bcast root b =>
    obtain ⟨b', hpost, hc, huser⟩ := h.post_bcast m
    refine ⟨_, hpost, hc, ?_⟩
    simp only [LoggedOp.wrapped, LoggedOp.recvBuf]
    split
    next => rfl
    next => rw [Option.map_some, Option.map_some, huser]
  | reduce root op sbuf rbuf =>
    obtain ⟨s', b', hpost, hc, huser⟩ := h.post_reduce m
    refine ⟨_, hpost, hc, ?_⟩
    simp only [LoggedOp.wrapped, LoggedOp.recvBuf]
    split
    next => rw [Option.map_some, Option.map_some, huser]
    next => rfl
  | allreduce op sbuf rbuf =>
    obtain ⟨s', b', hpost, hc, huser⟩ := h.post_allreduce m
    exact ⟨_, hpost, hc, congrArg some huser⟩

/-- A log with data received into its own buffer. -/
theorem received (h : c.Carries lib r l) (hp : l.wrapped r.val = some 0) (hbs : bs.length = c.size) :
    c.Carries lib r (l.receive bs) ∧ (l.receive bs).wrapped r.val = l.wrapped r.val := by
  obtain ⟨b, hb, h0⟩ := Option.map_eq_some_iff.mp hp
  have hrecv := (h.receives b hb).received h0 hbs
  cases l with
  | barrier => cases hb
  | bcast root buf =>
    by_cases hroot : root = r.val
    · simp [LoggedOp.recvBuf, hroot] at hb
    · obtain rfl : buf = b := by simpa [LoggedOp.recvBuf, hroot] using hb
      refine ⟨⟨h.kind, ?_, ?_⟩, ?_⟩
      · simp [LoggedOp.receive, LoggedOp.sendBuf, hroot]
      · simpa [LoggedOp.receive, LoggedOp.recvBuf, hroot] using hrecv
      · simp [LoggedOp.receive, LoggedOp.wrapped, LoggedOp.recvBuf, hroot]
  | reduce root op sbuf rbuf =>
    by_cases hroot : root = r.val
    · obtain rfl : rbuf = b := by simpa [LoggedOp.recvBuf, hroot] using hb
      refine ⟨⟨h.kind, h.sends, ?_⟩, ?_⟩
      · simpa [LoggedOp.receive, LoggedOp.recvBuf, hroot] using hrecv
      · simp [LoggedOp.receive, LoggedOp.wrapped, LoggedOp.recvBuf, hroot]
    · simp [LoggedOp.recvBuf, hroot] at hb
  | allreduce op sbuf rbuf =>
    obtain rfl : rbuf = b := Option.some.inj hb
    refine ⟨⟨h.kind, h.sends, ?_⟩, rfl⟩
    simpa [LoggedOp.receive, LoggedOp.recvBuf] using hrecv

/-- What a delivery does to the user's memory, and what the log is then. -/
theorem deliver (h : c.Carries lib r l) {p : Nat} (hp : l.wrapped r.val = some p) (hbs : bs.length = c.size)
    (m : Memory UInt8) : ∃ l', l.deliver m bs (l.target r.val) = (if p = 0 then m else m.write p bs, l') ∧
      c.Carries lib r l' ∧ l'.wrapped r.val = some p := by
  by_cases h0 : p = 0
  · subst h0
    have htarget : l.target r.val = some .internal := by simp [LoggedOp.target, hp]
    have hrecv := h.received hp hbs
    exact ⟨l.receive bs, by rw [htarget]; rfl, hrecv.1, hrecv.2.trans hp⟩
  · have htarget : l.target r.val = some (.user p) := by simp [LoggedOp.target, hp, h0]
    exact ⟨l, by rw [htarget, if_neg h0]; rfl, h, hp⟩

theorem release (h : c.Carries lib r l) : c.Carries lib r l.release ∧
    ∀ p, l.release.wrapped r.val = some p → p = 0 := by
  cases l with
  | barrier => exact ⟨h, nofun⟩
  | bcast root buf =>
    by_cases hroot : root = r.val
    · refine ⟨⟨h.kind, ?_, ?_⟩, ?_⟩
      · simpa [LoggedOp.release, LoggedOp.sendBuf, hroot] using (h.sends buf (if_pos hroot)).releaseUserBuf
      · simp [LoggedOp.release, LoggedOp.recvBuf, hroot]
      · simp [LoggedOp.release, LoggedOp.wrapped, LoggedOp.recvBuf, hroot]
    · refine ⟨⟨h.kind, ?_, ?_⟩, ?_⟩
      · simp [LoggedOp.release, LoggedOp.sendBuf, hroot]
      · simpa [LoggedOp.release, LoggedOp.recvBuf, hroot] using (h.receives buf (if_neg hroot)).releaseUserBuf
      · simp [LoggedOp.release, LoggedOp.wrapped, LoggedOp.recvBuf, hroot, OpBuffer.releaseUserBuf]
  | reduce root op sbuf rbuf =>
    refine ⟨⟨h.kind, h.sends, ?_⟩, ?_⟩
    · intro b hb
      by_cases hroot : root = r.val
      · obtain rfl : rbuf.releaseUserBuf = b := by simpa [LoggedOp.release, LoggedOp.recvBuf, hroot] using hb
        exact (h.receives rbuf (if_pos hroot)).releaseUserBuf
      · simp [LoggedOp.release, LoggedOp.recvBuf, hroot] at hb
    · intro p hp
      by_cases hroot : root = r.val
      · simpa [LoggedOp.release, LoggedOp.wrapped, LoggedOp.recvBuf, hroot, OpBuffer.releaseUserBuf, eq_comm] using hp
      · simp [LoggedOp.release, LoggedOp.wrapped, LoggedOp.recvBuf, hroot] at hp
  | allreduce op sbuf rbuf =>
    refine ⟨⟨h.kind, h.sends, ?_⟩, ?_⟩
    · simpa [LoggedOp.release, LoggedOp.recvBuf] using (h.receives rbuf rfl).releaseUserBuf
    · simp [LoggedOp.release, LoggedOp.wrapped, LoggedOp.recvBuf, OpBuffer.releaseUserBuf]

/-- A log that was written and read again carries the same collective, and wraps nothing. -/
theorem restore (h : c.Carries lib r l) : c.Carries lib r (.restore l.recorded) ∧
    ∀ p, (LoggedOp.restore l.recorded).wrapped r.val = some p → p = 0 := by
  cases l with
  | barrier => exact ⟨h, nofun⟩
  | bcast root buf =>
    by_cases hroot : root = r.val
    · refine ⟨⟨h.kind, ?_, ?_⟩, ?_⟩
      · simpa [LoggedOp.recorded, LoggedOp.restore, LoggedOp.sendBuf, hroot] using
          (h.sends buf (if_pos hroot)).ofRecorded.moved
      · simp [LoggedOp.recorded, LoggedOp.restore, LoggedOp.recvBuf, hroot]
      · simp [LoggedOp.recorded, LoggedOp.restore, LoggedOp.wrapped, LoggedOp.recvBuf, hroot]
    · refine ⟨⟨h.kind, ?_, ?_⟩, ?_⟩
      · simp [LoggedOp.recorded, LoggedOp.restore, LoggedOp.sendBuf, hroot]
      · simpa [LoggedOp.recorded, LoggedOp.restore, LoggedOp.recvBuf, hroot] using
          (h.receives buf (if_neg hroot)).ofRecorded.moved
      · simp [LoggedOp.recorded, LoggedOp.restore, LoggedOp.wrapped, LoggedOp.recvBuf, hroot, OpBuffer.moved,
          OpBuffer.ofRecorded]
  | reduce root op sbuf rbuf =>
    have hs := h.sends sbuf rfl
    have hcreate := (OpBuffer.create_sized (c.length_input r ▸ hs.lays)).moved
    refine ⟨⟨h.kind, ?_, ?_⟩, ?_⟩
    · simpa [LoggedOp.recorded, LoggedOp.restore, LoggedOp.sendBuf] using hs.ofRecorded.moved
    · intro b hb
      by_cases hroot : root = r.val
      · obtain rfl := Option.some.inj ((if_pos hroot).symm.trans hb)
        exact hcreate
      · cases (if_neg hroot).symm.trans hb
    · intro p hp
      by_cases hroot : root = r.val
      · simpa [LoggedOp.recorded, LoggedOp.restore, LoggedOp.wrapped, LoggedOp.recvBuf, hroot, OpBuffer.moved,
          OpBuffer.create, eq_comm] using hp
      · simp [LoggedOp.recorded, LoggedOp.restore, LoggedOp.wrapped, LoggedOp.recvBuf, hroot] at hp
  | allreduce op sbuf rbuf =>
    have hs := h.sends sbuf rfl
    have hcreate := (OpBuffer.create_sized (c.length_input r ▸ hs.lays)).moved
    refine ⟨⟨h.kind, ?_, ?_⟩, ?_⟩
    · simpa [LoggedOp.recorded, LoggedOp.restore, LoggedOp.sendBuf] using hs.ofRecorded.moved
    · intro b hb
      obtain rfl := Option.some.inj hb
      exact hcreate
    · simp [LoggedOp.recorded, LoggedOp.restore, LoggedOp.wrapped, LoggedOp.recvBuf, OpBuffer.moved, OpBuffer.create]

end Collective.Carries

end Fenix
