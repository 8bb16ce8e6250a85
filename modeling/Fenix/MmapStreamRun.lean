import Fenix.Growable
import Fenix.MmapStream

namespace Fenix

namespace StreamOp

/-- Where an operation on the array goes, if it is a seek. -/
def target (a : Growable UInt8) : StreamOp → Option Int
  | .write _ => none
  | .seekpos pos => some pos
  | .seekoff off .beg => some off
  | .seekoff off .cur => some (a.pos + off)
  | .seekoff off .endp => some (a.size + off)

/-- What the operation is meant to do. -/
def apply (a : Growable UInt8) (op : StreamOp) : Growable UInt8 :=
  match op, op.target a with
  | .write ch, _ => a.write ch
  | _, some pos => a.seek pos.toNat
  | _, none => a

end StreamOp

namespace OMmapStreamBuf

/-- What the operations are meant to write. -/
def written (a : Growable UInt8) (ops : List (StreamOp × Bool)) : Growable UInt8 :=
  ops.foldl (fun a op => op.1.apply a) a

/-- The seeks are to non-negative positions. -/
def Legal (a : Growable UInt8) : List (StreamOp × Bool) → Prop
  | [] => True
  | op :: ops => (∀ pos ∈ op.1.target a, 0 ≤ pos) ∧ Legal (op.1.apply a) ops

/-- The stream stands for the array. -/
structure Represents (s : OMmapStreamBuf) (a : Growable UInt8) : Prop where
  begins : s.mmapAddress.offset = 0
  here : s.pptr = s.mmapAddress.add a.pos
  limit : s.epptr = s.writableEnd
  claimChunk : 0 < s.claimChunkSize
  writeChunk : 0 < s.writeChunkSize
  writable : a.pos ≤ s.writableLen
  claimed : a.size ≤ s.claimLen
  highwater : max a.pos s.writtenHighwater = a.size
  bytes : ∀ i x, a.entry i = some x → s.memory i = x

section Lengths

theorem sub_add (p : Address) (m n : Int) : (p.add m).sub (p.add n) = .ok (m - n) := by
  have hdiff : p.offset + m - (p.offset + n) = m - n := by omega
  exact (if_pos rfl).trans (congrArg Except.ok hdiff)

theorem add_sub_self (p : Address) (n : Int) : (p.add n).sub p = .ok n := by
  have hdiff : p.offset + n - p.offset = n := by omega
  exact (if_pos rfl).trans (congrArg Except.ok hdiff)

theorem growLen_spec {chunk : Nat} (h : 0 < chunk) (len target : Nat) :
    ∃ n, growLen len chunk target = .ok n ∧ target ≤ n ∧ len ≤ n := by
  unfold growLen
  split
  next hle => exact ⟨len, rfl, hle, Nat.le_refl len⟩
  next hlt =>
    have hdiv := Nat.div_add_mod' target chunk
    have hmod := Nat.mod_lt target h
    have hgrown : target ≤ if target % chunk ≠ 0 then target / chunk * chunk + chunk else target / chunk * chunk := by
      split
      next => omega
      next hzero => omega
    dsimp only
    rw [if_pos hgrown]
    exact ⟨_, rfl, hgrown, by omega⟩

variable {s : OMmapStreamBuf} {a : Growable UInt8}

theorem writtenLen_eq (h : s.Represents a) : s.writtenLen = .ok a.size := by
  have hmax := h.highwater
  unfold writtenLen
  rw [h.here, add_sub_self, Except.ok_bind]
  change Except.ok (if a.pos < s.writtenHighwater then s.writtenHighwater else a.pos) = _
  split
  next hlt => rw [← hmax, Nat.max_eq_right (Nat.le_of_lt hlt)]
  next hge => rw [← hmax, Nat.max_eq_left (Nat.not_lt.mp hge)]

/-- What making room changes, and what it does not. -/
structure Grown (s s' : OMmapStreamBuf) (needed : Nat) (moves : Bool) : Prop where
  claimed : needed ≤ s'.claimLen ∧ s.claimLen ≤ s'.claimLen
  writable : needed ≤ s'.writableLen ∧ s.writableLen ≤ s'.writableLen
  address : s'.mmapAddress = if s.claimLen < needed ∧ moves then ⟨s.mmapAddress.mapping + 1, 0⟩ else s.mmapAddress
  chunks : s'.claimChunkSize = s.claimChunkSize ∧ s'.writeChunkSize = s.writeChunkSize
  pptr : s'.pptr = s.pptr
  highwater : s'.writtenHighwater = s.writtenHighwater
  memory : s'.memory = s.memory

theorem growClaim_spec (hc : 0 < s.claimChunkSize) (needed : Nat) (moves : Bool) :
    ∃ claim, needed ≤ claim ∧ s.claimLen ≤ claim ∧ s.growClaim needed moves = .ok { s with
      claimLen := claim
      mmapAddress := if s.claimLen < needed ∧ moves then ⟨s.mmapAddress.mapping + 1, 0⟩ else s.mmapAddress } := by
  unfold growClaim
  split
  next hlt =>
    obtain ⟨claim, hclaim, hneeded, hle⟩ := growLen_spec hc s.claimLen needed
    rw [hclaim]
    simp only [hlt, true_and]
    exact ⟨claim, hneeded, hle, rfl⟩
  next hge =>
    rw [if_neg fun h => hge h.1]
    exact ⟨s.claimLen, Nat.not_lt.mp hge, Nat.le_refl _, rfl⟩

theorem growWritable_spec (hw : 0 < s.writeChunkSize) (needed : Nat) :
    ∃ write, needed ≤ write ∧ s.writableLen ≤ write ∧ s.growWritable needed = .ok { s with writableLen := write } := by
  unfold growWritable
  split
  next hlt =>
    obtain ⟨write, hwrite, hneeded, hle⟩ := growLen_spec hw s.writableLen needed
    rw [hwrite]
    exact ⟨write, hneeded, hle, rfl⟩
  next hge => exact ⟨s.writableLen, Nat.not_lt.mp hge, Nat.le_refl _, rfl⟩

theorem ensureSpace_spec (hc : 0 < s.claimChunkSize) (hw : 0 < s.writeChunkSize) (needed : Nat) (moves : Bool) :
    ∃ s', s.ensureSpace needed moves = .ok s' ∧ Grown s s' needed moves := by
  obtain ⟨claim, hneeded, hle, hclaim⟩ := growClaim_spec hc needed moves
  unfold ensureSpace
  rw [hclaim, Except.ok_bind]
  generalize hm : (if s.claimLen < needed ∧ moves then (⟨s.mmapAddress.mapping + 1, 0⟩ : Address)
    else s.mmapAddress) = address
  obtain ⟨write, hneeded', hle', hwrite⟩ :=
    growWritable_spec (s := { s with claimLen := claim, mmapAddress := address }) hw needed
  rw [hwrite]
  exact ⟨_, rfl, ⟨hneeded, hle⟩, ⟨hneeded', hle'⟩, hm.symm, ⟨rfl, rfl⟩, rfl, rfl, rfl⟩

end Lengths

/-- A character is not written behind the claim, unless the mapping is enlarged for it where it is. -/
def Safe (s : OMmapStreamBuf) (op : StreamOp × Bool) : Prop :=
  match op.1 with
  | .write _ => s.pptr.offset < s.claimLen ∨ s.writableLen ≤ s.pptr.offset ∧ op.2 = false
  | _ => True

section Steps

variable {s : OMmapStreamBuf} {a : Growable UInt8}

theorem Represents.offset (h : s.Represents a) : s.pptr.offset = a.pos := by
  rw [h.here]
  change s.mmapAddress.offset + a.pos = a.pos
  rw [h.begins, Int.zero_add]

theorem Grown.begins {s' : OMmapStreamBuf} {needed : Nat} {moves : Bool} (h : Grown s s' needed moves)
    (hs : s.mmapAddress.offset = 0) : s'.mmapAddress.offset = 0 := by
  rw [h.address]
  split
  next => rfl
  next => exact hs

theorem seekTo_spec (h : s.Represents a) {pos : Int} (hpos : 0 ≤ pos) (moves : Bool) :
    ∃ s', ensureSpaceTo { s with writtenHighwater := a.size } pos moves = .ok s' ∧
      (s'.setp (s'.mmapAddress.add pos) s'.writableEnd).Represents (a.seek pos.toNat) := by
  obtain ⟨s', hs', hg⟩ := ensureSpace_spec (s := { s with writtenHighwater := a.size }) h.claimChunk h.writeChunk
    pos.toNat moves
  unfold ensureSpaceTo
  rw [if_neg (by omega), hs']
  refine ⟨s', rfl, ?_⟩
  have hcast : (pos.toNat : Int) = pos := Int.toNat_of_nonneg hpos
  have hclaimed := h.claimed
  have hgrown : s.claimLen ≤ s'.claimLen := hg.claimed.2
  have hneeded := hg.claimed.1
  constructor
  · exact hg.begins h.begins
  · change s'.mmapAddress.add pos = s'.mmapAddress.add (pos.toNat : Int)
    rw [hcast]
  · rfl
  · exact Nat.lt_of_lt_of_eq h.claimChunk hg.chunks.1.symm
  · exact Nat.lt_of_lt_of_eq h.writeChunk hg.chunks.2.symm
  · exact hg.writable.1
  · change max a.size pos.toNat ≤ s'.claimLen
    omega
  · change max pos.toNat s'.writtenHighwater = max a.size pos.toNat
    rw [hg.highwater, Nat.max_comm]
  · intro i x hx
    change s'.memory i = x
    rw [hg.memory]
    exact h.bytes i x hx

theorem seekpos_spec (h : s.Represents a) {pos : Int} (hpos : 0 ≤ pos) (moves : Bool) :
    ∃ s', s.seekpos pos true moves = .ok (s', pos) ∧ s'.Represents (a.seek pos.toNat) := by
  obtain ⟨s', hs', hr⟩ := seekTo_spec h hpos moves
  unfold seekpos
  rw [if_neg (by simp), writtenLen_eq h, Except.ok_bind, hs']
  exact ⟨_, rfl, hr⟩

theorem seekPtr_eq (h : s.Represents a) {off : Int} {dir : SeekDir} {pos : Int}
    (ht : (StreamOp.seekoff off dir).target a = some pos) :
    ({ s with writtenHighwater := a.size } : OMmapStreamBuf).seekPtr off dir = .ok (s.mmapAddress.add pos) := by
  cases dir with
  | beg =>
    cases Option.some.inj ht
    rfl
  | cur =>
    cases Option.some.inj ht
    unfold seekPtr Address.add
    rw [h.here]
    unfold Address.add
    rw [Int.add_assoc]
  | endp =>
    cases Option.some.inj ht
    have hmax := Nat.max_eq_right a.pos_le_size
    have hr : ({ s with writtenHighwater := a.size } : OMmapStreamBuf).Represents a :=
      ⟨h.begins, h.here, h.limit, h.claimChunk, h.writeChunk, h.writable, h.claimed, hmax, h.bytes⟩
    unfold seekPtr
    rw [writtenLen_eq hr]
    rfl

theorem seekoff_spec (h : s.Represents a) {off : Int} {dir : SeekDir} {pos : Int}
    (ht : (StreamOp.seekoff off dir).target a = some pos) (hpos : 0 ≤ pos) (moves : Bool) :
    ∃ s', s.seekoff off dir true moves = .ok (s', pos) ∧ s'.Represents (a.seek pos.toNat) := by
  obtain ⟨s', hs', hr⟩ := seekTo_spec h hpos moves
  unfold seekoff
  rw [if_neg (by simp), writtenLen_eq h, Except.ok_bind]
  dsimp only
  rw [seekPtr_eq h ht, Except.ok_bind, add_sub_self, Except.ok_bind, hs']
  exact ⟨_, rfl, hr⟩

/-- What a stream is after a character has been stored where it stands. -/
theorem Represents.stored (h : s.Represents a) {t : OMmapStreamBuf} {ch : UInt8} (hbase : t.mmapAddress = s.mmapAddress)
    (hchunks : t.claimChunkSize = s.claimChunkSize ∧ t.writeChunkSize = s.writeChunkSize)
    (hwritable : a.pos + 1 ≤ t.writableLen) (hclaimed : a.pos + 1 ≤ t.claimLen ∧ s.claimLen ≤ t.claimLen)
    (hhigh : t.writtenHighwater = s.writtenHighwater) (hmemory : t.memory = Function.update s.memory a.pos ch) :
    (t.setp (s.pptr.add 1) t.writableEnd).Represents (a.write ch) := by
  have hmax := h.highwater
  have hsize := h.claimed
  constructor
  · exact (congrArg Address.offset hbase).trans h.begins
  · change s.pptr.add 1 = t.mmapAddress.add ((a.pos + 1 : Nat) : Int)
    rw [hbase, h.here]
    unfold Address.add
    rw [Int.add_assoc, Int.natCast_succ]
  · rfl
  · exact Nat.lt_of_lt_of_eq h.claimChunk hchunks.1.symm
  · exact Nat.lt_of_lt_of_eq h.writeChunk hchunks.2.symm
  · exact hwritable
  · change max a.size (a.pos + 1) ≤ t.claimLen
    omega
  · change max (a.pos + 1) t.writtenHighwater = max a.size (a.pos + 1)
    rw [hhigh]
    omega
  · intro i x hx
    change t.memory i = x
    rw [hmemory]
    rcases (a.entry_write_eq_some).mp hx with ⟨rfl, rfl⟩ | ⟨hne, hx⟩
    · exact Function.update_self _ _ _
    · rw [Function.update_of_ne hne]
      exact h.bytes i x hx

theorem store_eq {t : OMmapStreamBuf} {p : Address} (ch : UInt8) {pos : Nat}
    (hmap : p.mapping = t.mmapAddress.mapping) (hpos : p.offset = pos) (hclaimed : pos < t.claimLen)
    (hwritable : pos < t.writableLen) :
    t.store p ch = .ok { t with memory := Function.update t.memory pos ch } := by
  unfold store
  rw [hpos, if_pos ⟨hmap, Int.natCast_nonneg pos, by omega, by omega⟩]
  rfl

theorem room_eq (h : s.Represents a) : s.epptr.sub s.pptr = .ok ((s.writableLen : Int) - a.pos) := by
  rw [h.limit, h.here]
  exact sub_add s.mmapAddress _ _

theorem here_mapping (h : s.Represents a) : s.pptr.mapping = s.mmapAddress.mapping := by
  rw [h.here]
  rfl

/-- Where there is no room, room is made first; `s'` is the stream with it. -/
theorem overflow_eq (h : s.Represents a) (ch : UInt8) (moves : Bool) :
    ∃ s', Grown s s' (a.pos + 1) moves ∧
      s.overflow (some ch) moves = (s'.store s.pptr ch).map fun t => t.setp (s.pptr.add 1) t.writableEnd := by
  obtain ⟨s', hs', hg⟩ := ensureSpace_spec (s := s.setp s.pptr s.writableEnd) h.claimChunk h.writeChunk
    (a.pos + 1) moves
  refine ⟨s', ⟨hg.claimed, hg.writable, hg.address, hg.chunks, hg.pptr, hg.highwater, hg.memory⟩, ?_⟩
  have hwritten : (s.setp s.pptr s.writableEnd).pptr.sub (s.setp s.pptr s.writableEnd).mmapAddress = .ok (a.pos : Int) := by
    change s.pptr.sub s.mmapAddress = _
    rw [h.here, add_sub_self]
  have hneeded : ((a.pos : Int) + 1).toNat = a.pos + 1 := by omega
  unfold overflow
  simp only [hwritten, Except.ok_bind, hneeded, hs']
  have hpptr : s'.pptr = s.pptr := hg.pptr
  rw [hpptr]
  cases hstore : s'.store s.pptr ch with
  | error e => rfl
  | ok t =>
    unfold store at hstore
    split at hstore
    next =>
      cases Except.ok.inj hstore
      simp only [Except.ok_bind, Except.map, hpptr]
      rfl
    next => cases hstore

/-- A character that is safe to write is written. -/
theorem sputc_spec (h : s.Represents a) {ch : UInt8} {moves : Bool} (hs : s.Safe (.write ch, moves)) :
    ∃ s', s.sputc ch moves = .ok s' ∧ s'.Represents (a.write ch) := by
  have hpos := h.offset
  unfold Safe at hs
  dsimp only at hs
  rw [hpos] at hs
  unfold sputc
  rw [room_eq h, Except.ok_bind]
  split
  next hroom =>
    have hwritable : a.pos < s.writableLen := by omega
    have hclaimed : a.pos < s.claimLen := by
      rcases hs with hs | ⟨hs, _⟩
      · omega
      · omega
    rw [store_eq ch (here_mapping h) hpos hclaimed hwritable, Except.ok_bind]
    refine ⟨_, rfl, ?_⟩
    have hstored := h.stored (t := { s with memory := Function.update s.memory a.pos ch }) rfl ⟨rfl, rfl⟩ hwritable
      ⟨hclaimed, Nat.le_refl _⟩ rfl rfl
    rw [h.limit]
    exact hstored
  next hroom =>
    obtain ⟨s', hg, heq⟩ := overflow_eq h ch moves
    have hbase : s'.mmapAddress = s.mmapAddress := by
      rw [hg.address]
      refine if_neg ?_
      rintro ⟨hlt, hmoves⟩
      rcases hs with hs | ⟨_, hs⟩
      · omega
      · rw [hs] at hmoves
        cases hmoves
    have hmap : s.pptr.mapping = s'.mmapAddress.mapping := by
      rw [hbase]
      exact here_mapping h
    rw [heq, store_eq ch hmap hpos hg.claimed.1 hg.writable.1]
    refine ⟨_, rfl, ?_⟩
    refine h.stored (t := { s' with memory := Function.update s'.memory a.pos ch }) hbase hg.chunks hg.writable.1
      hg.claimed hg.highwater ?_
    change Function.update s'.memory a.pos ch = _
    rw [hg.memory]

/-- Any other one is written outside of the mapping. -/
theorem sputc_fault (h : s.Represents a) {ch : UInt8} {moves : Bool} (hs : ¬s.Safe (.write ch, moves)) :
    s.sputc ch moves = .error .segfault := by
  have hpos := h.offset
  have hwritable := h.writable
  unfold Safe at hs
  dsimp only at hs
  rw [hpos, not_or] at hs
  obtain ⟨hclaim, hs⟩ := hs
  unfold sputc
  rw [room_eq h, Except.ok_bind]
  split
  next hroom =>
    have hstore : s.store s.pptr ch = .error .segfault := by
      unfold store
      rw [hpos]
      exact if_neg fun hin => hclaim hin.2.2.1
    rw [hstore]
    rfl
  next hroom =>
    obtain ⟨s', hg, heq⟩ := overflow_eq h ch moves
    have hmoves : moves = true := by
      by_contra hmoves
      exact hs ⟨by omega, Bool.eq_false_of_not_eq_true hmoves⟩
    have hbase : s'.mmapAddress = ⟨s.mmapAddress.mapping + 1, 0⟩ := by
      rw [hg.address]
      exact if_pos ⟨by omega, hmoves⟩
    have hstore : s'.store s.pptr ch = .error .segfault := by
      unfold store
      refine if_neg fun hin => ?_
      have hmap := hin.1
      rw [hbase, here_mapping h] at hmap
      exact absurd hmap (Nat.ne_of_lt (Nat.lt_succ_self _))
    rw [heq, hstore]
    rfl

theorem step_spec (h : s.Represents a) {op : StreamOp × Bool} (hlegal : ∀ pos ∈ op.1.target a, 0 ≤ pos)
    (hs : s.Safe op) : ∃ s', s.step op = .ok s' ∧ s'.Represents (op.1.apply a) := by
  obtain ⟨op, moves⟩ := op
  cases op with
  | write ch => exact sputc_spec h hs
  | seekpos pos =>
    obtain ⟨s', hs', hr⟩ := seekpos_spec h (hlegal pos rfl) moves
    exact ⟨s', Except.map_eq_ok_iff.mpr ⟨_, hs', rfl⟩, hr⟩
  | seekoff off dir =>
    obtain ⟨pos, hpos⟩ : ∃ pos, (StreamOp.seekoff off dir).target a = some pos := by
      cases dir with
      | beg => exact ⟨_, rfl⟩
      | cur => exact ⟨_, rfl⟩
      | endp => exact ⟨_, rfl⟩
    obtain ⟨s', hs', hr⟩ := seekoff_spec h hpos (hlegal pos hpos) moves
    refine ⟨s', Except.map_eq_ok_iff.mpr ⟨_, hs', rfl⟩, ?_⟩
    unfold StreamOp.apply
    rw [hpos]
    exact hr

theorem step_fault (h : s.Represents a) {op : StreamOp × Bool} (hs : ¬s.Safe op) : s.step op = .error .segfault := by
  obtain ⟨op, moves⟩ := op
  cases op with
  | write ch => exact sputc_fault h hs
  | seekpos pos => exact absurd trivial hs
  | seekoff off dir => exact absurd trivial hs

end Steps

/-- Every character is safe to write where the stream is then. -/
def Stays (s : OMmapStreamBuf) : List (StreamOp × Bool) → Prop
  | [] => True
  | op :: ops => s.Safe op ∧ ∀ s', s.step op = .ok s' → s'.Stays ops

/-- All is written inside of the mapping, and what is released is what is meant to be written. -/
def Refines (s : OMmapStreamBuf) (ops : List (StreamOp × Bool)) : Prop :=
  ∃ s' buf, s.run ops = .ok s' ∧ s'.writtenLen = .ok (written .empty ops).size ∧ s'.release = .ok buf ∧
    buf.length = (written .empty ops).size ∧ ∀ i x, (written .empty ops).entry i = some x → buf[i]? = some x

section Runs

variable {s : OMmapStreamBuf} {a : Growable UInt8} {ops : List (StreamOp × Bool)}

theorem run_spec (h : s.Represents a) (hlegal : Legal a ops) (hs : s.Stays ops) :
    ∃ s', s.run ops = .ok s' ∧ s'.Represents (written a ops) := by
  induction ops generalizing s a with
  | nil => exact ⟨s, rfl, h⟩
  | cons op ops ih =>
    obtain ⟨s', hstep, hr⟩ := step_spec h hlegal.1 hs.1
    obtain ⟨t, hrun, ht⟩ := ih hr hlegal.2 (hs.2 s' hstep)
    refine ⟨t, ?_, ht⟩
    unfold run
    rw [List.foldlM_cons, hstep]
    exact hrun

theorem stays_of_run (h : s.Represents a) (hlegal : Legal a ops) {t : OMmapStreamBuf} (hrun : s.run ops = .ok t) :
    s.Stays ops := by
  induction ops generalizing s a with
  | nil => trivial
  | cons op ops ih =>
    unfold run at hrun
    rw [List.foldlM_cons] at hrun
    obtain ⟨s', hstep, hrun⟩ := Except.bind_eq_ok_iff.mp hrun
    by_cases hs : s.Safe op
    · obtain ⟨s'', hstep', hr⟩ := step_spec h hlegal.1 hs
      refine ⟨hs, fun u hu => ?_⟩
      cases Except.ok.inj (hstep'.symm.trans hu)
      cases Except.ok.inj (hstep'.symm.trans hstep)
      exact ih hr hlegal.2 hrun
    · rw [step_fault h hs] at hstep
      cases hstep

theorem release_eq (h : s.Represents a) : s.release =
    if a.size = 0 then .error .releaseFailed else .ok ((List.range a.size).map s.memory) := by
  unfold release
  rw [writtenLen_eq h]
  rfl

theorem refines_of_represents (h : s.Represents .empty) (hlegal : Legal .empty ops) :
    s.Refines ops ↔ 0 < (written .empty ops).size ∧ s.Stays ops := by
  constructor
  · rintro ⟨s', buf, hrun, _, hrelease, _⟩
    have hstays := stays_of_run h hlegal hrun
    obtain ⟨t, hrun', hr⟩ := run_spec h hlegal hstays
    cases Except.ok.inj (hrun.symm.trans hrun')
    rw [release_eq hr] at hrelease
    split at hrelease
    next => cases hrelease
    next hne => exact ⟨Nat.pos_of_ne_zero hne, hstays⟩
  · rintro ⟨hpos, hstays⟩
    obtain ⟨s', hrun, hr⟩ := run_spec h hlegal hstays
    refine ⟨s', (List.range (written .empty ops).size).map s'.memory, hrun, writtenLen_eq hr, ?_, by simp, ?_⟩
    · rw [release_eq hr, if_neg (Nat.ne_of_gt hpos)]
    · intro i x hx
      have hlt := (written .empty ops).lt_size i x hx
      rw [List.getElem?_map, List.getElem?_range hlt]
      exact congrArg some (hr.bytes i x hx)

theorem chunkSize_pos {pageSize target : Nat} (hp : 0 < pageSize) (ht : 0 < target) : 0 < chunkSize pageSize target := by
  unfold chunkSize
  dsimp only
  split
  next => omega
  next => omega

theorem represents_create {pageSize targetClaim targetWrite : Nat} (hp : 0 < pageSize) (hw : 0 < targetWrite)
    (h : create pageSize targetClaim targetWrite = .ok s) : s.Represents .empty := by
  have hwrite := chunkSize_pos hp hw
  unfold create at h
  dsimp only at h
  split at h
  next => cases h
  next hle =>
    split at h
    next => cases h
    next hclaim =>
      cases Except.ok.inj h
      refine ⟨rfl, rfl, ?_, Nat.pos_of_ne_zero hclaim, hwrite, Nat.zero_le _, Nat.zero_le _, rfl, ?_⟩
      · simp [writableEnd, Address.add]
      · intro i x hx
        cases hx

/-- A stream does what it is meant to exactly when something is written or sought, and no character is written
behind the claim but with the mapping enlarged where it is. -/
theorem refines_iff {pageSize targetClaim targetWrite : Nat} (hp : 0 < pageSize) (hw : 0 < targetWrite)
    (h : create pageSize targetClaim targetWrite = .ok s) (hlegal : Legal .empty ops) :
    s.Refines ops ↔ 0 < (written .empty ops).size ∧ s.Stays ops :=
  refines_of_represents (represents_create hp hw h) hlegal

/-- The claim is made up of whole chunks of what is made writable at a time, and all that is writable is in it. -/
structure Aligned (s : OMmapStreamBuf) : Prop where
  chunks : 0 < s.writeChunkSize ∧ 0 < s.claimChunkSize
  whole : s.writeChunkSize ∣ s.claimChunkSize
  claimed : s.writeChunkSize ∣ s.claimLen
  within : s.writableLen ≤ s.claimLen

theorem growLen_chunks {len chunk target n : Nat} (h : 0 < chunk) (hlt : len < target)
    (hn : growLen len chunk target = .ok n) : chunk ∣ n ∧ target ≤ n ∧ n < target + chunk := by
  have hdiv := Nat.div_add_mod' target chunk
  have hmod := Nat.mod_lt target h
  have hwhole : chunk ∣ target / chunk * chunk := Nat.dvd_mul_left chunk _
  unfold growLen at hn
  rw [if_neg (by omega)] at hn
  by_cases hzero : target % chunk = 0
  · simp only [hzero, ne_eq, not_true_eq_false, if_false] at hn
    rw [if_pos (by omega)] at hn
    cases Except.ok.inj hn
    exact ⟨hwhole, by omega, by omega⟩
  · simp only [hzero, ne_eq, not_false_eq_true, if_true] at hn
    rw [if_pos (by omega)] at hn
    cases Except.ok.inj hn
    exact ⟨Nat.dvd_add hwhole (Nat.dvd_refl chunk), by omega, by omega⟩

theorem le_of_dvd_of_lt {d m n : Nat} (hm : d ∣ m) (hn : d ∣ n) (h : n < m + d) : n ≤ m := by
  obtain ⟨x, rfl⟩ := hm
  obtain ⟨y, rfl⟩ := hn
  have hlt : y < x + 1 := Nat.lt_of_mul_lt_mul_left (a := d) (by rw [Nat.mul_add, Nat.mul_one]; exact h)
  exact Nat.mul_le_mul_left d (Nat.le_of_lt_succ hlt)

theorem Aligned.growClaim (h : s.Aligned) {needed : Nat} {moves : Bool} {s' : OMmapStreamBuf}
    (hs : s.growClaim needed moves = .ok s') : s'.Aligned ∧ needed ≤ s'.claimLen := by
  unfold OMmapStreamBuf.growClaim at hs
  split at hs
  next hlt =>
    obtain ⟨claim, hgrow, hs⟩ := Except.bind_eq_ok_iff.mp hs
    cases Except.ok.inj hs
    obtain ⟨hdvd, hle, _⟩ := growLen_chunks h.chunks.2 hlt hgrow
    have hwithin : s.writableLen ≤ claim := by
      have hold := h.within
      omega
    exact ⟨⟨h.chunks, h.whole, Nat.dvd_trans h.whole hdvd, hwithin⟩, hle⟩
  next hge =>
    cases Except.ok.inj hs
    exact ⟨h, Nat.not_lt.mp hge⟩

theorem Aligned.growWritable (h : s.Aligned) {needed : Nat} {s' : OMmapStreamBuf} (hle : needed ≤ s.claimLen)
    (hs : s.growWritable needed = .ok s') : s'.Aligned := by
  unfold OMmapStreamBuf.growWritable at hs
  split at hs
  next hlt =>
    obtain ⟨write, hgrow, hs⟩ := Except.bind_eq_ok_iff.mp hs
    cases Except.ok.inj hs
    obtain ⟨hdvd, _, hnext⟩ := growLen_chunks h.chunks.1 hlt hgrow
    have hwithin : write ≤ s.claimLen := le_of_dvd_of_lt h.claimed hdvd (by omega)
    exact ⟨h.chunks, h.whole, h.claimed, hwithin⟩
  next =>
    cases Except.ok.inj hs
    exact h

theorem Aligned.ensureSpace (h : s.Aligned) {needed : Nat} {moves : Bool} {s' : OMmapStreamBuf}
    (hs : s.ensureSpace needed moves = .ok s') : s'.Aligned := by
  obtain ⟨t, hclaim, hwrite⟩ := Except.bind_eq_ok_iff.mp hs
  obtain ⟨ht, hle⟩ := h.growClaim hclaim
  exact ht.growWritable hle hwrite

theorem Aligned.store (h : s.Aligned) {p : Address} {ch : UInt8} {s' : OMmapStreamBuf} (hs : s.store p ch = .ok s') :
    s'.Aligned := by
  unfold OMmapStreamBuf.store at hs
  split at hs
  next =>
    cases Except.ok.inj hs
    exact ⟨h.chunks, h.whole, h.claimed, h.within⟩
  next => cases hs

theorem Aligned.setp (h : s.Aligned) (p e : Address) : (s.setp p e).Aligned :=
  ⟨h.chunks, h.whole, h.claimed, h.within⟩

theorem Aligned.sputc (h : s.Aligned) {ch : UInt8} {moves : Bool} {s' : OMmapStreamBuf}
    (hs : s.sputc ch moves = .ok s') : s'.Aligned := by
  obtain ⟨room, _, hs⟩ := Except.bind_eq_ok_iff.mp hs
  split at hs
  next =>
    obtain ⟨t, ht, hs⟩ := Except.bind_eq_ok_iff.mp hs
    cases Except.ok.inj hs
    exact (h.store ht).setp _ _
  next =>
    obtain ⟨written, _, hs⟩ := Except.bind_eq_ok_iff.mp hs
    obtain ⟨t, ht, hs⟩ := Except.bind_eq_ok_iff.mp hs
    obtain ⟨u, hu, hs⟩ := Except.bind_eq_ok_iff.mp hs
    cases Except.ok.inj hs
    exact (((h.setp _ _).ensureSpace ht).store hu).setp _ _

theorem Aligned.seekTo (h : s.Aligned) {len : Nat} {pos : Int} {moves : Bool} {s' : OMmapStreamBuf}
    (hs : ensureSpaceTo { s with writtenHighwater := len } pos moves = .ok s') : s'.Aligned := by
  unfold ensureSpaceTo at hs
  split at hs
  next => cases hs
  next =>
    have ha : ({ s with writtenHighwater := len } : OMmapStreamBuf).Aligned := ⟨h.chunks, h.whole, h.claimed, h.within⟩
    exact ha.ensureSpace hs

theorem Aligned.step (h : s.Aligned) {op : StreamOp × Bool} {s' : OMmapStreamBuf} (hs : s.step op = .ok s') :
    s'.Aligned := by
  obtain ⟨op, moves⟩ := op
  cases op with
  | write ch => exact h.sputc hs
  | seekpos pos =>
    obtain ⟨⟨t, _⟩, ht, rfl⟩ := Except.map_eq_ok_iff.mp hs
    obtain ⟨len, _, ht⟩ := Except.bind_eq_ok_iff.mp ht
    obtain ⟨u, hu, ht⟩ := Except.bind_eq_ok_iff.mp ht
    cases Except.ok.inj ht
    exact (h.seekTo hu).setp _ _
  | seekoff off dir =>
    obtain ⟨⟨t, _⟩, ht, rfl⟩ := Except.map_eq_ok_iff.mp hs
    obtain ⟨len, _, ht⟩ := Except.bind_eq_ok_iff.mp ht
    obtain ⟨newPtr, _, ht⟩ := Except.bind_eq_ok_iff.mp ht
    obtain ⟨newPos, _, ht⟩ := Except.bind_eq_ok_iff.mp ht
    obtain ⟨u, hu, ht⟩ := Except.bind_eq_ok_iff.mp ht
    cases Except.ok.inj ht
    exact (h.seekTo hu).setp _ _

/-- With whole chunks, a character that does not fit in the claim enlarges it. -/
theorem Aligned.safe_iff (ha : s.Aligned) {ch : UInt8} {moves : Bool} :
    s.Safe (.write ch, moves) ↔ s.pptr.offset < s.claimLen ∨ moves = false := by
  have hwithin := ha.within
  unfold Safe
  dsimp only
  constructor
  · exact Or.imp_right And.right
  · intro h
    by_cases hlt : s.pptr.offset < s.claimLen
    · exact Or.inl hlt
    · exact Or.inr ⟨by omega, h.resolve_left hlt⟩

theorem Aligned.run (h : s.Aligned) {s' : OMmapStreamBuf} (hrun : s.run ops = .ok s') : s'.Aligned := by
  induction ops generalizing s with
  | nil => exact Except.ok.inj hrun ▸ h
  | cons op ops ih =>
    unfold OMmapStreamBuf.run at hrun
    rw [List.foldlM_cons] at hrun
    obtain ⟨t, hstep, hrun⟩ := Except.bind_eq_ok_iff.mp hrun
    exact ih (h.step hstep) hrun

/-- With chunks that divide the claim, the mapping is only left by moving it for a character. -/
theorem refines_of_unmoved (h : s.Represents .empty) (ha : s.Aligned) (hlegal : Legal .empty ops)
    (hpos : 0 < (written .empty ops).size) (hmoves : ∀ op ∈ ops, op.2 = false) : s.Refines ops := by
  refine (refines_of_represents h hlegal).mpr ⟨hpos, ?_⟩
  clear h hlegal hpos
  induction ops generalizing s with
  | nil => trivial
  | cons op ops ih =>
    refine ⟨?_, fun t ht => ih (ha.step ht) fun op hop => hmoves op (List.mem_cons_of_mem _ hop)⟩
    obtain ⟨op, moves⟩ := op
    cases op with
    | write ch => exact ha.safe_iff.mpr (Or.inr (hmoves _ List.mem_cons_self))
    | seekpos pos => trivial
    | seekoff off dir => trivial

/-- The stream as it is by default, with a claim of a gigabyte. -/
def gigabyte : OMmapStreamBuf :=
  { claimChunkSize := 1073741824, writeChunkSize := 1048576, mmapAddress := ⟨0, 0⟩, claimLen := 1073741824,
    writableLen := 1048576, pptr := ⟨0, 0⟩, epptr := ⟨0, 1048576⟩ }

theorem create_gigabyte : create 4096 1073741824 1048576 = .ok gigabyte := rfl

/-- The claim is enlarged for one character, and the mapping stays where it is. -/
theorem refines_iff_enlarged : gigabyte.Refines [(.seekpos 1073741824, false), (.write 7, false)] := by
  have hlegal : Legal .empty [(.seekpos 1073741824, false), (.write 7, false)] := ⟨by decide, by decide, trivial⟩
  refine (refines_iff (by decide) (by decide) create_gigabyte hlegal).mpr ⟨by decide, ?_⟩
  refine ⟨trivial, fun s' hs' => ?_⟩
  cases Except.ok.inj hs'
  exact ⟨Or.inr ⟨by decide, rfl⟩, fun _ _ => trivial⟩

/-- Nothing is released of a stream that has not been used, a character is written to where the mapping was, and
with chunks that do not divide the claim one is written behind it. -/
theorem stream_faults : (∃ s, create 4096 1073741824 1048576 = .ok s ∧
      (Legal .empty [] ∧ ¬s.Refines []) ∧
      Legal .empty [(.seekpos 1073741824, false), (.write 7, true)] ∧
      ¬s.Refines [(.seekpos 1073741824, false), (.write 7, true)]) ∧
    ∃ s, create 4096 40960 12288 = .ok s ∧ Legal .empty [(.seekpos 40960, false), (.write 7, false)] ∧
      ¬s.Refines [(.seekpos 40960, false), (.write 7, false)] := by
  refine ⟨⟨gigabyte, rfl, ⟨trivial, ?_⟩, ⟨by decide, by decide, trivial⟩, ?_⟩, _, rfl, ⟨by decide, by decide, trivial⟩, ?_⟩
  · rintro ⟨s', buf, hrun, _, hrelease, _⟩
    cases Except.ok.inj hrun
    cases hrelease
  · rintro ⟨s', buf, hrun, _⟩
    cases hrun
  · rintro ⟨s', buf, hrun, _⟩
    cases hrun

end Runs

end OMmapStreamBuf

end Fenix
