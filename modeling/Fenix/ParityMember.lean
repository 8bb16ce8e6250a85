import Fenix.DataMember
import Fenix.IntRange
import Fenix.ParityCode
import Fenix.ParityLayout

namespace Fenix

/-- What a rank contributes to a parity, or the rank that keeps it receives it in. -/
inductive ParityInput where
  | parity
  | data (start : Nat)

namespace IMRSnapshot

def dataCount (s : IMRSnapshot) : Nat :=
  max (DataSubset.maxCounts s.stagedSubsets) (DataSubset.maxCounts s.protectedSubsets)

/-- The bytes of the data that parity is kept of: a `size_t` that becomes an `int`. -/
def dataBytes (s : IMRSnapshot) : Int := castInt (castSize (s.dataCount * s.elmSize : Nat))

/-- `size()`, an `int` as well. -/
def intSize (s : IMRSnapshot) : Int := castInt s.buf.size

/-- How far the data of a rank reaches for the walk over its chunks. -/
def dataSize (s : IMRSnapshot) : Nat := s.intSize.toNat

def nPartners (s : IMRSnapshot) : Nat := s.stagedSubsets.length - 1

/-- The length of the parity of rank `i`, as any rank computes it. A negative `data_bytes` that gives no negative
length gives none. -/
def parityBytes (s : IMRSnapshot) (i : Nat) : Nat := Fenix.parityBytes s.dataBytes.toNat s.nPartners i

/-- The data buffer as `prepare_for_parity` leaves it. -/
def fitData (s : IMRSnapshot) : DataBuffer :=
  if s.intSize < s.dataBytes then s.buf.resize (castSize s.dataBytes) else s.buf

/-- Make room for the data and for the parity of rank `rank`. -/
def prepareForParity (s : IMRSnapshot) (rank : Nat) : IMRSnapshot :=
  { s with buf := s.fitData
           partner := { s.partner with buf := s.partner.buf.resize (s.parityBytes rank) } }

/-- The division has a divisor, no buffer is resized to a negative length, and a walk of no bytes does not end more
than the one byte behind that it goes back. -/
def Allocates (s : IMRSnapshot) : Prop :=
  0 < s.nPartners ∧ -(s.nPartners : Int) < s.dataBytes ∧ (0 ≤ s.dataBytes ∨ s.dataBytes ≤ s.intSize ∧ -1 ≤ s.intSize)

instance (s : IMRSnapshot) : Decidable s.Allocates := inferInstanceAs (Decidable (_ ∧ _ ∧ (_ ∨ _)))

theorem dataBytes_le (s : IMRSnapshot) : s.dataBytes ≤ 2147483647 := castInt_le _

/-- Within the range of `int` the bytes are those of the data. -/
theorem dataBytes_eq {s : IMRSnapshot} {bytes : Nat} (h : s.dataCount * s.elmSize = bytes)
    (hrange : bytes ≤ 2147483647) : s.dataBytes = bytes := by
  unfold dataBytes
  rw [h, castSize_natCast (by omega)]
  exact castInt_eq_iff.mpr hrange

theorem dataSize_of_le {s : IMRSnapshot} (h : s.buf.size ≤ 2147483647) : s.dataSize = s.buf.size := by
  unfold dataSize intSize
  rw [castInt_eq_iff.mpr h]
  exact Int.toNat_natCast _

theorem fitData_bytes (s : IMRSnapshot) : s.fitData.bytes = s.buf.bytes := by
  unfold fitData
  rw [apply_ite DataBuffer.bytes, DataBuffer.bytes_resize, ite_self]

theorem intSize_congr {s t : IMRSnapshot} (h : s.buf = t.buf) : s.intSize = t.intSize :=
  congrArg (fun b : DataBuffer => castInt b.size) h

theorem dataSize_congr {s t : IMRSnapshot} (h : s.buf = t.buf) : s.dataSize = t.dataSize :=
  congrArg Int.toNat (intSize_congr h)

theorem prepareForParity_intSize {s : IMRSnapshot} {bytes : Nat} (h : s.dataBytes = bytes) (rank : Nat) :
    (s.prepareForParity rank).intSize = max s.intSize bytes := by
  have hle := s.dataBytes_le
  change castInt s.fitData.size = max s.intSize bytes
  unfold fitData
  split
  next hlt =>
    rw [DataBuffer.size_resize, castInt_castSize (by unfold intMax; omega) hle]
    omega
  next hlt =>
    change s.intSize = _
    omega

theorem prepareForParity_of_le {s : IMRSnapshot} (h : s.dataBytes ≤ s.intSize) (rank : Nat) :
    (s.prepareForParity rank).buf = s.buf := by
  unfold prepareForParity fitData
  dsimp only
  rw [if_neg (Int.not_lt.mpr h)]

def zeroParity (s : IMRSnapshot) : IMRSnapshot := { s with partner := { s.partner with buf := s.partner.buf.zero } }

def zeroData (s : IMRSnapshot) : IMRSnapshot := { s with buf := s.buf.zero }

/-- What rank `rank` takes part with in the reduction of chunk `i`. -/
def input (s : IMRSnapshot) (rank i : Nat) : ParityInput :=
  if i = rank then .parity else .data (chunkStart s.parityBytes s.dataSize rank i)

def read (s : IMRSnapshot) : ParityInput → Nat → UInt8
  | .parity, b => s.partner.buf.bytes b
  | .data start, b => s.buf.bytes (start + b)

def write (s : IMRSnapshot) (len : Nat) (f : Nat → UInt8) : ParityInput → IMRSnapshot
  | .parity => { s with partner := { s.partner with buf := s.partner.buf.write 0 len f } }
  | .data start => { s with buf := s.buf.write start len f }

end IMRSnapshot

namespace ParityMember

open DataMember (recovering broadcastSubsets)

variable {n : Nat}

/-- The reduction of chunk `i` with exclusive or: `root` receives what all contribute, itself included,
in the place of its own contribution. -/
def reduceChunk (root i : Fin n) (snaps : Fin n → IMRSnapshot) : Fin n → IMRSnapshot :=
  Function.update snaps root
    ((snaps root).write ((snaps root).parityBytes i)
      (fun b => ParityCode.combine HXor.hXor 0 fun k => (snaps k).read ((snaps k).input k i) b)
      ((snaps root).input root i))

/-- The reductions of all chunks, `root i` receiving that of chunk `i`. -/
def reduceChunks (root : Fin n → Fin n) (snaps : Fin n → IMRSnapshot) : Fin n → IMRSnapshot :=
  (List.finRange n).foldl (fun snaps i => reduceChunk (root i) i snaps) snaps

/-- What the assertions and the message counts of the reductions demand. -/
def Conforms (snaps : Fin n → IMRSnapshot) : Prop :=
  (∀ k, (snaps k).nPartners + 1 = n) ∧ (∀ k l i : Fin n, (snaps k).parityBytes i = (snaps l).parityBytes i) ∧
    ∀ k i : Fin n, ChunkFits (snaps k).parityBytes (snaps k).dataSize k i

instance (snaps : Fin n → IMRSnapshot) : Decidable (Conforms snaps) := inferInstanceAs (Decidable (_ ∧ _ ∧ _))

/-- `iprotect` on all ranks of a cohort. -/
def iprotect (snaps : Fin n → IMRSnapshot) : Except Abort (Fin n → IMRSnapshot) :=
  let prepared := fun k => ((snaps k).prepareForParity k).zeroParity
  if (∀ k, (snaps k).Allocates) ∧ Conforms prepared then .ok fun k => (reduceChunks id prepared k).markProtected
  else .error .assertion

/-- The snapshots that the reductions of a repair start from, that of rank `f` with nothing in it. -/
def prepareRepair (f sender : Fin n) (snaps : Fin n → IMRSnapshot) (k : Fin n) : IMRSnapshot :=
  let s := (broadcastSubsets sender snaps k).prepareForParity k
  if k = f then s.zeroData.zeroParity else s

/-- Rebuild the snapshot of rank `f` from those of the others. -/
def rebuild (f : Fin n) (snaps : Fin n → IMRSnapshot) : Except Abort (Fin n → IMRSnapshot) :=
  if h : (if f.val = 0 then 1 else 0) < n then
    let prepared := prepareRepair f ⟨_, h⟩ snaps
    if (∀ k, (broadcastSubsets ⟨_, h⟩ snaps k).Allocates) ∧ Conforms prepared then .ok (reduceChunks (fun _ => f) prepared) else .error .assertion
  else .error .assertion

/-- The repair of one timestamp on all ranks of a cohort. -/
def repairTimestamp (timestamp : Int) (ms : Fin n → DataMember) : Except Abort (Fin n → DataMember) :=
  if h : ∀ k, ((ms k).repairSnapshot timestamp).isSome then
    match recovering fun k => ((ms k).commitSnapshots.find? timestamp).isSome with
    | none => .ok fun k => (ms k).resetUnfound timestamp
    | some f => do
      let rebuilt ← rebuild f fun k => ((ms k).repairSnapshot timestamp).get (h k)
      return fun k => (ms k).putBack timestamp (rebuilt k)
  else .error .assertion

/-- `repair` on all ranks of a cohort, for the timestamps of their group. -/
def repair (timestamps : List Int) (ms : Fin n → DataMember) : Except Abort (Fin n → DataMember) :=
  DataMember.repairTimestamps repairTimestamp timestamps fun k => (ms k).reinitStage k n

end ParityMember

end Fenix
