import Fenix.Fallible
import Mathlib.Logic.Function.Basic

namespace Fenix

/-- What ends the process while a stream is written: a system call that fails, an assertion, the distance of
two addresses in different mappings, or an access outside of the mapping. -/
inductive StreamFault where
  | mmapFailed
  | outOfSpace
  | releaseFailed
  | assertion
  | unrelated
  | segfault
  deriving DecidableEq, Repr

/-- An address, as the distance from the beginning of a mapping. -/
structure Address where
  mapping : Nat
  offset : Int
  deriving DecidableEq, Repr

namespace Address

def add (p : Address) (n : Int) : Address := { p with offset := p.offset + n }

def sub (p q : Address) : Except StreamFault Int :=
  if p.mapping = q.mapping then .ok (p.offset - q.offset) else .error .unrelated

end Address

/-- The direction of a seek. -/
inductive SeekDir where
  | beg
  | cur
  | endp
  deriving DecidableEq, Repr

/-- An output stream to memory that is claimed and made writable as it is needed. `memory` is what the mapping
holds. -/
structure OMmapStreamBuf where
  claimChunkSize : Nat
  writeChunkSize : Nat
  mmapAddress : Address
  claimLen : Nat
  writableLen : Nat
  writtenHighwater : Nat := 0
  pptr : Address
  epptr : Address
  memory : Nat → UInt8 := fun _ => 0

namespace OMmapStreamBuf

/-- A chunk of about the target size, in whole pages. -/
def chunkSize (pageSize target : Nat) : Nat :=
  let size := target / pageSize * pageSize
  if 4 * size < 3 * target then size + pageSize else size

def create (pageSize targetClaim targetWrite : Nat) : Except StreamFault OMmapStreamBuf :=
  let claim := chunkSize pageSize targetClaim
  let write := chunkSize pageSize targetWrite
  if claim < write then .error .assertion
  else if claim = 0 then .error .mmapFailed
  else .ok { claimChunkSize := claim, writeChunkSize := write, mmapAddress := ⟨0, 0⟩, claimLen := claim,
             writableLen := write, pptr := ⟨0, 0⟩, epptr := ⟨0, write⟩ }

def setp (s : OMmapStreamBuf) (p e : Address) : OMmapStreamBuf := { s with pptr := p, epptr := e }

/-- The end of the writable part. -/
def writableEnd (s : OMmapStreamBuf) : Address := s.mmapAddress.add s.writableLen

def writtenLen (s : OMmapStreamBuf) : Except StreamFault Nat := do
  let ret ← s.pptr.sub s.mmapAddress
  return if ret.toNat < s.writtenHighwater then s.writtenHighwater else ret.toNat

def growLen (len chunk target : Nat) : Except StreamFault Nat :=
  if target ≤ len then .ok len
  else
    let whole := target / chunk * chunk
    let grown := if target % chunk ≠ 0 then whole + chunk else whole
    if target ≤ grown then .ok grown else .error .assertion

/-- The claim is enlarged by `mremap`, which may move the mapping with what it holds. -/
def growClaim (s : OMmapStreamBuf) (neededLen : Nat) (moves : Bool) : Except StreamFault OMmapStreamBuf :=
  if s.claimLen < neededLen then do
    let claimLen ← growLen s.claimLen s.claimChunkSize neededLen
    return { s with
      claimLen := claimLen
      mmapAddress := if moves then ⟨s.mmapAddress.mapping + 1, 0⟩ else s.mmapAddress }
  else .ok s

def growWritable (s : OMmapStreamBuf) (neededLen : Nat) : Except StreamFault OMmapStreamBuf :=
  if s.writableLen < neededLen then do
    let writableLen ← growLen s.writableLen s.writeChunkSize neededLen
    return { s with writableLen := writableLen }
  else .ok s

def ensureSpace (s : OMmapStreamBuf) (neededLen : Nat) (moves : Bool) : Except StreamFault OMmapStreamBuf := do
  let claimed ← s.growClaim neededLen moves
  claimed.growWritable neededLen

/-- A negative position is a length of more than the address space when it is taken as a `size_t`. -/
def ensureSpaceTo (s : OMmapStreamBuf) (pos : Int) (moves : Bool) : Except StreamFault OMmapStreamBuf :=
  if pos < 0 then .error .outOfSpace else s.ensureSpace pos.toNat moves

/-- Write through an address, which has to be in the writable part of the mapping. -/
def store (s : OMmapStreamBuf) (p : Address) (ch : UInt8) : Except StreamFault OMmapStreamBuf :=
  if p.mapping = s.mmapAddress.mapping ∧ 0 ≤ p.offset ∧ p.offset < s.claimLen ∧ p.offset < s.writableLen then
    .ok { s with memory := Function.update s.memory p.offset.toNat ch }
  else .error .segfault

/-- There is no character at the end of the input. -/
def overflow (s : OMmapStreamBuf) (ch : Option UInt8) (moves : Bool) : Except StreamFault OMmapStreamBuf :=
  let s := s.setp s.pptr s.writableEnd
  match ch with
  | none => .ok s
  | some ch => do
    let written ← s.pptr.sub s.mmapAddress
    let s ← s.ensureSpace (written + 1).toNat moves
    let s ← s.store s.pptr ch
    return s.setp (s.pptr.add 1) s.writableEnd

/-- Write a character: directly where there is room for it, through `overflow` otherwise. -/
def sputc (s : OMmapStreamBuf) (ch : UInt8) (moves : Bool) : Except StreamFault OMmapStreamBuf := do
  let room ← s.epptr.sub s.pptr
  if 0 < room then
    let s ← s.store s.pptr ch
    return s.setp (s.pptr.add 1) s.epptr
  else s.overflow (some ch) moves

def seekpos (s : OMmapStreamBuf) (pos : Int) (out moves : Bool) : Except StreamFault (OMmapStreamBuf × Int) :=
  if ¬out then .ok (s, 0)
  else do
    let written ← s.writtenLen
    let s ← ensureSpaceTo { s with writtenHighwater := written } pos moves
    return (s.setp (s.mmapAddress.add pos) s.writableEnd, pos)

/-- The address that a seek is about. -/
def seekPtr (s : OMmapStreamBuf) (off : Int) : SeekDir → Except StreamFault Address
  | .beg => .ok (s.mmapAddress.add off)
  | .cur => .ok (s.pptr.add off)
  | .endp => s.writtenLen.map fun (len : Nat) => s.mmapAddress.add (len + off)

def seekoff (s : OMmapStreamBuf) (off : Int) (dir : SeekDir) (out moves : Bool) :
    Except StreamFault (OMmapStreamBuf × Int) :=
  if ¬out then .ok (s, 0)
  else do
    let written ← s.writtenLen
    let s := { s with writtenHighwater := written }
    let newPtr ← s.seekPtr off dir
    let newPos ← newPtr.sub s.mmapAddress
    let s ← s.ensureSpaceTo newPos moves
    return (s.setp (s.mmapAddress.add newPos) s.writableEnd, newPos)

/-- The bytes written are handed over; `mremap` refuses to keep none. -/
def release (s : OMmapStreamBuf) : Except StreamFault (List UInt8) := do
  let len ← s.writtenLen
  if len = 0 then .error .releaseFailed else .ok ((List.range len).map s.memory)

end OMmapStreamBuf

/-- What is done with the stream. -/
inductive StreamOp where
  | write (ch : UInt8)
  | seekpos (pos : Int)
  | seekoff (off : Int) (dir : SeekDir)
  deriving DecidableEq, Repr

namespace OMmapStreamBuf

/-- An operation, with whether the system moves the mapping if it grows. -/
def step (s : OMmapStreamBuf) (op : StreamOp × Bool) : Except StreamFault OMmapStreamBuf :=
  match op.1 with
  | .write ch => s.sputc ch op.2
  | .seekpos pos => (s.seekpos pos true op.2).map Prod.fst
  | .seekoff off dir => (s.seekoff off dir true op.2).map Prod.fst

def run (s : OMmapStreamBuf) (ops : List (StreamOp × Bool)) : Except StreamFault OMmapStreamBuf := ops.foldlM step s

end OMmapStreamBuf

end Fenix
