import Fenix.DatatypeRoundTrip
import Fenix.IntRange
import Fenix.RegionRoundTrip

namespace Fenix

/-- Why an exchange of subsets ends early: an assertion, an `int` out of range, memory accessed beyond its
end or not to be had, or a count that MPI refuses. -/
inductive ExchangeError where
  | abort (e : Abort)
  | overflow
  | overrun
  | badAlloc
  | badCount
  deriving DecidableEq

namespace SubsetExchange

/-- A copy of `size` bytes, where a negative number of them is taken for a very large one. -/
def copyFrom (buf : List UInt8) (offset size : Int) : Except ExchangeError (List UInt8) :=
  if 0 ≤ offset ∧ 0 ≤ size ∧ offset + size ≤ buf.length then .ok ((buf.drop offset.toNat).take size.toNat)
  else .error .overrun

/-- A copy of bytes into a buffer. -/
def copyTo (buf : List UInt8) (offset : Int) (bytes : List UInt8) : Except ExchangeError (List UInt8) :=
  if 0 ≤ offset ∧ offset + bytes.length ≤ buf.length then
    .ok (buf.take offset.toNat ++ bytes ++ buf.drop (offset.toNat + bytes.length))
  else .error .overrun

/-- A resize of a buffer. What is new of it is whatever was in the memory. -/
def resizeBytes (memory : Nat → UInt8) (buf : List UInt8) (size : Nat) : Except ExchangeError (List UInt8) :=
  if size ≤ ptrdiffMax then .ok (buf.take size ++ (List.range' buf.length (size - buf.length)).map memory)
  else .error .badAlloc

/-- The bytes of an `int`. -/
def intBytes (x : Int) : List UInt8 := leBytes 4 (x % 4294967296).toNat

def readInt (buf : List UInt8) (offset : Int) : Except ExchangeError Int := do
  let bytes ← copyFrom buf offset 4
  return castInt (leValue bytes)

/-- A `size_t` is added to an `int`. -/
def addSize (x : Int) (n : Nat) : Int := castInt (castSize (x + n))

end SubsetExchange

namespace DataRegion

/-- The bytes of a region in memory. -/
def object (r : DataRegion) : List UInt8 :=
  leBytes 8 r.start ++ (leBytes 8 r.stop ++ (leBytes 8 r.reps ++ leBytes 8 r.stride))

/-- The words of a region are of type `size_t`. -/
def InSize (r : DataRegion) : Prop := r.stop ≤ sizeMax ∧ r.reps ≤ sizeMax ∧ r.stride ≤ sizeMax

def readWord : Reader UInt8 ExchangeError Nat := fun bytes =>
  if 8 ≤ bytes.length then .ok (leValue (bytes.take 8), bytes.drop 8) else .error .overrun

/-- The region that some bytes in memory are. Those that are none are not told from others by the code. -/
def readObject : Reader UInt8 ExchangeError DataRegion := do
  let start ← readWord
  let stop ← readWord
  let reps ← readWord
  let stride ← readWord
  if h : start ≤ stop ∧ (reps = 0 ∧ stride = sizeMax ∨ 0 < reps ∧ stride ≠ sizeMax ∧ stop + 1 < start + stride) then
    Reader.pure ⟨start, stop, reps, stride, h.1, h.2⟩
  else Reader.fail (.abort .assertion)

end DataRegion

namespace RegionSubset

def serialize (s : RegionSubset) : List UInt8 := s.entries.flatMap DataRegion.object

/-- The subset that a buffer has been written from. -/
def deserialize (buf : List UInt8) : Except ExchangeError RegionSubset :=
  if buf.length % 32 = 0 then
    ((DataRegion.readObject.count (buf.length / 32)) buf).map fun (regions, _) => OrdSet.ofList regions
  else .error (.abort .assertion)

end RegionSubset

namespace SubsetExchange

variable {n : Nat}

/-- Where the bytes of each rank are to go, and how many there are. -/
def displacements : List Int → Int → Except ExchangeError (List Int × Int)
  | [], total => .ok ([], total)
  | size :: sizes, total => do
    let next ← toInt .overflow (total + size)
    let (displs, last) ← displacements sizes next
    return (total :: displs, last)

/-- `MPI_Allgatherv`: the bytes of each rank are put where they are to go. -/
def allgatherv : List (List UInt8) → List Int → List Int → List UInt8 → Except ExchangeError (List UInt8)
  | send :: sends, size :: sizes, displ :: displs, buf =>
    if size < 0 then .error .badCount
    else do
      let bytes ← copyFrom send 0 size
      let buf ← copyTo buf displ bytes
      allgatherv sends sizes displs buf
  | _, _, _, buf => .ok buf

/-- What a rank has received is taken apart. -/
def takeApart (buf : List UInt8) : List Int → List Int → Except ExchangeError (List RegionSubset)
  | size :: sizes, displ :: displs => do
    let bytes ← copyFrom buf displ size
    let subset ← RegionSubset.deserialize bytes
    let rest ← takeApart buf sizes displs
    return subset :: rest
  | _, _ => .ok []

/-- The subset of a rank itself among those of the cohort. -/
def own (subsets : Fin n → List RegionSubset) (k : Fin n) : RegionSubset := (subsets k).getD k ∅

/-- `exchange_subsets` on all ranks of a cohort, each with a list of subsets of which one is its own. -/
def exchangeSubsets (memory : Fin n → Nat → UInt8) (subsets : Fin n → List RegionSubset) :
    Except ExchangeError (Fin n → List RegionSubset) :=
  if ∀ k, (subsets k).length = n then do
    let sends := List.ofFn fun k => (own subsets k).serialize
    let allSizes := sends.map fun send => castInt send.length
    let (displs, total) ← displacements allSizes 0
    Except.sequence fun k => do
      let recvBuf ← resizeBytes (memory k) [] (castSize total)
      let recvBuf ← allgatherv sends allSizes displs recvBuf
      takeApart recvBuf allSizes displs
  else .error (.abort .assertion)

/-- The root packs a subset, of which `size` bytes are sent, behind the others. -/
def packSubset (memory : Nat → UInt8) (bytes : List UInt8) (size : Int) (buf : List UInt8) (total : Int) :
    Except ExchangeError (List UInt8 × Int) := do
  let buf ← resizeBytes memory buf (castSize (total + 4 + size))
  let buf ← copyTo buf total (intBytes size)
  let total := addSize total 4
  let packed ← copyFrom bytes 0 size
  let buf ← copyTo buf total packed
  let total ← toInt .overflow (total + size)
  return (buf, total)

def packSubsets (memory : Nat → UInt8) : List RegionSubset → List UInt8 → Int → Except ExchangeError (List UInt8 × Int)
  | [], buf, total => .ok (buf, total)
  | subset :: rest, buf, total => do
    let (buf, total) ← packSubset memory subset.serialize (castInt subset.serialize.length) buf total
    packSubsets memory rest buf total

/-- Each rank unpacks the subsets into a list that has room for them. -/
def unpackSubsets (buf : List UInt8) : Nat → Nat → Int → List RegionSubset → Except ExchangeError (List RegionSubset)
  | 0, _, _, output => .ok output
  | count + 1, i, offset, output => do
    let size ← readInt buf offset
    let offset := addSize offset 4
    if size < 0 then .error .badAlloc
    else do
      let bytes ← copyFrom buf offset size
      let offset ← toInt .overflow (offset + size)
      let subset ← RegionSubset.deserialize bytes
      unpackSubsets buf count (i + 1) offset (output.set i subset)

/-- `output.resize(count)` -/
def resizeSubsets (output : List RegionSubset) (count : Nat) : List RegionSubset :=
  output.take count ++ List.replicate (count - output.length) ∅

/-- `broadcast_subsets` on all ranks of a cohort. Each has several lists of subsets, of which `input` and
`output` may be the same one. -/
def broadcastSubsets {ι : Type} [DecidableEq ι] (memory : Nat → UInt8) (root : Fin n) (input output : ι)
    (lists : Fin n → ι → List RegionSubset) : Except ExchangeError (Fin n → ι → List RegionSubset) := do
  let packing := lists root input
  let (sendBuf, total) ← packSubsets memory packing (intBytes (castInt packing.length)) 4
  if total < 0 then .error .badCount
  else do
    let message ← copyFrom sendBuf 0 total
    Except.sequence fun k => do
      let buf := if k = root then sendBuf else message
      let numSubsets ← readInt buf 0
      if numSubsets < 0 then .error .badAlloc
      else do
        let subsets ← unpackSubsets buf numSubsets.toNat 0 4 (resizeSubsets (lists k output) numSubsets.toNat)
        return Function.update (lists k) output subsets

end SubsetExchange

end Fenix
