import Fenix.Fallible
import Fenix.Memory
import Fenix.OpLog

namespace Fenix

/-- What the operations use of the MPI library: the size of a datatype, the distance from one element of it to the next
in memory, and the reduction of the contributions of all ranks, which is as long as each of them. -/
structure MPILibrary where
  typeSize : Int → Nat
  typeExtent : Int → Nat
  combine : Int → Int → List (List UInt8) → List UInt8
  combine_length : ∀ {op datatype : Int} {xs : List (List UInt8)} {size : Nat}, xs ≠ [] →
    (∀ x ∈ xs, x.length = size) → (combine op datatype xs).length = size

/-- `MPI_DATATYPE_NULL`. -/
def datatypeNull : Int := -1

/-- The size of an element, which is zero for no datatype. -/
def MPILibrary.sizeOf (lib : MPILibrary) (datatype : Int) : Nat :=
  if datatype = datatypeNull then 0 else lib.typeSize datatype

def MPILibrary.extentOf (lib : MPILibrary) (datatype : Int) : Nat :=
  if datatype = datatypeNull then 0 else lib.typeExtent datatype

/-- So many elements of a datatype take up `size` bytes without a gap between them, which are counted by an `int`. -/
structure MPILibrary.Lays (lib : MPILibrary) (datatype count : Int) (size : Nat) : Prop where
  count_nonneg : 0 ≤ count
  size_eq : count.toNat * lib.sizeOf datatype = size
  extent_eq : count.toNat * lib.extentOf datatype = size
  countable : size ≤ 2147483647

/-- Where MPI finds the data of a buffer: in the memory of the user or in the buffer itself. -/
inductive Place where
  | user (p : Nat)
  | internal
  deriving DecidableEq, Repr

/-- The buffer of an operation. It wraps memory of the user (at an address that is not zero) or holds data of its own,
which is garbage when it was allocated just to receive output that nobody uses. -/
structure OpBuffer where
  userBuf : Nat := 0
  internalBuf : List UInt8 := []
  garbageData : Bool := false
  mCount : Int := 0
  mType : Int := datatypeNull
  deriving DecidableEq, Repr

namespace OpBuffer

/-- Wrap a user's buffer. -/
def wrap (userBuffer : Nat) (count datatype : Int) : OpBuffer :=
  { userBuf := userBuffer, mCount := count, mType := datatype }

/-- A buffer without data yet. -/
def create (count datatype : Int) : OpBuffer := { mCount := count, mType := datatype }

/-- A buffer with a copy of the user's data, as many bytes as the elements have by their size. -/
def copy (lib : MPILibrary) (m : Memory UInt8) (userBuffer : Nat) (count datatype : Int) : Except Abort OpBuffer :=
  if count < 0 then .error .underflow
  else if 2147483647 < count.toNat * lib.sizeOf datatype then .error .overflow
  else .ok { internalBuf := m.read userBuffer (count.toNat * lib.sizeOf datatype), mCount := count, mType := datatype }

/-- What a buffer is after a move into a new one: `garbage_data` does not move along. -/
def moved (b : OpBuffer) : OpBuffer := { b with garbageData := false }

def size (lib : MPILibrary) (b : OpBuffer) : Nat := b.mCount.toNat * lib.sizeOf b.mType

/-- How far MPI reaches from where the data is. -/
def span (lib : MPILibrary) (b : OpBuffer) : Nat := b.mCount.toNat * lib.extentOf b.mType

/-- Allocate data to receive into, if the buffer has none. -/
def allocated (lib : MPILibrary) (b : OpBuffer) : OpBuffer :=
  if b.internalBuf = [] then { b with garbageData := true, internalBuf := List.replicate (b.size lib) 0 } else b

/-- The place of the data, with the buffer afterwards. -/
def buf (lib : MPILibrary) (b : OpBuffer) : Except Abort (Place × OpBuffer) :=
  if b.userBuf ≠ 0 then
    if b.internalBuf = [] then .ok (.user b.userBuf, b) else .error .assertion
  else if b.internalBuf = [] ∧ b.mCount < 0 then .error .underflow
  else if 2147483647 < b.size lib then .error .overflow
  else if (b.allocated lib).internalBuf.length = (b.allocated lib).size lib then .ok (.internal, b.allocated lib)
  else .error .assertion

/-- The place that MPI is given. Beyond the data of the buffer itself there is nothing for it to read or to write. -/
def pass (lib : MPILibrary) (b : OpBuffer) : Except Abort (Place × OpBuffer) := do
  let (place, b) ← b.buf lib
  if place = .internal ∧ b.size lib < b.span lib then throw .overrun else return (place, b)

def releaseUserBuf (b : OpBuffer) : OpBuffer := { b with userBuf := 0 }

/-- What is written of a buffer. -/
def recorded (b : OpBuffer) : MPIBuffer :=
  { datatype := b.mType, count := b.mCount, bytes := if b.garbageData then [] else b.internalBuf }

/-- A buffer read again. -/
def ofRecorded (r : MPIBuffer) : OpBuffer := { internalBuf := r.bytes, mCount := r.count, mType := r.datatype }

/-- The data found at a place. -/
def contents (lib : MPILibrary) (m : Memory UInt8) (b : OpBuffer) : Place → List UInt8
  | .user p => m.read p (b.span lib)
  | .internal => b.internalBuf

/-- A buffer is for `size` bytes, and it either wraps or has data of that size. -/
structure Sized (lib : MPILibrary) (size : Nat) (b : OpBuffer) : Prop where
  lays : lib.Lays b.mType b.mCount size
  wraps : b.userBuf ≠ 0 → b.internalBuf = []
  length : b.internalBuf = [] ∨ b.internalBuf.length = size

/-- A buffer has a copy of some data, which is no garbage unless there is nothing to copy. -/
structure Holds (lib : MPILibrary) (bs : List UInt8) (b : OpBuffer) : Prop where
  lays : lib.Lays b.mType b.mCount bs.length
  owns : b.userBuf = 0
  data : b.internalBuf = bs
  kept : b.garbageData = true → bs = []

variable {lib : MPILibrary} {b : OpBuffer} {m : Memory UInt8} {p size : Nat} {count datatype : Int} {bs : List UInt8}

@[simp] theorem size_allocated : (b.allocated lib).size lib = b.size lib := by
  unfold allocated
  split
  next => rfl
  next => rfl

@[simp] theorem userBuf_allocated : (b.allocated lib).userBuf = b.userBuf := by
  unfold allocated
  split
  next => rfl
  next => rfl

@[simp] theorem mCount_allocated : (b.allocated lib).mCount = b.mCount := by
  unfold allocated
  split
  next => rfl
  next => rfl

@[simp] theorem mType_allocated : (b.allocated lib).mType = b.mType := by
  unfold allocated
  split
  next => rfl
  next => rfl

theorem copy_holds (lib : MPILibrary) (m : Memory UInt8) (p : Nat) (hl : lib.Lays datatype count size) :
    ∃ b, copy lib m p count datatype = .ok b ∧ b.Holds lib (m.read p size) ∧ b.mType = datatype := by
  obtain ⟨hc, rfl, hextent, hle⟩ := hl
  have hlength : (m.read p (count.toNat * lib.sizeOf datatype)).length = _ := Memory.length_read
  refine ⟨_, (if_neg (by omega)).trans (if_neg (by omega)), ⟨?_, rfl, rfl, nofun⟩, rfl⟩
  exact ⟨hc, hlength.symm, hextent.trans hlength.symm, by rw [hlength]; exact hle⟩

theorem wrap_sized (hl : lib.Lays datatype count size) : (wrap p count datatype).Sized lib size :=
  ⟨hl, fun _ => rfl, Or.inl rfl⟩

theorem create_sized (hl : lib.Lays datatype count size) : (create count datatype).Sized lib size :=
  ⟨hl, fun _ => rfl, Or.inl rfl⟩

theorem Holds.moved (h : b.Holds lib bs) : b.moved.Holds lib bs := ⟨h.lays, h.owns, h.data, nofun⟩

theorem Sized.moved (h : b.Sized lib size) : b.moved.Sized lib size := ⟨h.lays, h.wraps, h.length⟩

theorem Holds.releaseUserBuf (h : b.Holds lib bs) : b.releaseUserBuf.Holds lib bs := ⟨h.lays, rfl, h.data, h.kept⟩

theorem Sized.releaseUserBuf (h : b.Sized lib size) : b.releaseUserBuf.Sized lib size :=
  ⟨h.lays, fun hne => absurd rfl hne, h.length⟩

theorem Sized.size_eq (h : b.Sized lib size) : b.size lib = size := h.lays.size_eq

theorem Holds.size_eq (h : b.Holds lib bs) : b.size lib = bs.length := h.lays.size_eq

theorem Sized.length_allocated (h : b.Sized lib size) : (b.allocated lib).internalBuf.length = size := by
  unfold allocated
  split
  next => rw [List.length_replicate, h.size_eq]
  next hne => exact h.length.resolve_left hne

theorem Sized.allocated (h : b.Sized lib size) (h0 : b.userBuf = 0) : (b.allocated lib).Sized lib size := by
  refine ⟨?_, ?_, Or.inr h.length_allocated⟩
  · rw [mCount_allocated, mType_allocated]
    exact h.lays
  · rw [userBuf_allocated]
    exact fun hne => absurd h0 hne

theorem Holds.allocated (h : b.Holds lib bs) : (b.allocated lib).Holds lib bs := by
  unfold OpBuffer.allocated
  split
  next hnil =>
    have hbs : bs = [] := h.data.symm.trans hnil
    refine ⟨h.lays, h.owns, ?_, fun _ => hbs⟩
    rw [h.size_eq, hbs]
    rfl
  next => exact h

theorem Holds.sized (h : b.Holds lib bs) : b.Sized lib bs.length :=
  ⟨h.lays, fun hne => absurd h.owns hne, Or.inr (by rw [h.data])⟩

/-- A buffer that wraps is where the user has it. -/
theorem Sized.buf_wrapped (h : b.Sized lib size) (hne : b.userBuf ≠ 0) : b.buf lib = .ok (.user b.userBuf, b) := by
  unfold buf
  rw [if_pos hne, if_pos (h.wraps hne)]

/-- A buffer that does not wrap has its data, at the latest when it is asked for. -/
theorem Sized.buf_owned (h : b.Sized lib size) (h0 : b.userBuf = 0) :
    b.buf lib = .ok (.internal, b.allocated lib) := by
  unfold buf
  have hle := h.lays.countable
  rw [if_neg (not_not_intro h0), if_neg (fun hn => absurd h.lays.count_nonneg (by omega)),
    if_neg (by rw [h.size_eq]; omega), if_pos]
  rw [h.length_allocated, size_allocated, h.size_eq]

/-- Elements without gaps are all there for MPI. -/
theorem pass_of_buf {place : Place} {b' : OpBuffer} (hb : b.buf lib = .ok (place, b')) (h : b'.Sized lib size) :
    b.pass lib = .ok (place, b') := by
  unfold pass
  rw [hb]
  refine if_neg fun hn => ?_
  have hspan : b'.span lib = size := h.lays.extent_eq
  rw [h.size_eq, hspan] at hn
  exact absurd hn.2 (Nat.lt_irrefl _)

/-- A buffer stays what it is where it is passed on. -/
theorem Sized.pass (h : b.Sized lib size) : ∃ b', b.pass lib =
    .ok (if b.userBuf ≠ 0 then .user b.userBuf else .internal, b') ∧ b'.Sized lib size ∧ b'.userBuf = b.userBuf ∧
      b'.mType = b.mType := by
  by_cases hne : b.userBuf ≠ 0
  · rw [if_pos hne]
    exact ⟨b, pass_of_buf (h.buf_wrapped hne) h, h, rfl, rfl⟩
  · rw [if_neg hne]
    have h0 : b.userBuf = 0 := not_not.mp hne
    exact ⟨_, pass_of_buf (h.buf_owned h0) (h.allocated h0), h.allocated h0, userBuf_allocated, mType_allocated⟩

/-- The data of a copy are found in the buffer, whatever the memory of the user is by now. -/
theorem Holds.pass (h : b.Holds lib bs) (m : Memory UInt8) : ∃ b', b.pass lib = .ok (.internal, b') ∧
    b'.Holds lib bs ∧ b'.contents lib m .internal = bs ∧ b'.userBuf = b.userBuf ∧ b'.mType = b.mType :=
  ⟨_, pass_of_buf (h.sized.buf_owned h.owns) h.allocated.sized, h.allocated, h.allocated.data, userBuf_allocated,
    mType_allocated⟩

/-- Data received into a buffer that does not wrap. -/
theorem Sized.received (h : b.Sized lib size) (h0 : b.userBuf = 0) (hbs : bs.length = size) :
    Sized lib size { b with internalBuf := bs } :=
  ⟨h.lays, fun hne => absurd h0 hne, Or.inr hbs⟩

theorem Holds.ofRecorded (h : b.Holds lib bs) : (OpBuffer.ofRecorded b.recorded).Holds lib bs := by
  refine ⟨h.lays, rfl, ?_, nofun⟩
  unfold OpBuffer.ofRecorded recorded
  simp only
  split
  next hg => exact (h.kept hg).symm
  next => exact h.data

theorem Sized.ofRecorded (h : b.Sized lib size) : (OpBuffer.ofRecorded b.recorded).Sized lib size := by
  refine ⟨h.lays, fun hne => absurd rfl hne, ?_⟩
  unfold OpBuffer.ofRecorded recorded
  simp only
  split
  next => exact Or.inl rfl
  next => exact h.length

end OpBuffer

end Fenix
