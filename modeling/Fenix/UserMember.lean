import Fenix.BuddyMember
import Fenix.GroupHistory

namespace Fenix

/-- A datatype by the bytes of its values and the distance from one value to the next. -/
structure Datatype where
  size : Nat
  extent : Nat
  deriving DecidableEq

/-- The bytes of so many values are within the range of `int`. -/
def Datatype.Countable (dtype : Datatype) (count : Nat) : Prop := count * dtype.extent ≤ 2147483647

/-- A number of values that a load can be asked for, the greatest `int` being what asks for all. -/
def Datatype.Loadable (dtype : Datatype) (count : Nat) : Prop := count < 2147483647 ∧ dtype.Countable count

theorem bytes_countable {count : Nat} (h : count ≤ 2147483647) : (Datatype.mk 1 1).Countable count :=
  (Nat.mul_one count).trans_le h

theorem bytes_loadable {count : Nat} (h : count < 2147483647) : (Datatype.mk 1 1).Loadable count :=
  ⟨h, bytes_countable (Nat.le_of_lt h)⟩

/-- An address, with the number of bytes there if it is bounded. -/
structure DataRef where
  data : Nat
  size : Option Nat

/-- The elements that a caller names: those of a bounded subset or of an unbounded one. -/
inductive Specifier where
  | bounded (s : DataSubset)
  | unbounded (includes : Nat → Bool)

namespace Specifier

def includes : Specifier → Nat → Bool
  | .bounded s, i => decide (i ∈ s.idxs)
  | .unbounded p, i => p i

instance : Membership Nat Specifier := ⟨fun s i => s.includes i = true⟩

instance (s : Specifier) (i : Nat) : Decidable (i ∈ s) := inferInstanceAs (Decidable (s.includes i = true))

/-- The elements below `count`. A count of zero wraps around to no bound, of which only bounded subsets
make use. -/
def upTo : Specifier → Nat → DataSubset
  | .bounded s, count => s.upTo count
  | .unbounded p, count => ⟨(Finset.range count).filter fun i => p i = true⟩

/-- How many bytes of the memory of the user an operation on the subset may reach. -/
def reach (s : Specifier) (elmSize : Nat) (user : Option Nat) : Option Nat :=
  match s with
  | .bounded s => some (user.elim (s.maxCount * elmSize) (min (s.maxCount * elmSize)))
  | .unbounded _ => user

end Specifier

/-- Why an operation of a member is refused, or what ends the process. -/
inductive MemberError where
  | invalidSubset
  | invalidLogicCall
  | memberUnstored
  | overrun
  | overflow
  | lookup (reason : DataError)
  | abort (reason : Abort)
  deriving DecidableEq

/-- A product of `int`s, which has no value beyond the range of the type. -/
def intProduct (a b : Nat) : Except MemberError Nat :=
  if a * b ≤ 2147483647 then .ok (a * b) else .error .overflow

theorem intProduct_ok {a b : Nat} (h : a * b ≤ 2147483647) : intProduct a b = .ok (a * b) := if_pos h

theorem intProduct_eq_ok {a b c : Nat} (h : intProduct a b = .ok c) : c = a * b ∧ a * b ≤ 2147483647 := by
  unfold intProduct at h
  split at h
  next hle => exact ⟨(Except.ok.inj h).symm, hle⟩
  next => cases h

/-- A buffer of at least `n` bytes. -/
def DataBuffer.grow (b : DataBuffer) (n : Nat) : DataBuffer := if b.size < n then b.resize n else b

theorem DataBuffer.grow_eq (b : DataBuffer) (n : Nat) : b.grow n = ⟨max b.size n, b.bytes⟩ := by
  unfold grow
  split
  next h =>
    rw [Nat.max_eq_right (Nat.le_of_lt h)]
    rfl
  next h => rw [Nat.max_eq_left (Nat.le_of_not_lt h)]

namespace Serializer

/-- One element goes over to its place. -/
def element (elmSize : Nat) (src dst : Nat → UInt8) (i x : Nat) : UInt8 :=
  if i * elmSize ≤ x ∧ x < i * elmSize + elmSize then src x else dst x

/-- `copy_data`: the elements go over one after the other. -/
def copyData (s : DataSubset) (elmSize : Nat) (src dst : Nat → UInt8) : Nat → UInt8 :=
  s.elems.foldl (element elmSize src) dst

/-- The assertions of a serializer between a buffer and the memory of a user. -/
def Fits (elmSize stage : Nat) (user : Option Nat) : Prop :=
  0 < elmSize ∧ stage % elmSize = 0 ∧ ∀ n ∈ user, n % elmSize = 0

instance (elmSize stage : Nat) (user : Option Nat) : Decidable (Fits elmSize stage user) :=
  inferInstanceAs (Decidable (_ ∧ _ ∧ _))

/-- The elements of both buffers that a serializer has. -/
def elements (elmSize stage : Nat) (user : Option Nat) : Nat := user.elim stage (min stage) / elmSize

end Serializer

/-- An update of an attribute of a member. A count of zero stands for a resizeable one. -/
inductive MemberAttr where
  | buffer (data : Nat)
  | count (n : Nat)
  | datatype (dtype : Datatype)

/-- A member along with the buffer of the application. -/
structure UserMember where
  member : DataMember
  userData : DataRef
  datatype : Datatype

namespace UserMember

/-- What a count of elements makes of a buffer. -/
def userBytes (count extent : Nat) : Option Nat := if count = 0 then none else some (count * extent)

/-- A new member, of `count` elements if that is not zero. -/
def create (policy : DataPolicy) (depth rank size data count : Nat) (dtype : Datatype)
    (junk : Nat → Nat → UInt8) : UserMember :=
  { member := DataMember.create policy depth rank size dtype.extent count junk
    userData := ⟨data, userBytes count dtype.extent⟩
    datatype := dtype }

def elmCount (m : UserMember) : Except MemberError Nat :=
  match m.userData.size with
  | none => .ok 0
  | some n =>
    if 0 < m.datatype.extent ∧ n % m.datatype.extent = 0 then .ok (n / m.datatype.extent)
    else .error (.abort .assertion)

/-- Data that an update of count or datatype would not fit any more. -/
def hasData (m : UserMember) : Bool :=
  !m.member.commitSnapshots.entries.isEmpty || decide (m.member.stageSnapshot.stagedSubset ≠ some ∅) ||
    decide (m.member.stageSnapshot.protectedSubset ≠ some ∅)

/-- The size of the buffer for elements of another size, if it is bounded. -/
def resized (m : UserMember) (count elmSize : Nat) : Except MemberError (Option Nat) :=
  match m.userData.size with
  | none => .ok none
  | some _ => (intProduct count elmSize).map some

theorem resized_eq_ok {m : UserMember} {count elmSize : Nat} {size : Option Nat}
    (h : m.resized count elmSize = .ok size) : (size = m.userData.size.map fun _ => count * elmSize) ∧
      (m.userData.size ≠ none → count * elmSize ≤ 2147483647) := by
  unfold resized at h
  split at h
  next hnone =>
    rw [hnone]
    exact ⟨(Except.ok.inj h).symm, fun hne => absurd rfl hne⟩
  next n hsome =>
    obtain ⟨bytes, hbytes, rfl⟩ := Except.map_eq_ok_iff.mp h
    obtain ⟨rfl, hle⟩ := intProduct_eq_ok hbytes
    rw [hsome]
    exact ⟨rfl, fun _ => hle⟩

theorem resized_ok {m : UserMember} {count elmSize : Nat} (h : count * elmSize ≤ 2147483647) :
    m.resized count elmSize = .ok (m.userData.size.map fun _ => count * elmSize) := by
  unfold resized
  split
  next hnone => rw [hnone]; rfl
  next n hsome => rw [hsome, intProduct_ok h]; rfl

def setElmSize (s : IMRSnapshot) (elmSize : Nat) : IMRSnapshot := { s with elmSize := elmSize }

def attrSet (m : UserMember) : MemberAttr → Except MemberError UserMember
  | .buffer data => .ok { m with userData := { m.userData with data := data } }
  | .count n => do
    let count ← m.elmCount
    if n ≠ count ∧ m.hasData then throw .invalidLogicCall
    else return { m with userData := { m.userData with size := userBytes n m.datatype.extent } }
  | .datatype dtype =>
    if dtype.size ≠ m.datatype.extent ∧ m.hasData then .error .invalidLogicCall
    else do
      let count ← m.elmCount
      let size ← m.resized count dtype.size
      return { m with
        datatype := dtype
        userData := { m.userData with size := size }
        member := { m.member with
          stageSnapshot := setElmSize m.member.stageSnapshot dtype.size
          availSnapshots := m.member.availSnapshots.map fun s => setElmSize s dtype.size } }

/-- `member_define` of a member that exists. -/
def define (m : UserMember) (data count : Nat) (dtype : Datatype) : Except MemberError UserMember := do
  let m ← m.attrSet (.buffer data)
  let m ← m.attrSet (.count count)
  m.attrSet (.datatype dtype)

/-- The elements that a caller names are copied from the memory of the application and added to what
is staged. -/
def stage (m : UserMember) (memory : Nat → UInt8) (subset : Specifier) : Except MemberError UserMember :=
  let snap := m.member.stageSnapshot
  match subset.reach snap.elmSize m.userData.size with
  | none => .error .invalidSubset
  | some len =>
    let buf := snap.buf.grow len
    if Serializer.Fits snap.elmSize buf.size (some len) ∧ 0 < m.datatype.extent ∧
        buf.size % m.datatype.extent = 0 ∧ ∀ n ∈ m.userData.size, buf.size ≤ n then
      let copied := subset.upTo (Serializer.elements snap.elmSize buf.size (some len))
      let bytes := Serializer.copyData copied snap.elmSize (fun x => memory (m.userData.data + x)) buf.bytes
      let filled := { snap.toDataSnapshot with buf := { buf with bytes := bytes } }
      let staged := { snap with toDataSnapshot := filled.addAndFit (subset.upTo (buf.size / m.datatype.extent)) }
      .ok { m with member := { m.member with stageSnapshot := staged } }
    else .error (.abort .assertion)

/-- What a load leaves: the memory, the elements that the snapshot has, and whether some were missing. -/
structure Loaded where
  memory : Nat → UInt8
  found : DataSubset
  partialRestore : Bool

/-- The elements of a snapshot are copied to memory at `data`, for a number of elements or for all. -/
def unload (m : UserMember) (snap : DataSnapshot) (found : DataSubset) (data : Nat) (targetCount : Option Nat)
    (memory : Nat → UInt8) : Except MemberError (Nat → UInt8) :=
  let dst := targetCount.map (· * m.datatype.extent)
  if targetCount = some 0 then .ok memory
  else if Serializer.Fits snap.elmSize snap.buf.size dst then
    let copied := found.upTo (Serializer.elements snap.elmSize snap.buf.size dst)
    let bytes := Serializer.copyData copied snap.elmSize snap.buf.bytes fun x => memory (data + x)
    .ok fun y => if data ≤ y then bytes (y - data) else memory y
  else .error (.abort .assertion)

/-- One snapshot is loaded to `target`, without one to the buffer of the application. -/
def load (m : UserMember) (memory : Nat → UInt8) (target targetCount : Option Nat) (timestamp : Int) :
    Except MemberError Loaded := do
  let _ ← intProduct (targetCount.getD 0) m.datatype.extent
  let snap ← (m.member.findSnapshot timestamp).mapError .lookup
  let found := snap.protectedSubset.getD ∅
  let loaded ← m.unload snap.toDataSnapshot found (target.getD m.userData.data) targetCount memory
  let count := targetCount.getD found.maxCount
  return ⟨loaded, found, decide (¬∀ i < count, i ∈ found.idxs)⟩

/-- The commit of a group that has a member, at a timestamp. -/
def commit (m : UserMember) (rank size : Nat) (timestamp : Int) (junk partnerJunk : Nat → UInt8) :
    Except MemberError UserMember :=
  if m.member.hasUnstoredData then .error .memberUnstored
  else
    let committed := { m.member with
      commitSnapshots := m.member.commitSnapshots.insert { m.member.stageSnapshot with timestamp := timestamp } }
    match m.elmCount, committed.trim.availSnapshots with
    | .error e, [] => .error e
    | count, _ =>
      let current := { m.member with elmSize := m.datatype.extent, elmCount := count.toOption.getD 0 }
      match current.commit rank size timestamp junk partnerJunk with
      | .ok member => .ok { m with member := member }
      | .error e => .error (.abort e)

variable {n : Nat}

/-- `istore` and `istorev`, up to what the policy does: the rank stages what it is asked to, unless that
has been done before. -/
def stageAll (ms : Fin n → UserMember) (memory : Fin n → Nat → UInt8) (subsets : Fin n → Option Specifier) :
    Except MemberError (Fin n → UserMember) :=
  Except.sequence fun k =>
    match subsets k with
    | none => .ok (ms k)
    | some subset => (ms k).stage (memory k) subset

/-- A store takes all ranks to have staged what this one has. -/
def spread (s : IMRSnapshot) : IMRSnapshot :=
  { s with stagedSubsets := s.stagedSubsets.map fun _ => s.stagedSubset.getD ∅ }

/-- With a variable store the ranks tell each other what they have staged. -/
def exchange (snaps : Fin n → IMRSnapshot) (k : Fin n) : IMRSnapshot :=
  { snaps k with stagedSubsets := List.ofFn fun i => (snaps i).stagedSubset.getD ∅ }

/-- The copy of the left rank fits in where it is received. -/
def CopyFits (snaps : Fin n → IMRSnapshot) (k : Fin n) : Prop :=
  let subset := (snaps k).stagedSubsets.getD (BuddyMember.left k) ∅
  ∀ i ∈ subset.idxs, (i + 1) * (snaps k).elmSize ≤ ((snaps k).partner.addAndFit subset).buf.size

instance (snaps : Fin n → IMRSnapshot) (k : Fin n) : Decidable (CopyFits snaps k) :=
  inferInstanceAs (Decidable (∀ _ ∈ _, _))

/-- The bytes of the data and of the buffer that has it are within the range of `int`, to which `iprotect` narrows
them for a parity. -/
def IntSized (s : IMRSnapshot) : Prop := s.dataCount * s.elmSize ≤ 2147483647 ∧ s.buf.size ≤ 2147483647

instance (s : IMRSnapshot) : Decidable (IntSized s) := inferInstanceAs (Decidable (_ ∧ _))

/-- `iprotect` of all ranks, refused where it goes beyond a buffer or the range of `int`. -/
def protect (policy : DataPolicy) (snaps : Fin n → IMRSnapshot) : Except MemberError (Fin n → IMRSnapshot) :=
  match policy with
  | .localOnly => .ok fun k => (snaps k).markProtected
  | .imr .buddy =>
    if ∀ k, CopyFits snaps k then
      Except.sequence fun k => (BuddyMember.iprotect snaps k).mapError .abort
    else .error .overrun
  | .imr .parity =>
    if ∀ k, IntSized (snaps k) then (ParityMember.iprotect snaps).mapError .abort else .error .overflow

/-- `store` and `storev` on all ranks of a cohort. -/
def store (policy : DataPolicy) (varying : Bool) (ms : Fin n → UserMember) (memory : Fin n → Nat → UInt8)
    (subsets : Fin n → Option Specifier) : Except MemberError (Fin n → UserMember) := do
  let ms ← stageAll ms memory subsets
  let snaps := fun k => (ms k).member.stageSnapshot
  let known := if varying then exchange snaps else fun k => spread (snaps k)
  let stored ← protect policy known
  return fun k => { ms k with member := { (ms k).member with stageSnapshot := stored k } }

end UserMember

end Fenix
