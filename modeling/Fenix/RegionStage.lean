import Fenix.Pool
import Fenix.RegionLoad

namespace Fenix

namespace RegionSubset

/-- The number of elements up to the last index, or 0 if there is none or no bound to them. -/
def maxCount (s : RegionSubset) : Nat := sizeWrap (s.stop + 1)

/-- What is beyond an index is dropped. -/
def bound (s : RegionSubset) (max_idx : Nat) : Except Abort RegionSubset :=
  if max_idx = sizeMax ∨ s.isEmpty ∨ s.stop ≤ max_idx then .ok s else s.boundedRegions 0 max_idx

end RegionSubset

/-- Whole elements that a stage writes. What is past them is what the allocation happens to hold. -/
structure Elements (extent : Nat) where
  count : Nat
  bytes : Nat → UInt8
  room : count * extent < sizeMax

namespace Elements

variable {extent : Nat}

/-- The buffer that was written to. -/
def buffer (e : Elements extent) : DataBuffer := ⟨e.count * extent, e.bytes⟩

def element (e : Elements extent) (i : Nat) : List UInt8 := (List.range extent).map fun j => e.bytes (i * extent + j)

end Elements

/-- A member is staged by its function, or between a begin and an end. -/
inductive StageCall (extent : Nat) where
  | full (written : Elements extent)
  | beginEnd (written : Elements extent)

def StageCall.written {extent : Nat} : StageCall extent → Elements extent
  | .full w => w
  | .beginEnd w => w

namespace RegionSnapshot

/-- The function of the user is called for each block of a subset, of which there may only be one from the first
element on. It writes all that there is. -/
def serializeDynamic (subset : RegionSubset) (written : DataBuffer) : Except Abort DataBuffer := do
  let bounded ← subset.boundedRegions 0 sizeMax
  let blocks ← bounded.blockIter
  blocks.foldlM (fun _ b => if castInt b.start = 0 then .ok written else .error .assertion) written.clear

/-- The staged subset is bounded by the number of elements of a member that is not resizeable. -/
def limit (s : RegionSnapshot) (staged : RegionSubset) : Except Abort RegionSubset :=
  if s.elmMaxCount = 0 then .ok staged else staged.bound (s.elmMaxCount - 1)

/-- The elements to have room for, as an `int`. -/
def newCount (s : RegionSnapshot) (staged : RegionSubset) : Int :=
  if s.elmMaxCount = 0 then castInt staged.maxCount else s.elmMaxCount

/-- The buffer grows to a size. A negative one is more than there is memory for. -/
def fit (s : RegionSnapshot) (newSize : Int) : Except TransferError RegionSnapshot :=
  if s.buf.size < castSize newSize then
    if newSize < 0 then .error (.abort .assertion) else .ok { s with buf := s.buf.resize (castSize newSize) }
  else .ok s

/-- Add a subset to what is staged, and make room for it. -/
def addAndFit (s : RegionSnapshot) (subset : RegionSubset) : Except TransferError RegionSnapshot :=
  if 0 < s.stagedSubset.maxCount ∨ s.stagedSubset.isEmpty then do
    let sum ← (s.stagedSubset.add subset).mapError .abort
    let staged ← (s.limit sum).mapError .abort
    if s.newCount staged ≠ 0 ∨ staged.isEmpty then do
      let newSize ← toInt .overflow (s.newCount staged * s.elmSize)
      fit { s with stagedSubset := staged } newSize
    else .error (.abort .assertion)
  else .error (.abort .assertion)

/-- `stage` of the full subset. What was written replaces the buffer. -/
def stage (extent : Nat) (s : RegionSnapshot) (written : DataBuffer) : Except TransferError RegionSnapshot := do
  let buf ← (serializeDynamic {RegionSubset.full} written).mapError .abort
  if buf.size % extent = 0 then do
    let subset ← (({RegionSubset.full} : RegionSubset).bounded (sizeSub (buf.size / extent) 1)).mapError .abort
    addAndFit { s with buf := buf } subset
  else .error (.abort .assertion)

/-- `stage_end`, after all has been written. -/
def stageEnd (extent : Nat) (s : RegionSnapshot) (written : DataBuffer) : Except TransferError RegionSnapshot :=
  if written.size % extent = 0 then do
    let subset ← (RegionSubset.ofRange 0 (sizeSub (written.size / extent) 1)).mapError .abort
    addAndFit { s with buf := written } subset
  else .error (.abort .assertion)

def staging {extent : Nat} (s : RegionSnapshot) : StageCall extent → Except TransferError RegionSnapshot
  | .full w => s.stage extent w.buffer
  | .beginEnd w => s.stageEnd extent w.buffer

/-- What was staged is protected. -/
def protect (s : RegionSnapshot) : Except TransferError RegionSnapshot := do
  let sum ← (s.protectedSubset.add s.stagedSubset).mapError .abort
  return { s with protectedSubset := sum, stagedSubset := ∅ }

def reset (s : RegionSnapshot) : RegionSnapshot :=
  { s with timestamp := -2, buf := s.buf.clear, stagedSubset := ∅, protectedSubset := ∅ }

/-- A new snapshot for elements of a size, of any number of them. -/
def create (elmSize : Nat) (junk : Nat → UInt8) : RegionSnapshot := { buf := ⟨0, junk⟩, elmSize := elmSize, elmMaxCount := 0 }

section Bounded

variable {s s' : RegionSnapshot} {S subset : RegionSubset} {size : Int}

theorem limit_spec (hS : S.WellFormed) (hpos : 0 < s.elmMaxCount) (hcount : s.elmMaxCount ≤ 2147483647) :
    ∃ T, s.limit S = .ok T ∧ T.WellFormed ∧ ∀ x, T.Mem x ↔ S.Mem x ∧ x < s.elmMaxCount := by
  obtain ⟨T, hT, htiles⟩ := RegionSubset.boundedRegions_fits hS.tiles (Nat.zero_le (s.elmMaxCount - 1))
    (by unfold sizeMax; omega)
  unfold limit RegionSubset.bound
  rw [if_neg (by omega)]
  split
  next hin =>
    refine ⟨S, rfl, hS, fun x => (and_iff_left_of_imp fun hx => ?_).symm⟩
    have hle := hS.le_stop hx
    rcases hin with hmax | hempty | hstop
    · unfold sizeMax at hmax
      omega
    · exact absurd hx (RegionSubset.isEmpty_iff_mem.mp hempty x)
    · omega
  next =>
    refine ⟨T, hT, RegionSubset.wellFormed htiles, fun x => (htiles.cover x).trans (and_congr_right fun _ => ?_)⟩
    omega

theorem fit_size (hsize : 0 ≤ size) (hle : size ≤ intMax) (h : s.fit size = .ok s') :
    s'.stagedSubset = s.stagedSubset ∧ size ≤ s'.buf.size := by
  have hcast : castSize size = size.toNat := by
    unfold intMax at hle
    unfold castSize
    omega
  unfold fit at h
  rw [hcast, if_neg (show ¬size < 0 by omega)] at h
  split at h
  next =>
    cases Except.ok.inj h
    exact ⟨rfl, by rw [DataBuffer.size_resize]; omega⟩
  next =>
    cases Except.ok.inj h
    exact ⟨rfl, by omega⟩

/-- A bounded snapshot has room for what is staged in it, with sizes in the range of `int`. -/
theorem addAndFit_room (hs : s.stagedSubset.WellFormed) (hsubset : subset.WellFormed) (hpos : 0 < s.elmMaxCount)
    (hcount : s.elmMaxCount ≤ 2147483647) (h : s.addAndFit subset = .ok s') : s'.stagedSubset.WellFormed ∧
      ∀ x, s'.stagedSubset.Mem x → (x + 1) * s.elmSize ≤ s'.buf.size ∧ (x + 1) * s.elmSize ≤ 2147483647 := by
  obtain ⟨C, hC, hCwf, _⟩ := RegionSubset.add_spec hs hsubset
  obtain ⟨T, hT, hTwf, hmem⟩ := limit_spec hCwf hpos hcount
  have hnew : s.newCount T = s.elmMaxCount := if_neg (by omega)
  unfold addAndFit at h
  split at h
  next =>
    rw [hC] at h
    change ((s.limit C).mapError TransferError.abort >>= _) = _ at h
    rw [hT] at h
    obtain ⟨T', hT', h⟩ := Except.bind_eq_ok_iff.mp h
    cases Except.ok.inj hT'
    split at h
    next =>
      obtain ⟨size, hsize, hfit⟩ := Except.bind_eq_ok_iff.mp h
      obtain ⟨rfl, hle⟩ := toInt_eq_ok hsize
      rw [hnew, ← Int.natCast_mul] at hle hfit
      obtain ⟨hstaged, hbuf⟩ := fit_size (Int.natCast_nonneg _) hle hfit
      rw [hstaged]
      refine ⟨hTwf, fun x hx => ?_⟩
      have hmul : (x + 1) * s.elmSize ≤ s.elmMaxCount * s.elmSize := Nat.mul_le_mul_right _ ((hmem x).mp hx).2
      unfold intMax at hle
      omega
    next => cases h
  next => cases h

end Bounded

/-- Nothing is in a snapshot yet. -/
structure Blank (s : RegionSnapshot) (extent : Nat) : Prop where
  elmSize : s.elmSize = extent
  resizeable : s.elmMaxCount = 0
  staged : s.stagedSubset = ∅
  unprotected : s.protectedSubset = ∅

end RegionSnapshot

/-- A member of any number of elements with its snapshots: the one being staged, the committed ones and those for
reuse. -/
structure ResizeableMember extends RegionMember where
  depth : Nat
  stageSnapshot : RegionSnapshot
  availSnapshots : List RegionSnapshot

namespace ResizeableMember

/-- A new member. -/
def create (extent depth : Nat) (junk : Nat → UInt8) : ResizeableMember where
  extent := extent
  commitSnapshots := IndexedSet.empty
  depth := depth
  stageSnapshot := RegionSnapshot.create extent junk
  availSnapshots := List.replicate (depth + 1) (RegionSnapshot.create extent junk)

/-- The snapshots but for the one being staged. -/
def pool (m : ResizeableMember) : Pool RegionSnapshot fun s => s.timestamp := ⟨m.commitSnapshots, m.availSnapshots⟩

def withPool (m : ResizeableMember) (p : Pool RegionSnapshot fun s => s.timestamp) : ResizeableMember :=
  { m with commitSnapshots := p.used, availSnapshots := p.spare }

/-- Trim the oldest snapshot if there are too many. -/
def trim (m : ResizeableMember) : ResizeableMember := m.withPool (m.pool.trim RegionSnapshot.reset (m.depth + 1))

/-- The next snapshot to stage in: one for reuse if there is any. -/
def restage (m : ResizeableMember) (junk : Nat → UInt8) : ResizeableMember :=
  let taken := m.pool.next (RegionSnapshot.create m.extent junk)
  { m.withPool taken.2 with stageSnapshot := taken.1 }

def commit (m : ResizeableMember) (timestamp : Int) (junk : Nat → UInt8) : Except TransferError ResizeableMember :=
  if m.stageSnapshot.stagedSubset.isEmpty then
    let committed := { m with
      commitSnapshots := m.commitSnapshots.insert { m.stageSnapshot with timestamp := timestamp } }
    .ok (committed.trim.restage junk)
  else .error (.abort .assertion)

/-- Stages one after the other, a store of what they staged and a commit. -/
def checkpoint (m : ResizeableMember) (stages : List (StageCall m.extent)) (timestamp : Int) (junk : Nat → UInt8) :
    Except TransferError ResizeableMember := do
  let s ← stages.foldlM RegionSnapshot.staging m.stageSnapshot
  let s ← s.protect
  commit { m with stageSnapshot := s } timestamp junk

/-- A member is between two checkpoints, the next one being newer than those that it has. -/
structure Ready (m : ResizeableMember) (timestamp : Int) : Prop where
  pos : 0 < m.extent
  stage : m.stageSnapshot.Blank m.extent
  avail : ∀ s ∈ m.availSnapshots, s.Blank m.extent
  committed : ∀ s ∈ m.commitSnapshots, s.elmSize = m.extent ∧ s.elmMaxCount = 0
  newer : ∀ s ∈ m.commitSnapshots, s.timestamp < timestamp
  nonneg : 0 ≤ timestamp

variable {m m' : ResizeableMember} {extent depth : Nat} {junk : Nat → UInt8} {timestamp t : Int}

theorem create_ready (hpos : 0 < extent) (ht : 0 ≤ timestamp) : (create extent depth junk).Ready timestamp where
  pos := hpos
  stage := ⟨rfl, rfl, rfl, rfl⟩
  avail := fun s hs => by
    rw [List.eq_of_mem_replicate hs]
    exact ⟨rfl, rfl, rfl, rfl⟩
  committed := fun _ hs => absurd hs List.not_mem_nil
  newer := fun _ hs => absurd hs List.not_mem_nil
  nonneg := ht

@[simp] theorem restage_commitSnapshots (m : ResizeableMember) (junk : Nat → UInt8) :
    (m.restage junk).commitSnapshots = m.commitSnapshots :=
  m.pool.next_used _

theorem restage_blank (junk : Nat → UInt8) (havail : ∀ s ∈ m.availSnapshots, s.Blank m.extent) :
    (m.restage junk).stageSnapshot.Blank m.extent ∧ ∀ s ∈ (m.restage junk).availSnapshots, s.Blank m.extent :=
  Pool.next_all (p := m.pool) havail ⟨rfl, rfl, rfl, rfl⟩

/-- A newer snapshot than the others is found once committed. -/
theorem commit_find? (hnew : ∀ s ∈ m.commitSnapshots, s.timestamp < timestamp) (h : m.commit timestamp junk = .ok m') :
    m'.commitSnapshots.find? timestamp = some { m.stageSnapshot with timestamp := timestamp } ∧ m'.extent = m.extent := by
  unfold commit at h
  split at h
  next =>
    cases Except.ok.inj h
    rw [restage_commitSnapshots]
    refine ⟨?_, rfl⟩
    exact Pool.trim_insert_find? (p := m.pool) (x := { m.stageSnapshot with timestamp := timestamp })
      RegionSnapshot.reset (Nat.succ_pos m.depth) hnew
  next => cases h

/-- After a commit the member is between two checkpoints again. -/
theorem commit_ready (hpos : 0 < m.extent) (havail : ∀ s ∈ m.availSnapshots, s.Blank m.extent)
    (hcommitted : ∀ s ∈ m.commitSnapshots, s.elmSize = m.extent ∧ s.elmMaxCount = 0)
    (hnew : ∀ s ∈ m.commitSnapshots, s.timestamp < timestamp) (hnonneg : 0 ≤ timestamp)
    (hstage : m.stageSnapshot.elmSize = m.extent ∧ m.stageSnapshot.elmMaxCount = 0)
    (h : m.commit timestamp junk = .ok m') (ht : timestamp < t) : m'.Ready t := by
  unfold commit at h
  split at h
  next =>
    cases Except.ok.inj h
    have hall : ∀ s ∈ m.commitSnapshots.insert { m.stageSnapshot with timestamp := timestamp },
        (s.elmSize = m.extent ∧ s.elmMaxCount = 0) ∧ s.timestamp ≤ timestamp := fun s hs => by
      rcases IndexedSet.mem_of_mem_insert hs with rfl | hs
      · exact ⟨hstage, Int.le_refl _⟩
      · exact ⟨hcommitted s hs, Int.le_of_lt (hnew s hs)⟩
    obtain ⟨hkept, hfree⟩ := Pool.trim_all
      (p := ⟨m.commitSnapshots.insert { m.stageSnapshot with timestamp := timestamp }, m.availSnapshots⟩)
      RegionSnapshot.reset (m.depth + 1) hall havail fun s hs => ⟨(hall s hs).1.1, (hall s hs).1.2, rfl, rfl⟩
    obtain ⟨hblank, hrest⟩ := restage_blank (m := ResizeableMember.trim { m with
      commitSnapshots := m.commitSnapshots.insert { m.stageSnapshot with timestamp := timestamp } }) junk hfree
    refine ⟨hpos, hblank, hrest, fun s hs => ?_, fun s hs => ?_, by omega⟩
    · rw [restage_commitSnapshots] at hs
      exact (hkept s hs).1
    · rw [restage_commitSnapshots] at hs
      have := (hkept s hs).2
      omega
  next => cases h

end ResizeableMember

end Fenix
