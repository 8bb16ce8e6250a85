import Fenix.ParityMember

namespace Fenix

/-- All ranks of a cohort know the same subsets of each, as after exchanging them. -/
structure Agree {n : Nat} (snaps : Fin n → IMRSnapshot) (staged protectedBy : List DataSubset)
    (elmSize : Nat) : Prop where
  stagedSubsets : ∀ k, (snaps k).stagedSubsets = staged
  protectedSubsets : ∀ k, (snaps k).protectedSubsets = protectedBy
  elmSize : ∀ k, (snaps k).elmSize = elmSize
  stagedLength : staged.length = n
  protectedLength : protectedBy.length = n

namespace ParityMember

variable {n : Nat} {snaps : Fin n → IMRSnapshot} {staged protectedBy : List DataSubset} {elmSize : Nat}

/-- The bytes of the data of a cohort, of which parity is kept if they are within the range of `int`. -/
def cohortBytes (staged protectedBy : List DataSubset) (elmSize : Nat) : Nat :=
  max (DataSubset.maxCounts staged) (DataSubset.maxCounts protectedBy) * elmSize

/-- What rank `k` contributes to byte `b` of the parity of rank `i`, to its own one nothing. -/
def contribution (snaps : Fin n → IMRSnapshot) (i : Fin n) (b : Nat) (k : Fin n) : UInt8 :=
  if i = k then 0
  else (snaps k).buf.bytes (chunkStart (snaps k).parityBytes (snaps k).dataSize k i + b)

/-- Snapshots of which every parity is that of the data of the other ranks. -/
structure Encoded (snaps : Fin n → IMRSnapshot) (dataBytes : Nat) : Prop where
  fits : ∀ k, (dataBytes : Int) ≤ (snaps k).intSize
  parityBytes : ∀ k i, (snaps k).parityBytes i = Fenix.parityBytes dataBytes (n - 1) i
  paritySize : ∀ k : Fin n, (snaps k).partner.buf.size = Fenix.parityBytes dataBytes (n - 1) k
  parity : ∀ i : Fin n, ∀ b < Fenix.parityBytes dataBytes (n - 1) i,
    (snaps i).partner.buf.bytes b = ParityCode.combine HXor.hXor 0 (contribution snaps i b)

theorem Encoded.fits_dataSize {dataBytes : Nat} (h : Encoded snaps dataBytes) (k : Fin n) :
    dataBytes ≤ (snaps k).dataSize := by
  have hle := Int.toNat_le_toNat (h.fits k)
  rwa [Int.toNat_natCast] at hle

section Reduce

theorem read_input (s : IMRSnapshot) (k i : Fin n) (b : Nat) : s.read (s.input k i) b =
    if i = k then s.partner.buf.bytes b
    else s.buf.bytes (chunkStart s.parityBytes s.dataSize k i + b) := by
  unfold IMRSnapshot.input
  by_cases h : i = k
  · rw [if_pos (congrArg Fin.val h), if_pos h]
    rfl
  · rw [if_neg fun he => h (Fin.ext he), if_neg h]
    rfl

theorem input_own (s : IMRSnapshot) (k : Fin n) : s.input k k = .parity := if_pos rfl

theorem reduceChunk_of_ne {root i k : Fin n} (h : k ≠ root) : reduceChunk root i snaps k = snaps k :=
  Function.update_of_ne h _ _

/-- A rank that receives its own parity takes part in other reductions as before. -/
theorem read_reduceChunk {i k : Fin n} (h : k ≠ i) (j : Fin n) (b : Nat) :
    (reduceChunk i i snaps j).read ((reduceChunk i i snaps j).input j k) b =
      (snaps j).read ((snaps j).input j k) b := by
  by_cases hj : j = i
  · subst hj
    rw [read_input, read_input, if_neg h, if_neg h]
    unfold reduceChunk
    rw [Function.update_self, input_own]
    rfl
  · rw [reduceChunk_of_ne hj]

theorem reduceChunk_own (k : Fin n) : reduceChunk k k snaps k =
    (snaps k).write ((snaps k).parityBytes k)
      (fun b => ParityCode.combine HXor.hXor 0 fun j => (snaps j).read ((snaps j).input j k) b) .parity := by
  unfold reduceChunk
  rw [Function.update_self, input_own]

/-- Each rank receives its parity as if there were no other reductions. -/
theorem reduceOwn_eq {l : List (Fin n)} (hl : l.Nodup) (k : Fin n) :
    l.foldl (fun s i => reduceChunk i i s) snaps k =
      if k ∈ l then reduceChunk k k snaps k else snaps k := by
  induction l generalizing snaps with
  | nil => rfl
  | cons i l ih =>
    obtain ⟨hi, hl⟩ := List.nodup_cons.mp hl
    rw [List.foldl_cons, ih hl]
    by_cases hk : k ∈ l
    · have hne : k ≠ i := fun he => hi (he ▸ hk)
      rw [if_pos hk, if_pos (List.mem_cons_of_mem i hk), reduceChunk_own, reduceChunk_own,
        reduceChunk_of_ne hne]
      simp only [read_reduceChunk hne]
    · rw [if_neg hk]
      by_cases he : k = i
      · subst he
        rw [if_pos List.mem_cons_self]
      · rw [if_neg fun hm => (List.mem_cons.mp hm).elim he hk, reduceChunk_of_ne he]

end Reduce

section Protect

theorem nPartners_eq (h : Agree snaps staged protectedBy elmSize) (k : Fin n) : (snaps k).nPartners = n - 1 := by
  unfold IMRSnapshot.nPartners
  rw [h.stagedSubsets, h.stagedLength]

theorem dataBytes_eq (h : Agree snaps staged protectedBy elmSize)
    (hrange : cohortBytes staged protectedBy elmSize ≤ 2147483647) (k : Fin n) :
    (snaps k).dataBytes = cohortBytes staged protectedBy elmSize := by
  refine IMRSnapshot.dataBytes_eq ?_ hrange
  unfold IMRSnapshot.dataCount cohortBytes
  rw [h.stagedSubsets, h.protectedSubsets, h.elmSize]

theorem parityBytes_eq (h : Agree snaps staged protectedBy elmSize)
    (hrange : cohortBytes staged protectedBy elmSize ≤ 2147483647) (k : Fin n) : (snaps k).parityBytes =
    parityBytes (cohortBytes staged protectedBy elmSize) (n - 1) := by
  funext i
  unfold IMRSnapshot.parityBytes
  rw [dataBytes_eq h hrange, nPartners_eq h, Int.toNat_natCast]

theorem allocates (hn : 2 ≤ n) (h : Agree snaps staged protectedBy elmSize)
    (hrange : cohortBytes staged protectedBy elmSize ≤ 2147483647) (k : Fin n) : (snaps k).Allocates := by
  have hbytes := dataBytes_eq h hrange k
  unfold IMRSnapshot.Allocates
  rw [nPartners_eq h, hbytes]
  omega

/-- Where the data fits the assertions of the walk over the chunks hold. -/
theorem conforms_of_fits (hn : 2 ≤ n) (h : Agree snaps staged protectedBy elmSize)
    (hrange : cohortBytes staged protectedBy elmSize ≤ 2147483647)
    (hfit : ∀ k, (cohortBytes staged protectedBy elmSize : Int) ≤ (snaps k).intSize) : Conforms snaps := by
  refine ⟨fun k => ?_, fun k l i => ?_, fun k i => ?_⟩
  · rw [nPartners_eq h]
    omega
  · rw [parityBytes_eq h hrange, parityBytes_eq h hrange]
  · rw [parityBytes_eq h hrange]
    refine chunkFits ?_
    have hpos : 0 < n - 1 := by omega
    have hown : k.val ≤ n - 1 := by omega
    have hall := chunksBefore_all (cohortBytes staged protectedBy elmSize) hpos hown
    have hmono := chunksBefore_mono (parityBytes (cohortBytes staged protectedBy elmSize) (n - 1)) k
      (Nat.succ_le_of_lt i.isLt)
    have hlen : n - 1 + 1 = n := by omega
    have hk := Int.toNat_le_toNat (hfit k)
    rw [Int.toNat_natCast] at hk
    change _ ≤ (snaps k).dataSize at hk
    rw [hlen] at hall
    refine Nat.le_trans hmono ?_
    rw [hall]
    split <;> omega

/-- The snapshots that the reductions start from. -/
def prepared (snaps : Fin n → IMRSnapshot) (k : Fin n) : IMRSnapshot :=
  ((snaps k).prepareForParity k).zeroParity

theorem prepared_agree (h : Agree snaps staged protectedBy elmSize) :
    Agree (prepared snaps) staged protectedBy elmSize :=
  ⟨h.stagedSubsets, h.protectedSubsets, h.elmSize, h.stagedLength, h.protectedLength⟩

theorem prepared_bytes (k : Fin n) : (prepared snaps k).buf.bytes = (snaps k).buf.bytes :=
  (snaps k).fitData_bytes

theorem prepared_size (h : Agree snaps staged protectedBy elmSize)
    (hrange : cohortBytes staged protectedBy elmSize ≤ 2147483647) (k : Fin n) :
    (prepared snaps k).intSize = max (snaps k).intSize (cohortBytes staged protectedBy elmSize) :=
  IMRSnapshot.prepareForParity_intSize (dataBytes_eq h hrange k) k

/-- The snapshots that `iprotect` leaves. -/
def protectedSnaps (snaps : Fin n → IMRSnapshot) (k : Fin n) : IMRSnapshot :=
  (reduceChunk k k (prepared snaps) k).markProtected

/-- What goes through is protected as if there were no other reductions. -/
theorem iprotect_cases (snaps : Fin n → IMRSnapshot) : iprotect snaps =
    if (∀ k, (snaps k).Allocates) ∧ Conforms (prepared snaps) then .ok (protectedSnaps snaps) else .error .assertion := by
  change (if _ then Except.ok fun k => (reduceChunks id (prepared snaps) k).markProtected else _) = _
  congr 2
  funext k
  congr 1
  exact (reduceOwn_eq (List.nodup_finRange n) k).trans (if_pos (List.mem_finRange k))

/-- Every rank goes through the reductions, whatever its data. -/
theorem iprotect_eq (hn : 2 ≤ n) (h : Agree snaps staged protectedBy elmSize)
    (hrange : cohortBytes staged protectedBy elmSize ≤ 2147483647) :
    iprotect snaps = .ok (protectedSnaps snaps) := by
  have hconf : Conforms (prepared snaps) := by
    refine conforms_of_fits hn (prepared_agree h) hrange fun k => ?_
    rw [prepared_size h hrange]
    omega
  rw [iprotect_cases, if_pos ⟨allocates hn h hrange, hconf⟩]

theorem protected_agree (h : Agree snaps staged protectedBy elmSize) : Agree (protectedSnaps snaps)
    (staged.map fun _ => ∅) (List.zipWith (· + ·) protectedBy staged) elmSize := by
  have hsame : ∀ k, protectedSnaps snaps k = ((prepared snaps k).write ((prepared snaps k).parityBytes k)
      (fun b => ParityCode.combine HXor.hXor 0 fun j =>
        (prepared snaps j).read ((prepared snaps j).input j k) b) .parity).markProtected := fun k => by
    unfold protectedSnaps
    rw [reduceChunk_own]
  have hprep := prepared_agree h
  refine ⟨fun k => ?_, fun k => ?_, fun k => ?_, ?_, ?_⟩
  · rw [hsame]
    exact congrArg (List.map fun _ => ∅) (hprep.stagedSubsets k)
  · rw [hsame]
    exact congrArg₂ (List.zipWith (· + ·)) (hprep.protectedSubsets k) (hprep.stagedSubsets k)
  · rw [hsame]
    exact hprep.elmSize k
  · rw [List.length_map]
    exact h.stagedLength
  · rw [List.length_zipWith, h.protectedLength, h.stagedLength]
    exact Nat.min_self n

theorem cohortBytes_protected (h : Agree snaps staged protectedBy elmSize) :
    cohortBytes (staged.map fun _ => ∅) (List.zipWith (· + ·) protectedBy staged) elmSize =
      cohortBytes staged protectedBy elmSize := by
  unfold cohortBytes
  rw [DataSubset.maxCounts_empty, DataSubset.maxCounts_add (h.protectedLength.trans h.stagedLength.symm)]
  congr 1
  omega

theorem protected_buf (k : Fin n) : (protectedSnaps snaps k).buf = (prepared snaps k).buf := by
  unfold protectedSnaps
  rw [reduceChunk_own]
  rfl

theorem protected_partner (k : Fin n) : (protectedSnaps snaps k).partner.buf =
    (prepared snaps k).partner.buf.write 0 ((prepared snaps k).parityBytes k)
      fun b => ParityCode.combine HXor.hXor 0 fun j =>
        (prepared snaps j).read ((prepared snaps j).input j k) b := by
  unfold protectedSnaps
  rw [reduceChunk_own]
  rfl

/-- After `iprotect` every parity is that of the data of the other ranks. -/
theorem protected_encoded (h : Agree snaps staged protectedBy elmSize)
    (hrange : cohortBytes staged protectedBy elmSize ≤ 2147483647) :
    Encoded (protectedSnaps snaps) (cohortBytes staged protectedBy elmSize) := by
  have hprep := prepared_agree h
  have hprot := protected_agree h
  have hlens : ∀ k, (protectedSnaps snaps k).parityBytes =
      parityBytes (cohortBytes staged protectedBy elmSize) (n - 1) := by
    intro k
    rw [parityBytes_eq hprot (cohortBytes_protected h ▸ hrange), cohortBytes_protected h]
  have hsize : ∀ k : Fin n, (prepared snaps k).partner.buf.size =
      parityBytes (cohortBytes staged protectedBy elmSize) (n - 1) k := by
    intro k
    change (snaps k).parityBytes k = _
    rw [parityBytes_eq h hrange]
  refine ⟨fun k => ?_, fun k i => congrFun (hlens k) i, fun k => ?_, fun i b hb => ?_⟩
  · rw [IMRSnapshot.intSize_congr (protected_buf k), prepared_size h hrange]
    omega
  · rw [protected_partner, DataBuffer.size_write]
    exact hsize k
  · rw [protected_partner]
    change (if 0 ≤ b ∧ b < 0 + (prepared snaps i).parityBytes i then _ else _) = _
    rw [parityBytes_eq hprep hrange, if_pos ⟨Nat.zero_le b, by omega⟩, Nat.sub_zero]
    congr 1
    funext k
    rw [read_input]
    unfold contribution
    by_cases hik : i = k
    · subst hik
      rw [if_pos rfl, if_pos rfl]
      exact DataBuffer.bytes_zero (Nat.lt_of_lt_of_eq hb (hsize i).symm)
    · rw [if_neg hik, if_neg hik, protected_buf, IMRSnapshot.dataSize_congr (protected_buf k), hlens, parityBytes_eq hprep hrange]

end Protect

end ParityMember

end Fenix
