import Fenix.DataRegion
import Fenix.IntRange
import Fenix.ParityProtect

namespace Fenix

/-- An `int` that goes beyond its range and comes back at the other end. -/
def wrapInt (x : Int) : Int := Int.bmod x 4294967296

/-- `++ret[i]` for the first entries of a list. -/
def lengthenFirst (count : Int) (lens : List Int) : List Int :=
  (List.range count.toNat).foldl (fun ret i => ret.modify i fun len => wrapInt (len + 1)) lens

/-- The lengths of the parities of all ranks, as `prepare_for_parity` computes them. -/
def parityLengths (dataBytes nPartners : Int) : List Int :=
  let parityBytes := dataBytes.tdiv nPartners
  let remainderBytes := dataBytes.tmod nPartners
  let remainderBytes := if remainderBytes ≠ 0 then wrapInt (remainderBytes + 1) else remainderBytes
  lengthenFirst remainderBytes (List.replicate (castSize (nPartners + 1)) parityBytes)

/-- A part of the data of a rank that goes into the parity of another one. -/
structure Chunk where
  root : Nat
  start : Int
  len : Int

/-- The walk of `iprotect` over the data of a rank, from the parity of rank `root` on. -/
def visitChunks (rank : Nat) (size : Int) : Nat → Int → List Int → Except Abort (List Chunk)
  | _, _, [] => .ok []
  | root, offset, len :: lens =>
    if rank = root then visitChunks rank size (root + 1) offset lens
    else
      let input := offset
      let offset := wrapInt (offset + len)
      if size < input + len then
        if input + len = size + 1 then do
          let rest ← visitChunks rank size (root + 1) (wrapInt (offset - 1)) lens
          return ⟨root, input - 1, len⟩ :: rest
        else .error .assertion
      else do
        let rest ← visitChunks rank size (root + 1) offset lens
        return ⟨root, input, len⟩ :: rest

namespace IMRSnapshot

/-- The list that `prepare_for_parity` returns. -/
def parityLengths (s : IMRSnapshot) : List Int :=
  Fenix.parityLengths s.dataBytes (wrapInt (s.stagedSubsets.length - 1))

/-- The chunks that rank `rank` visits to protect its data. -/
def chunks (s : IMRSnapshot) (rank : Nat) : Except Abort (List Chunk) :=
  visitChunks rank (castInt s.fitData.size) 0 0 s.parityLengths

end IMRSnapshot

section Wrap

theorem wrapInt_eq {x : Int} (hl : -2147483648 ≤ x) (hu : x ≤ 2147483647) : wrapInt x = x := by
  unfold wrapInt
  rw [Int.bmod_def]
  split <;> omega

/-- What went beyond the range on the way does not matter. -/
theorem wrapInt_wrapInt_add (x y : Int) : wrapInt (wrapInt x + y) = wrapInt (x + y) := by
  unfold wrapInt
  rw [Int.bmod_add_bmod]

end Wrap

section Lengths

theorem getElem?_lengthenFirst (lens : List Int) (count i : Nat) : (lengthenFirst count lens)[i]? =
    if i < count then lens[i]?.map fun len => wrapInt (len + 1) else lens[i]? := by
  unfold lengthenFirst
  rw [Int.toNat_natCast]
  induction count with
  | zero => simp
  | succ count ih =>
    rw [List.range_succ, List.foldl_append, List.foldl_cons, List.foldl_nil, List.getElem?_modify, ih]
    by_cases heq : count = i
    · subst heq
      simp
    · simp only [heq, if_false, Option.map_eq_map, Option.map_id_fun', id_eq]
      by_cases hlt : i < count
      · rw [if_pos hlt, if_pos (Nat.lt_succ_of_lt hlt)]
      · rw [if_neg hlt, if_neg (by omega)]

/-- In the range of `int` the lengths are those of the layout. -/
theorem parityLengths_eq {dataBytes nPartners : Nat} (hd : dataBytes ≤ 2147483647) (hpos : 1 < nPartners)
    (hn : nPartners < 2147483647) : parityLengths dataBytes nPartners =
      (List.range (nPartners + 1)).map fun i => (parityBytes dataBytes nPartners i : Int) := by
  have hmod := Nat.mod_lt dataBytes (Nat.lt_of_succ_lt hpos)
  have hrem : (if (dataBytes : Int).tmod nPartners ≠ 0 then wrapInt ((dataBytes : Int).tmod nPartners + 1)
      else (dataBytes : Int).tmod nPartners) = (remainderBytes dataBytes nPartners : Int) := by
    rw [← Int.ofNat_tmod]
    unfold remainderBytes
    by_cases hz : dataBytes % nPartners = 0
    · simp [hz]
    · rw [if_pos (by omega), if_neg hz, wrapInt_eq (by omega) (by omega)]
      rfl
  have hdiv : dataBytes / nPartners ≤ dataBytes / 2 := Nat.div_le_div_left hpos (by decide)
  unfold parityLengths
  simp only [hrem]
  rw [← Int.ofNat_tdiv]
  apply List.ext_getElem?
  intro i
  rw [getElem?_lengthenFirst, List.getElem?_map, List.getElem?_replicate]
  have hsize : castSize ((nPartners : Int) + 1) = nPartners + 1 := castSize_natCast (n := nPartners + 1) (by omega)
  rw [hsize]
  unfold parityBytes
  generalize dataBytes / nPartners = q at hdiv
  by_cases hi : i < nPartners + 1
  · rw [if_pos hi, List.getElem?_range hi, Option.map_some, Option.map_some]
    by_cases hlong : i < remainderBytes dataBytes nPartners
    · rw [if_pos hlong, if_pos hlong, wrapInt_eq (by omega) (by omega)]
      rfl
    · rw [if_neg hlong, if_neg hlong]
      rfl
  · have hnone : (List.range (nPartners + 1))[i]? = none := by
      rw [List.getElem?_eq_none_iff, List.length_range]
      omega
    rw [if_neg hi, hnone]
    simp

end Lengths

section Visit

variable {lens : Nat → Nat} {size rank : Nat}

/-- Chunk `i` of a rank, where the layout has it. -/
def layoutChunk (lens : Nat → Nat) (size rank i : Nat) : Chunk := ⟨i, chunkStart lens size rank i, lens i⟩

/-- The chunks of a rank in the parities from `root` to before `root + count`. -/
def layoutChunks (lens : Nat → Nat) (size rank root count : Nat) : List Chunk :=
  ((List.range' root count).filter fun i => decide (rank ≠ i)).map (layoutChunk lens size rank)

theorem layoutChunks_own {root : Nat} (count : Nat) (h : rank = root) :
    layoutChunks lens size rank root (count + 1) = layoutChunks lens size rank (root + 1) count := by
  unfold layoutChunks
  rw [List.range'_succ, List.filter_cons_of_neg (by simp [h])]

theorem layoutChunks_cons {root : Nat} (count : Nat) (h : rank ≠ root) : layoutChunks lens size rank root (count + 1) =
    layoutChunk lens size rank root :: layoutChunks lens size rank (root + 1) count := by
  unfold layoutChunks
  rw [List.range'_succ, List.filter_cons_of_pos (by simp [h]), List.map_cons]

/-- Chunks that together are at most one byte longer than the data are visited where the layout has them. -/
theorem visitChunks_eq (root count : Nat) (hlen : ∀ i, lens i ≤ size)
    (hsize : chunksBefore lens rank (root + count) ≤ size + 1)
    (hint : ∀ i, root ≤ i → i < root + count → rank ≠ i → chunksBefore lens rank i ≤ 2147483647) :
    visitChunks rank size root (wrapInt (chunkOffset lens size rank root))
      ((List.range' root count).map fun i => (lens i : Int)) = .ok (layoutChunks lens size rank root count) := by
  induction count generalizing root with
  | zero => rfl
  | succ count ih =>
    have hnext : root + 1 + count = root + (count + 1) := by omega
    have ih := ih (root + 1) (by rwa [hnext]) fun i hl hu => hint i (by omega) (by omega)
    have hmono := chunksBefore_mono lens rank (show root + 1 ≤ root + (count + 1) by omega)
    rw [List.range'_succ, List.map_cons]
    unfold visitChunks
    by_cases hown : rank = root
    · have hoffset : chunkOffset lens size rank (root + 1) = chunkOffset lens size rank root := by
        rw [chunkOffset, if_pos hown.symm]
      rw [hoffset] at ih
      rw [if_pos hown, ih, layoutChunks_own count hown]
    · have hbefore := chunksBefore_succ lens (Ne.symm hown)
      have heq : chunkOffset lens size rank root = min (chunksBefore lens rank root) size :=
        chunkOffset_eq (by omega)
      have hle := hint root (Nat.le_refl _) (by omega) hown
      have hlenRoot := hlen root
      have hoff : wrapInt (chunkOffset lens size rank root) = chunkOffset lens size rank root := by
        apply wrapInt_eq <;> omega
      rw [if_neg hown, hoff, layoutChunks_cons count hown]
      by_cases hover : size < chunkOffset lens size rank root + lens root
      · have hoffset : chunkOffset lens size rank (root + 1) = chunkOffset lens size rank root + lens root - 1 := by
          rw [chunkOffset, if_neg (Ne.symm hown), if_pos hover]
        have hstart : layoutChunk lens size rank root =
            ⟨root, (chunkOffset lens size rank root : Int) - 1, lens root⟩ := by
          have hcast : ((chunkOffset lens size rank root - 1 : Nat) : Int) = chunkOffset lens size rank root - 1 := by
            omega
          unfold layoutChunk chunkStart
          rw [if_pos hover, hcast]
        have hback : wrapInt (wrapInt (chunkOffset lens size rank root + lens root) - 1) =
            wrapInt (chunkOffset lens size rank (root + 1)) := by
          rw [Int.sub_eq_add_neg, wrapInt_wrapInt_add, hoffset]
          exact congrArg wrapInt (by omega)
        rw [if_pos (by omega), if_pos (by omega), hback, ih, hstart]
        rfl
      · have hoffset : chunkOffset lens size rank (root + 1) = chunkOffset lens size rank root + lens root := by
          rw [chunkOffset, if_neg (Ne.symm hown), if_neg hover]
        have hstart : layoutChunk lens size rank root = ⟨root, chunkOffset lens size rank root, lens root⟩ := by
          unfold layoutChunk chunkStart
          rw [if_neg hover]
        rw [hoffset, Int.natCast_add] at ih
        rw [if_neg (by omega), ih, hstart]
        rfl

end Visit

section Cover

variable {lens : Nat → Nat} {size rank n : Nat}

theorem mem_layoutChunks {c : Chunk} :
    c ∈ layoutChunks lens size rank 0 n ↔ ∃ i < n, rank ≠ i ∧ layoutChunk lens size rank i = c := by
  unfold layoutChunks
  simp only [List.mem_map, List.mem_filter, List.mem_range'_1, decide_eq_true_eq]
  constructor
  · rintro ⟨i, ⟨⟨_, hi⟩, hown⟩, heq⟩
    exact ⟨i, by omega, hown, heq⟩
  · rintro ⟨i, hi, hown, heq⟩
    exact ⟨i, ⟨⟨Nat.zero_le i, by omega⟩, hown⟩, heq⟩

theorem length_layoutChunks (h : rank < n) : (layoutChunks lens size rank 0 n).length = n - 1 := by
  have herase : ((List.range n).filter fun i => decide (rank ≠ i)) = (List.range n).erase rank := by
    rw [List.nodup_range.erase_eq_filter]
    apply List.filter_congr
    intro i _
    by_cases heq : rank = i
    · simp [heq]
    · simp [heq, Ne.symm heq]
  unfold layoutChunks
  rw [List.length_map, ← List.range_eq_range', herase, List.length_erase_of_mem (List.mem_range.mpr h),
    List.length_range]

/-- A chunk ends with the data or before, moved back or not. -/
theorem chunkStart_add_le {i : Nat} (hown : rank ≠ i) (h : chunksBefore lens rank (i + 1) ≤ size + 1)
    (hlen : lens i ≤ size) : chunkStart lens size rank i + lens i ≤ size := by
  have hle := chunksBefore_succ lens (Ne.symm hown)
  unfold chunkStart
  simp only [chunkOffset_eq (show chunksBefore lens rank i ≤ size + 1 by omega)]
  split
  next => omega
  next => omega

/-- The chunks of a rank laid end to end leave out no byte. -/
theorem exists_chunk_at {x : Nat} (h : x < chunksBefore lens rank n) :
    ∃ i < n, rank ≠ i ∧ chunksBefore lens rank i ≤ x ∧ x < chunksBefore lens rank (i + 1) := by
  induction n with
  | zero => cases h
  | succ n ih =>
    by_cases hx : x < chunksBefore lens rank n
    · obtain ⟨i, hi, hrest⟩ := ih hx
      exact ⟨i, by omega, hrest⟩
    · refine ⟨n, Nat.lt_succ_self n, ?_, by omega, h⟩
      rintro rfl
      rw [chunksBefore_own] at h
      exact hx h

/-- Nor do those that are moved back. -/
theorem exists_chunk {x : Nat} (hsize : chunksBefore lens rank n ≤ size + 1) (h : x < chunksBefore lens rank n)
    (hx : x < size) : ∃ i < n, rank ≠ i ∧ chunkStart lens size rank i ≤ x ∧ x < chunkStart lens size rank i + lens i := by
  obtain ⟨i, hi, hown, hlo, hhi⟩ := exists_chunk_at h
  have hmono := chunksBefore_mono lens rank (show i + 1 ≤ n by omega)
  have hsucc := chunksBefore_succ lens (Ne.symm hown)
  refine ⟨i, hi, hown, ?_⟩
  by_cases hfit : chunksBefore lens rank (i + 1) ≤ size
  · rw [chunkStart_of_le (Ne.symm hown) hfit]
    omega
  · rw [chunkStart_of_eq (Ne.symm hown) (by omega) (by omega)]
    omega

theorem parityBytes_le (dataBytes : Nat) {nPartners : Nat} (h : 1 < nPartners) (i : Nat) :
    parityBytes dataBytes nPartners i ≤ dataBytes := by
  have hdiv : dataBytes / nPartners ≤ dataBytes / 2 := Nat.div_le_div_left h (by decide)
  unfold parityBytes remainderBytes
  by_cases hz : dataBytes % nPartners = 0
  · rw [if_pos hz, if_neg (Nat.not_lt_zero i)]
    omega
  · rw [if_neg hz]
    by_cases hone : dataBytes = 1
    · subst hone
      have hzero := Nat.div_eq_of_lt h
      split <;> omega
    · have hpos : dataBytes ≠ 0 := by
        rintro rfl
        exact hz (Nat.zero_mod nPartners)
      split <;> omega

end Cover

namespace IMRSnapshot

theorem castInt_le_self (n : Nat) : castInt n ≤ n := by
  unfold castInt
  dsimp only
  split <;> omega

/-- Where there is data there is room for it. -/
theorem dataBytes_le_fitData {s : IMRSnapshot} {bytes : Nat} (h : s.dataBytes = bytes) :
    s.dataBytes ≤ castInt s.fitData.size := by
  have hfit := prepareForParity_intSize h 0
  change castInt s.fitData.size = _ at hfit
  omega

end IMRSnapshot

namespace ParityMember

theorem parityLengths_of_dataBytes {n d : Nat} {snap : IMRSnapshot} (hn : 3 ≤ n) (hint : (n : Int) ≤ 2147483647)
    (hcohort : snap.stagedSubsets.length = n) (hdata : snap.dataBytes = d) :
    snap.parityLengths = (List.range n).map fun i => (parityBytes d (n - 1) i : Int) := by
  have hpartners : wrapInt ((n : Int) - 1) = ((n - 1 : Nat) : Int) := by
    rw [wrapInt_eq (by omega) (by omega)]
    omega
  unfold IMRSnapshot.parityLengths
  rw [hdata, hcohort, hpartners, parityLengths_eq (Int.ofNat_le.mp (hdata ▸ snap.dataBytes_le)) (by omega) (by omega),
    Nat.sub_add_cancel (by omega)]

theorem chunksBefore_le_succ_length {n d : Nat} (hn : 3 ≤ n) (k : Fin n) :
    d ≤ chunksBefore (parityBytes d (n - 1)) k n ∧ chunksBefore (parityBytes d (n - 1)) k n ≤ d + 1 := by
  have hall := chunksBefore_all d (show 0 < n - 1 by omega) (show k.val ≤ n - 1 by omega)
  rw [Nat.sub_add_cancel (by omega)] at hall
  split at hall
  next => omega
  next => omega

theorem chunks_eq_layout {n d size : Nat} {snap : IMRSnapshot} (hn : 3 ≤ n) (k : Fin n)
    (hlens : snap.parityLengths = (List.range n).map fun i => (parityBytes d (n - 1) i : Int))
    (hcast : castInt snap.fitData.size = size) (hd : d ≤ size) (hmax : size ≤ 2147483647) (hint : n ≤ 2147483647) :
    snap.chunks k = .ok (layoutChunks (parityBytes d (n - 1)) size k 0 n) := by
  have hpos : 1 < n - 1 := by omega
  have htotal := chunksBefore_le_succ_length (d := d) hn k
  have hlen : ∀ i, parityBytes d (n - 1) i ≤ size := fun i => by
    have hle := parityBytes_le d hpos i
    omega
  have hvisit := @visitChunks_eq (parityBytes d (n - 1)) size k 0 n hlen
    (by rw [Nat.zero_add]; omega) fun i _ hi hown => by
      have hmono := chunksBefore_mono (parityBytes d (n - 1)) k (show i + 1 ≤ n by omega)
      have hsucc := chunksBefore_succ (parityBytes d (n - 1)) (Ne.symm hown)
      -- with all the bytes an `int` can count no parity is empty
      by_cases hall : d = 2147483647
      · have hquot : 1 ≤ d / (n - 1) := by
          rw [Nat.le_div_iff_mul_le (by omega)]
          omega
        have hquot' : d / (n - 1) ≤ parityBytes d (n - 1) i := Nat.le_add_right _ _
        omega
      · omega
  have hstart : wrapInt (chunkOffset (parityBytes d (n - 1)) size k 0 : Nat) = 0 := wrapInt_eq (x := 0) (by decide) (by decide)
  unfold IMRSnapshot.chunks
  rw [hstart] at hvisit
  rw [hlens, hcast, List.range_eq_range', hvisit]

/-- The parities have the same lengths on all ranks, and every rank goes through the chunks of its data:
one for each other rank, none of which goes beyond its data, and which leave out no byte that is to be
protected. -/
theorem chunks_cover {n : Nat} (hn : 3 ≤ n) (hint : (n : Int) ≤ intMax) {dataBytes : Int} (hd : 0 ≤ dataBytes)
    {snaps : Fin n → IMRSnapshot} (hcohort : ∀ k, (snaps k).stagedSubsets.length = n)
    (hdata : ∀ k, (snaps k).dataBytes = dataBytes) :
    (∀ k l, (snaps k).parityLengths = (snaps l).parityLengths) ∧ ∀ k, (snaps k).parityLengths.length = n ∧
      dataBytes ≤ (snaps k).fitData.size ∧ ∃ chunks, (snaps k).chunks k = .ok chunks ∧ chunks.length = n - 1 ∧
        (∀ c ∈ chunks, c.root ≠ k ∧ (snaps k).parityLengths[c.root]? = some c.len ∧ 0 ≤ c.start ∧
          c.start + c.len ≤ (snaps k).fitData.size) ∧
        ∀ x, 0 ≤ x → x < dataBytes → ∃ c ∈ chunks, c.start ≤ x ∧ x < c.start + c.len := by
  unfold intMax at hint
  obtain ⟨d, rfl⟩ := Int.eq_ofNat_of_zero_le hd
  have hlens := fun k => parityLengths_of_dataBytes hn hint (hcohort k) (hdata k)
  refine ⟨fun k l => (hlens k).trans (hlens l).symm, fun k => ?_⟩
  have hfit := IMRSnapshot.dataBytes_le_fitData (hdata k)
  have hsize := IMRSnapshot.castInt_le_self (snaps k).fitData.size
  have hmax := castInt_le (snaps k).fitData.size
  unfold intMax at hmax
  rw [hdata k] at hfit
  obtain ⟨size, hcast⟩ := Int.eq_ofNat_of_zero_le (Int.le_trans hd hfit)
  have htotal := chunksBefore_le_succ_length (d := d) hn k
  have hover : chunksBefore (parityBytes d (n - 1)) k n ≤ size + 1 := by omega
  have hlen : ∀ i, parityBytes d (n - 1) i ≤ size := fun i => by
    have hle := parityBytes_le d (show 1 < n - 1 by omega) i
    omega
  have hchunks := chunks_eq_layout hn k (hlens k) hcast (by omega) (by omega) (by omega)
  refine ⟨?_, by omega, _, hchunks, length_layoutChunks k.isLt, fun c hc => ?_, fun x hx hlt => ?_⟩
  · rw [hlens k, List.length_map, List.length_range]
  · obtain ⟨i, hi, hown, rfl⟩ := mem_layoutChunks.mp hc
    have hmono := chunksBefore_mono (parityBytes d (n - 1)) k (show i + 1 ≤ n by omega)
    have hbound := chunkStart_add_le hown (Nat.le_trans hmono hover) (hlen i)
    refine ⟨Ne.symm hown, ?_, Int.natCast_nonneg _, ?_⟩
    · change (snaps k).parityLengths[i]? = some (parityBytes d (n - 1) i : Int)
      rw [hlens k, List.getElem?_map, List.getElem?_range hi]
      rfl
    · change ((chunkStart (parityBytes d (n - 1)) size k i : Nat) : Int) + (parityBytes d (n - 1) i : Nat) ≤ _
      omega
  · obtain ⟨y, rfl⟩ := Int.eq_ofNat_of_zero_le hx
    obtain ⟨i, hi, hown, hlo, hhi⟩ := exists_chunk hover (show y < _ by omega) (show y < size by omega)
    refine ⟨_, mem_layoutChunks.mpr ⟨i, hi, hown, rfl⟩, ?_, ?_⟩
    · exact Int.ofNat_le.mpr hlo
    · change (y : Int) < (chunkStart (parityBytes d (n - 1)) size k i : Nat) + (parityBytes d (n - 1) i : Nat)
      omega

/-- Three ranks with five bytes to protect, in buffers of different sizes. -/
def fiveBytes (k : Fin 3) : IMRSnapshot :=
  { buf := ⟨[5, 9, 0].getD k 0, fun _ => 0⟩, elmSize := 1, elmMaxCount := 0, cohortRank := some k,
    stagedSubsets := [⟨{0, 4}⟩, ⟨{1}⟩, ∅], protectedSubsets := [∅, ∅, ∅],
    partner := { buf := ⟨0, fun _ => 0⟩, elmSize := 1, elmMaxCount := 0 } }

theorem chunks_cover_five : (∀ k l, (fiveBytes k).parityLengths = (fiveBytes l).parityLengths) ∧
    ∀ k, (fiveBytes k).parityLengths.length = 3 ∧
      (5 : Int) ≤ (fiveBytes k).fitData.size ∧ ∃ chunks, (fiveBytes k).chunks k = .ok chunks ∧ chunks.length = 3 - 1 ∧
        (∀ c ∈ chunks, c.root ≠ k ∧ (fiveBytes k).parityLengths[c.root]? = some c.len ∧ 0 ≤ c.start ∧
          c.start + c.len ≤ (fiveBytes k).fitData.size) ∧
        ∀ x, 0 ≤ x → x < (5 : Int) → ∃ c ∈ chunks, c.start ≤ x ∧ x < c.start + c.len :=
  chunks_cover (by decide) (by decide) (by decide) (fun _ => rfl) (by decide)

end ParityMember

end Fenix
