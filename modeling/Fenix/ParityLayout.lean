import Mathlib.Data.Nat.Basic

namespace Fenix

/-- The bytes left over when the data is divided among the parities, and one more if there are any. -/
def remainderBytes (dataBytes nPartners : Nat) : Nat :=
  if dataBytes % nPartners = 0 then 0 else dataBytes % nPartners + 1

/-- The length of the parity of rank `i`. -/
def parityBytes (dataBytes nPartners i : Nat) : Nat :=
  dataBytes / nPartners + if i < remainderBytes dataBytes nPartners then 1 else 0

/-- How far into its data a rank is before chunk `i`: it skips its own one, and steps back by a byte when
the chunk would not fit. -/
def chunkOffset (lens : Nat → Nat) (size rank : Nat) : Nat → Nat
  | 0 => 0
  | i + 1 =>
    let offset := chunkOffset lens size rank i
    if i = rank then offset
    else if size < offset + lens i then offset + lens i - 1
    else offset + lens i

/-- Where chunk `i` of a rank starts. -/
def chunkStart (lens : Nat → Nat) (size rank i : Nat) : Nat :=
  let offset := chunkOffset lens size rank i
  if size < offset + lens i then offset - 1 else offset

/-- A chunk is at most one byte too long for the data. -/
def ChunkFits (lens : Nat → Nat) (size rank i : Nat) : Prop :=
  i = rank ∨ chunkOffset lens size rank i + lens i ≤ size + 1

instance (lens : Nat → Nat) (size rank i : Nat) : Decidable (ChunkFits lens size rank i) :=
  inferInstanceAs (Decidable (_ ∨ _))

section Offsets

/-- The length of the chunks of a rank before chunk `i`, laid end to end. -/
def chunksBefore (lens : Nat → Nat) (rank : Nat) : Nat → Nat
  | 0 => 0
  | i + 1 => if i = rank then chunksBefore lens rank i else chunksBefore lens rank i + lens i

variable {lens : Nat → Nat} {size rank : Nat}

theorem chunksBefore_own (lens : Nat → Nat) (rank : Nat) : chunksBefore lens rank (rank + 1) = chunksBefore lens rank rank := if_pos rfl

theorem chunksBefore_succ (lens : Nat → Nat) {rank i : Nat} (h : i ≠ rank) :
    chunksBefore lens rank (i + 1) = chunksBefore lens rank i + lens i := if_neg h

theorem chunksBefore_le_succ (lens : Nat → Nat) (rank i : Nat) : chunksBefore lens rank i ≤ chunksBefore lens rank (i + 1) := by
  by_cases h : i = rank
  · rw [h, chunksBefore_own]
  · rw [chunksBefore_succ lens h]
    omega

theorem chunksBefore_mono (lens : Nat → Nat) (rank : Nat) {i j : Nat} (h : i ≤ j) : chunksBefore lens rank i ≤ chunksBefore lens rank j := by
  induction h with
  | refl => exact Nat.le_refl _
  | step _ ih => exact Nat.le_trans ih (chunksBefore_le_succ lens rank _)

/-- With one byte too few at most, a rank is where its chunks laid end to end are, or at the end. -/
theorem chunkOffset_eq {i : Nat} (h : chunksBefore lens rank i ≤ size + 1) :
    chunkOffset lens size rank i = min (chunksBefore lens rank i) size := by
  induction i with
  | zero => simp [chunkOffset, chunksBefore]
  | succ i ih =>
    have hle := Nat.le_trans (chunksBefore_le_succ lens rank i) h
    have hi := ih hle
    unfold chunkOffset
    simp only [hi]
    by_cases hown : i = rank
    · subst hown
      rw [if_pos rfl, chunksBefore_own]
    · rw [if_neg hown]
      rw [chunksBefore_succ lens hown] at h ⊢
      split
      next => omega
      next => omega

theorem chunkFits {i : Nat} (h : chunksBefore lens rank (i + 1) ≤ size + 1) : ChunkFits lens size rank i := by
  by_cases hown : i = rank
  · exact Or.inl hown
  · refine Or.inr ?_
    have hle := Nat.le_trans (chunksBefore_le_succ lens rank i) h
    rw [chunkOffset_eq hle]
    rw [chunksBefore_succ lens hown] at h
    omega

/-- A chunk that fits starts where those before it end. -/
theorem chunkStart_of_le {i : Nat} (hown : i ≠ rank) (h : chunksBefore lens rank (i + 1) ≤ size) :
    chunkStart lens size rank i = chunksBefore lens rank i := by
  have hle := Nat.le_trans (chunksBefore_le_succ lens rank i) h
  unfold chunkStart
  simp only [chunkOffset_eq (Nat.le_succ_of_le hle)]
  rw [chunksBefore_succ lens hown] at h
  rw [if_neg (by omega)]
  omega

/-- The chunk for which there is one byte too few starts one byte before. -/
theorem chunkStart_of_eq {i : Nat} (hown : i ≠ rank) (hfit : chunksBefore lens rank i ≤ size)
    (h : chunksBefore lens rank (i + 1) = size + 1) :
    chunkStart lens size rank i = chunksBefore lens rank i - 1 := by
  unfold chunkStart
  simp only [chunkOffset_eq (Nat.le_succ_of_le hfit)]
  rw [chunksBefore_succ lens hown] at h
  rw [if_pos (by omega)]
  omega

/-- There is a chunk that the last byte of all belongs to. -/
theorem exists_last_chunk {n t : Nat} (h : chunksBefore lens rank n = t + 1) :
    ∃ q < n, q ≠ rank ∧ chunksBefore lens rank q ≤ t ∧ chunksBefore lens rank (q + 1) = t + 1 := by
  induction n with
  | zero => cases h
  | succ n ih =>
    by_cases hn : chunksBefore lens rank n = t + 1
    · obtain ⟨q, hq, hown, hfit, heq⟩ := ih hn
      exact ⟨q, by omega, hown, hfit, heq⟩
    · have hle := chunksBefore_le_succ lens rank n
      refine ⟨n, Nat.lt_succ_self n, ?_, by omega, h⟩
      rintro rfl
      rw [chunksBefore_own] at h
      exact hn h

end Offsets

section Lengths

variable {dataBytes nPartners rank : Nat}

theorem remainderBytes_le (dataBytes : Nat) {nPartners : Nat} (h : 0 < nPartners) : remainderBytes dataBytes nPartners ≤ nPartners := by
  have hlt := Nat.mod_lt dataBytes h
  unfold remainderBytes
  split
  next => omega
  next => omega

theorem chunksBefore_add (f g : Nat → Nat) (i : Nat) : chunksBefore (fun j => f j + g j) rank i =
    chunksBefore f rank i + chunksBefore g rank i := by
  induction i with
  | zero => rfl
  | succ i ih =>
    unfold chunksBefore
    split
    next => exact ih
    next =>
      rw [ih]
      omega

theorem chunksBefore_const (p i : Nat) :
    chunksBefore (fun _ => p) rank i = (if rank < i then i - 1 else i) * p := by
  induction i with
  | zero => simp [chunksBefore]
  | succ i ih =>
    unfold chunksBefore
    rw [ih]
    by_cases hown : i = rank
    · subst hown
      simp
    · rw [if_neg hown]
      by_cases hlt : rank < i
      · have hlt' : rank < i + 1 := by omega
        rw [if_pos hlt, if_pos hlt', ← Nat.succ_mul]
        congr 1
        omega
      · have hlt' : ¬rank < i + 1 := by omega
        rw [if_neg hlt, if_neg hlt', ← Nat.succ_mul]

theorem chunksBefore_extra (r i : Nat) : chunksBefore (fun j => if j < r then 1 else 0) rank i =
    if rank < min i r then min i r - 1 else min i r := by
  induction i with
  | zero => simp [chunksBefore]
  | succ i ih =>
    unfold chunksBefore
    rw [ih]
    by_cases hown : i = rank
    · rw [if_pos hown]
      split <;> split <;> omega
    · rw [if_neg hown]
      split <;> split <;> split <;> omega

/-- The chunks of a rank make up the data, and one byte more if its parity is a shorter one. -/
theorem chunksBefore_all (dataBytes : Nat) {nPartners rank : Nat} (hm : 0 < nPartners) (hr : rank ≤ nPartners) :
    chunksBefore (parityBytes dataBytes nPartners) rank (nPartners + 1) =
      if dataBytes % nPartners = 0 ∨ rank ≤ dataBytes % nPartners then dataBytes else dataBytes + 1 := by
  have hle := remainderBytes_le dataBytes hm
  have hdiv := Nat.div_add_mod dataBytes nPartners
  have hown : rank < nPartners + 1 := by omega
  unfold parityBytes
  rw [chunksBefore_add, chunksBefore_const, chunksBefore_extra, if_pos hown, Nat.add_sub_cancel,
    Nat.min_eq_right (by omega)]
  unfold remainderBytes
  by_cases hz : dataBytes % nPartners = 0
  · simp only [hz, if_true, true_or, Nat.not_lt_zero, if_false]
    omega
  · simp only [hz, if_false, false_or]
    by_cases hrank : rank ≤ dataBytes % nPartners
    · rw [if_pos (by omega), if_pos hrank]
      omega
    · rw [if_neg (by omega), if_neg hrank]
      omega

end Lengths

end Fenix
