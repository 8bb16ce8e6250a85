import Fenix.ParityLayout

namespace Fenix

/-- The data that a lost rank gets back in memory that was zeroed, by the chunks before chunk `i`: the
others bring each back from where it was in the lost data, and it is added to where it is to go. -/
def rebuilt (lens : Nat → Nat) (size newSize rank : Nat) (data : Nat → UInt8) : Nat → Nat → UInt8
  | 0, _ => 0
  | i + 1, x =>
    if i ≠ rank ∧ chunkStart lens newSize rank i ≤ x ∧ x < chunkStart lens newSize rank i + lens i then
      data (chunkStart lens size rank i + (x - chunkStart lens newSize rank i)) ^^^
        rebuilt lens size newSize rank data i x
    else rebuilt lens size newSize rank data i x

/-- The length of the last chunk of a rank with a shorter parity. -/
def lastChunk (dataBytes nPartners rank : Nat) : Nat :=
  dataBytes / nPartners +
    if dataBytes / nPartners = 0 ∨ rank = nPartners ∧ dataBytes % nPartners + 1 = nPartners then 1 else 0

/-- When the data of a lost rank can be rebuilt: it has a longer parity, or the bytes that its last chunk
is off by are zero. -/
def Rebuildable (dataBytes nPartners rank size : Nat) (data : Nat → UInt8) : Prop :=
  dataBytes % nPartners = 0 ∨ rank ≤ dataBytes % nPartners ∨
    (size = dataBytes ∧ data (dataBytes - lastChunk dataBytes nPartners rank) = 0) ∨
    (dataBytes < size ∧ ∀ x, dataBytes - lastChunk dataBytes nPartners rank < x → x ≤ dataBytes → data x = 0)

theorem xor_eq_right_iff {a b : UInt8} : a ^^^ b = b ↔ a = 0 := by
  constructor
  · intro h
    calc a = a ^^^ b ^^^ b := by rw [UInt8.xor_assoc, UInt8.xor_self, UInt8.xor_zero]
      _ = 0 := by rw [h, UInt8.xor_self]
  · intro h
    rw [h, UInt8.zero_xor]

section Rebuilt

variable {lens : Nat → Nat} {size newSize rank : Nat} {data : Nat → UInt8}

/-- The chunks that fit bring the data back. -/
theorem rebuilt_of_le (data : Nat → UInt8) (hs : newSize ≤ size) {i : Nat}
    (h : chunksBefore lens rank i ≤ newSize) (x : Nat) :
    rebuilt lens size newSize rank data i x = if x < chunksBefore lens rank i then data x else 0 := by
  induction i with
  | zero => rfl
  | succ i ih =>
    have hle := chunksBefore_le_succ lens rank i
    have hi := ih (Nat.le_trans hle h)
    unfold rebuilt
    by_cases hown : i = rank
    · subst hown
      rw [if_neg (fun hc => hc.1 rfl), hi, chunksBefore_own]
    · rw [chunkStart_of_le hown h, chunkStart_of_le hown (Nat.le_trans h hs), hi]
      have hsucc := chunksBefore_succ lens hown
      by_cases hx : x < chunksBefore lens rank i
      · rw [if_neg (by omega), if_pos hx, if_pos (by omega)]
      · rw [if_neg hx]
        by_cases hx' : x < chunksBefore lens rank (i + 1)
        · rw [if_pos ⟨hown, by omega, by omega⟩, if_pos hx', UInt8.xor_zero]
          congr 1
          omega
        · rw [if_neg (by omega), if_neg hx']

/-- Chunks of no length bring nothing. -/
theorem rebuilt_of_eq (data : Nat → UInt8) {i j : Nat} (hij : i ≤ j)
    (h : chunksBefore lens rank j ≤ chunksBefore lens rank i) (x : Nat) :
    rebuilt lens size newSize rank data j x = rebuilt lens size newSize rank data i x := by
  induction j with
  | zero =>
    cases Nat.le_zero.mp hij
    rfl
  | succ j ih =>
    by_cases heq : i = j + 1
    · rw [heq]
    · have hle := chunksBefore_le_succ lens rank j
      have hmono := chunksBefore_mono lens rank (Nat.le_of_lt_succ (Nat.lt_of_le_of_ne hij heq))
      rw [← ih (by omega) (by omega)]
      change (if _ then _ else _) = _
      refine if_neg ?_
      rintro ⟨hown, h₁, h₂⟩
      have hsucc := chunksBefore_succ lens hown
      omega

/-- The chunk for which there is one byte too few goes one byte too far to the front. -/
theorem rebuilt_last (data : Nat → UInt8) (hs : newSize ≤ size) {q : Nat} (hown : q ≠ rank)
    (hpos : 0 < chunksBefore lens rank q) (hfit : chunksBefore lens rank q ≤ newSize)
    (h : chunksBefore lens rank (q + 1) = newSize + 1) (x : Nat) :
    rebuilt lens size newSize rank data (q + 1) x =
      if x < newSize - lens q then data x
      else if x = newSize - lens q then data (chunkStart lens size rank q) ^^^ data x
      else if x < newSize then data (chunkStart lens size rank q + (x - (newSize - lens q)))
      else 0 := by
  have hsucc := chunksBefore_succ lens hown
  unfold rebuilt
  rw [rebuilt_of_le data hs hfit x, chunkStart_of_eq hown hfit h]
  have hstart : chunksBefore lens rank q - 1 = newSize - lens q := by omega
  rw [hstart]
  by_cases hlt : x < newSize - lens q
  · rw [if_neg (by omega), if_pos hlt, if_pos (by omega)]
  · rw [if_neg hlt]
    by_cases heq : x = newSize - lens q
    · rw [if_pos ⟨hown, by omega, by omega⟩, if_pos heq, if_pos (by omega), heq, Nat.sub_self]
      rfl
    · rw [if_neg heq]
      by_cases hend : x < newSize
      · rw [if_pos ⟨hown, by omega, by omega⟩, if_pos hend, if_neg (by omega), UInt8.xor_zero]
      · rw [if_neg (by omega), if_neg hend, if_neg (by omega)]

/-- One byte is added to another one where the data ends with the lost memory, all of the last chunk is
off by one where it does not. -/
theorem rebuilt_last_iff (data : Nat → UInt8) (hs : newSize ≤ size) {q : Nat} (hown : q ≠ rank)
    (hpos : 0 < chunksBefore lens rank q) (hfit : chunksBefore lens rank q ≤ newSize)
    (h : chunksBefore lens rank (q + 1) = newSize + 1) :
    (∀ x < newSize, rebuilt lens size newSize rank data (q + 1) x = data x) ↔
      (size = newSize ∧ data (newSize - lens q) = 0) ∨
      (newSize < size ∧ ∀ x, newSize - lens q < x → x ≤ newSize → data x = 0) := by
  have hsucc := chunksBefore_succ lens hown
  have hlast := rebuilt_last data hs hown hpos hfit h
  by_cases heq : size = newSize
  · have hstart : chunkStart lens size rank q = newSize - lens q := by
      rw [heq, chunkStart_of_eq hown hfit h]
      omega
    rw [hstart] at hlast
    constructor
    · intro hall
      have hx := hall (newSize - lens q) (by omega)
      rw [hlast, if_neg (Nat.lt_irrefl _), if_pos rfl, xor_eq_right_iff] at hx
      exact Or.inl ⟨heq, hx⟩
    · rintro (⟨_, hzero⟩ | ⟨hlt, _⟩)
      · intro x hx
        rw [hlast x]
        split
        next => rfl
        next =>
          split
          next hxq => rw [hxq, hzero, UInt8.xor_zero]
          next hxq =>
            congr 1
            omega
      · omega
  · have hstart : chunkStart lens size rank q = newSize - lens q + 1 := by
      rw [chunkStart_of_le hown (by omega)]
      omega
    rw [hstart] at hlast
    constructor
    · intro hall
      refine Or.inr ⟨by omega, fun x hlo hhi => ?_⟩
      induction x with
      | zero => omega
      | succ x ih =>
        have hx := hall x (by omega)
        rw [hlast, if_neg (by omega)] at hx
        by_cases hxq : x = newSize - lens q
        · rw [if_pos hxq, xor_eq_right_iff] at hx
          rw [hxq]
          exact hx
        · rw [if_neg hxq, if_pos (by omega)] at hx
          have hidx : newSize - lens q + 1 + (x - (newSize - lens q)) = x + 1 := by omega
          rw [hidx] at hx
          rw [hx]
          exact ih (by omega) (by omega)
    · rintro (⟨hsame, _⟩ | ⟨_, hzero⟩)
      · exact absurd hsame heq
      · intro x hx
        rw [hlast x]
        split
        next => rfl
        next hlo =>
          split
          next hxq => rw [hzero _ (Nat.lt_succ_self _) (by omega), UInt8.zero_xor]
          next hxq =>
            rw [hzero x (by omega) (by omega)]
            exact hzero _ (by omega) (by omega)

end Rebuilt

section Shorter

variable {dataBytes nPartners rank size : Nat}

/-- Where a shorter parity leaves a byte out, the last chunk is preceded by another and has the length
told. -/
theorem last_chunk (hm : 1 < nPartners) (hr : rank ≤ nPartners) (hz : dataBytes % nPartners ≠ 0)
    (hlt : dataBytes % nPartners < rank) : ∃ q < nPartners + 1, q ≠ rank ∧
      0 < chunksBefore (parityBytes dataBytes nPartners) rank q ∧
      chunksBefore (parityBytes dataBytes nPartners) rank q ≤ dataBytes ∧
      chunksBefore (parityBytes dataBytes nPartners) rank (q + 1) = dataBytes + 1 ∧
      chunksBefore (parityBytes dataBytes nPartners) rank (nPartners + 1) = dataBytes + 1 ∧
      parityBytes dataBytes nPartners q = lastChunk dataBytes nPartners rank := by
  have hall := chunksBefore_all dataBytes (Nat.lt_of_succ_lt hm) hr
  rw [if_neg (by omega)] at hall
  obtain ⟨q, hq, hown, hfit, heq⟩ := exists_last_chunk hall
  have hmod := Nat.mod_lt dataBytes (Nat.lt_of_succ_lt hm)
  have hdiv := Nat.div_add_mod dataBytes nPartners
  have hrem : remainderBytes dataBytes nPartners = dataBytes % nPartners + 1 := if_neg hz
  have hlen : ∀ i, parityBytes dataBytes nPartners i =
      dataBytes / nPartners + if i < dataBytes % nPartners + 1 then 1 else 0 := fun i => by
    unfold parityBytes
    rw [hrem]
  unfold lastChunk
  generalize dataBytes / nPartners = p at hdiv hlen ⊢
  have hsucc := chunksBefore_succ (parityBytes dataBytes nPartners) hown
  -- the chunks after the last one are empty
  have hempty : ∀ i, q < i → i < nPartners + 1 → i ≠ rank → parityBytes dataBytes nPartners i = 0 := by
    intro i hqi hi hirank
    have h₁ : chunksBefore _ rank (q + 1) ≤ _ := chunksBefore_mono (parityBytes dataBytes nPartners) rank hqi
    have h₂ : chunksBefore _ rank (i + 1) ≤ _ := chunksBefore_mono (parityBytes dataBytes nPartners) rank hi
    have h₃ := chunksBefore_succ (parityBytes dataBytes nPartners) hirank
    omega
  have hfirst : 0 < chunksBefore (parityBytes dataBytes nPartners) rank q := by
    have hzero : (0 : Nat) ≠ rank := by omega
    have hone : chunksBefore (parityBytes dataBytes nPartners) rank 1 = 0 + parityBytes dataBytes nPartners 0 :=
      chunksBefore_succ (parityBytes dataBytes nPartners) hzero
    rw [hlen 0, if_pos (by omega)] at hone
    by_cases hq0 : q = 0
    · subst hq0
      have hmul : p ≤ nPartners * p :=
        Nat.le_mul_of_pos_left _ (Nat.lt_of_succ_lt hm)
      change chunksBefore (parityBytes dataBytes nPartners) rank 1 = _ at heq
      omega
    · have hmono := chunksBefore_mono (parityBytes dataBytes nPartners) rank (Nat.pos_of_ne_zero hq0)
      change chunksBefore (parityBytes dataBytes nPartners) rank 1 ≤ _ at hmono
      omega
  refine ⟨q, hq, hown, hfirst, hfit, heq, hall, ?_⟩
  have hpos : 0 < parityBytes dataBytes nPartners q := by omega
  by_cases hp : p = 0
  · rw [hlen, hp] at hpos
    rw [hlen, hp, if_pos (Or.inl rfl)]
    split at hpos
    next hlong => rw [if_pos hlong]
    next => omega
  · have hfull : ∀ i, parityBytes dataBytes nPartners i ≠ 0 := by
      intro i
      rw [hlen]
      omega
    by_cases hlast : rank = nPartners
    · have hpen : q = nPartners - 1 := by
        by_contra hne
        exact hfull _ (hempty (nPartners - 1) (by omega) (by omega) (by omega))
      rw [hlen, hpen]
      congr 1
      exact if_congr (by omega) rfl rfl
    · have hend : q = nPartners := by
        by_contra hne
        exact hfull _ (hempty nPartners (by omega) (by omega) (Ne.symm hlast))
      rw [hlen, hend]
      congr 1
      exact if_congr (by omega) rfl rfl

/-- All of the data of a lost rank is rebuilt exactly when it has a longer parity or the bytes its last
chunk is off by are zero. -/
theorem rebuilt_iff (hm : 1 < nPartners) (hr : rank ≤ nPartners) (hs : dataBytes ≤ size)
    (data : Nat → UInt8) :
    (∀ x < dataBytes, rebuilt (parityBytes dataBytes nPartners) size dataBytes rank data (nPartners + 1) x =
      data x) ↔ Rebuildable dataBytes nPartners rank size data := by
  unfold Rebuildable
  by_cases hlong : dataBytes % nPartners = 0 ∨ rank ≤ dataBytes % nPartners
  · have hall := chunksBefore_all dataBytes (Nat.lt_of_succ_lt hm) hr
    rw [if_pos hlong] at hall
    refine iff_of_true (fun x hx => ?_) ?_
    · rw [rebuilt_of_le data hs (Nat.le_of_eq hall), hall, if_pos hx]
    · rcases hlong with h | h
      · exact Or.inl h
      · exact Or.inr (Or.inl h)
  · obtain ⟨hz, hlt⟩ := not_or.mp hlong
    obtain ⟨q, hq, hown, hpos, hfit, hlast, hall, hlen⟩ := last_chunk hm hr hz (by omega)
    have hsame : ∀ x, rebuilt (parityBytes dataBytes nPartners) size dataBytes rank data (nPartners + 1) x =
        rebuilt (parityBytes dataBytes nPartners) size dataBytes rank data (q + 1) x :=
      rebuilt_of_eq data hq (by omega)
    simp only [hsame]
    rw [rebuilt_last_iff data hs hown hpos hfit hlast, hlen]
    simp only [hz, hlt, false_or]

end Shorter

end Fenix
