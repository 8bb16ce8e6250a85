import Mathlib.Data.List.Basic

namespace Gather

variable {β : Type}

/-- Memory with `len` places from `start` on set anew. -/
def place (dst : Nat → β) (start len : Nat) (f : Nat → β) (x : Nat) : β :=
  if start ≤ x ∧ x < start + len then f (x - start) else dst x

/-- Ranges, by where they start and how long they are, are put one after the other from `ptr` on. -/
def gather (src : Nat → β) : List (Nat × Nat) → Nat → (Nat → β) → Nat → β
  | [], _, dst => dst
  | (start, len) :: rs, ptr, dst => gather src rs (ptr + len) (place dst ptr len fun k => src (start + k))

/-- What is there one after the other is put where the ranges are. -/
def scatter (packed : Nat → β) : List (Nat × Nat) → Nat → (Nat → β) → Nat → β
  | [], _, dst => dst
  | (start, len) :: rs, ptr, dst => scatter packed rs (ptr + len) (place dst start len fun k => packed (ptr + k))

variable {src dst packed : Nat → β} {rs : List (Nat × Nat)} {ptr x y : Nat}

theorem place_in {start len k : Nat} {f : Nat → β} (hk : k < len) : place dst start len f (start + k) = f k := by
  unfold place
  rw [if_pos (by omega), Nat.add_sub_cancel_left]

theorem gather_before (hx : x < ptr) : gather src rs ptr dst x = dst x := by
  induction rs generalizing ptr dst with
  | nil => rfl
  | cons r rs ih =>
    obtain ⟨start, len⟩ := r
    refine (ih (by omega)).trans ?_
    unfold place
    rw [if_neg (by omega)]

/-- What was gathered goes back to where it was, and nothing else is touched. -/
theorem scatter_gather : scatter (gather src rs ptr packed) rs ptr dst y =
    if ∃ r ∈ rs, r.1 ≤ y ∧ y < r.1 + r.2 then src y else dst y := by
  induction rs generalizing ptr packed dst with
  | nil => simp [scatter]
  | cons r rs ih =>
    obtain ⟨start, len⟩ := r
    refine ih.trans ?_
    by_cases hrest : ∃ r ∈ rs, r.1 ≤ y ∧ y < r.1 + r.2
    · rw [if_pos hrest, if_pos]
      exact List.exists_mem_cons_of_exists hrest
    · rw [if_neg hrest]
      unfold place
      by_cases hin : start ≤ y ∧ y < start + len
      · obtain ⟨k, rfl⟩ := Nat.exists_eq_add_of_le hin.1
        rw [if_pos hin, if_pos ⟨(start, len), List.mem_cons_self, hin⟩]
        change gather src rs (ptr + len) (place packed ptr len fun k => src (start + k)) (ptr + (start + k - start)) = _
        rw [Nat.add_sub_cancel_left, gather_before (by omega), place_in (by omega)]
      · rw [if_neg hin, if_neg]
        rintro ⟨r, hr, hy⟩
        rcases List.mem_cons.mp hr with rfl | hr
        · exact hin hy
        · exact hrest ⟨r, hr, hy⟩

end Gather
