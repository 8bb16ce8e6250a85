import Mathlib.Data.List.GetD

namespace Fenix

/-- A flat memory of cells. -/
def Memory (α : Type) : Type := Nat → α

namespace Memory

variable {α : Type}

/-- The `n` cells from `p` on. -/
def read (m : Memory α) (p n : Nat) : List α := (List.range n).map fun i => m (p + i)

/-- Put cells from `p` on. -/
def write (m : Memory α) (p : Nat) (xs : List α) : Memory α :=
  fun a => if p ≤ a then xs.getD (a - p) (m a) else m a

variable {m : Memory α} {p n a : Nat} {xs ys : List α}

@[simp] theorem length_read : (m.read p n).length = n := by simp [read]

theorem write_outside (h : a < p ∨ p + xs.length ≤ a) : m.write p xs a = m a := by
  unfold write
  split
  next hle => exact List.getD_eq_default xs (m a) (by omega)
  next => rfl

theorem write_inside (h : n < xs.length) : m.write p xs (p + n) = xs[n] := by
  unfold write
  rw [if_pos (Nat.le_add_right p n), Nat.add_sub_cancel_left]
  exact List.getD_eq_getElem xs _ h

theorem write_nil : m.write p [] = m := funext fun _ => write_outside (by simp; omega)

/-- A second write of as many cells at the same place hides the first. -/
theorem write_write (h : xs.length = ys.length) : (m.write p xs).write p ys = m.write p ys := by
  funext a
  by_cases ha : a < p ∨ p + ys.length ≤ a
  · rw [write_outside ha, write_outside ha, write_outside (by omega)]
  · obtain ⟨i, rfl⟩ := Nat.exists_eq_add_of_le (show p ≤ a by omega)
    rw [write_inside (by omega), write_inside (by omega)]

end Memory

end Fenix
