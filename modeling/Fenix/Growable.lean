import Mathlib.Logic.Function.Basic

/-- An array with a place in it, as long as the furthest place that it has been written at or moved to. -/
structure Growable (α : Type) where
  size : Nat := 0
  pos : Nat := 0
  entry : Nat → Option α := fun _ => none
  pos_le_size : pos ≤ size
  lt_size : ∀ i x, entry i = some x → i < size

namespace Growable

variable {α : Type}

/-- An array that nothing has been written in, with the place at its start. -/
def blank (size : Nat) : Growable α where
  size := size
  pos_le_size := Nat.zero_le size
  lt_size := fun _ _ h => absurd h (by simp)

def empty : Growable α := blank 0

/-- Write at the place, which moves on by one. -/
def write (a : Growable α) (x : α) : Growable α where
  size := max a.size (a.pos + 1)
  pos := a.pos + 1
  entry := Function.update a.entry a.pos (some x)
  pos_le_size := Nat.le_max_right _ _
  lt_size := by
    intro i y h
    by_cases hi : i = a.pos
    · omega
    · rw [Function.update_of_ne hi] at h
      have hlt := a.lt_size i y h
      omega

/-- Move to place `p`. -/
def seek (a : Growable α) (p : Nat) : Growable α where
  size := max a.size p
  pos := p
  entry := a.entry
  pos_le_size := Nat.le_max_right _ _
  lt_size := by
    intro i x h
    have hlt := a.lt_size i x h
    omega

@[simp] theorem pos_write (a : Growable α) (x : α) : (a.write x).pos = a.pos + 1 := rfl

@[simp] theorem size_write (a : Growable α) (x : α) : (a.write x).size = max a.size (a.pos + 1) := rfl

@[simp] theorem pos_seek (a : Growable α) (p : Nat) : (a.seek p).pos = p := rfl

@[simp] theorem size_seek (a : Growable α) (p : Nat) : (a.seek p).size = max a.size p := rfl

@[simp] theorem entry_seek (a : Growable α) (p : Nat) : (a.seek p).entry = a.entry := rfl

/-- A place holds what has been written there last. -/
theorem entry_write_eq_some (a : Growable α) {x y : α} {i : Nat} :
    (a.write x).entry i = some y ↔ i = a.pos ∧ x = y ∨ i ≠ a.pos ∧ a.entry i = some y := by
  unfold write
  by_cases hi : i = a.pos
  · subst hi
    simp
  · simp [hi]

end Growable
