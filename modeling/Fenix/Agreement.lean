import Mathlib.Data.List.Basic

/-!
The agreement of several parties on the bitwise conjunction of what they contribute.
-/

/-- The value that every party of an agreement obtains. -/
def agree {w : Nat} (contributions : List (BitVec w)) : BitVec w :=
  contributions.foldr (· &&& ·) (BitVec.allOnes w)

section Agreement

variable {w : Nat} {x y : BitVec w} {xs : List (BitVec w)}

theorem agree_cons : agree (x :: xs) = x &&& agree xs := rfl

/-- What is agreed on has no bit that one contribution lacks. -/
theorem and_agree_of_mem (h : x ∈ xs) : x &&& agree xs = agree xs := by
  induction xs with
  | nil => cases h
  | cons y ys ih =>
    rw [agree_cons]
    rcases List.mem_cons.mp h with rfl | hx
    · rw [← BitVec.and_assoc, BitVec.and_self]
    · rw [← BitVec.and_assoc, BitVec.and_comm x y, BitVec.and_assoc, ih hx]

theorem agree_eq_of_forall (hne : xs ≠ []) (h : ∀ y ∈ xs, y = x) : agree xs = x := by
  induction xs with
  | nil => exact absurd rfl hne
  | cons y ys ih =>
    obtain ⟨rfl, hys⟩ := List.forall_mem_cons.mp h
    cases ys with
    | nil => exact BitVec.and_allOnes
    | cons z zs => rw [agree_cons, ih nofun hys, BitVec.and_self]

/-- Where no two contributions share all the bits of one, a contribution is agreed on exactly when it
is the only one. -/
theorem agree_eq_iff (hx : x ∈ xs) (h : ∀ y ∈ xs, y &&& x = x → y = x) :
    agree xs = x ↔ ∀ y ∈ xs, y = x := by
  constructor
  · intro heq y hy
    have hand := and_agree_of_mem hy
    rw [heq] at hand
    exact h y hy hand
  · exact agree_eq_of_forall (List.ne_nil_of_mem hx)

end Agreement
