import Mathlib.Data.List.TakeWhile

/-- The numbers from `n` on, one after the other. -/
def Consecutive : Int → List Int → Prop
  | _, [] => True
  | n, x :: xs => x = n ∧ Consecutive (n + 1) xs

namespace Consecutive

variable {n : Int} {xs ys : List Int}

theorem append (hx : Consecutive n xs) (hy : Consecutive (n + xs.length) ys) : Consecutive n (xs ++ ys) := by
  induction xs generalizing n with
  | nil =>
    rw [List.length_nil] at hy
    simpa using hy
  | cons x xs ih =>
    refine ⟨hx.1, ih hx.2 ?_⟩
    rw [List.length_cons] at hy
    have heq : n + 1 + (xs.length : Int) = n + ((xs.length + 1 : Nat) : Int) := by omega
    rw [heq]
    exact hy

theorem concat (hx : Consecutive n xs) : Consecutive n (xs ++ [n + xs.length]) :=
  hx.append ⟨rfl, trivial⟩

theorem mem_iff (h : Consecutive n xs) {i : Int} : i ∈ xs ↔ n ≤ i ∧ i < n + xs.length := by
  induction xs generalizing n with
  | nil =>
    simp only [List.not_mem_nil, List.length_nil, false_iff]
    omega
  | cons x xs ih =>
    rw [List.mem_cons, ih h.2, h.1, List.length_cons]
    omega

/-- An increasing list of all numbers from `n` up to `m` counts them. -/
theorem of_sorted {m : Int} (hs : xs.Pairwise (· < ·)) (hm : ∀ i, i ∈ xs ↔ n ≤ i ∧ i < m) : Consecutive n xs := by
  induction xs generalizing n with
  | nil => trivial
  | cons x xs ih =>
    obtain ⟨hx, hs⟩ := List.pairwise_cons.mp hs
    have hlo := (hm x).mp List.mem_cons_self
    have hxn : x = n := by
      by_contra hne
      rcases List.mem_cons.mp ((hm n).mpr ⟨Int.le_refl n, by omega⟩) with heq | hin
      · exact hne heq.symm
      · have hlt := hx n hin
        omega
    refine ⟨hxn, ih hs fun i => ?_⟩
    constructor
    · intro hi
      have hlt := hx i hi
      have hall := (hm i).mp (List.mem_cons_of_mem x hi)
      omega
    · intro hi
      rcases List.mem_cons.mp ((hm i).mpr ⟨by omega, hi.2⟩) with heq | hin
      · omega
      · exact hin

end Consecutive
