import Mathlib.Data.Int.DivMod

namespace Fenix

/-- The greatest `int`. -/
def intMax : Int := 2147483647

/-- The value of an `int` expression, which has none beyond the range of the type. -/
def toInt {ε : Type} (overflow : ε) (x : Int) : Except ε Int :=
  if -intMax - 1 ≤ x ∧ x ≤ intMax then .ok x else .error overflow

/-- A `size_t` as an `int`. -/
def castInt (n : Nat) : Int :=
  let low := n % 4294967296
  if low < 2147483648 then low else low - 4294967296

/-- An `int` as a `size_t`. -/
def castSize (x : Int) : Nat := (x % 18446744073709551616).toNat

theorem toInt_ok {ε : Type} {overflow : ε} {x : Int} (hl : -intMax - 1 ≤ x) (hu : x ≤ intMax) :
    toInt overflow x = .ok x := if_pos ⟨hl, hu⟩

theorem toInt_eq_ok {ε : Type} {overflow : ε} {x y : Int} (h : toInt overflow x = .ok y) : y = x ∧ x ≤ intMax := by
  unfold toInt at h
  split at h
  next hx => exact ⟨(Except.ok.inj h).symm, hx.2⟩
  next => cases h

theorem castInt_eq_iff {n : Nat} : castInt n = n ↔ n ≤ 2147483647 := by
  unfold castInt
  dsimp only
  split <;> omega

theorem castInt_le (n : Nat) : castInt n ≤ intMax := by
  unfold castInt intMax
  dsimp only
  split <;> omega

theorem castSize_natCast {n : Nat} (h : n < 18446744073709551616) : castSize n = n := by
  unfold castSize
  omega

/-- An `int` that is a size comes back as it was. -/
theorem castInt_castSize {x : Int} (hl : -intMax - 1 ≤ x) (hu : x ≤ intMax) : castInt (castSize x) = x := by
  unfold intMax at hl hu
  unfold castInt castSize
  dsimp only
  split <;> omega

end Fenix
