import Mathlib.Data.Finset.Fold
import Mathlib.Data.Fintype.Basic

/-!
A code with one parity: of contributions combined by an operation that undoes itself, any one can be
lost and had back from the others.
-/

namespace ParityCode

open Finset

theorem left_neutral {α : Type} (op : α → α → α) (e : α) [Std.LawfulLeftIdentity op e] (a : α) : op e a = a :=
  Std.LawfulLeftIdentity.left_id a

variable {α ι : Type} [Fintype ι] [DecidableEq ι] {op : α → α → α} {e : α} [Std.Commutative op]
  [Std.Associative op] [Std.LawfulLeftIdentity op e]

/-- What all contribute, combined. -/
def combine (op : α → α → α) [Std.Commutative op] [Std.Associative op] (e : α) (f : ι → α) : α :=
  univ.fold op e f

/-- Replacing one contribution takes the old one out and the new one in. -/
theorem combine_update (hself : ∀ a, op a a = e) (f : ι → α) (i : ι) (v : α) :
    combine op e (Function.update f i v) = op (op (combine op e f) (f i)) v := by
  have hsplit : ∀ g : ι → α, combine op e g = op (g i) ((univ.erase i).fold op e g) := by
    intro g
    unfold combine
    rw [← insert_erase (mem_univ i), fold_insert (notMem_erase i _), insert_erase (mem_univ i)]
  have hrest : (univ.erase i).fold op e (Function.update f i v) = (univ.erase i).fold op e f :=
    fold_congr fun j hj => Function.update_of_ne (ne_of_mem_erase hj) v f
  generalize hr : (univ.erase i).fold op e f = r at hrest
  rw [hsplit f, hsplit (Function.update f i v), hrest, hr, Function.update_self]
  calc op v r = op (op e r) v := by rw [left_neutral op e]; ac_rfl
    _ = op (op (op (f i) (f i)) r) v := by rw [hself]
    _ = op (op (op (f i) r) (f i)) v := by ac_rfl

/-- What the parity holds, from the contributions to it. -/
theorem combine_parity (hself : ∀ a, op a a = e) {f : ι → α} {i : ι} (hi : f i = e) (w : α) :
    combine op e (Function.update f i w) = op (combine op e f) w := by
  rw [combine_update hself, hi]
  congr 1
  calc op (combine op e f) e = op e (combine op e f) := by ac_rfl
    _ = combine op e f := left_neutral op e _

/-- Where `j` was lost, combining the others with the parity in the place of `i` brings it back. -/
theorem combine_lost (hself : ∀ a, op a a = e) {f : ι → α} {i j : ι} (hi : f i = e) (hij : j ≠ i)
    (w : α) : combine op e (Function.update (Function.update f i (combine op e f)) j w) = op (f j) w := by
  rw [combine_update hself, combine_parity hself hi, hself, Function.update_of_ne hij,
    left_neutral op e]

end ParityCode
