import Mathlib.Data.List.Pairwise
import Mathlib.Data.List.Sort
import Mathlib.Order.Lattice
import Mathlib.Tactic.Tauto

/-- A set kept as the sorted list of its elements. -/
@[ext] structure OrdSet (α : Type) [LinearOrder α] where
  entries : List α
  sorted : entries.Pairwise (· < ·)

namespace OrdSet

variable {α : Type} [LinearOrder α] {s t : OrdSet α} {x y : α}

instance : Membership α (OrdSet α) := ⟨fun s x => x ∈ s.entries⟩

instance : DecidableEq (OrdSet α) := fun s t => decidable_of_iff (s.entries = t.entries) OrdSet.ext_iff.symm

instance (s : OrdSet α) (x : α) : Decidable (x ∈ s) := inferInstanceAs (Decidable (x ∈ s.entries))

theorem mem_def : x ∈ s ↔ x ∈ s.entries := Iff.rfl

theorem nodup (s : OrdSet α) : s.entries.Nodup := s.sorted.imp fun h => ne_of_lt h

theorem ext_mem (h : ∀ x, x ∈ s ↔ x ∈ t) : s = t := by
  cases s with
  | mk xs hxs =>
    cases t with
    | mk ys hys =>
      have heq : xs = ys := hxs.eq_of_mem_iff hys fun {a} => h a
      subst heq
      rfl

instance : EmptyCollection (OrdSet α) := ⟨⟨[], List.Pairwise.nil⟩⟩

instance : Singleton α (OrdSet α) := ⟨fun x => ⟨[x], List.pairwise_singleton _ x⟩⟩

@[simp] theorem not_mem_empty (x : α) : ¬x ∈ (∅ : OrdSet α) := List.not_mem_nil

@[simp] theorem mem_singleton : x ∈ ({y} : OrdSet α) ↔ x = y := List.mem_singleton

def insertSorted (x : α) : List α → List α
  | [] => [x]
  | y :: ys => if x < y then x :: y :: ys else if x = y then y :: ys else y :: insertSorted x ys

@[simp] theorem mem_insertSorted {xs : List α} : y ∈ insertSorted x xs ↔ y = x ∨ y ∈ xs := by
  induction xs with
  | nil => simp [insertSorted]
  | cons z zs ih =>
    unfold insertSorted
    split
    next => exact List.mem_cons
    next =>
      split
      next heq =>
        subst heq
        simp
      next =>
        rw [List.mem_cons, ih, List.mem_cons]
        tauto

theorem insertSorted_sorted {xs : List α} (h : xs.Pairwise (· < ·)) : (insertSorted x xs).Pairwise (· < ·) := by
  induction xs with
  | nil => exact List.pairwise_singleton _ x
  | cons z zs ih =>
    obtain ⟨hz, hzs⟩ := List.pairwise_cons.mp h
    unfold insertSorted
    split
    next hlt =>
      refine List.pairwise_cons.mpr ⟨fun y hy => ?_, h⟩
      rcases List.mem_cons.mp hy with rfl | hy
      · exact hlt
      · exact lt_trans hlt (hz y hy)
    next hnlt =>
      split
      next => exact h
      next hne =>
        refine List.pairwise_cons.mpr ⟨fun y hy => ?_, ih hzs⟩
        rcases mem_insertSorted.mp hy with rfl | hy
        · exact lt_of_le_of_ne (not_lt.mp hnlt) (Ne.symm hne)
        · exact hz y hy

def insert (s : OrdSet α) (x : α) : OrdSet α := ⟨insertSorted x s.entries, insertSorted_sorted s.sorted⟩

@[simp] theorem mem_insert : y ∈ s.insert x ↔ y = x ∨ y ∈ s := mem_insertSorted

def filter (s : OrdSet α) (p : α → Bool) : OrdSet α := ⟨s.entries.filter p, s.sorted.filter p⟩

@[simp] theorem mem_filter {p : α → Bool} : x ∈ s.filter p ↔ x ∈ s ∧ p x = true := List.mem_filter

def erase (s : OrdSet α) (x : α) : OrdSet α := s.filter fun y => decide (y ≠ x)

@[simp] theorem mem_erase : y ∈ s.erase x ↔ y ∈ s ∧ y ≠ x := by
  unfold erase
  rw [mem_filter, decide_eq_true_iff]

/-- No element comes after the last. -/
theorem le_getLast (hx : s.entries.getLast? = some x) (hy : y ∈ s) : y ≤ x := by
  obtain ⟨zs, hzs⟩ := List.getLast?_eq_some_iff.mp hx
  have hsorted := s.sorted
  rw [hzs, List.pairwise_append] at hsorted
  rw [mem_def, hzs, List.mem_append, List.mem_singleton] at hy
  rcases hy with hy | hy
  · exact le_of_lt (hsorted.2.2 y hy x (List.mem_singleton.mpr rfl))
  · exact le_of_eq hy

/-- All elements of `t` are added. -/
def merge (s t : OrdSet α) : OrdSet α := t.entries.foldl insert s

theorem mem_foldl_insert {xs : List α} : y ∈ xs.foldl insert s ↔ y ∈ s ∨ y ∈ xs := by
  induction xs generalizing s with
  | nil => simp
  | cons z zs ih =>
    rw [List.foldl_cons, ih, mem_insert, List.mem_cons]
    tauto

@[simp] theorem mem_merge : y ∈ s.merge t ↔ y ∈ s ∨ y ∈ t := mem_foldl_insert

theorem mem_foldl_merge {ts : List (OrdSet α)} : y ∈ ts.foldl merge s ↔ y ∈ s ∨ ∃ t ∈ ts, y ∈ t := by
  induction ts generalizing s with
  | nil => simp
  | cons t ts ih =>
    rw [List.foldl_cons, ih, mem_merge, or_assoc]
    simp

/-- The elements that come after `x`. -/
def after (s : OrdSet α) (x : α) : List α := s.entries.filter fun y => decide (x < y)

theorem mem_after : y ∈ s.after x ↔ y ∈ s ∧ x < y := by
  unfold after
  rw [List.mem_filter, decide_eq_true_iff]
  rfl

def ofList (xs : List α) : OrdSet α := xs.foldl insert ∅

@[simp] theorem mem_ofList {xs : List α} : y ∈ ofList xs ↔ y ∈ xs :=
  mem_foldl_insert.trans (or_iff_right (not_mem_empty y))

/-- A sorted list is the set of its elements as it is. -/
theorem entries_ofList {xs : List α} (h : xs.Pairwise (· < ·)) : (ofList xs).entries = xs :=
  (ofList xs).sorted.eq_of_mem_iff h fun {_} => mem_ofList

/-- The elements of a pair that come after each of them. -/
theorem after_pair {x y : α} (hlt : x < y) : (ofList [x, y]).after x = [y] ∧ (ofList [x, y]).after y = [] := by
  unfold after
  rw [entries_ofList (List.pairwise_pair.mpr hlt)]
  constructor
  · rw [List.filter_cons_of_neg (by simp), List.filter_cons_of_pos (by simpa using hlt)]
    rfl
  · rw [List.filter_cons_of_neg (by simpa using le_of_lt hlt), List.filter_cons_of_neg (by simp)]
    rfl

theorem length_ofList {xs : List α} (h : xs.Nodup) : (ofList xs).entries.length = xs.length :=
  ((List.perm_ext_iff_of_nodup (ofList xs).nodup h).mpr fun _ => mem_ofList).length_eq

/-- A walk that ends at the first element that fails a test misses none that passes it, if those before one that
passes do too. -/
theorem mem_takeWhile {p : α → Bool} (hx : x ∈ s) (hp : p x = true) (hmono : ∀ y, y < x → p y = true) :
    x ∈ s.entries.takeWhile p := by
  have hlist : ∀ {l : List α}, l.Pairwise (· < ·) → x ∈ l → x ∈ l.takeWhile p := by
    intro l hl hx
    induction l with
    | nil => exact absurd hx List.not_mem_nil
    | cons y ys ih =>
      obtain ⟨hy, hys⟩ := List.pairwise_cons.mp hl
      rcases List.mem_cons.mp hx with rfl | hx
      · rw [List.takeWhile_cons_of_pos hp]
        exact List.mem_cons_self
      · rw [List.takeWhile_cons_of_pos (hmono y (hy x hx))]
        exact List.mem_cons_of_mem _ (ih hys hx)
  exact hlist s.sorted hx

end OrdSet
