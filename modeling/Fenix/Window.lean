import Mathlib.Data.List.Chain
import Mathlib.Data.List.TakeWhile

/-- A history of fixed length: the entry in use and the ones before it, oldest first. -/
structure Window (α : Type) where
  older : List α
  cur : α
  deriving DecidableEq, Repr

namespace Window

variable {α : Type}

def toList (w : Window α) : List α := w.older ++ [w.cur]

def size (w : Window α) : Nat := w.older.length + 1

def front (w : Window α) : α := w.older.headD w.cur

/-- A window of `n + 1` copies of one entry. -/
def fill (n : Nat) (blank : α) : Window α := ⟨List.replicate n blank, blank⟩

/-- Shift every entry one place towards the front, dropping the front one. -/
def push (w : Window α) (x : α) : Window α := ⟨w.toList.tail, x⟩

/-- Keep the first `k` entries only, moved to the end behind blank entries. -/
def keep (blank : α) (k : Nat) (w : Window α) : Window α :=
  let xs := List.replicate (w.size - k) blank ++ w.toList.take k
  ⟨xs.dropLast, xs.getLastD blank⟩

/-- The window of a nonempty list. -/
def ofList? (xs : List α) : Option (Window α) := xs.getLast?.map fun x => ⟨xs.dropLast, x⟩

def setCur (w : Window α) (x : α) : Window α := { w with cur := x }

@[simp] theorem cur_push (w : Window α) (x : α) : (w.push x).cur = x := rfl

@[simp] theorem cur_setCur (w : Window α) (x : α) : (w.setCur x).cur = x := rfl

@[simp] theorem older_setCur (w : Window α) (x : α) : (w.setCur x).older = w.older := rfl

@[simp] theorem length_toList (w : Window α) : w.toList.length = w.size := by
  simp [toList, size]

theorem cur_mem (w : Window α) : w.cur ∈ w.toList := by simp [toList]

theorem mem_toList {w : Window α} {x : α} : x ∈ w.toList ↔ x ∈ w.older ∨ x = w.cur := by
  simp [toList]

theorem toList_eq_cons (w : Window α) : w.toList = w.front :: w.toList.tail := by
  cases h : w.older with
  | nil => simp [front, toList, h]
  | cons x xs => simp [front, toList, h]

theorem ofList?_toList (w : Window α) : ofList? w.toList = some w := by
  simp [ofList?, toList]

@[simp] theorem toList_push (w : Window α) (x : α) : (w.push x).toList = w.toList.tail ++ [x] := rfl

@[simp] theorem toList_setCur (w : Window α) (x : α) : (w.setCur x).toList = w.older ++ [x] := rfl

@[simp] theorem size_push (w : Window α) (x : α) : (w.push x).size = w.size := by
  simp [push, size, toList]

@[simp] theorem size_setCur (w : Window α) (x : α) : (w.setCur x).size = w.size := rfl

@[simp] theorem size_fill (n : Nat) (x : α) : (fill n x).size = n + 1 := by
  simp [fill, size]

theorem toList_fill (n : Nat) (x : α) : (fill n x).toList = List.replicate (n + 1) x := by
  simp [fill, toList, List.replicate_succ']

theorem toList_keep (blank : α) (k : Nat) (w : Window α) :
    (w.keep blank k).toList = List.replicate (w.size - k) blank ++ w.toList.take k := by
  have hlen : (List.replicate (w.size - k) blank ++ w.toList.take k).length ≠ 0 := by
    simp only [List.length_append, List.length_replicate, List.length_take, length_toList]
    simp only [size]
    omega
  generalize hxs : List.replicate (w.size - k) blank ++ w.toList.take k = xs at hlen
  have hne : xs ≠ [] := fun h => hlen (by rw [h]; rfl)
  have hkeep : (w.keep blank k).toList = xs.dropLast ++ [xs.getLastD blank] := by
    simp only [keep, hxs]
    rfl
  rw [hkeep, List.getLastD_eq_getLast?, List.getLast?_eq_some_getLast hne]
  exact List.dropLast_concat_getLast hne

@[simp] theorem size_keep (blank : α) {k : Nat} {w : Window α} (h : k ≤ w.size) :
    (w.keep blank k).size = w.size := by
  rw [← length_toList, toList_keep]
  simp only [List.length_append, List.length_replicate, List.length_take, length_toList]
  omega

theorem mem_push {w : Window α} {x y : α} (h : y ∈ (w.push x).toList) :
    y ∈ w.toList.tail ∨ y = x := by
  simpa using h

theorem mem_keep {blank : α} {k : Nat} {w : Window α} {y : α}
    (h : y ∈ (w.keep blank k).toList) : y = blank ∨ y ∈ w.toList.take k := by
  rw [toList_keep] at h
  rcases List.mem_append.mp h with h | h
  · exact Or.inl (List.eq_of_mem_replicate h)
  · exact Or.inr h

/-- The entry in use is dropped with the last ones, whatever it is. -/
theorem keep_setCur (blank x : α) {k : Nat} {w : Window α} (h : k ≤ w.older.length) :
    (w.setCur x).keep blank k = w.keep blank k := by
  unfold keep
  rw [toList_setCur, size_setCur, List.take_append_of_le_length h]
  unfold toList
  rw [List.take_append_of_le_length h]

section Ordered

variable {R : α → α → Prop}

theorem pairwise_push {w : Window α} {x : α} (h : w.toList.Pairwise R)
    (hx : ∀ y ∈ w.toList, R y x) : (w.push x).toList.Pairwise R := by
  rw [toList_push]
  apply List.pairwise_append.mpr
  refine ⟨h.sublist (List.tail_sublist _), by simp, ?_⟩
  intro y hy z hz
  rw [List.mem_singleton.mp hz]
  exact hx y (List.mem_of_mem_tail hy)

theorem pairwise_setCur {w : Window α} {x : α} (h : w.toList.Pairwise R)
    (hx : ∀ y ∈ w.older, R y x) : (w.setCur x).toList.Pairwise R := by
  rw [toList_setCur]
  apply List.pairwise_append.mpr
  refine ⟨(List.pairwise_append.mp h).1, by simp, ?_⟩
  intro y hy z hz
  rw [List.mem_singleton.mp hz]
  exact hx y hy

theorem pairwise_keep {blank : α} {k : Nat} {w : Window α} (h : w.toList.Pairwise R)
    (hb : ∀ y, R blank y) : (w.keep blank k).toList.Pairwise R := by
  rw [toList_keep]
  apply List.pairwise_append.mpr
  refine ⟨List.pairwise_replicate.mpr (Or.inr (hb blank)), h.sublist (List.take_sublist _ _), ?_⟩
  intro y hy z _
  rw [List.eq_of_mem_replicate hy]
  exact hb z

theorem older_rel_cur {w : Window α} (h : w.toList.Pairwise R) {y : α} (hy : y ∈ w.older) :
    R y w.cur :=
  (List.pairwise_append.mp h).2.2 y hy w.cur (by simp)

theorem front_rel {w : Window α} (h : w.toList.Pairwise R) {y : α} (hy : y ∈ w.toList.tail) :
    R w.front y := by
  rw [toList_eq_cons] at h
  exact (List.pairwise_cons.mp h).1 y hy

theorem take_rel_drop {w : Window α} (h : w.toList.Pairwise R) {k : Nat} {x y : α}
    (hx : x ∈ w.toList.take k) (hy : y ∈ w.toList.drop k) : R x y := by
  rw [← List.take_append_drop k w.toList] at h
  exact (List.pairwise_append.mp h).2.2 x hx y hy

end Ordered

section Chained

variable {R : α → α → Prop}

theorem getLast?_tail {w : Window α} {y : α} (h : y ∈ w.toList.tail.getLast?) : y = w.cur := by
  unfold toList at h
  cases hold : w.older with
  | nil =>
    rw [hold] at h
    cases h
  | cons x xs =>
    rw [hold, List.cons_append, List.tail_cons, List.getLast?_concat] at h
    exact (Option.some.inj h).symm

theorem isChain_push {w : Window α} {x : α} (h : w.toList.IsChain R) (hx : R w.cur x) : (w.push x).toList.IsChain R := by
  rw [toList_push]
  apply List.isChain_append.mpr
  refine ⟨h.tail, by simp, ?_⟩
  intro y hy z hz
  rw [getLast?_tail hy, ← Option.some.inj hz]
  exact hx

theorem isChain_setCur {w : Window α} {x : α} (h : w.toList.IsChain R) (hx : ∀ y ∈ w.older, R y w.cur → R y x) :
    (w.setCur x).toList.IsChain R := by
  rw [toList_setCur]
  have hold := List.isChain_append.mp h
  apply List.isChain_append.mpr
  refine ⟨hold.1, by simp, ?_⟩
  intro y hy z hz
  rw [← Option.some.inj hz]
  exact hx y (List.mem_of_getLast? hy) (hold.2.2 y hy w.cur rfl)

theorem isChain_keep {blank : α} {k : Nat} {w : Window α} (h : w.toList.IsChain R) (hb : ∀ y, R blank y) :
    (w.keep blank k).toList.IsChain R := by
  rw [toList_keep]
  apply List.isChain_append.mpr
  refine ⟨List.isChain_replicate_of_rel _ (hb blank), h.take k, ?_⟩
  intro y hy z _
  rw [List.eq_of_mem_replicate (List.mem_of_getLast? hy)]
  exact hb z

end Chained

section Search

variable {key : α → Int}

/-- Position of the first entry whose key exceeds `k` (`std::upper_bound`). -/
def upperBound (key : α → Int) (w : Window α) (k : Int) : Nat :=
  (w.toList.takeWhile fun x => decide (key x ≤ k)).length

/-- The first entry whose key is at least `k` (`std::lower_bound`). -/
def lowerBound (key : α → Int) (w : Window α) (k : Int) : Option α :=
  w.toList.find? fun x => decide (k ≤ key x)

/-- The entry just before the lower bound of `k`. -/
def beforeLowerBound (key : α → Int) (w : Window α) (k : Int) : Option α :=
  (w.toList.takeWhile fun x => decide (key x < k)).getLast?

theorem upperBound_le (w : Window α) (k : Int) : w.upperBound key k ≤ w.size := by
  rw [← length_toList]
  exact (List.takeWhile_prefix _).length_le

/-- Only the entries before the one in use count where that is past the bound. -/
theorem upperBound_of_lt_cur {w : Window α} {k : Int} (h : k < key w.cur) :
    w.upperBound key k = (w.older.takeWhile fun x => decide (key x ≤ k)).length := by
  have hcur : ∀ xs : List α, (xs ++ [w.cur]).takeWhile (fun x => decide (key x ≤ k)) =
      xs.takeWhile fun x => decide (key x ≤ k) := by
    intro xs
    induction xs with
    | nil => exact List.takeWhile_cons_of_neg (by simpa using h)
    | cons x xs ih => rw [List.cons_append, List.takeWhile_cons, List.takeWhile_cons, ih]
  exact congrArg List.length (hcur w.older)

theorem upperBound_le_older {w : Window α} {k : Int} (h : k < key w.cur) :
    w.upperBound key k ≤ w.older.length := by
  rw [upperBound_of_lt_cur h]
  exact (List.takeWhile_prefix _).length_le

theorem take_upperBound (w : Window α) (k : Int) :
    w.toList.take (w.upperBound key k) = w.toList.takeWhile fun x => decide (key x ≤ k) := by
  unfold upperBound
  generalize w.toList = xs
  have h := List.takeWhile_append_dropWhile (p := fun x => decide (key x ≤ k)) (l := xs)
  have ht := congrArg (List.take (xs.takeWhile fun x => decide (key x ≤ k)).length) h
  rw [List.take_left] at ht
  exact ht.symm

theorem drop_upperBound (w : Window α) (k : Int) :
    w.toList.drop (w.upperBound key k) = w.toList.dropWhile fun x => decide (key x ≤ k) := by
  unfold upperBound
  generalize w.toList = xs
  have h := List.takeWhile_append_dropWhile (p := fun x => decide (key x ≤ k)) (l := xs)
  have hd := congrArg (List.drop (xs.takeWhile fun x => decide (key x ≤ k)).length) h
  rw [List.drop_left] at hd
  exact hd.symm

theorem key_le_of_mem_take {w : Window α} {k : Int} {x : α}
    (h : x ∈ w.toList.take (w.upperBound key k)) : key x ≤ k := by
  rw [take_upperBound] at h
  simpa using List.mem_takeWhile_imp h

/-- In a window ordered by key the entries past the upper bound all exceed it. -/
theorem lt_key_of_mem_drop {w : Window α} {k : Int} {x : α}
    (h : w.toList.Pairwise fun x y => key x ≤ key y)
    (hx : x ∈ w.toList.drop (w.upperBound key k)) : k < key x := by
  rw [drop_upperBound] at hx
  generalize w.toList = xs at h hx
  induction xs with
  | nil => simp at hx
  | cons y ys ih =>
    have h' := List.pairwise_cons.mp h
    rw [List.dropWhile_cons] at hx
    split at hx
    next => exact ih h'.2 hx
    next hy =>
      have hk : k < key y := by simpa using hy
      rcases List.mem_cons.mp hx with rfl | hx
      · exact hk
      · exact Int.lt_of_lt_of_le hk (h'.1 x hx)

theorem lowerBound_mem {w : Window α} {k : Int} {x : α} (h : w.lowerBound key k = some x) :
    x ∈ w.toList ∧ k ≤ key x :=
  ⟨List.mem_of_find?_eq_some h, by simpa using List.find?_some h⟩

end Search

end Window
