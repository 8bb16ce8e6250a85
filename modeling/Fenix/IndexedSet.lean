import Fenix.Fallible
import Mathlib.Data.List.Sort

/-- A set ordered by an integer key, no two entries having the same one. -/
@[ext] structure IndexedSet (α : Type) (key : α → Int) where
  entries : List α
  sorted : entries.Pairwise fun a b => key a < key b

theorem List.exists_left_of_forall₂ {α β : Type} {R : α → β → Prop} {xs : List α} {ys : List β}
    (h : List.Forall₂ R xs ys) {y : β} (hy : y ∈ ys) : ∃ x ∈ xs, R x y := by
  induction h with
  | nil => cases hy
  | @cons x z xs ys hxz _ ih =>
    rcases List.mem_cons.mp hy with rfl | hy
    · exact ⟨x, List.mem_cons_self, hxz⟩
    · obtain ⟨w, hw, hwy⟩ := ih hy
      exact ⟨w, List.mem_cons_of_mem _ hw, hwy⟩

theorem List.exists_right_of_forall₂ {α β : Type} {R : α → β → Prop} {xs : List α} {ys : List β}
    (h : List.Forall₂ R xs ys) {x : α} (hx : x ∈ xs) : ∃ y ∈ ys, R x y := by
  obtain ⟨y, hy, hxy⟩ := List.exists_left_of_forall₂ h.flip hx
  exact ⟨y, hy, hxy⟩

namespace IndexedSet

variable {α : Type} {key : α → Int}

instance [DecidableEq α] : DecidableEq (IndexedSet α key) := fun a b =>
  decidable_of_iff (a.entries = b.entries) ⟨IndexedSet.ext, fun h => h ▸ rfl⟩

instance : Membership α (IndexedSet α key) := ⟨fun s x => x ∈ s.entries⟩

theorem mem_def {s : IndexedSet α key} {x : α} : x ∈ s ↔ x ∈ s.entries := Iff.rfl

def empty : IndexedSet α key := ⟨[], List.Pairwise.nil⟩

@[simp] theorem entries_empty : (empty : IndexedSet α key).entries = [] := rfl

@[simp] theorem not_mem_empty {x : α} : ¬x ∈ (empty : IndexedSet α key) := List.not_mem_nil

def insertSorted (key : α → Int) (x : α) : List α → List α
  | [] => [x]
  | y :: ys =>
    if key x < key y then x :: y :: ys
    else if key x = key y then y :: ys
    else y :: insertSorted key x ys

theorem mem_insertSorted {x y : α} {xs : List α} (h : y ∈ insertSorted key x xs) :
    y = x ∨ y ∈ xs := by
  induction xs with
  | nil => exact Or.inl (List.mem_singleton.mp h)
  | cons z zs ih =>
    unfold insertSorted at h
    split at h
    next => simpa using h
    next =>
      split at h
      next => exact Or.inr h
      next =>
        rcases List.mem_cons.mp h with rfl | h
        · exact Or.inr List.mem_cons_self
        · rcases ih h with h | h
          · exact Or.inl h
          · exact Or.inr (List.mem_cons_of_mem _ h)

theorem insertSorted_sorted {x : α} {xs : List α} (h : xs.Pairwise fun a b => key a < key b) :
    (insertSorted key x xs).Pairwise fun a b => key a < key b := by
  induction xs with
  | nil => exact List.pairwise_singleton _ _
  | cons y ys ih =>
    have hy := List.pairwise_cons.mp h
    unfold insertSorted
    split
    next hlt =>
      refine List.pairwise_cons.mpr ⟨?_, h⟩
      intro z hz
      rcases List.mem_cons.mp hz with rfl | hz
      · exact hlt
      · exact Int.lt_trans hlt (hy.1 z hz)
    next hlt =>
      split
      next => exact h
      next hne =>
        refine List.pairwise_cons.mpr ⟨?_, ih hy.2⟩
        intro z hz
        rcases mem_insertSorted hz with rfl | hz
        · omega
        · exact hy.1 z hz

theorem insertSorted_last {x : α} {xs : List α} (h : ∀ y ∈ xs, key y < key x) :
    insertSorted key x xs = xs ++ [x] := by
  induction xs with
  | nil => rfl
  | cons y ys ih =>
    have hy := h y List.mem_cons_self
    unfold insertSorted
    rw [if_neg (by omega), if_neg (by omega), ih fun z hz => h z (List.mem_cons_of_mem _ hz)]
    rfl

/-- Add an entry unless its key is taken (`std::set::insert`). -/
def insert (s : IndexedSet α key) (x : α) : IndexedSet α key :=
  ⟨insertSorted key x s.entries, insertSorted_sorted s.sorted⟩

theorem mem_of_mem_insert {s : IndexedSet α key} {x y : α} (h : y ∈ s.insert x) : y = x ∨ y ∈ s :=
  mem_insertSorted h

theorem entries_insert_last {s : IndexedSet α key} {x : α} (h : ∀ y ∈ s, key y < key x) :
    (s.insert x).entries = s.entries ++ [x] :=
  insertSorted_last h

theorem self_mem_insertSorted {x : α} {xs : List α} (h : ∀ y ∈ xs, key y ≠ key x) :
    x ∈ insertSorted key x xs := by
  induction xs with
  | nil => exact List.mem_singleton.mpr rfl
  | cons y ys ih =>
    unfold insertSorted
    split
    next => exact List.mem_cons_self
    next =>
      rw [if_neg fun he => h y List.mem_cons_self he.symm]
      exact List.mem_cons_of_mem _ (ih fun z hz => h z (List.mem_cons_of_mem _ hz))

theorem mem_insertSorted_of_mem {x y : α} {xs : List α} (h : y ∈ xs) : y ∈ insertSorted key x xs := by
  induction xs with
  | nil => cases h
  | cons z zs ih =>
    unfold insertSorted
    split
    next => exact List.mem_cons_of_mem _ h
    next =>
      split
      next => exact h
      next =>
        rcases List.mem_cons.mp h with rfl | h
        · exact List.mem_cons_self
        · exact List.mem_cons_of_mem _ (ih h)

/-- Keep the entries satisfying a test. -/
def filter (p : α → Bool) (s : IndexedSet α key) : IndexedSet α key :=
  ⟨s.entries.filter p, s.sorted.filter p⟩

@[simp] theorem mem_filter {p : α → Bool} {s : IndexedSet α key} {x : α} :
    x ∈ s.filter p ↔ x ∈ s ∧ p x = true :=
  List.mem_filter

/-- Erase from the lower bound of `lo` up to the lower bound of `hi`. -/
def eraseRange (s : IndexedSet α key) (lo hi : Int) : IndexedSet α key :=
  s.filter fun x => !(decide (lo ≤ key x) && decide (key x < hi))

@[simp] theorem mem_eraseRange {s : IndexedSet α key} {lo hi : Int} {x : α} :
    x ∈ s.eraseRange lo hi ↔ x ∈ s ∧ ¬(lo ≤ key x ∧ key x < hi) := by
  simp only [eraseRange, mem_filter, Bool.not_eq_true', Bool.and_eq_false_iff, decide_eq_false_iff_not,
    Decidable.not_and_iff_not_or_not]

/-- The entries from the lower bound of `k` to the end. -/
def since (s : IndexedSet α key) (k : Int) : List α :=
  s.entries.filter fun x => decide (k ≤ key x)

@[simp] theorem mem_since {s : IndexedSet α key} {k : Int} {x : α} :
    x ∈ s.since k ↔ x ∈ s ∧ k ≤ key x := by
  simp [since, mem_def]

theorem since_sorted (s : IndexedSet α key) (k : Int) :
    (s.since k).Pairwise fun a b => key a < key b :=
  s.sorted.filter _

/-- The entries from the one with key `k` to the end, none when there is no such entry. -/
def sinceFound (s : IndexedSet α key) (k : Int) : List α :=
  if s.entries.any fun x => decide (key x = k) then s.since k else []

/-- A set is determined by its members. -/
theorem ext_mem {s t : IndexedSet α key} (h : ∀ x, x ∈ s ↔ x ∈ t) : s = t := by
  have hirr : Std.Irrefl fun a b : α => key a < key b := ⟨fun _ => Int.lt_irrefl _⟩
  have hasymm : Std.Asymm fun a b : α => key a < key b := ⟨fun _ _ hab hba => Int.lt_asymm hab hba⟩
  exact IndexedSet.ext (List.Pairwise.eq_of_mem_iff s.sorted t.sorted h)

def find? (s : IndexedSet α key) (k : Int) : Option α :=
  s.entries.find? fun x => decide (key x = k)

theorem find?_some {s : IndexedSet α key} {k : Int} {x : α} (h : s.find? k = some x) :
    x ∈ s ∧ key x = k :=
  ⟨List.mem_of_find?_eq_some h, by simpa using List.find?_some h⟩

theorem find?_none {s : IndexedSet α key} {k : Int} (h : s.find? k = none) :
    ∀ x ∈ s, key x ≠ k := by
  intro x hx
  simpa using List.find?_eq_none.mp h x hx

theorem eq_of_key_eq {s : IndexedSet α key} {x y : α} (hx : x ∈ s) (hy : y ∈ s)
    (h : key x = key y) : x = y := by
  obtain ⟨xs, hs⟩ := s
  change x ∈ xs at hx
  change y ∈ xs at hy
  induction xs with
  | nil => cases hx
  | cons z zs ih =>
    have hz := List.pairwise_cons.mp hs
    rcases List.mem_cons.mp hx with hxz | hx <;> rcases List.mem_cons.mp hy with hyz | hy
    · rw [hxz, hyz]
    · rw [hxz] at h
      have hlt := hz.1 y hy
      omega
    · rw [hyz] at h
      have hlt := hz.1 x hx
      omega
    · exact ih hz.2 hx hy

theorem find?_eq_some_of_mem {s : IndexedSet α key} {x : α} (h : x ∈ s) :
    s.find? (key x) = some x := by
  cases hf : s.find? (key x) with
  | none => exact absurd rfl (find?_none hf x h)
  | some y =>
    obtain ⟨hy, hk⟩ := find?_some hf
    rw [eq_of_key_eq hy h hk]

theorem find?_eq_some_iff {s : IndexedSet α key} {k : Int} {x : α} :
    s.find? k = some x ↔ x ∈ s ∧ key x = k := by
  constructor
  · exact find?_some
  · rintro ⟨hx, rfl⟩
    exact find?_eq_some_of_mem hx

theorem find?_insert {s : IndexedSet α key} {x : α} (h : ∀ y ∈ s, key y ≠ key x) (k : Int) :
    (s.insert x).find? k = if key x = k then some x else s.find? k := by
  split
  next hk => exact find?_eq_some_iff.mpr ⟨self_mem_insertSorted h, hk⟩
  next hk =>
    cases hf : s.find? k with
    | none =>
      refine List.find?_eq_none.mpr fun y hy => ?_
      rcases mem_of_mem_insert hy with rfl | hy
      · simpa using hk
      · simpa using find?_none hf y hy
    | some y =>
      obtain ⟨hy, hyk⟩ := find?_some hf
      exact find?_eq_some_iff.mpr ⟨mem_insertSorted_of_mem hy, hyk⟩

theorem find?_filter_ne (s : IndexedSet α key) (t k : Int) :
    (s.filter fun x => decide (key x ≠ t)).find? k = if k = t then none else s.find? k := by
  split
  next hk =>
    refine List.find?_eq_none.mpr fun y hy => ?_
    have hne := (mem_filter.mp hy).2
    simp only [ne_eq, decide_not, Bool.not_eq_eq_eq_not, Bool.not_true, decide_eq_false_iff_not] at hne
    simpa [hk] using hne
  next hk =>
    cases hf : s.find? k with
    | none =>
      refine List.find?_eq_none.mpr fun y hy => ?_
      simpa using find?_none hf y (mem_filter.mp hy).1
    | some y =>
      obtain ⟨hy, hyk⟩ := find?_some hf
      refine find?_eq_some_iff.mpr ⟨mem_filter.mpr ⟨hy, ?_⟩, hyk⟩
      simpa [hyk] using hk

/-- Replace the entry that has the key of `x`, or add `x` when there is none. -/
def put (s : IndexedSet α key) (x : α) : IndexedSet α key :=
  (s.filter fun y => !decide (key y = key x)).insert x

theorem mem_put {s : IndexedSet α key} {x y : α} :
    y ∈ s.put x ↔ y = x ∨ y ∈ s ∧ key y ≠ key x := by
  constructor
  · intro h
    rcases mem_of_mem_insert h with h | h
    · exact Or.inl h
    · exact Or.inr (by simpa using h)
  · rintro (rfl | h)
    · refine self_mem_insertSorted fun z hz => ?_
      have hz' : z ∈ s.filter fun w => !decide (key w = key y) := hz
      simpa using (mem_filter.mp hz').2
    · refine mem_insertSorted_of_mem ?_
      change y ∈ s.filter fun w => !decide (key w = key x)
      simpa using h

theorem find?_put (s : IndexedSet α key) (x : α) (k : Int) :
    (s.put x).find? k = if key x = k then some x else s.find? k := by
  split
  next h => exact find?_eq_some_iff.mpr ⟨mem_put.mpr (Or.inl rfl), h⟩
  next h =>
    cases hf : s.find? k with
    | none =>
      cases hp : (s.put x).find? k with
      | none => rfl
      | some y =>
        obtain ⟨hy, hk⟩ := find?_some hp
        rcases mem_put.mp hy with rfl | ⟨hy, _⟩
        · exact absurd hk h
        · exact absurd hk (find?_none hf y hy)
    | some y =>
      obtain ⟨hy, hk⟩ := find?_some hf
      refine find?_eq_some_iff.mpr ⟨mem_put.mpr (Or.inr ⟨hy, ?_⟩), hk⟩
      intro he
      exact h (he.symm.trans hk)

def last? (s : IndexedSet α key) : Option α := s.entries.getLast?

theorem key_le_last {s : IndexedSet α key} {x y : α} (hl : s.last? = some y) (hx : x ∈ s) :
    key x ≤ key y := by
  obtain ⟨ys, hy⟩ := List.getLast?_eq_some_iff.mp hl
  have hs := s.sorted
  rw [mem_def, hy] at hx
  rw [hy] at hs
  rcases List.mem_append.mp hx with hx | hx
  · exact Int.le_of_lt ((List.pairwise_append.mp hs).2.2 x hx y List.mem_cons_self)
  · exact Int.le_of_eq (congrArg key (List.mem_singleton.mp hx))

theorem last?_mem {s : IndexedSet α key} {x : α} (h : s.last? = some x) : x ∈ s :=
  List.mem_of_getLast? h

/-- Insert entries one after another, failing on a key that is taken. -/
def insertAll (s : IndexedSet α key) : List α → Option (IndexedSet α key)
  | [] => some s
  | x :: xs => if (s.find? (key x)).isSome then none else (s.insert x).insertAll xs

theorem insertAll_sorted {s t : IndexedSet α key} {xs : List α} (h : s.entries ++ xs = t.entries) :
    s.insertAll xs = some t := by
  induction xs generalizing s with
  | nil => exact congrArg some (IndexedSet.ext (by simpa using h))
  | cons x xs ih =>
    have ht := t.sorted
    rw [← h] at ht
    have hlt : ∀ y ∈ s, key y < key x := fun y hy =>
      (List.pairwise_append.mp ht).2.2 y hy x List.mem_cons_self
    have hnone : s.find? (key x) = none := by
      cases hf : s.find? (key x) with
      | none => rfl
      | some y =>
        obtain ⟨hy, hk⟩ := find?_some hf
        have hlt' := hlt y hy
        omega
    unfold insertAll
    rw [hnone]
    refine ih ?_
    rw [entries_insert_last hlt, List.append_assoc]
    exact h

theorem insertAll_entries (s : IndexedSet α key) : (empty : IndexedSet α key).insertAll s.entries = some s :=
  insertAll_sorted rfl

section Map

variable {ε : Type} {f : α → Except ε α}

theorem forall₂_sorted {xs ys : List α} (hf : List.Forall₂ (fun x y => key y = key x) xs ys)
    (h : xs.Pairwise fun a b => key a < key b) : ys.Pairwise fun a b => key a < key b := by
  induction hf with
  | nil => exact List.Pairwise.nil
  | @cons x y xs ys hxy hxs ih =>
    have hx := List.pairwise_cons.mp h
    refine List.pairwise_cons.mpr ⟨?_, ih hx.2⟩
    intro z hz
    obtain ⟨w, hw, hwz⟩ := List.exists_left_of_forall₂ hxs hz
    have hlt := hx.1 w hw
    omega

/-- Apply a fallible update that keeps each entry's key to every entry. -/
def updateM (s : IndexedSet α key) (f : α → Except ε α)
    (h : ∀ a b, f a = .ok b → key b = key a) : Except ε (IndexedSet α key) :=
  match hm : s.entries.mapM f with
  | .error e => .error e
  | .ok xs => .ok ⟨xs, forall₂_sorted ((List.mapM_eq_ok_iff.mp hm).imp h) s.sorted⟩

theorem updateM_eq_ok_iff {s t : IndexedSet α key} {h : ∀ a b, f a = .ok b → key b = key a} :
    s.updateM f h = .ok t ↔ List.Forall₂ (fun x y => f x = .ok y) s.entries t.entries := by
  rw [← List.mapM_eq_ok_iff]
  unfold updateM
  split
  next e he => simp [he]
  next xs hxs =>
    constructor
    · intro ht
      rw [← Except.ok.inj ht]
      exact hxs
    · intro ht
      exact congrArg Except.ok (IndexedSet.ext (Except.ok.inj (hxs.symm.trans ht)))

theorem updateM_ok_exists_iff {s : IndexedSet α key} {h : ∀ a b, f a = .ok b → key b = key a} :
    (∃ t, s.updateM f h = .ok t) ↔ ∀ x ∈ s, ∃ y, f x = .ok y := by
  refine Iff.trans ?_ List.mapM_ok_exists_iff
  constructor
  · rintro ⟨t, ht⟩
    exact ⟨t.entries, List.mapM_eq_ok_iff.mpr (updateM_eq_ok_iff.mp ht)⟩
  · rintro ⟨ys, hys⟩
    have hf := List.mapM_eq_ok_iff.mp hys
    exact ⟨⟨ys, forall₂_sorted (hf.imp h) s.sorted⟩, updateM_eq_ok_iff.mpr hf⟩

end Map

end IndexedSet
