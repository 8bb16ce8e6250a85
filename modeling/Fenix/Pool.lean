import Fenix.IndexedSet

/-- Entries in use, in the order of their keys, and entries for reuse, the last one put back first. -/
structure Pool (α : Type) (key : α → Int) where
  used : IndexedSet α key
  spare : List α

namespace Pool

variable {α : Type} {key : α → Int}

/-- Take the entry with a key back for reuse. -/
def release (reset : α → α) (p : Pool α key) (k : Int) : Pool α key :=
  match p.used.find? k with
  | none => p
  | some x => ⟨p.used.filter fun y => decide (key y ≠ k), reset x :: p.spare⟩

/-- Take the oldest entry back if there are too many. -/
def trim (reset : α → α) (limit : Nat) (p : Pool α key) : Pool α key :=
  match p.used.entries with
  | [] => p
  | oldest :: rest => if limit < (oldest :: rest).length then p.release reset (key oldest) else p

/-- The next entry to fill, one for reuse if there is any. -/
def next (p : Pool α key) (fresh : α) : α × Pool α key :=
  match p.spare with
  | x :: rest => (x, ⟨p.used, rest⟩)
  | [] => (fresh, p)

variable {p : Pool α key} {limit : Nat} {k : Int} {x fresh : α} {P Q : α → Prop}

@[simp] theorem release_used (reset : α → α) (p : Pool α key) (k : Int) :
    (p.release reset k).used = p.used.filter fun y => decide (key y ≠ k) := by
  unfold release
  split
  next hnone => exact (IndexedSet.ext_mem fun y => by simpa using IndexedSet.find?_none hnone y).symm
  next => rfl

theorem release_find? (reset : α → α) (p : Pool α key) (k t : Int) :
    (p.release reset k).used.find? t = if t = k then none else p.used.find? t := by
  rw [release_used]
  exact IndexedSet.find?_filter_ne _ _ _

/-- A release keeps what holds of all entries, if taking one back makes it fit for reuse. -/
theorem release_all (reset : α → α) (k : Int) (hused : ∀ x ∈ p.used, P x) (hspare : ∀ x ∈ p.spare, Q x)
    (hreset : ∀ x ∈ p.used, Q (reset x)) : (∀ x ∈ (p.release reset k).used, P x) ∧ ∀ x ∈ (p.release reset k).spare, Q x := by
  constructor
  · intro x hx
    rw [release_used] at hx
    exact hused x (IndexedSet.mem_filter.mp hx).1
  · unfold release
    split
    next => exact hspare
    next c hc => exact List.forall_mem_cons.mpr ⟨hreset c (IndexedSet.find?_some hc).1, hspare⟩

/-- A pool that is trimmed either has not got too many entries, or it gives up the oldest one. -/
theorem trim_cases (reset : α → α) (limit : Nat) (p : Pool α key) :
    p.used.entries.length ≤ limit ∧ p.trim reset limit = p ∨
      ∃ oldest rest, p.used.entries = oldest :: rest ∧ limit < p.used.entries.length ∧
        p.trim reset limit = p.release reset (key oldest) ∧ (p.trim reset limit).used.entries = rest ∧
        (p.trim reset limit).spare = reset oldest :: p.spare := by
  unfold trim
  split
  next h =>
    rw [h]
    exact Or.inl ⟨Nat.zero_le _, rfl⟩
  next oldest rest h =>
    split
    next hlt =>
      refine Or.inr ⟨oldest, rest, h, h ▸ hlt, rfl, ?_, ?_⟩
      · have hsorted := p.used.sorted
        rw [h] at hsorted
        rw [release_used]
        change p.used.entries.filter (fun y => decide (key y ≠ key oldest)) = rest
        rw [h, List.filter_cons_of_neg (by simp), List.filter_eq_self]
        intro y hy
        have hlt := (List.pairwise_cons.mp hsorted).1 y hy
        exact decide_eq_true (by omega)
      · have hmem : oldest ∈ p.used := by
          rw [IndexedSet.mem_def, h]
          exact List.mem_cons_self
        unfold release
        rw [IndexedSet.find?_eq_some_of_mem hmem]
    next hle =>
      rw [h]
      exact Or.inl ⟨Nat.not_lt.mp hle, rfl⟩

theorem trim_all (reset : α → α) (limit : Nat) (hused : ∀ x ∈ p.used, P x) (hspare : ∀ x ∈ p.spare, Q x)
    (hreset : ∀ x ∈ p.used, Q (reset x)) : (∀ x ∈ (p.trim reset limit).used, P x) ∧ ∀ x ∈ (p.trim reset limit).spare, Q x := by
  rcases p.trim_cases reset limit with ⟨_, h⟩ | ⟨_, _, _, _, h, _⟩
  · rw [h]
    exact ⟨hused, hspare⟩
  · rw [h]
    exact release_all reset _ hused hspare hreset

/-- The newest entry is not the one given up, if there is room for one. -/
theorem trim_find? (reset : α → α) (hpos : 0 < limit) (hx : p.used.find? k = some x) (hlast : ∀ y ∈ p.used, key y ≤ k) :
    (p.trim reset limit).used.find? k = some x := by
  rcases p.trim_cases reset limit with ⟨_, h⟩ | ⟨oldest, rest, hentries, hlt, h, _⟩
  · rw [h, hx]
  · rw [hentries, List.length_cons] at hlt
    have hne : rest ≠ [] := by
      rintro rfl
      simp only [List.length_nil] at hlt
      omega
    obtain ⟨y, hy⟩ := List.exists_mem_of_ne_nil rest hne
    have hsorted := p.used.sorted
    rw [hentries] at hsorted
    have holder := (List.pairwise_cons.mp hsorted).1 y hy
    have hle := hlast y (by
      rw [IndexedSet.mem_def, hentries]
      exact List.mem_cons_of_mem _ hy)
    rw [h, release_find?, if_neg (by omega), hx]

/-- An entry newer than the others is found, once it is in the pool and the pool is trimmed. -/
theorem trim_insert_find? (reset : α → α) (hpos : 0 < limit) (hnew : ∀ y ∈ p.used, key y < key x) :
    (trim reset limit ⟨p.used.insert x, p.spare⟩).used.find? (key x) = some x := by
  refine trim_find? reset hpos ?_ fun y hy => ?_
  · exact (IndexedSet.find?_insert (fun y hy => Int.ne_of_lt (hnew y hy)) _).trans (if_pos rfl)
  · rcases IndexedSet.mem_of_mem_insert hy with rfl | hy
    · exact Int.le_refl _
    · exact Int.le_of_lt (hnew y hy)

@[simp] theorem next_used (p : Pool α key) (fresh : α) : (p.next fresh).2.used = p.used := by
  unfold next
  split <;> rfl

theorem next_spare (p : Pool α key) (fresh : α) : (p.next fresh).2.spare = p.spare.tail := by
  unfold next
  split
  next h => rw [h, List.tail_cons]
  next h => rw [h, List.tail_nil]

theorem next_all (hspare : ∀ x ∈ p.spare, Q x) (hfresh : Q fresh) :
    Q (p.next fresh).1 ∧ ∀ x ∈ (p.next fresh).2.spare, Q x := by
  unfold next
  split
  next x rest h =>
    rw [h] at hspare
    exact List.forall_mem_cons.mp hspare
  next => exact ⟨hfresh, hspare⟩

end Pool
