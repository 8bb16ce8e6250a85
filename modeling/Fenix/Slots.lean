import Mathlib.Data.List.ReduceOption
import Mathlib.Data.List.Nodup

/-!
Lists of slots that are filled or empty, and the list of what fills them.
-/

variable {α : Type} {slots : List (Option α)} {r i : Nat} {p q : α}

namespace List

theorem mem_reduceOption_iff_getElem? : p ∈ slots.reduceOption ↔ ∃ r : Nat, slots[r]? = some (some p) := by
  rw [reduceOption_mem_iff, mem_iff_getElem?]

/-- What fills the slots before a filled one stands before what fills it. -/
theorem reduceOption_split (hn : slots.reduceOption.Nodup) (hr : slots[r]? = some (some p))
    (hi : slots.reduceOption[i]? = some p) :
    ∃ xs ys, slots = xs ++ some p :: ys ∧ r = xs.length ∧ i = xs.reduceOption.length := by
  obtain ⟨hlt, hget⟩ := getElem?_eq_some_iff.mp hr
  have hsplit : slots = slots.take r ++ some p :: slots.drop (r + 1) := by
    rw [← hget, ← drop_eq_getElem_cons hlt, take_append_drop]
  refine ⟨slots.take r, slots.drop (r + 1), hsplit, by rw [length_take]; omega, ?_⟩
  have hfill : slots.reduceOption = (slots.take r).reduceOption ++ p :: (slots.drop (r + 1)).reduceOption := by
    conv_lhs => rw [hsplit]
    rw [reduceOption_append, reduceOption_cons_of_some]
  have hat : slots.reduceOption[(slots.take r).reduceOption.length]? = some p := by
    rw [hfill, getElem?_append_right (Nat.le_refl _), Nat.sub_self, getElem?_cons_zero]
  obtain ⟨hil, hi⟩ := getElem?_eq_some_iff.mp hi
  obtain ⟨hxl, hat⟩ := getElem?_eq_some_iff.mp hat
  exact (hn.getElem_inj_iff).mp (hi.trans hat.symm)

theorem reduceOption_set_some (hn : slots.reduceOption.Nodup) (hr : slots[r]? = some (some p))
    (hi : slots.reduceOption[i]? = some p) :
    (slots.set r (some q)).reduceOption = slots.reduceOption.set i q := by
  obtain ⟨xs, ys, rfl, rfl, rfl⟩ := reduceOption_split hn hr hi
  simp only [set_append_right _ _ (Nat.le_refl _), Nat.sub_self, set_cons_zero, reduceOption_append,
    reduceOption_cons_of_some]

theorem reduceOption_set_none (hn : slots.reduceOption.Nodup) (hr : slots[r]? = some (some p))
    (hi : slots.reduceOption[i]? = some p) :
    (slots.set r none).reduceOption = slots.reduceOption.eraseIdx i := by
  obtain ⟨xs, ys, rfl, rfl, rfl⟩ := reduceOption_split hn hr hi
  simp only [set_append_right _ _ (Nat.le_refl _), Nat.sub_self, set_cons_zero, reduceOption_append,
    reduceOption_cons_of_some, reduceOption_cons_of_none, eraseIdx_append_of_length_le (Nat.le_refl _),
    eraseIdx_cons_zero]

theorem append_rest_perm [DecidableEq α] {xs ys : List α} (hn : ys.Nodup) (hs : xs.Sublist ys) :
    (xs ++ ys.filter (· ∉ xs)).Perm ys := by
  have hxs : xs.Perm (ys.filter (· ∈ xs)) := by
    refine (perm_ext_iff_of_nodup (hn.sublist hs) (hn.filter _)).mpr fun x => ?_
    rw [mem_filter, decide_eq_true_eq, and_iff_right_of_imp fun hx => hs.subset hx]
  have hsplit := filter_append_perm (fun x => decide (x ∈ xs)) ys
  refine (hxs.append_right _).trans ?_
  simpa only [decide_not] using hsplit

theorem map_getElem?_range' {xs : List α} (k : Nat) :
    (range' k (xs.length - k)).map (xs[·]?) = (xs.drop k).map some := by
  refine ext_getElem (by simp) fun i hi hi' => ?_
  simp only [length_map, length_drop] at hi'
  simp only [getElem_map, getElem_range', getElem_drop, Nat.one_mul]
  exact getElem?_eq_getElem (by omega)

/-- Putting an element that `P` rejects in the place of another one does not change what `P` keeps. -/
theorem filter_set_of_rejected {xs : List α} {P : α → Bool} (hi : xs[i]? = some p) (hp : P p = false)
    (hq : P q = false) : (xs.set i q).filter P = xs.filter P := by
  induction xs generalizing i with
  | nil => rfl
  | cons x xs ih =>
    cases i with
    | zero =>
      cases Option.some.inj hi
      rw [set_cons_zero, filter_cons_of_neg (by simp [hq]), filter_cons_of_neg (by simp [hp])]
    | succ i => rw [set_cons_succ, filter_cons, filter_cons, ih hi]

theorem filter_eraseIdx_of_rejected {xs : List α} {P : α → Bool} (hi : xs[i]? = some p)
    (hp : P p = false) : (xs.eraseIdx i).filter P = xs.filter P := by
  induction xs generalizing i with
  | nil => rfl
  | cons x xs ih =>
    cases i with
    | zero =>
      cases Option.some.inj hi
      rw [eraseIdx_cons_zero, filter_cons_of_neg (by simp [hp])]
    | succ i => rw [eraseIdx_cons_succ, filter_cons, filter_cons, ih hi]

theorem mem_set_iff_of_nodup {xs : List α} {x : α} (hn : xs.Nodup) (hi : xs[i]? = some p) :
    x ∈ xs.set i q ↔ x ∈ xs ∧ x ≠ p ∨ x = q := by
  induction xs generalizing i with
  | nil => simp at hi
  | cons y ys ih =>
    obtain ⟨hy, hn⟩ := nodup_cons.mp hn
    cases i with
    | zero =>
      cases Option.some.inj hi
      rw [set_cons_zero, mem_cons, mem_cons]
      grind
    | succ i =>
      have hpy : p ∈ ys := mem_of_getElem? hi
      rw [set_cons_succ, mem_cons, ih hn hi, mem_cons]
      grind

theorem mem_eraseIdx_iff_of_nodup [DecidableEq α] {xs : List α} {x : α} (hn : xs.Nodup) (hi : xs[i]? = some p) :
    x ∈ xs.eraseIdx i ↔ x ∈ xs ∧ x ≠ p := by
  obtain ⟨hlt, rfl⟩ := getElem?_eq_some_iff.mp hi
  rw [← hn.erase_getElem i hlt, hn.mem_erase_iff, and_comm]

end List
