import Fenix.Blocks
import Fenix.Tiles
import Mathlib.Data.Set.Card
import Mathlib.Order.Interval.Finset.Nat
import Mathlib.Tactic.Ring

namespace InBlocks

variable {a b s n : Nat}

theorem finite : {x | InBlocks a b s n x}.Finite := (Set.finite_Icc a (b + n * s)).subset fun _ hx => ⟨InBlocks.lower hx, InBlocks.upper hx⟩

theorem ncard_interval (hab : a ≤ b) : {x | a ≤ x ∧ x ≤ b}.ncard = b - a + 1 := by
  have hset : {x | a ≤ x ∧ x ≤ b} = ↑(Finset.Icc a b) := by
    ext x
    simp
  rw [hset, Set.ncard_coe_finset, Nat.card_Icc]
  omega

/-- Blocks that do not overlap have as many elements as there are in one of them, times their number. -/
theorem ncard (hab : a ≤ b) (hs : b < a + s) : {x | InBlocks a b s n x}.ncard = (b - a + 1) * (n + 1) := by
  induction n with
  | zero =>
    simp only [zero_iff]
    rw [ncard_interval hab, Nat.zero_add, Nat.mul_one]
  | succ n ih =>
    have hset : {x | InBlocks a b s (n + 1) x} =
        {x | InBlocks a b s n x} ∪ {x | a + (n + 1) * s ≤ x ∧ x ≤ b + (n + 1) * s} := by
      ext x
      have happend := InBlocks.append (a := a) (b := b) (s := s) (m := n) (n := 0) (x := x)
      rwa [Nat.add_zero, zero_iff] at happend
    have hdisjoint : Disjoint {x | InBlocks a b s n x} {x | a + (n + 1) * s ≤ x ∧ x ≤ b + (n + 1) * s} := by
      refine Set.disjoint_left.mpr fun x hx hx' => ?_
      have hup := InBlocks.upper hx
      have hlo : a + (n + 1) * s ≤ x := hx'.1
      rw [Nat.add_mul, Nat.one_mul] at hlo
      omega
    rw [hset, Set.ncard_union_eq hdisjoint finite ((Set.finite_Icc _ _).subset fun _ hx => hx), ih,
      ncard_interval (by omega)]
    have hlen : b + (n + 1) * s - (a + (n + 1) * s) = b - a := by omega
    rw [hlen]
    ring

end InBlocks

/-- Tiles have as many elements as each of them has, taken together. -/
theorem Tiles.ncard {α β : Type} [LinearOrder α] {M : α → β → Prop} {Q : α → Prop} {S : OrdSet α} {P : β → Prop}
    (h : Tiles M Q S P) (hfin : ∀ r ∈ S, {x | M r x}.Finite) :
    {x | P x}.ncard = (S.entries.map fun r => {x | M r x}.ncard).sum := by
  have hlist : ∀ {l : List α}, l.Pairwise (fun p q => ∀ x, M p x → ¬M q x) → (∀ r ∈ l, {x | M r x}.Finite) →
      {x | ∃ r ∈ l, M r x}.Finite ∧ {x | ∃ r ∈ l, M r x}.ncard = (l.map fun r => {x | M r x}.ncard).sum := by
    intro l hl hfin
    induction l with
    | nil => simp
    | cons r rs ih =>
      obtain ⟨hr, hrs⟩ := List.pairwise_cons.mp hl
      obtain ⟨hfr, hfrs⟩ := List.forall_mem_cons.mp hfin
      obtain ⟨hrest, hcard⟩ := ih hrs hfrs
      have hset : {x | ∃ t ∈ r :: rs, M t x} = {x | M r x} ∪ {x | ∃ t ∈ rs, M t x} := by
        ext x
        exact List.exists_mem_cons_iff _ _ _
      have hdisjoint : Disjoint {x | M r x} {x | ∃ t ∈ rs, M t x} :=
        Set.disjoint_left.mpr fun x hx ⟨t, ht, hx'⟩ => hr t ht x hx hx'
      rw [hset]
      refine ⟨hfr.union hrest, ?_⟩
      rw [Set.ncard_union_eq hdisjoint hfr hrest, hcard, List.map_cons, List.sum_cons]
  have hset : {x | P x} = {x | ∃ r ∈ S.entries, M r x} := by
    ext x
    exact (h.cover x).symm
  rw [hset]
  exact (hlist (h.pairwise (List.Sublist.refl _)) hfin).2
