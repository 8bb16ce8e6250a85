import Mathlib.Data.Finset.Max
import Mathlib.Data.Finset.Card

/-!
A bounded history that is kept twice: as the list of what was recorded, and as what is still held of
it, with a number of free places that what is held comes from and goes back to.
-/

variable {α : Type} [LinearOrder α]

/-- All but the least element. -/
def eraseOldest (s : Finset α) : Finset α := if h : s.Nonempty then s.erase (s.min' h) else s

theorem mem_eraseOldest {s : Finset α} {x : α} : x ∈ eraseOldest s ↔ x ∈ s ∧ ∃ y ∈ s, y < x := by
  unfold eraseOldest
  split
  next h =>
    rw [Finset.mem_erase, and_comm]
    refine and_congr_right fun hx => ?_
    constructor
    · intro hne
      exact ⟨s.min' h, s.min'_mem h, lt_of_le_of_ne (s.min'_le x hx) (Ne.symm hne)⟩
    · rintro ⟨y, hy, hlt⟩ rfl
      exact absurd hlt (not_lt.mpr (s.min'_le y hy))
  next h =>
    refine (and_iff_left_of_imp fun hx => ?_).symm
    exact absurd ⟨x, hx⟩ h

theorem eraseOldest_subset (s : Finset α) : eraseOldest s ⊆ s := fun _ hx => (mem_eraseOldest.mp hx).1

theorem card_eraseOldest (s : Finset α) : (eraseOldest s).card = s.card - 1 := by
  unfold eraseOldest
  split
  next h => rw [Finset.card_erase_of_mem (s.min'_mem h)]
  next h => rw [Finset.not_nonempty_iff_eq_empty.mp h, Finset.card_empty]

structure Ledger (α : Type) where
  listed : Finset α
  held : Finset α
  spare : Nat

namespace Ledger

variable {l : Ledger α} {s : Finset α} {limit : Nat} {t x : α}

/-- A full list loses its oldest element to the new one. -/
def addListed (limit : Nat) (t : α) (listed : Finset α) : Finset α :=
  insert t (if listed.card = limit then eraseOldest listed else listed)

/-- What is held is trimmed once it holds too much. -/
def addHeld (limit : Nat) (t : α) (held : Finset α) : Finset α :=
  if limit < (insert t held).card then eraseOldest (insert t held) else insert t held

/-- Record a new element. It takes a free place, or a new one if none is free. -/
def commit (limit : Nat) (t : α) (l : Ledger α) : Ledger α where
  listed := addListed limit t l.listed
  held := addHeld limit t l.held
  spare := l.spare + ((insert t l.held).card - (addHeld limit t l.held).card) - 1

def erase (t : α) (l : Ledger α) : Ledger α where
  listed := l.listed.erase t
  held := l.held.erase t
  spare := l.spare + (l.held.card - (l.held.erase t).card)

/-- Replace the list and give up what is not on it. -/
def restrict (listed : Finset α) (l : Ledger α) : Ledger α where
  listed := listed
  held := l.held ∩ listed
  spare := l.spare + (l.held.card - (l.held ∩ listed).card)

/-- Hold an element again. -/
def mend (t : α) (l : Ledger α) : Ledger α where
  listed := l.listed
  held := insert t l.held
  spare := l.spare - ((insert t l.held).card - l.held.card)

/-- What is held beyond the list is older than the list, and not more than fits in one. -/
structure Sound (limit : Nat) (l : Ledger α) : Prop where
  listed_card : l.listed.card ≤ limit
  strayed_older : ∀ x ∈ l.held \ l.listed, ∀ t ∈ l.listed, x < t
  strayed_card : (l.held \ l.listed).card ≤ limit

/-- Nothing is held beyond the list. -/
def Aligned (l : Ledger α) : Prop := l.held ⊆ l.listed

/-- A new element drives out the oldest of the list, but not of what is held. -/
def Skews (limit : Nat) (l : Ledger α) : Prop :=
  l.listed.card = limit ∧ l.held.card < limit ∧ ∃ o ∈ l.listed, o ∈ l.held ∧ ∀ x ∈ l.listed, o ≤ x

/-- The places for elements, those taken and those free. -/
def places (l : Ledger α) : Nat := l.held.card + l.spare

theorem places_commit (hnew : ∀ y ∈ l.held, y < t) : l.places ≤ (l.commit limit t).places := by
  have hins : (insert t l.held).card = l.held.card + 1 :=
    Finset.card_insert_of_notMem fun ht => lt_irrefl t (hnew t ht)
  change l.held.card + l.spare ≤ (addHeld limit t l.held).card +
    (l.spare + ((insert t l.held).card - (addHeld limit t l.held).card) - 1)
  omega

theorem places_erase (t : α) : (l.erase t).places = l.places := by
  have hle : (l.held.erase t).card ≤ l.held.card := Finset.card_erase_le
  change (l.held.erase t).card + (l.spare + (l.held.card - (l.held.erase t).card)) = l.held.card + l.spare
  omega

theorem places_restrict (listed : Finset α) : (l.restrict listed).places = l.places := by
  have hle : (l.held ∩ listed).card ≤ l.held.card := Finset.card_le_card Finset.inter_subset_left
  change (l.held ∩ listed).card + (l.spare + (l.held.card - (l.held ∩ listed).card)) = l.held.card + l.spare
  omega

theorem places_mend (hs : t ∉ l.held → 0 < l.spare) : (l.mend t).places = l.places := by
  have hle : l.held.card ≤ (insert t l.held).card := Finset.card_le_card (Finset.subset_insert _ _)
  have hins : (insert t l.held).card ≤ l.held.card + (if t ∈ l.held then 0 else 1) := by
    split
    next hin => rw [Finset.insert_eq_of_mem hin, Nat.add_zero]
    next => exact Finset.card_insert_le _ _
  change (insert t l.held).card + (l.spare - ((insert t l.held).card - l.held.card)) = l.held.card + l.spare
  split at hins
  next => omega
  next hn =>
    have hpos := hs hn
    omega

theorem mem_addListed : x ∈ addListed limit t s ↔
    x = t ∨ x ∈ s ∧ (s.card = limit → ∃ y ∈ s, y < x) := by
  unfold addListed
  rw [Finset.mem_insert]
  split
  next h => rw [mem_eraseOldest]; simp [h]
  next h => simp [h]

theorem addHeld_subset : addHeld limit t s ⊆ insert t s := by
  unfold addHeld
  split
  next => exact eraseOldest_subset _
  next => exact Finset.Subset.refl _

theorem card_addListed (h : s.card ≤ limit) (hl : 0 < limit) : (addListed limit t s).card ≤ limit := by
  refine (Finset.card_insert_le _ _).trans ?_
  split
  next heq =>
    rw [card_eraseOldest]
    omega
  next hne => omega

/-- What a new element drives out of the list is its oldest one. -/
theorem oldest_of_dropped (hx : x ∈ s) (hd : x ∉ addListed limit t s) :
    s.card = limit ∧ ∀ y ∈ s, x ≤ y := by
  rw [mem_addListed, not_or, not_and, Classical.not_imp] at hd
  obtain ⟨hfull, hnone⟩ := hd.2 hx
  exact ⟨hfull, fun y hy => not_lt.mp fun hlt => hnone ⟨y, hy, hlt⟩⟩

/-- What is trimmed is the oldest of what is held. -/
theorem oldest_of_trimmed (hnew : ∀ y ∈ s, y < t) (hx : x ∈ s) (hd : x ∉ addHeld limit t s) :
    limit ≤ s.card ∧ ∀ y ∈ s, x ≤ y := by
  have hcard : (insert t s).card = s.card + 1 :=
    Finset.card_insert_of_notMem fun ht => lt_irrefl t (hnew t ht)
  unfold addHeld at hd
  split at hd
  next hlt =>
    refine ⟨by omega, fun y hy => not_lt.mp fun hyx => hd ?_⟩
    exact mem_eraseOldest.mpr ⟨Finset.mem_insert_of_mem hx, y, Finset.mem_insert_of_mem hy, hyx⟩
  next => exact absurd (Finset.mem_insert_of_mem hx) hd

theorem self_mem_addHeld (hnew : ∀ y ∈ s, y < t) (hl : 0 < limit) : t ∈ addHeld limit t s := by
  unfold addHeld
  split
  next hlt =>
    rw [Finset.card_insert_of_notMem fun ht => lt_irrefl t (hnew t ht)] at hlt
    obtain ⟨y, hy⟩ := Finset.card_pos.mp (show 0 < s.card by omega)
    exact mem_eraseOldest.mpr ⟨Finset.mem_insert_self t s, y, Finset.mem_insert_of_mem hy, hnew y hy⟩
  next => exact Finset.mem_insert_self t s

/-- At most one element strays anew, and only where one that had strayed before does not: its least one. -/
theorem card_strayed_le {listed : Finset α}
    (hs : ∀ x ∈ s, x ∉ listed → x ∈ l.held ∧ (x ∉ l.listed ∨ ∀ y ∈ l.listed, x ≤ y))
    (hmin : ∀ m, (m ∈ l.held \ l.listed ∧ ∀ y ∈ l.held \ l.listed, m ≤ y) → m ∉ s) :
    (s \ listed).card ≤ max 1 (l.held \ l.listed).card := by
  have hcase : ∀ x ∈ s \ listed, x ∈ s ∧ (x ∈ l.held \ l.listed ∨ x ∈ l.listed ∧ ∀ y ∈ l.listed, x ≤ y) := by
    intro x hx
    obtain ⟨hxs, hxn⟩ := Finset.mem_sdiff.mp hx
    obtain ⟨hheld, hor⟩ := hs x hxs hxn
    refine ⟨hxs, ?_⟩
    by_cases hin : x ∈ l.listed
    · exact Or.inr ⟨hin, hor.resolve_left fun hn => hn hin⟩
    · exact Or.inl (Finset.mem_sdiff.mpr ⟨hheld, hin⟩)
  rcases (l.held \ l.listed).eq_empty_or_nonempty with hempty | hne
  · refine (Finset.card_le_one.mpr fun x hx y hy => ?_).trans (le_max_left _ _)
    rw [hempty] at hcase
    have hx := (hcase x hx).2.resolve_left (Finset.notMem_empty x)
    have hy := (hcase y hy).2.resolve_left (Finset.notMem_empty y)
    exact le_antisymm (hx.2 y hy.1) (hy.2 x hx.1)
  · have hm := hmin _ ⟨Finset.min'_mem _ hne, fun y hy => Finset.min'_le _ y hy⟩
    have herase : ((l.held \ l.listed).erase ((l.held \ l.listed).min' hne)).card + 1 = (l.held \ l.listed).card :=
      Finset.card_erase_add_one (Finset.min'_mem _ hne)
    refine le_trans ?_ (le_max_right _ _)
    rw [← herase]
    by_cases hex : ∃ o ∈ s \ listed, o ∈ l.listed
    · obtain ⟨o, ho, hol⟩ := hex
      refine (Finset.card_le_card fun x hx => ?_).trans (Finset.card_insert_le o _)
      rcases (hcase x hx).2 with hstray | hleast
      · exact Finset.mem_insert_of_mem (Finset.mem_erase.mpr ⟨fun heq => hm (heq ▸ (hcase x hx).1), hstray⟩)
      · have ho := (hcase o ho).2.resolve_left fun h => (Finset.mem_sdiff.mp h).2 hol
        exact Finset.mem_insert.mpr (Or.inl (le_antisymm (hleast.2 o hol) (ho.2 x hleast.1)))
    · refine (Finset.card_le_card fun x hx => ?_).trans (Nat.le_succ _)
      rcases (hcase x hx).2 with hstray | hleast
      · exact Finset.mem_erase.mpr ⟨fun heq => hm (heq ▸ (hcase x hx).1), hstray⟩
      · exact absurd ⟨x, hx, hleast.1⟩ hex

namespace Sound

theorem commit (h : l.Sound limit) (hl : 0 < limit) (hlisted : ∀ y ∈ l.listed, y < t)
    (hheld : ∀ y ∈ l.held, y < t) : (l.commit limit t).Sound limit := by
  have hstray : ∀ x ∈ addHeld limit t l.held, x ∉ addListed limit t l.listed →
      x ∈ l.held ∧ (x ∉ l.listed ∨ ∀ y ∈ l.listed, x ≤ y) := by
    intro x hx hn
    have hne : x ≠ t := fun heq => hn (heq ▸ mem_addListed.mpr (Or.inl rfl))
    refine ⟨(Finset.mem_insert.mp (addHeld_subset hx)).resolve_left hne, ?_⟩
    by_cases hin : x ∈ l.listed
    · exact Or.inr (oldest_of_dropped hin hn).2
    · exact Or.inl hin
  constructor
  case listed_card => exact card_addListed h.listed_card hl
  case strayed_older =>
    intro x hx y hy
    obtain ⟨hxh, hxn⟩ := Finset.mem_sdiff.mp hx
    obtain ⟨hxheld, hcase⟩ := hstray x hxh hxn
    rcases mem_addListed.mp hy with rfl | ⟨hy, hyo⟩
    · exact hheld x hxheld
    · rcases hcase with hnot | hle
      · exact h.strayed_older x (Finset.mem_sdiff.mpr ⟨hxheld, hnot⟩) y hy
      · refine lt_of_le_of_ne (hle y hy) ?_
        rintro rfl
        exact hxn (mem_addListed.mpr (Or.inr ⟨hy, hyo⟩))
  case strayed_card =>
    change (addHeld limit t l.held \ addListed limit t l.listed).card ≤ limit
    by_cases htrim : limit < (insert t l.held).card
    · refine (card_strayed_le hstray fun m hm => ?_).trans (max_le hl h.strayed_card)
      -- the oldest held element is among the strayed ones, and it is the one that is trimmed
      rw [addHeld, if_pos htrim, mem_eraseOldest]
      rintro ⟨_, y, hy, hlt⟩
      obtain ⟨hmx, hmin⟩ := hm
      rcases Finset.mem_insert.mp hy with rfl | hy
      · exact absurd (hheld m (Finset.mem_sdiff.mp hmx).1) (not_lt_of_gt hlt)
      · by_cases hyl : y ∈ l.listed
        · exact absurd (h.strayed_older m hmx y hyl) (not_lt_of_gt hlt)
        · exact absurd hlt (not_lt.mpr (hmin y (Finset.mem_sdiff.mpr ⟨hy, hyl⟩)))
    · refine (Finset.card_le_card Finset.sdiff_subset).trans ?_
      rw [addHeld, if_neg htrim]
      omega

theorem erase (h : l.Sound limit) (t : α) : (l.erase t).Sound limit := by
  have hsub : l.held.erase t \ l.listed.erase t ⊆ l.held \ l.listed := by
    intro x hx
    simp only [Finset.mem_sdiff, Finset.mem_erase, not_and] at hx ⊢
    exact ⟨hx.1.2, hx.2 hx.1.1⟩
  constructor
  case listed_card => exact (Finset.card_erase_le).trans h.listed_card
  case strayed_older =>
    intro x hx y hy
    exact h.strayed_older x (hsub hx) y (Finset.mem_of_mem_erase hy)
  case strayed_card => exact (Finset.card_le_card hsub).trans h.strayed_card

theorem restrict {listed : Finset α} (h : listed.card ≤ limit) : (l.restrict listed).Sound limit := by
  have hempty : (l.held ∩ listed) \ listed = ∅ := Finset.sdiff_eq_empty_iff_subset.mpr Finset.inter_subset_right
  constructor
  case listed_card => exact h
  case strayed_older =>
    intro x hx
    have hx : x ∈ (l.held ∩ listed) \ listed := hx
    rw [hempty] at hx
    exact absurd hx (Finset.notMem_empty x)
  case strayed_card =>
    change ((l.held ∩ listed) \ listed).card ≤ limit
    rw [hempty, Finset.card_empty]
    exact Nat.zero_le _

theorem mend (h : l.Sound limit) (ht : t ∈ l.listed) : (l.mend t).Sound limit := by
  have hsub : insert t l.held \ l.listed ⊆ l.held \ l.listed := by
    intro x hx
    simp only [Finset.mem_sdiff, Finset.mem_insert] at hx ⊢
    refine ⟨hx.1.resolve_left ?_, hx.2⟩
    rintro rfl
    exact hx.2 ht
  constructor
  case listed_card => exact h.listed_card
  case strayed_older =>
    intro x hx y hy
    exact h.strayed_older x (hsub hx) y hy
  case strayed_card => exact (Finset.card_le_card hsub).trans h.strayed_card

/-- Twice as many places as fit in a list leave one free for whatever is listed and not held. -/
theorem spare_pos (h : l.Sound limit) (hplaces : 2 * limit ≤ l.places) (ht : t ∈ l.listed)
    (hn : t ∉ l.held) : 0 < l.spare := by
  have hsplit := Finset.card_sdiff_add_card_inter l.held l.listed
  have hlt : (l.held ∩ l.listed).card < l.listed.card := by
    refine Finset.card_lt_card ⟨Finset.inter_subset_right, fun hsub => ?_⟩
    exact hn (Finset.mem_of_mem_inter_left (hsub ht))
  have hcard := h.listed_card
  have hstray := h.strayed_card
  unfold places at hplaces
  omega

end Sound

/-- A new element keeps all that is held on the list exactly when it does not drive out of the list
something that stays held. -/
theorem aligned_commit_iff (h : l.Aligned) (hnew : ∀ y ∈ l.listed, y < t) :
    (l.commit limit t).Aligned ↔ ¬l.Skews limit := by
  have hheld : ∀ y ∈ l.held, y < t := fun y hy => hnew y (h hy)
  constructor
  · rintro ha ⟨hfull, hroom, o, ho, hoh, hleast⟩
    have hin : o ∈ addHeld limit t l.held := by
      by_contra hd
      have hle := (oldest_of_trimmed hheld hoh hd).1
      omega
    rcases mem_addListed.mp (ha hin) with rfl | ⟨_, hex⟩
    · exact lt_irrefl o (hheld o hoh)
    · obtain ⟨y, hy, hlt⟩ := hex hfull
      exact absurd hlt (not_lt.mpr (hleast y hy))
  · intro hskew x hx
    by_contra hn
    have hne : x ≠ t := fun heq => hn (heq ▸ mem_addListed.mpr (Or.inl rfl))
    have hxh : x ∈ l.held := (Finset.mem_insert.mp (addHeld_subset hx)).resolve_left hne
    obtain ⟨hfull, hleast⟩ := oldest_of_dropped (h hxh) hn
    refine hskew ⟨hfull, ?_, x, h hxh, hxh, hleast⟩
    by_contra hge
    -- all that is listed is held, so the same element is trimmed
    have heq : l.held = l.listed := Finset.eq_of_subset_of_card_le h (by omega)
    have hlt : limit < (insert t l.held).card := by
      rw [Finset.card_insert_of_notMem fun ht => lt_irrefl t (hheld t ht)]
      omega
    change x ∈ addHeld limit t l.held at hx
    rw [addHeld, if_pos hlt, mem_eraseOldest] at hx
    obtain ⟨_, y, hy, hyx⟩ := hx
    rcases Finset.mem_insert.mp hy with rfl | hy
    · exact absurd (hheld x hxh) (not_lt_of_gt hyx)
    · exact absurd hyx (not_lt.mpr (hleast y (heq ▸ hy)))

theorem Aligned.erase (h : l.Aligned) (t : α) : (l.erase t).Aligned := Finset.erase_subset_erase t h

theorem aligned_restrict (listed : Finset α) : (l.restrict listed).Aligned := Finset.inter_subset_right

theorem Aligned.mend (h : l.Aligned) (ht : t ∈ l.listed) : (l.mend t).Aligned := Finset.insert_subset ht h

end Ledger
