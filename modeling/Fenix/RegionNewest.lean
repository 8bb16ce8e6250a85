import Fenix.RegionLoad

namespace Fenix

namespace RegionSubset

open DataRegion

variable {A B : RegionSubset}

/-- All indices are those of elements that an `int` can count. -/
def Small (A : RegionSubset) : Prop := ∀ x, A.Mem x → x < 2147483647

/-- The counter of the blocks does not overflow in a small subset. -/
theorem add_small (hA : A.WellFormed) (hB : B.WellFormed) (hsmall : A.Small) :
    ∃ C, A.add B = .ok C ∧ C.WellFormed ∧ ∀ x, C.Mem x ↔ A.Mem x ∨ B.Mem x := by
  obtain ⟨C, hC, hwf, hmem⟩ := add_spec hA hB
  refine ⟨C, hC, hwf, fun x => (hmem x).trans (or_congr_left (and_iff_left_of_imp fun hx hover => ?_))⟩
  obtain ⟨_, r, hr, k, hlt, hk, hrep⟩ := hover
  have hstride := r.lt_stride (by omega)
  have hblock := r.block
  have hstep : k ≤ k * r.stride := Nat.le_mul_of_pos_right k (by omega)
  have hlo := (mem_repetition.mp hrep).1
  have := hsmall x hx
  omega

theorem sub_small (hA : A.WellFormed) (hB : B.WellFormed) (hsmall : A.Small) :
    ∃ C, A.sub B = .ok C ∧ Tiles DataRegion.Mem Sound C fun x => A.Mem x ∧ ¬B.Mem x :=
  sub_exact hA hB (not_refused hA hB fun h => by
    have hlt := hsmall _ h.1
    unfold sizeMax at hlt
    omega)

end RegionSubset

namespace RegionSnapshot

/-- A snapshot protects an element. -/
def Has (s : RegionSnapshot) (i : Nat) : Prop := s.protectedSubset.Mem i

theorem Stored.small {s : RegionSnapshot} {extent : Nat} (h : s.Stored extent) (hpos : 0 < extent) :
    s.protectedSubset.Small := fun x hx => by
  have hnarrow := h.narrow x hx
  have hmul : x + 1 ≤ (x + 1) * extent := Nat.le_mul_of_pos_right _ hpos
  omega

end RegionSnapshot

namespace RegionMember

open RegionSnapshot

variable {β : Type} {d : Deserializer β} {dst : Option Nat} {extent targetCount i : Nat} {snap : RegionSnapshot}
  {snaps visited : List RegionSnapshot} {found part : RegionSubset} {t t₁ t' : Transfer β} {F : Nat → Prop}

/-- The snapshots that are visited one after the other write the elements that are asked for, but for those found
before: each the ones that none visited before it has. -/
structure Overlays (d : Deserializer β) (targetCount : Nat) (F : Nat → Prop) (t : Transfer β)
    (visited : List RegionSnapshot) (t' : Transfer β) : Prop where
  newest : ∀ pre s post, visited = pre ++ s :: post → ∀ i < targetCount, s.Has i → ¬F i → (∀ u ∈ pre, ¬u.Has i) →
    t'.memory i = d.decode (s.element i)
  other : ∀ i, ¬(i < targetCount ∧ ¬F i ∧ ∃ s ∈ visited, s.Has i) → t'.memory i = t.memory i
  written : ∀ i, t'.Written i ↔ t.Written i ∨ i < targetCount ∧ ¬F i ∧ ∃ s ∈ visited, s.Has i

theorem Overlays.nil : Overlays d targetCount F t [] t where
  newest := fun _ _ _ h => absurd h (by simp)
  other := fun _ _ => rfl
  written := fun i => by simp

theorem Overlays.cons (hin : ∀ i, (snap.Has i ∧ ¬F i) ∧ i < targetCount → t₁.memory i = d.decode (snap.element i))
    (hout : ∀ i, ¬((snap.Has i ∧ ¬F i) ∧ i < targetCount) → t₁.memory i = t.memory i)
    (hwritten : ∀ i, t₁.Written i ↔ t.Written i ∨ (snap.Has i ∧ ¬F i) ∧ i < targetCount)
    (h : Overlays d targetCount (fun i => F i ∨ snap.Has i) t₁ visited t') :
    Overlays d targetCount F t (snap :: visited) t' where
  newest := by
    intro pre s post heq i hi hs hF hpre
    cases pre with
    | nil =>
      cases heq
      rw [h.other i fun hno => hno.2.1 (Or.inr hs), hin i ⟨⟨hs, hF⟩, hi⟩]
    | cons u pre =>
      cases heq
      obtain ⟨hu, hpre⟩ := List.forall_mem_cons.mp hpre
      exact h.newest pre s post rfl i hi hs (not_or.mpr ⟨hF, hu⟩) hpre
  other := by
    intro i hno
    rw [h.other i fun ⟨hi, hF, s, hs, hx⟩ => hno ⟨hi, fun hf => hF (Or.inl hf), s, List.mem_cons_of_mem _ hs, hx⟩,
      hout i fun ⟨⟨hx, hF⟩, hi⟩ => hno ⟨hi, hF, snap, List.mem_cons_self, hx⟩]
  written := by
    intro i
    rw [h.written, hwritten, List.exists_mem_cons_iff]
    tauto

/-- A walk over snapshots visits a first part of them: each one that is not the first is visited because an element
that is asked for was not found yet, and all of them are unless all elements were found. -/
structure Walks (targetCount : Nat) (F : Nat → Prop) (snaps visited : List RegionSnapshot) : Prop where
  first : visited <+: snaps
  needed : ∀ pre s post, visited = pre ++ s :: post → pre ≠ [] → ∃ i < targetCount, ¬F i ∧ ∀ u ∈ pre, ¬u.Has i
  stops : visited = snaps ∨ ∀ i < targetCount, F i ∨ ∃ s ∈ visited, s.Has i
  starts : visited = [] → snaps = []

theorem loadPart_spec (hs : snap.Stored extent) (hpos : 0 < extent) (hdst : Sized dst extent targetCount)
    (htarget : 0 < targetCount) (hfound : found.WellFormed) : ∃ t₁, loadPart d dst targetCount snap found t = .ok t₁ ∧
      (∀ i, (snap.Has i ∧ ¬found.Mem i) ∧ i < targetCount → t₁.memory i = d.decode (snap.element i)) ∧
      (∀ i, ¬((snap.Has i ∧ ¬found.Mem i) ∧ i < targetCount) → t₁.memory i = t.memory i) ∧
      ∀ i, t₁.Written i ↔ t.Written i ∨ (snap.Has i ∧ ¬found.Mem i) ∧ i < targetCount := by
  obtain ⟨part, hpart, htiles⟩ := RegionSubset.sub_small hs.wellFormed hfound (hs.small hpos)
  obtain ⟨t₁, ht₁, h⟩ := copyData_part (d := d) (t := t) hs hpos hdst htarget htiles fun i hi => hi.1
  unfold loadPart
  rw [if_pos htarget, hpart]
  exact ⟨t₁, ht₁, h⟩

theorem complete_spec (htarget : 0 < targetCount) (hle : targetCount ≤ sizeMax) (hfound : found.WellFormed) :
    ∃ v, complete targetCount found = .ok v ∧ (v = true ↔ ∀ i < targetCount, found.Mem i) := by
  obtain ⟨v, hv, hiff⟩ := RegionSubset.includesAll_spec hfound.tiles (show targetCount - 1 ≤ sizeMax by omega)
  unfold complete
  rw [if_pos htarget, hv]
  refine ⟨v, rfl, hiff.trans (forall_congr' fun i => ?_)⟩
  rw [Nat.le_sub_one_iff_lt htarget]

/-- Snapshots that are loaded one after the other write what they have, each over what was not found yet. -/
theorem loadEach_spec (hsnaps : ∀ s ∈ snaps, s.Stored extent) (hpos : 0 < extent) (hdst : Sized dst extent targetCount)
    (htarget : 0 < targetCount) (hle : targetCount ≤ sizeMax) (hfound : found.WellFormed) (hsmall : found.Small) :
    ∃ visited found' t', loadEach d dst targetCount snaps found t = .ok (found', t') ∧ found'.WellFormed ∧
      (∀ x, found'.Mem x ↔ found.Mem x ∨ ∃ s ∈ visited, s.Has x) ∧ Walks targetCount found.Mem snaps visited ∧
      Overlays d targetCount found.Mem t visited t' := by
  induction snaps generalizing found t with
  | nil =>
    exact ⟨[], found, t, rfl, hfound, fun x => by simp, ⟨List.prefix_refl _, fun _ _ _ h => absurd h (by simp),
      Or.inl rfl, fun _ => rfl⟩, Overlays.nil⟩
  | cons snap rest ih =>
    obtain ⟨hs, hrest⟩ := List.forall_mem_cons.mp hsnaps
    obtain ⟨t₁, ht₁, hin, hout, hwritten⟩ := loadPart_spec (d := d) (t := t) hs hpos hdst htarget hfound
    obtain ⟨found₁, hfound₁, hwf, hmem⟩ := RegionSubset.add_small hfound hs.wellFormed hsmall
    obtain ⟨v, hv, hall⟩ := complete_spec htarget hle hwf
    unfold loadEach
    rw [if_neg (by have := hs.timestamp; omega), ht₁, Except.ok_bind, hfound₁]
    change ∃ visited found' t', (complete targetCount found₁ >>= _) = _ ∧ _
    rw [hv, Except.ok_bind]
    cases v with
    | true =>
      refine ⟨[snap], found₁, t₁, rfl, hwf, fun x => by simp [hmem, Has], ⟨List.prefix_append [snap] rest, ?_, ?_, ?_⟩,
        Overlays.cons hin hout hwritten Overlays.nil⟩
      · intro pre s post heq hne
        cases pre with
        | nil => exact absurd rfl hne
        | cons u pre => cases pre <;> cases heq
      · refine Or.inr fun i hi => ((hmem i).mp (hall.mp rfl i hi)).imp_right fun hx => ?_
        exact ⟨snap, List.mem_cons_self, hx⟩
      · exact fun h => absurd h (by simp)
    | false =>
      have hsmall₁ : found₁.Small := fun x hx => ((hmem x).mp hx).elim (hsmall x) (hs.small hpos x)
      obtain ⟨visited, found', t', hload, hwf', hmem', hwalks, hover⟩ := ih (t := t₁) hrest hwf hsmall₁
      have hF : found₁.Mem = fun i => found.Mem i ∨ snap.Has i := funext fun i => propext (hmem i)
      rw [hF] at hwalks hover
      refine ⟨snap :: visited, found', t', hload, hwf', fun x => ?_, ⟨?_, ?_, ?_, ?_⟩,
        Overlays.cons hin hout hwritten hover⟩
      · rw [hmem', hmem, List.exists_mem_cons_iff, or_assoc]
        rfl
      · exact (List.prefix_cons_inj snap).mpr hwalks.first
      · intro pre s post heq hne
        cases pre with
        | nil => exact absurd rfl hne
        | cons u pre =>
          cases heq
          by_cases hpre : pre = []
          · subst hpre
            have hmiss : ¬∀ i < targetCount, found₁.Mem i := fun h => Bool.false_ne_true (hall.mpr h)
            obtain ⟨i, hi⟩ := not_forall.mp hmiss
            obtain ⟨hlt, hno⟩ := Classical.not_imp.mp hi
            rw [hmem, not_or] at hno
            exact ⟨i, hlt, hno.1, fun u hu => by rw [List.mem_singleton.mp hu]; exact hno.2⟩
          · obtain ⟨i, hi, hno, hpres⟩ := hwalks.needed pre s post rfl hpre
            exact ⟨i, hi, fun h => hno (Or.inl h), List.forall_mem_cons.mpr ⟨fun h => hno (Or.inr h), hpres⟩⟩
      · refine hwalks.stops.imp (fun h => by rw [h]) fun h i hi => ?_
        rcases h i hi with (hf | hx) | ⟨s, hs, hx⟩
        · exact Or.inl hf
        · exact Or.inr ⟨snap, List.mem_cons_self, hx⟩
        · exact Or.inr ⟨s, List.mem_cons_of_mem _ hs, hx⟩
      · exact fun h => absurd h (by simp)

end RegionMember

end Fenix
