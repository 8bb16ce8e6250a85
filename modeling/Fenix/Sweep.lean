import Fenix.Tiles

/-- What a sweep over a set does at an element: it ends, goes on, or has the element replaced by others. -/
inductive Visit (α : Type) [LinearOrder α] where
  | stop
  | keep
  | replace (parts : OrdSet α)

namespace OrdSet

variable {α : Type} [LinearOrder α] {s : OrdSet α} {x y : α}

/-- The element that comes after `x`. -/
def next (s : OrdSet α) (x : α) : Option α := (s.after x).head?

def first (s : OrdSet α) : Option α := s.entries.head?

theorem next_mem (h : s.next x = some y) : y ∈ s ∧ x < y := mem_after.mp (List.mem_of_head? h)

/-- What is before the next element is not after this one. -/
theorem le_of_next (hy : y ∈ s) (h : ∀ z, s.next x = some z → y < z) : y ≤ x := by
  by_contra hlt
  have hmem : y ∈ s.after x := mem_after.mpr ⟨hy, not_le.mp hlt⟩
  unfold next at h
  cases hafter : s.after x with
  | nil =>
    rw [hafter] at hmem
    exact List.not_mem_nil hmem
  | cons z zs =>
    have hsorted : (s.after x).Pairwise (· < ·) := s.sorted.filter _
    rw [hafter] at hmem hsorted h
    have hyz := h z rfl
    rcases List.mem_cons.mp hmem with rfl | hmem
    · exact lt_irrefl y hyz
    · exact lt_asymm hyz ((List.pairwise_cons.mp hsorted).1 y hmem)

theorem first_mem (h : s.first = some x) : x ∈ s := List.mem_of_head? h

theorem first_le (hy : y ∈ s) (h : ∀ z, s.first = some z → y < z) : False := by
  unfold first at h
  cases hentries : s.entries with
  | nil =>
    rw [mem_def, hentries] at hy
    exact List.not_mem_nil hy
  | cons z zs =>
    have hsorted := s.sorted
    rw [mem_def, hentries] at hy
    rw [hentries] at h hsorted
    have hyz := h z rfl
    rcases List.mem_cons.mp hy with rfl | hy
    · exact lt_irrefl y hyz
    · exact lt_asymm hyz ((List.pairwise_cons.mp hsorted).1 y hy)

/-- The elements are visited in ascending order, those included that were put in after the place reached. A
sweep that does not end fails. -/
def sweep {ε : Type} (fail : ε) (visit : α → Except ε (Visit α)) : Nat → OrdSet α → Option α → Except ε (OrdSet α)
  | _, s, none => .ok s
  | 0, _, some _ => .error fail
  | fuel + 1, s, some x => do
    let v ← visit x
    match v with
    | .stop => return s
    | .keep => sweep fail visit fuel s (s.next x)
    | .replace parts => sweep fail visit fuel ((s.erase x).merge parts) (s.next x)

end OrdSet

namespace Tiles

variable {α ε : Type} [LinearOrder α] {M : α → Nat → Prop} {Q : α → Prop} {S : OrdSet α} {P D : Nat → Prop}
  {start : α → Nat} {visit : α → Except ε (Visit α)}

/-- Elements that are ordered by a place of their own have different ones. -/
theorem start_lt (hs : Tiles M Q S P) (hstart : ∀ r, M r (start r)) (hmono : ∀ r t, r < t → start r ≤ start t) {r t : α}
    (hr : r ∈ S) (ht : t ∈ S) (hlt : r < t) : start r < start t := by
  refine lt_of_le_of_ne (hmono r t hlt) fun heq => ne_of_lt hlt ?_
  exact hs.disjoint r hr t ht (start t) (heq ▸ hstart r) (hstart t)

/-- A sweep that takes `D` out of each element it visits, and ends only where nothing of `D` is left, takes `D` out
of the whole. -/
theorem sweep (fail : ε) (D : Nat → Prop) (start : α → Nat) (bound : Nat) (visit : α → Except ε (Visit α))
    (hs : Tiles M Q S P) (hstart : ∀ r, M r (start r))
    (hmono : ∀ r t, r < t → start r ≤ start t) (hbound : ∀ r, Q r → start r ≤ bound)
    (hvisit : ∀ r, Q r → ∃ v, visit r = .ok v ∧ match v with
      | .stop => ∀ t, r ≤ t → ∀ x, M t x → ¬D x
      | .keep => ∀ x, M r x → ¬D x
      | .replace T => Tiles M Q T fun x => M r x ∧ ¬D x) :
    ∃ T, S.sweep fail visit (bound + 1) S.first = .ok T ∧ Tiles M Q T fun x => P x ∧ ¬D x := by
  have hrun : ∀ {fuel S P o}, Tiles M Q S P → (∀ x, o = some x → x ∈ S ∧ bound < start x + fuel) →
      (∀ r ∈ S, (∀ x, o = some x → r < x) → ∀ i, M r i → ¬D i) →
      ∃ T, S.sweep fail visit fuel o = .ok T ∧ Tiles M Q T fun x => P x ∧ ¬D x := by
    intro fuel
    induction fuel with
    | zero =>
      intro S P o hs ho hdone
      cases o with
      | none =>
        refine ⟨S, rfl, hs.congr fun x => (and_iff_left_of_imp fun hx => ?_).symm⟩
        obtain ⟨r, hr, hx⟩ := (hs.cover x).mpr hx
        exact hdone r hr nofun x hx
      | some x =>
        obtain ⟨hx, hlt⟩ := ho x rfl
        exact absurd hlt (Nat.not_lt.mpr (hbound x (hs.all x hx)))
    | succ fuel ih =>
      intro S P o hs ho hdone
      cases o with
      | none =>
        refine ⟨S, rfl, hs.congr fun x => (and_iff_left_of_imp fun hx => ?_).symm⟩
        obtain ⟨r, hr, hx⟩ := (hs.cover x).mpr hx
        exact hdone r hr nofun x hx
      | some x =>
        obtain ⟨hx, hlt⟩ := ho x rfl
        have hbefore : ∀ r ∈ S, r < x → ∀ i, M r i → ¬D i := fun r hr hrx => hdone r hr fun y hy => by
          cases Option.some.inj hy
          exact hrx
        have hafter : ∀ y, S.next x = some y → y ∈ S ∧ x < y ∧ bound < start y + fuel := fun y hy => by
          obtain ⟨hy, hxy⟩ := OrdSet.next_mem hy
          have hgrows := hs.start_lt hstart hmono hx hy hxy
          exact ⟨hy, hxy, by omega⟩
        obtain ⟨v, hv, hvisited⟩ := hvisit x (hs.all x hx)
        unfold OrdSet.sweep
        rw [hv, Except.ok_bind]
        cases v with
        | stop =>
          refine ⟨S, rfl, hs.congr fun i => (and_iff_left_of_imp fun hi => ?_).symm⟩
          obtain ⟨r, hr, hi⟩ := (hs.cover i).mpr hi
          rcases lt_or_ge r x with hrx | hxr
          · exact hbefore r hr hrx i hi
          · exact hvisited r hxr i hi
        | keep =>
          refine ih hs (fun y hy => ⟨(hafter y hy).1, (hafter y hy).2.2⟩) fun r hr hry => ?_
          rcases lt_or_eq_of_le (OrdSet.le_of_next hr hry) with hrx | rfl
          · exact hbefore r hr hrx
          · exact hvisited
        | replace T =>
          have hs' := hs.erase hx
          obtain ⟨R, hR, htiles⟩ := ih (hs'.merge hvisited fun i hi hi' => hi.2 hi'.1)
            (fun y hy => by
              obtain ⟨hyS, hxy, hlt⟩ := hafter y hy
              exact ⟨OrdSet.mem_merge.mpr (Or.inl (OrdSet.mem_erase.mpr ⟨hyS, (ne_of_lt hxy).symm⟩)), hlt⟩)
            fun r hr hry => by
              rcases OrdSet.mem_merge.mp hr with hr | hr
              · obtain ⟨hr, hne⟩ := OrdSet.mem_erase.mp hr
                exact hbefore r hr (lt_of_le_of_ne (OrdSet.le_of_next hr hry) hne)
              · exact fun i hi => (hvisited.part hr hi).2
          refine ⟨R, hR, htiles.congr fun i => and_congr_left fun hi => ?_⟩
          have hpart : M x i → P i := hs.part hx
          tauto
  refine hrun hs (fun x hx => ⟨OrdSet.first_mem hx, by omega⟩) fun r hr hfirst => ?_
  exact (OrdSet.first_le hr hfirst).elim

end Tiles
