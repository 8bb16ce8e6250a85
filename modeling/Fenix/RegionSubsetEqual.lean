import Fenix.RegionSubsetDiff

namespace Fenix.RegionSubset

open DataRegion

variable {A B : RegionSubset} {x : Nat}

theorem start_eq_of_mem (h : ∀ x, A.Mem x ↔ B.Mem x) : A.start = B.start := by
  by_cases hA : A.isEmpty = true
  · have hB : B.isEmpty = true := isEmpty_iff_mem.mpr fun x hx => isEmpty_iff_mem.mp hA x ((h x).mpr hx)
    have hnone : ∀ {S : RegionSubset}, S.isEmpty = true → S.start = sizeMax := fun {S} hS => by
      unfold start
      cases hfirst : S.first with
      | none => rfl
      | some r => exact absurd (OrdSet.first_mem hfirst) (isEmpty_iff.mp hS r)
    rw [hnone hA, hnone hB]
  · have hB : ¬B.isEmpty = true := fun hB => hA (isEmpty_iff_mem.mpr fun x hx => isEmpty_iff_mem.mp hB x ((h x).mp hx))
    exact Nat.le_antisymm (start_le ((h _).mpr (start_mem hB))) (start_le ((h _).mp (start_mem hA)))

theorem stop_eq_of_mem (hA : A.WellFormed) (hB : B.WellFormed) (h : ∀ x, A.Mem x ↔ B.Mem x) : A.stop = B.stop := by
  by_cases hAe : A.isEmpty = true
  · have hBe : B.isEmpty = true := isEmpty_iff_mem.mpr fun x hx => isEmpty_iff_mem.mp hAe x ((h x).mpr hx)
    unfold stop
    rw [if_pos hAe, if_pos hBe]
  · have hBe : ¬B.isEmpty = true := fun hBe => hAe (isEmpty_iff_mem.mpr fun x hx => isEmpty_iff_mem.mp hBe x ((h x).mp hx))
    have hAs := hA.stop_mem hAe
    have hBs := hB.stop_mem hBe
    exact Nat.le_antisymm (hB.le_stop ((h _).mp hAs)) (hA.le_stop ((h _).mpr hBs))

/-- Two subsets with bounds are equal if each has the indices of the other, whatever regions they have. -/
theorem equal_spec (hA : A.WellFormed) (hB : B.WellFormed) (hfinite : ¬A.Mem sizeMax) :
    ∃ v, A.equal B = .ok v ∧ (v = true ↔ ∀ x, A.Mem x ↔ B.Mem x) := by
  unfold equal
  split
  next hstart => exact ⟨false, rfl, nofun, fun h => absurd (start_eq_of_mem h) hstart⟩
  next =>
    split
    next hempty =>
      refine ⟨false, rfl, nofun, fun h => absurd ?_ hempty⟩
      rw [Bool.eq_iff_iff, isEmpty_iff_mem, isEmpty_iff_mem]
      simp only [h]
    next =>
      split
      next heq =>
        refine ⟨true, rfl, fun _ x => ?_, fun _ => rfl⟩
        rw [heq]
      next =>
        split
        next hstop => exact ⟨false, rfl, nofun, fun h => absurd (stop_eq_of_mem hA hB h) hstop⟩
        next hstop =>
          have hrefuse : ¬A.refused B := not_refused hA hB fun h => hfinite h.1
          split
          next hdiffer =>
            refine absurd ⟨hdiffer.1, hdiffer.2, ?_⟩ hrefuse
            rw [← not_not.mp hstop]
            exact hdiffer.2
          next =>
            obtain ⟨L, hL, hleft⟩ := sub_exact hA hB hrefuse
            obtain ⟨R, hR, hright⟩ := sub_exact hB hA (not_refused hB hA fun h => hfinite h.2.1)
            have hLe : L.isEmpty = true ↔ ∀ x, ¬(A.Mem x ∧ ¬B.Mem x) := by
              rw [isEmpty_iff_mem]
              exact forall_congr' fun x => not_congr (hleft.cover x)
            have hRe : R.isEmpty = true ↔ ∀ x, ¬(B.Mem x ∧ ¬A.Mem x) := by
              rw [isEmpty_iff_mem]
              exact forall_congr' fun x => not_congr (hright.cover x)
            rw [hL, Except.ok_bind]
            split
            next hsome =>
              refine ⟨false, rfl, nofun, fun h => absurd (hLe.mpr fun x hx => hx.2 ((h x).mp hx.1)) hsome⟩
            next hnone =>
              rw [hR, Except.ok_bind]
              refine ⟨R.isEmpty, rfl, hRe.trans ?_⟩
              have hLnone := hLe.mp (not_not.mp hnone)
              constructor
              · exact fun h x => ⟨fun hx => by_contra fun hno => hLnone x ⟨hx, hno⟩,
                  fun hx => by_contra fun hno => h x ⟨hx, hno⟩⟩
              · exact fun h x hx => hx.2 ((h x).mpr hx.1)

/-- Equality of subsets with bounds is that of the indices they include, and so is being empty. -/
theorem equal_extensional (hA : A.WellFormed) (hB : B.WellFormed) (hfinite : ¬A.Mem sizeMax) :
    (∃ v, A.equal B = .ok v ∧ (v = true ↔ ∀ i ≤ sizeMax, A.includes i = B.includes i)) ∧
      (A.isEmpty = true ↔ ∀ i ≤ sizeMax, A.includes i = .ok false) := by
  have hsame : ∀ i ≤ sizeMax, (A.includes i = B.includes i ↔ (A.Mem i ↔ B.Mem i)) := fun i hi => by
    obtain ⟨a, ha, hamem⟩ := includes_spec hA.sound hi
    obtain ⟨b, hb, hbmem⟩ := includes_spec hB.sound hi
    rw [ha, hb, Except.ok.injEq, Bool.eq_iff_iff, hamem, hbmem]
  obtain ⟨v, hv, hiff⟩ := equal_spec hA hB hfinite
  refine ⟨⟨v, hv, hiff.trans ⟨fun h i hi => (hsame i hi).mpr (h i), fun h x => ?_⟩⟩, ?_⟩
  · rcases Nat.lt_or_ge sizeMax x with hlt | hle
    · exact iff_of_false (fun hx => Nat.not_lt.mpr (le_sizeMax hA hx) hlt) fun hx => Nat.not_lt.mpr (le_sizeMax hB hx) hlt
    · exact (hsame x hle).mp (h x hle)
  · rw [isEmpty_iff_mem]
    constructor
    · intro h i hi
      obtain ⟨a, ha, hamem⟩ := includes_spec hA.sound hi
      rw [ha, (Bool.not_eq_true a).mp fun htrue => h i (hamem.mp htrue)]
    · intro h x hx
      obtain ⟨a, ha, hamem⟩ := includes_spec hA.sound (le_sizeMax hA hx)
      rw [h x (le_sizeMax hA hx)] at ha
      cases Except.ok.inj ha
      exact Bool.false_ne_true (hamem.mpr hx)

theorem equal_extensional_zeroAndThree : (∃ v, zeroAndThree.equal evens = .ok v ∧
    (v = true ↔ ∀ i ≤ sizeMax, zeroAndThree.includes i = evens.includes i)) ∧
      (zeroAndThree.isEmpty = true ↔ ∀ i ≤ sizeMax, zeroAndThree.includes i = .ok false) :=
  equal_extensional zeroAndThree_wellFormed evens_wellFormed fun hmax => by
    have hup := (mem_singleton.mp hmax).upper
    revert hup
    decide

end Fenix.RegionSubset
