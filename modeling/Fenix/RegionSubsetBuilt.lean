import Fenix.RegionSubsetEqual

namespace Fenix.RegionSubset

open DataRegion

variable {A B C S T : RegionSubset} {may : RegionSubset → RegionSubset → Prop} {first second n stride x : Nat}

/-- The constructor makes a subset of the blocks that it is told, and of no others. -/
theorem ofBlocks_spec (hend : second + (n - 1) * stride < sizeMax) (h : ofBlocks first second n stride = .ok S) :
    S.WellFormed ∧ ∀ x, S.Mem x ↔ InBlocks first second stride (n - 1) x := by
  unfold ofBlocks at h
  split at h
  next hargs =>
    obtain ⟨hle, hn, hgap⟩ := hargs
    have hgap' : n - 1 = 0 ∨ stride ≠ sizeMax ∧ second < first + stride := by
      by_cases hone : n = 1
      · exact Or.inl (by omega)
      · have hmul := Nat.le_mul_of_pos_left stride (show 0 < n - 1 by omega)
        exact Or.inr ⟨by omega, hgap.resolve_left hone⟩
    obtain ⟨r, hr, hmem, hfits, _⟩ := make_spec hle (Nat.le_of_lt hend) hgap'
    rw [hr, Except.ok_bind] at h
    cases Except.ok.inj h
    have htiles : StrideTiles stride {r} r.Mem := Tiles.singleton hfits
    exact ⟨wellFormed htiles, fun x => (htiles.cover x).trans (hmem x)⟩
  next => cases h

/-- The subsets that are built of ranges and of strided blocks with bounds, one being subtracted from another only
where it may be. -/
inductive Built (may : RegionSubset → RegionSubset → Prop) : RegionSubset → Prop
  | range {first second : Nat} {S : RegionSubset} (hend : second < sizeMax) (h : ofRange first second = .ok S) :
      Built may S
  | blocks {first second n stride : Nat} {S : RegionSubset} (hend : second + (n - 1) * stride < sizeMax)
      (h : ofBlocks first second n stride = .ok S) : Built may S
  | add {A B C : RegionSubset} (hA : Built may A) (hB : Built may B) (h : A.add B = .ok C) : Built may C
  | sub {A B C : RegionSubset} (hA : Built may A) (hB : Built may B) (hmay : may A B) (h : A.sub B = .ok C) : Built may C
  | bounded {A C : RegionSubset} {max_idx : Nat} (hA : Built may A) (hmax : max_idx ≤ sizeMax)
      (h : A.bounded max_idx = .ok C) : Built may C

/-- All operations on two subsets return, and the subsets that they return are well-formed. -/
structure Completes (may : RegionSubset → RegionSubset → Prop) (A B : RegionSubset) : Prop where
  add : ∃ C, A.add B = .ok C ∧ C.WellFormed
  sub : ∃ C, A.sub B = .ok C ∧ (may A B → C.WellFormed)
  equal : ∃ v, A.equal B = .ok v
  includes : ∀ i ≤ sizeMax, ∃ v, A.includes i = .ok v
  includesAll : ∀ stop ≤ sizeMax, ∃ v, A.includesAll stop = .ok v
  count : ∀ max_index ≤ sizeMax, ∃ n, A.count max_index = .ok n
  bounded : ∀ max_idx ≤ sizeMax, ∃ C, A.bounded max_idx = .ok C ∧ C.WellFormed

theorem completes (hA : A.WellFormed) (hB : B.WellFormed) (hfinite : ¬A.Mem sizeMax) : Completes Separable A B := by
  have hrefuse : ¬A.refused B := not_refused hA hB fun h => hfinite h.1
  have hbounded : ∀ m ≤ sizeMax, ∃ C, A.bounded m = .ok C ∧ C.WellFormed := fun m hm => by
    obtain ⟨T, hT, htiles⟩ := boundedRegions_fits hA.tiles (Nat.zero_le m) hm
    exact ⟨T, hT, wellFormed htiles⟩
  refine ⟨?_, ?_, ?_, fun i hi => ?_, fun e he => ?_, fun e he => ?_, hbounded⟩
  · obtain ⟨C, hC, hwf, _⟩ := add_spec hA hB
    exact ⟨C, hC, hwf⟩
  · obtain ⟨C, hC, _⟩ := sub_exact hA hB hrefuse
    refine ⟨C, hC, fun hsep => ?_⟩
    obtain ⟨C', hC', hwf, _⟩ := sub_separable hA hB hrefuse hsep
    cases Except.ok.inj (hC.symm.trans hC')
    exact hwf
  · obtain ⟨v, hv, _⟩ := equal_spec hA hB hfinite
    exact ⟨v, hv⟩
  · obtain ⟨v, hv, _⟩ := includes_spec hA.sound hi
    exact ⟨v, hv⟩
  · obtain ⟨v, hv, _⟩ := includesAll_spec hA.tiles he
    exact ⟨v, hv⟩
  · obtain ⟨T, hT, _⟩ := hbounded e he
    unfold RegionSubset.count
    rw [show A.boundedRegions 0 e = .ok T from hT, Except.ok_bind]
    split
    next => exact ⟨_, rfl⟩
    next => exact ⟨_, rfl⟩

/-- A subset that was built is well-formed and has bounds. -/
theorem Built.wellFormed (h : Built Separable S) : S.WellFormed ∧ ¬S.Mem sizeMax := by
  have hblocks : ∀ {first second n stride S}, second + (n - 1) * stride < sizeMax → ofBlocks first second n stride = .ok S →
      S.WellFormed ∧ ¬S.Mem sizeMax := fun hend h => by
    obtain ⟨hwf, hmem⟩ := ofBlocks_spec hend h
    refine ⟨hwf, fun hmax => ?_⟩
    have hup := ((hmem sizeMax).mp hmax).upper
    omega
  induction h with
  | range hend h => exact hblocks (by omega) h
  | blocks hend h => exact hblocks hend h
  | add _ _ h ihA ihB =>
    obtain ⟨C, hC, hwf, hmem⟩ := add_spec ihA.1 ihB.1
    cases Except.ok.inj (h.symm.trans hC)
    exact ⟨hwf, fun hmax => ((hmem sizeMax).mp hmax).elim (fun hx => ihA.2 hx.1) ihB.2⟩
  | sub _ _ hmay h ihA ihB =>
    obtain ⟨C, hC, hwf, hmem⟩ := sub_separable ihA.1 ihB.1 (not_refused ihA.1 ihB.1 fun h => ihA.2 h.1) hmay
    cases Except.ok.inj (h.symm.trans hC)
    exact ⟨hwf, fun hmax => ihA.2 ((hmem sizeMax).mp hmax).1⟩
  | bounded _ hmax h ih =>
    obtain ⟨C, hC, htiles⟩ := boundedRegions_fits ih.1.tiles (Nat.zero_le _) hmax
    cases Except.ok.inj (h.symm.trans hC)
    exact ⟨RegionSubset.wellFormed htiles, fun hx => ih.2 ((htiles.cover _).mp hx).1⟩

/-- Subsets that were built, no subtraction leaving regions of two strides, are well-formed, and all operations on
them return. -/
theorem built_completes (hA : Built Separable A) (hB : Built Separable B) : A.WellFormed ∧ Completes Separable A B :=
  ⟨hA.wellFormed.1, completes hA.wellFormed.1 hB.wellFormed.1 hA.wellFormed.2⟩

def threeBlocks : RegionSubset := {⟨0, 20, 2, 100, by decide, by decide⟩}

def fiveBlocks : RegionSubset := {⟨0, 1, 4, 4, by decide, by decide⟩}

def hundreds : RegionSubset := {⟨0, 1, 2, 100, by decide, by decide⟩}

/-- What is left of three blocks has the stride of the five blocks up to their end, and its own past it. -/
def mixed : RegionSubset := ⟨[⟨2, 3, 3, 4, by decide, by decide⟩, ⟨18, 20, 0, sizeMax, by decide, by decide⟩,
  ⟨100, 120, 1, 100, by decide, by decide⟩], by decide⟩

/-- The subtraction of five blocks from three leaves two strides, and the next subtraction fails. -/
theorem built_mixed : ¬∀ A B, Built (fun _ _ => True) A → Built (fun _ _ => True) B →
    A.WellFormed ∧ Completes (fun _ _ => True) A B := by
  intro h
  have hthree : Built (fun _ _ => True) threeBlocks := @Built.blocks _ 0 20 3 100 _ (by decide) rfl
  have hfive : Built (fun _ _ => True) fiveBlocks := @Built.blocks _ 0 1 5 4 _ (by decide) rfl
  have hhundreds : Built (fun _ _ => True) hundreds := @Built.blocks _ 0 1 3 100 _ (by decide) rfl
  have hmixed : Built (fun _ _ => True) mixed := Built.sub hthree hfive trivial rfl
  obtain ⟨C, hC, _⟩ := (h mixed hundreds hmixed hhundreds).2.sub
  have hfails : mixed.sub hundreds = .error .assertion := rfl
  rw [hfails] at hC
  cases hC

/-- What the five blocks leave of the hundreds. -/
def laterHundreds : RegionSubset := {⟨100, 101, 1, 100, by decide, by decide⟩}

/-- What these leave of three blocks. -/
def trimmed : RegionSubset := ⟨[⟨0, 20, 0, sizeMax, by decide, by decide⟩,
  ⟨102, 120, 0, sizeMax, by decide, by decide⟩, ⟨202, 220, 0, sizeMax, by decide, by decide⟩], by decide⟩

/-- The strides differ and there are two hundreds past the five blocks, but none has two gaps of the blocks. -/
theorem hundreds_separable : hundreds.stridesDiffer fiveBlocks ∧ hundreds.Separable fiveBlocks := by
  refine ⟨by decide, fun _ => Or.inr ?_⟩
  intro r hr k _ b hb hspans
  cases OrdSet.mem_singleton.mp hr
  cases OrdSet.mem_singleton.mp hb
  obtain ⟨inv, hinv, j, _, hlo, hhi⟩ := hspans
  cases Except.ok.inj hinv
  simp only [repetition] at hlo hhi
  omega

/-- A difference of two strides is subtracted from three blocks. -/
theorem built_completes_trimmed : trimmed.WellFormed ∧ Completes Separable trimmed fiveBlocks := by
  have hfive : Built Separable fiveBlocks := @Built.blocks _ 0 1 5 4 _ (by decide) rfl
  have hhundreds : Built Separable hundreds := @Built.blocks _ 0 1 3 100 _ (by decide) rfl
  have hlater : Built Separable laterHundreds := hhundreds.sub hfive hundreds_separable.2 rfl
  have hthree : Built Separable threeBlocks := @Built.blocks _ 0 20 3 100 _ (by decide) rfl
  exact built_completes (hthree.sub hlater (fun h => absurd h (by decide)) rfl) hfive

end Fenix.RegionSubset
