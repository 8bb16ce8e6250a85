import Fenix.RegionSubsetQuery

namespace Fenix

open DataRegion

/-- A region of the first set and one of the second that are tried on the way of merging the sets. -/
inductive TriedAcross : RegionSubset → List DataRegion → DataRegion → DataRegion → Prop
  | now {A : RegionSubset} {x y : DataRegion} {ys : List DataRegion} (hlast : A.entries.getLast? = some x) :
    TriedAcross A (y :: ys) x y
  | later {A : RegionSubset} {x y m p q : DataRegion} {ys : List DataRegion} (hlast : A.entries.getLast? = some x)
    (hm : x.tryMerge y = .ok (some m)) (h : TriedAcross ((A.erase x).insert m) ys p q) : TriedAcross A (y :: ys) p q

/-- Two regions at the end of a set that are tried on the way of merging them. -/
inductive TriedLast : Nat → RegionSubset → DataRegion → DataRegion → Prop
  | now {n : Nat} {A : RegionSubset} {x y : DataRegion} {rest : List DataRegion}
    (hlast : A.entries.reverse = y :: x :: rest) : TriedLast (n + 1) A x y
  | later {n : Nat} {A : RegionSubset} {x y m p q : DataRegion} {rest : List DataRegion}
    (hlast : A.entries.reverse = y :: x :: rest) (hm : x.tryMerge y = .ok (some m))
    (h : TriedLast n (((A.erase y).erase x).insert m) p q) : TriedLast (n + 1) A p q

def Tried (A B : RegionSubset) (p q : DataRegion) : Prop :=
  TriedAcross A B.entries p q ∨ ∃ S : RegionSubset, mergeAcross A B.entries = .ok S ∧ TriedLast S.entries.length S p q

variable {a b m p q : DataRegion} {n x : Nat} {A B : RegionSubset}

theorem mem_insert_erase (hm : ∀ x, m.Mem x ↔ p.Mem x ∨ b.Mem x) (hp : p ∈ A) (x : Nat) :
    RegionSubset.Mem ((A.erase p).insert m) x ↔ A.Mem x ∨ b.Mem x := by
  constructor
  · rintro ⟨r, hr, hx⟩
    rcases OrdSet.mem_insert.mp hr with hrm | hr
    · rw [hrm] at hx
      exact ((hm x).mp hx).imp_left fun hx => ⟨p, hp, hx⟩
    · exact Or.inl ⟨r, (OrdSet.mem_erase.mp hr).1, hx⟩
  · have hinserted : m.Mem x → RegionSubset.Mem ((A.erase p).insert m) x := fun hx => ⟨m, OrdSet.mem_insert.mpr (Or.inl rfl), hx⟩
    rintro (⟨r, hr, hx⟩ | hx)
    · by_cases hrp : r = p
      · rw [hrp] at hx
        exact hinserted ((hm x).mpr (Or.inl hx))
      · exact ⟨r, OrdSet.mem_insert.mpr (Or.inr (OrdSet.mem_erase.mpr ⟨hr, hrp⟩)), hx⟩
    · exact hinserted ((hm x).mpr (Or.inr hx))

theorem finite_insert_erase (hA : ∀ r ∈ A, r.Fits r.stride) (hm : m.Fits m.stride) :
    ∀ r ∈ (A.erase p).insert m, r.Fits r.stride := by
  intro r hr
  rcases OrdSet.mem_insert.mp hr with hrm | hr
  · exact hrm ▸ hm
  · exact hA r (OrdSet.mem_erase.mp hr).1

theorem mergeAcross_covers {ys : List DataRegion} (hA : ∀ r ∈ A, r.Fits r.stride) (hys : ∀ r ∈ ys, r.Fits r.stride)
    (hslip : ∀ p q, TriedAcross A ys p q → ¬p.Slips q) :
    ∃ S : RegionSubset, mergeAcross A ys = .ok S ∧ (∀ r ∈ S, r.Fits r.stride) ∧
      ∀ x, S.Mem x ↔ A.Mem x ∨ ∃ r ∈ ys, r.Mem x := by
  induction ys generalizing A with
  | nil => exact ⟨A, rfl, hA, fun x => by simp⟩
  | cons y ys ih =>
    obtain ⟨hy, hys'⟩ := List.forall_mem_cons.mp hys
    unfold mergeAcross
    cases hlast : A.entries.getLast? with
    | none =>
      have hempty : ∀ x, ¬A.Mem x := by
        rintro x ⟨r, hr, _⟩
        rw [OrdSet.mem_def, List.getLast?_eq_none_iff.mp hlast] at hr
        exact List.not_mem_nil hr
      refine ⟨_, rfl, fun r hr => hys r (OrdSet.mem_ofList.mp hr), fun x => ?_⟩
      rw [or_iff_right (hempty x)]
      simp only [RegionSubset.Mem, OrdSet.mem_ofList]
    | some z =>
      have hz : z ∈ A := List.mem_of_getLast? hlast
      obtain ⟨o, ho, hexact, hfinite⟩ := tryMerge_exact (hA z hz) hy
      have hnot := hslip z y (TriedAcross.now hlast)
      dsimp only
      rw [ho, Except.ok_bind]
      cases o with
      | none =>
        refine ⟨_, rfl, fun r hr => ?_, fun x => ?_⟩
        · exact (OrdSet.mem_merge.mp hr).elim (hA r) fun hr => hys r (OrdSet.mem_ofList.mp hr)
        · simp only [RegionSubset.Mem, OrdSet.mem_merge, OrdSet.mem_ofList, or_and_right, exists_or]
      | some m =>
        have hmem := hexact.mpr hnot m rfl
        obtain ⟨S, hS, hall, hcover⟩ := ih (finite_insert_erase hA (hfinite hnot m rfl)) hys' fun p q htried =>
          hslip p q (TriedAcross.later hlast ho htried)
        refine ⟨S, hS, hall, fun x => ?_⟩
        rw [hcover, mem_insert_erase hmem hz, or_assoc, List.exists_mem_cons_iff]

/-- The two greatest regions of a set differ. -/
theorem last_two {y z : DataRegion} {rest : List DataRegion} (h : A.entries.reverse = y :: z :: rest) :
    y ∈ A ∧ z ∈ A ∧ z ≠ y := by
  have hmem : ∀ r, r ∈ A ↔ r ∈ y :: z :: rest := fun r => by rw [← h, List.mem_reverse, OrdSet.mem_def]
  refine ⟨(hmem y).mpr List.mem_cons_self, (hmem z).mpr (List.mem_cons_of_mem y List.mem_cons_self), fun heq => ?_⟩
  have hnodup := List.nodup_reverse.mpr A.nodup
  rw [h, heq] at hnodup
  exact (List.nodup_cons.mp hnodup).1 List.mem_cons_self

theorem mergeLast_covers (hA : ∀ r ∈ A, r.Fits r.stride) (hslip : ∀ p q, TriedLast n A p q → ¬p.Slips q) :
    ∃ S : RegionSubset, mergeLast n A = .ok S ∧ ∀ x, S.Mem x ↔ A.Mem x := by
  induction n generalizing A with
  | zero => exact ⟨A, rfl, fun x => Iff.rfl⟩
  | succ n ih =>
    unfold mergeLast
    split
    next y z rest hrev =>
      obtain ⟨hy, hz, hne⟩ := last_two hrev
      obtain ⟨o, ho, hexact, hfinite⟩ := tryMerge_exact (hA z hz) (hA y hy)
      have hnot := hslip z y (TriedLast.now hrev)
      rw [ho, Except.ok_bind]
      cases o with
      | none => exact ⟨A, rfl, fun x => Iff.rfl⟩
      | some m =>
        have hmem := hexact.mpr hnot m rfl
        have hrest : ∀ r ∈ A.erase y, r.Fits r.stride := fun r hr => hA r (OrdSet.mem_erase.mp hr).1
        obtain ⟨S, hS, hcover⟩ := ih (finite_insert_erase hrest (hfinite hnot m rfl)) fun p q htried =>
          hslip p q (TriedLast.later hrev ho htried)
        refine ⟨S, hS, fun x => ?_⟩
        rw [hcover, mem_insert_erase hmem (OrdSet.mem_erase.mpr ⟨hz, hne⟩)]
        constructor
        · rintro (⟨r, hr, hx⟩ | hx)
          · exact ⟨r, (OrdSet.mem_erase.mp hr).1, hx⟩
          · exact ⟨y, hy, hx⟩
        · rintro ⟨r, hr, hx⟩
          by_cases hry : r = y
          · exact Or.inr (hry ▸ hx)
          · exact Or.inl ⟨r, OrdSet.mem_erase.mpr ⟨hr, hry⟩, hx⟩
    next => exact ⟨A, rfl, fun x => Iff.rfl⟩

/-- Merging two sets keeps their indices if no two regions that are tried slip. -/
theorem mergeAdjacentSets_covers (hA : ∀ r ∈ A, r.Fits r.stride) (hB : ∀ r ∈ B, r.Fits r.stride)
    (hslip : ∀ p q, Tried A B p q → ¬p.Slips q) :
    ∃ S : RegionSubset, mergeAdjacentSets A B = .ok S ∧ ∀ x, S.Mem x ↔ A.Mem x ∨ B.Mem x := by
  obtain ⟨S, hS, hall, hcover⟩ := mergeAcross_covers hA hB fun p q h => hslip p q (Or.inl h)
  obtain ⟨T, hT, hkept⟩ := mergeLast_covers hall fun p q h => hslip p q (Or.inr ⟨S, hS, h⟩)
  unfold mergeAdjacentSets
  rw [hS, Except.ok_bind]
  exact ⟨T, hT, fun x => (hkept x).trans (hcover x)⟩

theorem tryMerge_comm (hne : a ≠ b) : a.tryMerge b = b.tryMerge a := by
  unfold tryMerge
  rcases lt_or_gt_of_ne hne with hlt | hgt
  · rw [if_neg (not_lt.mpr (le_of_lt hlt)), if_pos hlt]
  · rw [if_pos hgt, if_neg (not_lt.mpr (le_of_lt hgt))]

theorem slips_comm (hne : a ≠ b) : a.Slips b ↔ b.Slips a := by
  unfold Slips
  rcases lt_or_gt_of_ne hne with hlt | hgt
  · rw [if_neg (not_lt.mpr (le_of_lt hlt)), if_pos hlt]
  · rw [if_pos hgt, if_neg (not_lt.mpr (le_of_lt hgt))]

theorem mergeAcross_single (o : Option DataRegion) (ho : a.tryMerge b = .ok o) :
    mergeAcross ({a} : RegionSubset) [b] =
      .ok (o.elim (({a} : RegionSubset).merge (OrdSet.ofList [b])) fun m => (({a} : RegionSubset).erase a).insert m) := by
  have hlast : ({a} : RegionSubset).entries.getLast? = some a := rfl
  unfold mergeAcross
  rw [hlast]
  dsimp only
  rw [ho, Except.ok_bind]
  cases o with
  | none => rfl
  | some m => rfl

theorem TriedLast.pair (h : TriedLast n A p q) (hkept : ∀ y ∈ A, ∀ z ∈ A, z ≠ y → z.tryMerge y = .ok none) :
    q ∈ A ∧ p ∈ A ∧ p ≠ q := by
  cases h with
  | now hrev => exact last_two hrev
  | later hrev hm _ =>
    obtain ⟨hy, hz, hne⟩ := last_two hrev
    cases (hkept _ hy _ hz hne).symm.trans hm

/-- No other regions are tried on the way of merging two. -/
theorem tried_single {o : Option DataRegion} (ho : a.tryMerge b = .ok o) (h : Tried {a} {b} p q) :
    p = a ∧ q = b ∨ p = b ∧ q = a ∧ a ≠ b := by
  rcases h with hacross | ⟨S, hS, hlast⟩
  · cases hacross with
    | now hlast => exact Or.inl ⟨(Option.some.inj hlast).symm, rfl⟩
    | later _ _ h => cases h
  · cases Except.ok.inj ((mergeAcross_single o ho).symm.trans hS)
    cases o with
    | some m =>
      -- what they were merged into is the only region left
      have hone : ∀ r ∈ (({a} : RegionSubset).erase a).insert m, r = m := fun r hr => by
        rw [OrdSet.mem_insert, OrdSet.mem_erase, OrdSet.mem_singleton] at hr
        tauto
      obtain ⟨hq, hp, hne⟩ := hlast.pair fun y hy z hz hne => absurd ((hone z hz).trans (hone y hy).symm) hne
      exact absurd ((hone p hp).trans (hone q hq).symm) hne
    | none =>
      have hpair : ∀ y ∈ ({a} : RegionSubset).merge (OrdSet.ofList [b]),
          ∀ z ∈ ({a} : RegionSubset).merge (OrdSet.ofList [b]), z ≠ y → z = a ∧ y = b ∨ z = b ∧ y = a ∧ a ≠ b := by
        intro y hy z hz hne
        rw [OrdSet.mem_merge, OrdSet.mem_singleton, OrdSet.mem_ofList, List.mem_singleton] at hy hz
        rcases hy with hy | hy
        · rcases hz with hz | hz
          · exact absurd (hz.trans hy.symm) hne
          · exact Or.inr ⟨hz, hy, fun hab => hne (hz.trans (hab.symm.trans hy.symm))⟩
        · rcases hz with hz | hz
          · exact Or.inl ⟨hz, hy⟩
          · exact absurd (hz.trans hy.symm) hne
      obtain ⟨hq, hp, hne⟩ := hlast.pair fun y hy z hz hne => by
        rcases hpair y hy z hz hne with ⟨rfl, rfl⟩ | ⟨rfl, rfl, hab⟩
        · exact ho
        · exact (tryMerge_comm hab.symm).trans ho
      exact hpair q hq p hp hne

/-- Merging two sets of one region each keeps their indices exactly where the two do not slip. -/
theorem mergeAdjacentSets_single (ha : a.Fits a.stride) (hb : b.Fits b.stride) :
    ∃ S : RegionSubset, mergeAdjacentSets {a} {b} = .ok S ∧ ((∀ x, S.Mem x ↔ a.Mem x ∨ b.Mem x) ↔ ¬a.Slips b) := by
  have hsingle : ∀ {r : DataRegion} {x}, RegionSubset.Mem {r} x ↔ r.Mem x := by
    simp [RegionSubset.Mem]
  obtain ⟨o, ho, hexact, _⟩ := tryMerge_exact ha hb
  by_cases hslip : a.Slips b
  · cases o with
    | none => exact absurd hslip (hexact.mp nofun)
    | some m =>
      have hone : ∀ r, r ∈ (({a} : RegionSubset).erase a).insert m ↔ r = m := fun r => by
        rw [OrdSet.mem_insert, OrdSet.mem_erase, OrdSet.mem_singleton]
        tauto
      have hset : (({a} : RegionSubset).erase a).insert m = {m} :=
        OrdSet.ext_mem fun r => (hone r).trans OrdSet.mem_singleton.symm
      refine ⟨{m}, ?_, iff_of_false (fun h => ?_) (not_not.mpr hslip)⟩
      · unfold mergeAdjacentSets
        rw [show ({b} : RegionSubset).entries = [b] from rfl, mergeAcross_single _ ho, Except.ok_bind]
        dsimp only [Option.elim]
        rw [hset]
        rfl
      · refine hexact.mp (fun m' hm' x => ?_) hslip
        cases Option.some.inj hm'
        exact hsingle.symm.trans (h x)
  · obtain ⟨S, hS, hcover⟩ := mergeAdjacentSets_covers (A := {a}) (B := {b}) (fun r hr => OrdSet.mem_singleton.mp hr ▸ ha)
      (fun r hr => OrdSet.mem_singleton.mp hr ▸ hb) fun p q htried => by
        rcases tried_single ho htried with ⟨rfl, rfl⟩ | ⟨rfl, rfl, hab⟩
        · exact hslip
        · exact fun h => hslip ((slips_comm hab).mpr h)
    refine ⟨S, hS, iff_of_true (fun x => ?_) hslip⟩
    rw [hcover, hsingle, hsingle]

/-- Regions of which one is a block, or which have one stride, fit a stride. -/
theorem common_stride (ha : a.Fits a.stride) (hb : b.Fits b.stride) (h : a.reps = 0 ∨ b.reps = 0 ∨ a.stride = b.stride) :
    ∃ s, a.Fits s ∧ b.Fits s := by
  rcases h with hzero | hzero | heq
  · exact ⟨b.stride, fits_block hzero (a.stop_le ha), hb⟩
  · exact ⟨a.stride, ha, fits_block hzero (b.stop_le hb)⟩
  · exact ⟨a.stride, ha, heq ▸ hb⟩

/-- Intersections and differences of finite regions are exact, in disjoint regions. Merging is exact where no
regions slip that are tried, and for two regions nowhere else. -/
theorem region_algebra (ha : a.Fits a.stride) (hb : b.Fits b.stride) (hA : ∀ r ∈ A, r.Fits r.stride)
    (hB : ∀ r ∈ B, r.Fits r.stride) :
    (a.reps = 0 ∨ b.reps = 0 →
      ∃ S, a.inter b = .ok S ∧ Tiles DataRegion.Mem (fun r => r.Fits r.stride) S fun x => a.Mem x ∧ b.Mem x) ∧
    (a.reps = 0 ∨ b.reps = 0 ∨ a.stride = b.stride →
      ∃ S, a.sub b = .ok S ∧ Tiles DataRegion.Mem (fun r => r.Fits r.stride) S fun x => a.Mem x ∧ ¬b.Mem x) ∧
    (∃ o, a.tryMerge b = .ok o ∧ ((∀ m, o = some m → ∀ x, m.Mem x ↔ a.Mem x ∨ b.Mem x) ↔ ¬a.Slips b)) ∧
    (∃ S : RegionSubset, mergeAdjacentSets {a} {b} = .ok S ∧ ((∀ x, S.Mem x ↔ a.Mem x ∨ b.Mem x) ↔ ¬a.Slips b)) ∧
    ((∀ p q, Tried A B p q → ¬p.Slips q) →
      ∃ S : RegionSubset, mergeAdjacentSets A B = .ok S ∧ ∀ x, S.Mem x ↔ A.Mem x ∨ B.Mem x) := by
  refine ⟨fun h => ?_, fun h => ?_, ?_, mergeAdjacentSets_single ha hb, mergeAdjacentSets_covers hA hB⟩
  · obtain ⟨s, ha, hb⟩ := common_stride ha hb (h.imp_right Or.inl)
    obtain ⟨S, hS, htiles, _⟩ := inter_spec ha hb h
    exact ⟨S, hS, htiles.imp fun r _ => fits_self⟩
  · obtain ⟨s, ha, hb⟩ := common_stride ha hb h
    obtain ⟨S, hS, htiles⟩ := sub_spec ha ha hb (Or.inl rfl)
    exact ⟨S, hS, htiles.imp fun r _ => fits_self⟩
  · obtain ⟨o, ho, hexact, _⟩ := tryMerge_exact ha hb
    exact ⟨o, ho, hexact⟩

/-- The indices 4 and 8. -/
def fours : DataRegion := ⟨4, 4, 1, 4, by decide, by decide⟩

/-- The indices 12 and 22. -/
def tens : DataRegion := ⟨12, 12, 1, 10, by decide, by decide⟩

/-- The indices 1 and 2^63 + 6. The next one would wrap around to 11. -/
def far : DataRegion := ⟨1, 1, 1, 9223372036854775813, by decide, by decide⟩

theorem region_algebra_fours :
    (∃ S, fours.inter (interval 8 9 (by decide)) = .ok S ∧
      Tiles DataRegion.Mem (fun r => r.Fits r.stride) S fun x => fours.Mem x ∧ (interval 8 9 (by decide)).Mem x) ∧
    (∃ S, fours.sub (interval 8 9 (by decide)) = .ok S ∧
      Tiles DataRegion.Mem (fun r => r.Fits r.stride) S fun x => fours.Mem x ∧ ¬(interval 8 9 (by decide)).Mem x) ∧
    ∃ S : RegionSubset, mergeAdjacentSets {fours} {interval 12 12 (by decide)} = .ok S ∧
      ∀ x, S.Mem x ↔ RegionSubset.Mem {fours} x ∨ RegionSubset.Mem {interval 12 12 (by decide)} x := by
  have hfours : fours.Fits fours.stride := ⟨by decide, fun _ => rfl⟩
  have hblock : ∀ r ∈ ({interval 12 12 (by decide)} : RegionSubset), r.Fits r.stride := fun r hr =>
    OrdSet.mem_singleton.mp hr ▸ fits_block rfl (by decide)
  obtain ⟨hinter, hsub, _, _, hsets⟩ := region_algebra (A := {fours}) (B := {interval 12 12 (by decide)}) hfours
    (fits_block (r := interval 8 9 (by decide)) rfl (by decide)) (fun r hr => OrdSet.mem_singleton.mp hr ▸ hfours) hblock
  refine ⟨hinter (Or.inr rfl), hsub (Or.inr (Or.inl rfl)), hsets fun p q htried => ?_⟩
  rcases tried_single (o := some ⟨4, 4, 2, 4, by decide, by decide⟩) rfl htried with ⟨rfl, rfl⟩ | ⟨rfl, rfl, _⟩
  · decide
  · decide

/-- Merging takes 22 from 4, 8, 12 and 22 and adds 16. Where the distance wraps around it takes 11 away. -/
theorem merge_changes :
    (∃ m, fours.tryMerge tens = .ok (some m) ∧ mergeAdjacentSets {fours} {tens} = .ok {m} ∧
      (m.Mem 16 ∧ ¬fours.Mem 16 ∧ ¬tens.Mem 16) ∧ tens.Mem 22 ∧ ¬m.Mem 22) ∧
    ∃ m, far.tryMerge (interval 11 11 (by decide)) = .ok (some m) ∧ ¬m.Mem 11 := by
  refine ⟨⟨⟨4, 4, 3, 4, by decide, by decide⟩, rfl, rfl, ⟨⟨3, by decide, by decide, by decide⟩, ?_, ?_⟩,
    ⟨1, by decide, by decide, by decide⟩, ?_⟩, ⟨1, 1, 2, 9223372036854775813, by decide, by decide⟩, rfl, ?_⟩
  · rintro ⟨k, hk, hlo, hhi⟩
    change k ≤ 1 at hk
    change 16 ≤ 4 + k * 4 at hhi
    omega
  · rintro ⟨k, hk, hlo, hhi⟩
    change 12 + k * 10 ≤ 16 at hlo
    change 16 ≤ 12 + k * 10 at hhi
    omega
  · rintro ⟨k, hk, hlo, hhi⟩
    change k ≤ 3 at hk
    change 22 ≤ 4 + k * 4 at hhi
    omega
  · rintro ⟨k, hk, hlo, hhi⟩
    change 1 + k * 9223372036854775813 ≤ 11 at hlo
    change 11 ≤ 1 + k * 9223372036854775813 at hhi
    omega

end Fenix
