import Fenix.RegionFound
import Fenix.RegionStage

namespace Fenix

namespace RegionSubset

open DataRegion

variable {S : RegionSubset} {k n : Nat}

/-- The subset of the elements below a number. -/
structure UpTo (S : RegionSubset) (n : Nat) : Prop where
  wellFormed : S.WellFormed
  mem : ∀ x, S.Mem x ↔ x < n

theorem UpTo.empty : UpTo ∅ 0 where
  wellFormed := RegionSubset.wellFormed (s := 0) Tiles.empty
  mem := fun x => ⟨fun ⟨r, hr, _⟩ => absurd hr (OrdSet.not_mem_empty r), fun h => absurd h (Nat.not_lt_zero x)⟩

theorem UpTo.isEmpty_iff (h : UpTo S n) : S.isEmpty = true ↔ n = 0 := by
  rw [isEmpty_iff_mem]
  constructor
  · intro hnone
    by_contra hne
    exact hnone 0 ((h.mem 0).mpr (Nat.pos_of_ne_zero hne))
  · rintro rfl x hx
    exact Nat.not_lt_zero x ((h.mem x).mp hx)

theorem UpTo.maxCount (h : UpTo S n) : S.maxCount = sizeWrap n := by
  unfold RegionSubset.maxCount
  by_cases hempty : S.isEmpty = true
  · have hstop : S.stop = sizeMax := if_pos hempty
    rw [hstop, h.isEmpty_iff.mp hempty]
    rfl
  · have hlt := (h.mem _).mp (h.wellFormed.stop_mem hempty)
    have hle := h.wellFormed.le_stop ((h.mem (n - 1)).mpr (by omega))
    rw [show S.stop + 1 = n by omega]

/-- The elements up to one. -/
def through (n : Nat) : RegionSubset := {interval 0 n (Nat.zero_le n)}

theorem mem_through {x : Nat} : (through n).Mem x ↔ x ≤ n :=
  mem_singleton.trans (mem_interval.trans (and_iff_right (Nat.zero_le x)))

theorem ofRange_through (n : Nat) : ofRange 0 n = .ok (through n) := by
  have hmake : DataRegion.make 0 n 0 sizeMax = .ok (interval 0 n (Nat.zero_le n)) := by
    unfold DataRegion.make
    split
    next => rw [Nat.zero_mul, Nat.add_zero, ofBlock_eq (Nat.zero_le n)]
    next => rw [dif_pos (Or.inr rfl), ofBlock_eq (Nat.zero_le n)]
  unfold ofRange ofBlocks
  rw [if_pos ⟨Nat.zero_le n, Nat.zero_lt_one, Or.inl rfl⟩]
  change (DataRegion.make 0 n 0 sizeMax >>= _) = _
  rw [hmake]
  rfl

theorem full_bounded (hn : n ≤ sizeMax) : ({full} : RegionSubset).bounded n = .ok (through n) := by
  change ({full} : RegionSubset).boundedRegions 0 n = _
  by_cases hmax : n = sizeMax
  · rw [hmax]
    rfl
  · have hstop : ({full} : RegionSubset).stop = sizeMax := rfl
    have hinter : full.inter (interval 0 n (Nat.zero_le n)) = .ok (through n) :=
      inter_inside rfl rfl (Nat.zero_le _) hn
    unfold boundedRegions
    rw [if_neg (by decide), if_neg (by omega), ofBlock_eq (Nat.zero_le n), Except.ok_bind]
    change (List.mapM (fun r : DataRegion => r.inter (interval 0 n (Nat.zero_le n))) [full] >>= _) = _
    rw [List.mapM_cons, hinter]
    rfl

/-- A range from the first element on extends another. -/
theorem UpTo.add (h : UpTo S k) (hn : n ≤ sizeMax) : ∃ C, S.add (through n) = .ok C ∧ UpTo C (max k (n + 1)) := by
  have hwf : (through n).WellFormed := wellFormed_singleton (s := 0) (fits_block rfl hn)
  obtain ⟨C, hC, hCwf, hmem⟩ := add_spec h.wellFormed hwf
  refine ⟨C, hC, hCwf, fun x => ?_⟩
  have hover : ¬S.Overflow (through n) x := fun hover => hover.1.2.1 rfl
  rw [hmem, and_iff_left hover, h.mem, mem_through]
  omega

end RegionSubset

namespace RegionSnapshot

open RegionSubset

variable {s s' : RegionSnapshot} {extent k n : Nat} {st : StageCall extent} {stages : List (StageCall extent)} {size : Int}

/-- So many elements are staged in a snapshot that protects none. -/
structure Staged (s : RegionSnapshot) (extent k : Nat) : Prop where
  elmSize : s.elmSize = extent
  resizeable : s.elmMaxCount = 0
  staged : UpTo s.stagedSubset k
  unprotected : s.protectedSubset = ∅

theorem Blank.toStaged (h : s.Blank extent) : s.Staged extent 0 where
  elmSize := h.elmSize
  resizeable := h.resizeable
  staged := h.staged.symm ▸ UpTo.empty
  unprotected := h.unprotected

theorem Staged.of_fit (h : s.Staged extent k) (hfit : s.fit size = .ok s') : s'.Staged extent k := by
  unfold fit at hfit
  split at hfit
  next =>
    split at hfit
    next => cases hfit
    next =>
      cases Except.ok.inj hfit
      exact ⟨h.elmSize, h.resizeable, h.staged, h.unprotected⟩
  next =>
    cases Except.ok.inj hfit
    exact h

/-- What is staged grows to the greater of two numbers of elements, and the buffer with it. -/
theorem addAndFit_through (hs : s.Staged extent k) (hk : k ≤ sizeMax) (hn : n ≤ sizeMax) :
    ∃ C, Staged { s with stagedSubset := C } extent (max k (n + 1)) ∧ s.addAndFit (through n) =
      if castInt (sizeWrap (max k (n + 1))) ≠ 0 then
        toInt .overflow (castInt (sizeWrap (max k (n + 1))) * extent) >>= fit { s with stagedSubset := C }
      else .error (.abort .assertion) := by
  obtain ⟨C, hC, hup⟩ := hs.staged.add hn
  have hfirst : 0 < s.stagedSubset.maxCount ∨ s.stagedSubset.isEmpty = true := by
    rw [hs.staged.maxCount, hs.staged.isEmpty_iff, sizeWrap, Nat.mod_eq_of_lt (Nat.lt_succ_of_le hk)]
    omega
  have hlimit : s.limit C = .ok C := if_pos hs.resizeable
  have hcount : s.newCount C = castInt (sizeWrap (max k (n + 1))) := by
    unfold newCount
    rw [if_pos hs.resizeable, hup.maxCount]
  have hempty : ¬C.isEmpty = true := fun h => by
    have := hup.isEmpty_iff.mp h
    omega
  refine ⟨C, ⟨hs.elmSize, hs.resizeable, hup, hs.unprotected⟩, ?_⟩
  unfold addAndFit
  rw [if_pos hfirst, hC]
  change ((s.limit C).mapError TransferError.abort >>= _) = _
  rw [hlimit]
  change (if s.newCount C ≠ 0 ∨ C.isEmpty = true then _ else _) = _
  rw [hcount, hs.elmSize]
  refine if_congr (or_iff_left hempty) rfl rfl

/-- The full subset is one block, for which the function of the user is called once. -/
theorem serializeDynamic_full (written : DataBuffer) : serializeDynamic {full} written = .ok written := by
  have hbounded : ({full} : RegionSubset).boundedRegions 0 sizeMax = .ok {full} := rfl
  have hblocks : ({full} : RegionSubset).blockIter = .ok [full] := rfl
  have hstart : castInt full.start = 0 := castInt_eq_iff.mpr (Nat.zero_le _)
  unfold serializeDynamic
  rw [hbounded, Except.ok_bind, hblocks, Except.ok_bind, List.foldlM_cons, if_pos hstart]
  rfl

/-- Both ways to stage replace the buffer, and add the elements up to the last one that was written. -/
theorem staging_eq (hpos : 0 < extent) (s : RegionSnapshot) (st : StageCall extent) :
    s.staging st = addAndFit { s with buf := st.written.buffer } (through (sizeSub st.written.count 1)) := by
  have hdiv : ∀ w : Elements extent, w.buffer.size / extent = w.count := fun w => Nat.mul_div_cancel _ hpos
  have hmod : ∀ w : Elements extent, w.buffer.size % extent = 0 := fun w => Nat.mul_mod_left _ _
  have hle : ∀ w : Elements extent, sizeSub w.count 1 ≤ sizeMax := fun w => by
    have hroom := w.room
    have hcount : w.count ≤ w.count * extent := Nat.le_mul_of_pos_right _ hpos
    unfold sizeSub
    split <;> omega
  cases st with
  | full w =>
    change s.stage extent w.buffer = _
    unfold stage
    rw [serializeDynamic_full]
    change (if w.buffer.size % extent = 0 then _ else _) = _
    rw [if_pos (hmod w), hdiv, full_bounded (hle w)]
    rfl
  | beginEnd w =>
    change s.stageEnd extent w.buffer = _
    unfold stageEnd
    rw [if_pos (hmod w), hdiv, ofRange_through]
    rfl

theorem count_lt (hpos : 0 < extent) (w : Elements extent) : w.count < sizeMax :=
  Nat.lt_of_le_of_lt (Nat.le_mul_of_pos_right _ hpos) w.room

/-- A stage of no elements adds all there are, which have no number. -/
theorem staging_none (hpos : 0 < extent) (hs : s.Staged extent k) (hk : k < sizeMax) (hnone : st.written.count = 0) :
    s.staging st = .error (.abort .assertion) := by
  obtain ⟨C, _, heq⟩ := addAndFit_through (s := { s with buf := st.written.buffer }) (n := sizeMax)
    ⟨hs.elmSize, hs.resizeable, hs.staged, hs.unprotected⟩ (Nat.le_of_lt hk) (Nat.le_refl _)
  have hall : sizeSub st.written.count 1 = sizeMax := by
    rw [hnone]
    rfl
  have hzero : castInt (sizeWrap (max k (sizeMax + 1))) = 0 := by
    rw [Nat.max_eq_right (by omega), sizeWrap, Nat.mod_self]
    exact castInt_eq_iff.mpr (Nat.zero_le _)
  rw [staging_eq hpos, hall, heq, if_neg (not_not.mpr hzero)]

theorem staging_some (hpos : 0 < extent) (hs : s.Staged extent k) (hk : k < sizeMax) (hsome : 0 < st.written.count) :
    ∃ C, Staged { s with buf := st.written.buffer, stagedSubset := C } extent (max k st.written.count) ∧ s.staging st =
      if castInt (max k st.written.count) ≠ 0 then
        toInt .overflow (castInt (max k st.written.count) * extent) >>=
          fit { s with buf := st.written.buffer, stagedSubset := C }
      else .error (.abort .assertion) := by
  have hcount := count_lt hpos st.written
  have hlast : sizeSub st.written.count 1 = st.written.count - 1 := if_pos hsome
  obtain ⟨C, hC, heq⟩ := addAndFit_through (s := { s with buf := st.written.buffer }) (n := st.written.count - 1)
    ⟨hs.elmSize, hs.resizeable, hs.staged, hs.unprotected⟩ (Nat.le_of_lt hk) (by omega)
  have hwrap : sizeWrap (max k st.written.count) = max k st.written.count := Nat.mod_eq_of_lt (by omega)
  rw [Nat.sub_add_cancel hsome] at hC heq
  rw [hwrap] at heq
  refine ⟨C, hC, ?_⟩
  rw [staging_eq hpos, hlast, heq]

theorem staging_ok (hpos : 0 < extent) (hs : s.Staged extent k) (hk : k < sizeMax) (h : s.staging st = .ok s') :
    0 < st.written.count ∧ s'.Staged extent (max k st.written.count) := by
  rcases Nat.eq_zero_or_pos st.written.count with hnone | hsome
  · rw [staging_none hpos hs hk hnone] at h
    cases h
  · obtain ⟨C, hC, heq⟩ := staging_some hpos hs hk hsome
    rw [heq] at h
    split at h
    next =>
      obtain ⟨size, _, hfit⟩ := Except.bind_eq_ok_iff.mp h
      exact ⟨hsome, hC.of_fit hfit⟩
    next => cases h

/-- The size of the longest stage is within the range of `int` where its number of elements is. -/
theorem staging_narrow (hpos : 0 < extent) (hs : s.Staged extent k) (hk : k ≤ st.written.count)
    (hcount : st.written.count ≤ 2147483648) (h : s.staging st = .ok s') : st.written.count * extent ≤ 2147483647 := by
  have hlt := count_lt hpos st.written
  have hsome := (staging_ok hpos hs (by omega) h).1
  obtain ⟨C, _, heq⟩ := staging_some hpos hs (by omega) hsome
  rw [heq, Nat.max_eq_right hk] at h
  split at h
  next =>
    obtain ⟨size, hsize, hfit⟩ := Except.bind_eq_ok_iff.mp h
    by_cases hmax : st.written.count = 2147483648
    · -- the count wraps around to a negative one, of which the size is beyond any buffer
      have hcast : castInt st.written.count = -2147483648 := by
        rw [hmax]
        decide
      rw [hcast] at hsize
      unfold toInt at hsize
      split at hsize
      next hrange =>
        cases Except.ok.inj hsize
        have hone : extent = 1 := by
          unfold intMax at hrange
          omega
        have hbig : st.written.buffer.size < castSize (-2147483648 * (extent : Int)) := by
          change st.written.count * extent < _
          rw [hmax, hone]
          decide
        unfold fit at hfit
        rw [if_pos hbig, if_pos (by omega)] at hfit
        cases hfit
      next => cases hsize
    · have hcast : castInt st.written.count = st.written.count := castInt_eq_iff.mpr (by omega)
      have hle := (toInt_eq_ok hsize).2
      rw [hcast, ← Int.natCast_mul] at hle
      unfold intMax at hle
      omega
  next => cases h

theorem staging_spec (hpos : 0 < extent) (hs : s.Staged extent k) (hsome : 0 < st.written.count)
    (hnarrow : max k st.written.count * extent ≤ 2147483647) : ∃ s', s.staging st = .ok s' ∧
      s'.Staged extent (max k st.written.count) ∧ (k ≤ st.written.count → s'.buf = st.written.buffer) := by
  have hle : max k st.written.count ≤ max k st.written.count * extent := Nat.le_mul_of_pos_right _ hpos
  obtain ⟨C, hC, heq⟩ := staging_some hpos hs (by unfold sizeMax; omega) hsome
  have hcast : castInt (max k st.written.count : Nat) = ((max k st.written.count : Nat) : Int) :=
    castInt_eq_iff.mpr (by omega)
  rw [if_pos (by omega), hcast, ← Int.natCast_mul, toInt_ok (by unfold intMax; omega) (by unfold intMax; omega),
    Except.ok_bind] at heq
  have hsize : castSize ((max k st.written.count * extent : Nat) : Int) = max k st.written.count * extent :=
    castSize_natCast (by omega)
  have hfit : ∃ s', fit { s with buf := st.written.buffer, stagedSubset := C }
      ((max k st.written.count * extent : Nat) : Int) = .ok s' ∧ (k ≤ st.written.count → s'.buf = st.written.buffer) := by
    unfold fit
    rw [hsize]
    split
    next hgrow =>
      rw [if_neg (by omega)]
      refine ⟨_, rfl, fun hk => ?_⟩
      rw [Nat.max_eq_right hk] at hgrow
      exact absurd hgrow (Nat.lt_irrefl _)
    next => exact ⟨_, rfl, fun _ => rfl⟩
  obtain ⟨s', hs', hbuf⟩ := hfit
  exact ⟨s', heq.trans hs', hC.of_fit hs', hbuf⟩

/-- The number of elements of the longest of some stages. -/
def longest (k : Nat) (stages : List (StageCall extent)) : Nat := stages.foldl (fun k st => max k st.written.count) k

theorem longest_le : longest k stages ≤ n ↔ k ≤ n ∧ ∀ st ∈ stages, st.written.count ≤ n := by
  unfold longest
  induction stages generalizing k with
  | nil => simp
  | cons st stages ih =>
    rw [List.foldl_cons, ih, List.forall_mem_cons, Nat.max_le, and_assoc]

/-- Stages that succeed have elements, and stage as many as the longest has. -/
theorem stages_ok (hpos : 0 < extent) (hs : s.Staged extent k) (hk : k < sizeMax)
    (h : stages.foldlM staging s = .ok s') : (∀ st ∈ stages, 0 < st.written.count) ∧ s'.Staged extent (longest k stages) ∧
      longest k stages < sizeMax := by
  induction stages generalizing s k with
  | nil =>
    cases Except.ok.inj h
    exact ⟨fun _ hst => absurd hst List.not_mem_nil, hs, hk⟩
  | cons st stages ih =>
    rw [List.foldlM_cons] at h
    obtain ⟨s₁, h₁, h⟩ := Except.bind_eq_ok_iff.mp h
    obtain ⟨hsome, hs₁⟩ := staging_ok hpos hs hk h₁
    have hcount := count_lt hpos st.written
    obtain ⟨hall, hs', hlt⟩ := ih hs₁ (by omega) h
    exact ⟨List.forall_mem_cons.mpr ⟨hsome, hall⟩, hs', hlt⟩

theorem stages_spec (hpos : 0 < extent) (hs : s.Staged extent k) (hk : k ≤ n)
    (hall : ∀ st ∈ stages, 0 < st.written.count ∧ st.written.count ≤ n) (hnarrow : n * extent ≤ 2147483647) :
    ∃ s', stages.foldlM staging s = .ok s' ∧ s'.Staged extent (longest k stages) := by
  induction stages generalizing s k with
  | nil => exact ⟨s, rfl, hs⟩
  | cons st stages ih =>
    obtain ⟨⟨hsome, hle⟩, hstages⟩ := List.forall_mem_cons.mp hall
    have hmax : max k st.written.count ≤ n := Nat.max_le.mpr ⟨hk, hle⟩
    obtain ⟨s₁, h₁, hs₁, _⟩ := staging_spec hpos hs hsome ((Nat.mul_le_mul_right extent hmax).trans hnarrow)
    obtain ⟨s', hs', hstaged⟩ := ih hs₁ hmax hstages
    rw [List.foldlM_cons, h₁, Except.ok_bind]
    exact ⟨s', hs', hstaged⟩

theorem Staged.protect_eq (h : s.Staged extent k) :
    s.protect = .ok { s with protectedSubset := s.stagedSubset, stagedSubset := ∅ } := by
  unfold protect
  rw [h.unprotected]
  rfl

end RegionSnapshot

namespace Deserializer

variable {β : Type} {d : Deserializer β} {snap : RegionSnapshot} {dst : Option Nat} {subset : RegionSubset}
  {t t' : Transfer β} {b : DataRegion} {bs : List DataRegion} {n : Nat}

/-- Only elements that an `int` can number are written. -/
def Numbered (t : Transfer β) : Prop := ∀ i, t.Written i → i ≤ 2147483647

theorem deserializeElements_numbered (ht : Numbered t) (h : d.deserializeElements snap n b t = .ok t') : Numbered t' := by
  unfold deserializeElements at h
  dsimp only at h
  split at h
  next hin =>
    obtain ⟨count, hcount, h⟩ := Except.bind_eq_ok_iff.mp h
    obtain ⟨offset, _, h⟩ := Except.bind_eq_ok_iff.mp h
    obtain ⟨_, _, h⟩ := Except.bind_eq_ok_iff.mp h
    split at h
    next => cases h
    next hneg =>
      cases Except.ok.inj h
      have hlast := castInt_le b.stop
      unfold intMax at hlast
      have heq := (toInt_eq_ok hcount).1
      rintro i ⟨c, hc, hlo, hhi⟩
      rcases List.mem_append.mp hc with hc | hc
      · exact ht i ⟨c, hc, hlo, hhi⟩
      · have hcall := List.mem_singleton.mp hc
        rw [hcall] at hlo hhi
        dsimp only at hlo hhi
        omega
  next => cases h

theorem foldlM_numbered (ht : Numbered t) (h : bs.foldlM (fun t b => d.deserializeElements snap n b t) t = .ok t') :
    Numbered t' := by
  induction bs generalizing t with
  | nil =>
    cases Except.ok.inj h
    exact ht
  | cons b bs ih =>
    rw [List.foldlM_cons] at h
    obtain ⟨t₁, h₁, h⟩ := Except.bind_eq_ok_iff.mp h
    exact ih (deserializeElements_numbered ht h₁) h

theorem copyData_numbered (ht : Numbered t) (h : d.copyData snap dst subset t = .ok t') : Numbered t' := by
  unfold copyData at h
  split at h
  next =>
    obtain ⟨bounded, _, h⟩ := Except.bind_eq_ok_iff.mp h
    obtain ⟨blocks, _, h⟩ := Except.bind_eq_ok_iff.mp h
    exact foldlM_numbered ht h
  next => cases h

end Deserializer

namespace RegionMember

theorem load_numbered {β : Type} {m : RegionMember} {d : Deserializer β} {memory : Nat → β} {targetCount : Nat} {ts : Int}
    {r : RegionLoaded β} (hall : ts ≠ snapshotAll) (h : m.load d memory targetCount ts = .ok r) :
    Deserializer.Numbered r.transfer := by
  unfold load at h
  obtain ⟨dst, _, h⟩ := Except.bind_eq_ok_iff.mp h
  dsimp only at h
  rw [if_pos hall] at h
  obtain ⟨⟨found, t⟩, hload, h⟩ := Except.bind_eq_ok_iff.mp h
  obtain ⟨v, _, h⟩ := Except.bind_eq_ok_iff.mp h
  cases Except.ok.inj h
  obtain ⟨snap, _, hload⟩ := Except.bind_eq_ok_iff.mp hload
  split at hload
  next =>
    obtain ⟨t', ht', hload⟩ := Except.bind_eq_ok_iff.mp hload
    cases Except.ok.inj hload
    exact Deserializer.copyData_numbered (fun i hi => absurd hi written_nil) ht'
  next =>
    cases Except.ok.inj hload
    exact fun i hi => absurd hi written_nil

end RegionMember

namespace ResizeableMember

open RegionSnapshot RegionSubset RegionMember

variable {β : Type} {m m' : ResizeableMember} {extent : Nat} {stages : List (StageCall m.extent)} {timestamp t : Int}
  {junk : Nat → UInt8}

/-- A checkpoint commits what its stages left, all of it protected. -/
theorem checkpoint_ok (hready : m.Ready timestamp) (h : m.checkpoint stages timestamp junk = .ok m') :
    ∃ s, stages.foldlM staging m.stageSnapshot = .ok s ∧ s.Staged m.extent (longest 0 stages) ∧
      (∀ st ∈ stages, 0 < st.written.count) ∧ m'.extent = m.extent ∧ m'.commitSnapshots.find? timestamp =
        some { s with timestamp := timestamp, protectedSubset := s.stagedSubset, stagedSubset := ∅ } := by
  unfold checkpoint at h
  obtain ⟨s, hs, h⟩ := Except.bind_eq_ok_iff.mp h
  obtain ⟨hsome, hstaged, _⟩ := stages_ok hready.pos hready.stage.toStaged (by decide) hs
  rw [hstaged.protect_eq, Except.ok_bind] at h
  obtain ⟨hfind, hextent⟩ := commit_find? (m := { m with stageSnapshot := { s with
    protectedSubset := s.stagedSubset, stagedSubset := ∅ } }) hready.newer h
  exact ⟨s, hs, hstaged, hsome, hextent, hfind⟩

/-- A stage of no elements fails the checkpoint that it begins. -/
theorem checkpoint_none {st : StageCall m.extent} (hready : m.Ready timestamp) (hnone : st.written.count = 0) :
    m.checkpoint (st :: stages) timestamp junk = .error (.abort .assertion) := by
  unfold checkpoint
  rw [List.foldlM_cons, staging_none hready.pos hready.stage.toStaged (by decide) hnone]
  rfl

/-- Checkpoints can follow one another. -/
theorem checkpoint_ready (hready : m.Ready timestamp) (h : m.checkpoint stages timestamp junk = .ok m')
    (ht : timestamp < t) : m'.Ready t := by
  unfold checkpoint at h
  obtain ⟨s, hs, h⟩ := Except.bind_eq_ok_iff.mp h
  obtain ⟨_, hstaged, _⟩ := stages_ok hready.pos hready.stage.toStaged (by decide) hs
  rw [hstaged.protect_eq, Except.ok_bind] at h
  exact commit_ready (m := { m with stageSnapshot := { s with protectedSubset := s.stagedSubset, stagedSubset := ∅ } })
    hready.pos hready.avail hready.committed hready.newer hready.nonneg ⟨hstaged.elmSize, hstaged.resizeable⟩ h ht

/-- The snapshot of a timestamp protects just some elements, and a load of it writes them and leaves the rest of the
memory as it was. -/
structure HoldsOnly (m : ResizeableMember) (timestamp : Int) (w : Elements extent) (d : Deserializer β)
    (memory : Nat → β) : Prop where
  committed : ∃ s, m.commitSnapshots.find? timestamp = some s ∧ ∀ x, s.protectedSubset.Mem x ↔ x < w.count
  loaded : ∃ r, m.load d memory restoreFull timestamp = .ok r ∧ (∀ i, r.transfer.Written i ↔ i < w.count) ∧
    (∀ i < w.count, r.transfer.memory i = d.decode (w.element i)) ∧
    (∀ i, w.count ≤ i → r.transfer.memory i = memory i) ∧ r.partialRestore = false

/-- A snapshot that protects as many elements as its buffer has is loaded as it is. -/
theorem holdsOnly_of_snapshot {w : Elements extent} {s : RegionSnapshot} (hextent : m.extent = extent) (hpos : 0 < extent)
    (hnonneg : 0 ≤ timestamp) (hfind : m.commitSnapshots.find? timestamp = some s) (hsize : s.elmSize = extent)
    (hup : UpTo s.protectedSubset w.count) (hbuf : s.buf = w.buffer) (hnarrow : w.count * extent ≤ 2147483647)
    (d : Deserializer β) (memory : Nat → β) : m.HoldsOnly timestamp w d memory := by
  have hmul : ∀ x, s.protectedSubset.Mem x → (x + 1) * extent ≤ w.count * extent := fun x hx =>
    Nat.mul_le_mul_right _ ((hup.mem x).mp hx)
  have hbytes : s.buf.size = w.count * extent := by
    rw [hbuf]
    rfl
  have hstored : s.Stored m.extent := by
    rw [hextent]
    refine ⟨hsize, (IndexedSet.find?_some hfind).2 ▸ hnonneg, hup.wellFormed, ?_, ?_, fun x hx => ?_, fun x hx => ?_⟩
    · rw [hbytes, Nat.mul_mod_left]
    · rw [hbytes]
      exact hnarrow.trans (by decide)
    · rw [hbytes]
      exact hmul x hx
    · exact (hmul x hx).trans hnarrow
  have hsnap : m.findSnapshot timestamp = .ok s := by
    unfold findSnapshot
    rw [if_neg (by unfold snapshotLatest; omega), if_neg (by omega), hfind]
  obtain ⟨t, v, hload, hin, hout, hwritten, hmissing⟩ := load_one (by unfold snapshotAll; omega) hsnap hstored
    (hextent ▸ hpos) (by decide) (Nat.le_refl restoreFull) (Or.inl rfl) d memory
  have hle : w.count ≤ w.count * extent := Nat.le_mul_of_pos_right _ hpos
  have hhas : ∀ i, s.protectedSubset.Mem i ∧ i < restoreFull ↔ i < w.count := fun i => by
    rw [hup.mem]
    unfold restoreFull
    omega
  refine ⟨⟨s, hfind, hup.mem⟩, _, hload, fun i => (hwritten i).trans (hhas i), fun i hi => ?_, fun i hi => ?_, ?_⟩
  · refine (hin i ((hhas i).mpr hi)).trans ?_
    unfold RegionSnapshot.element Elements.element
    rw [hbuf, hsize]
    rfl
  · exact hout i fun h => absurd ((hhas i).mp h) (by omega)
  · rw [← Bool.not_eq_true]
    intro hv
    obtain ⟨i, hi, hno⟩ := hmissing.mp hv
    rw [if_pos rfl] at hi
    obtain ⟨j, hj, hij⟩ := hi
    exact hno ((hup.mem i).mpr (Nat.lt_of_le_of_lt hij ((hup.mem j).mp hj)))

/-- Where the last stage alone is committed, no stage was empty and none was longer. -/
theorem le_last_of_holdsOnly {last : StageCall m.extent} {d : Deserializer β} {memory : Nat → β}
    (hready : m.Ready timestamp) (h : m.checkpoint (stages ++ [last]) timestamp junk = .ok m')
    (hholds : m'.HoldsOnly timestamp last.written d memory) :
    (∀ st ∈ stages ++ [last], 0 < st.written.count ∧ st.written.count ≤ last.written.count) ∧
      last.written.count * m.extent ≤ 2147483647 := by
  obtain ⟨⟨s', hfind', hprotected⟩, r, hload, hwritten, _⟩ := hholds
  obtain ⟨s, hs, hstaged, hsome, _, hfind⟩ := checkpoint_ok hready h
  cases Option.some.inj (hfind.symm.trans hfind')
  have hlongest : longest 0 (stages ++ [last]) ≤ last.written.count := by
    by_contra hlt
    have hx := (hstaged.staged.mem last.written.count).mpr (by omega)
    exact Nat.lt_irrefl _ ((hprotected _).mp hx)
  have hle := (longest_le.mp hlongest).2
  have hlast := hsome last (List.mem_append_right _ List.mem_cons_self)
  -- a load numbers elements by int, so that no more than those can be loaded
  have hnumbered := load_numbered (by have := hready.nonneg; unfold snapshotAll; omega) hload _
    ((hwritten (last.written.count - 1)).mpr (by omega))
  rw [List.foldlM_append] at hs
  obtain ⟨s₁, hs₁, hs⟩ := Except.bind_eq_ok_iff.mp hs
  rw [List.foldlM_cons] at hs
  obtain ⟨s₂, hs₂, _⟩ := Except.bind_eq_ok_iff.mp hs
  obtain ⟨_, hstaged₁, _⟩ := stages_ok hready.pos hready.stage.toStaged (by decide) hs₁
  have hbefore : longest 0 stages ≤ last.written.count :=
    longest_le.mpr ⟨Nat.zero_le _, fun st hst => hle st (List.mem_append_left _ hst)⟩
  exact ⟨fun st hst => ⟨hsome st hst, hle st hst⟩, staging_narrow hready.pos hstaged₁ hbefore (by omega) hs₂⟩

/-- Stages of which none is longer than the last one leave its buffer. -/
theorem checkpoint_of_le_last {last : StageCall m.extent} (hready : m.Ready timestamp) (junk : Nat → UInt8)
    (hall : ∀ st ∈ stages ++ [last], 0 < st.written.count ∧ st.written.count ≤ last.written.count)
    (hnarrow : last.written.count * m.extent ≤ 2147483647) : ∃ s m', s.Staged m.extent last.written.count ∧
      s.buf = last.written.buffer ∧ (stages ++ [last]).foldlM staging m.stageSnapshot = .ok s ∧
      m.checkpoint (stages ++ [last]) timestamp junk = .ok m' := by
  obtain ⟨hstages, hlast⟩ := List.forall_mem_append.mp hall
  have hbefore : longest 0 stages ≤ last.written.count :=
    longest_le.mpr ⟨Nat.zero_le _, fun st hst => (hstages st hst).2⟩
  have hmax := Nat.max_eq_right hbefore
  obtain ⟨s₁, hs₁, hstaged₁⟩ := stages_spec hready.pos hready.stage.toStaged (Nat.zero_le _) hstages hnarrow
  obtain ⟨s, hs, hstaged, hbuf⟩ := staging_spec hready.pos hstaged₁ (hlast last List.mem_cons_self).1 (by rwa [hmax])
  have hrun : (stages ++ [last]).foldlM staging m.stageSnapshot = .ok s := by
    rw [List.foldlM_append, hs₁, Except.ok_bind, List.foldlM_cons, hs]
    rfl
  have hcheck : ∃ m', m.checkpoint (stages ++ [last]) timestamp junk = .ok m' := by
    unfold checkpoint
    rw [hrun, Except.ok_bind, hstaged.protect_eq, Except.ok_bind]
    exact ⟨_, if_pos rfl⟩
  obtain ⟨m', h⟩ := hcheck
  exact ⟨s, m', hmax ▸ hstaged, hbuf hbefore, hrun, h⟩

/-- After any stages the elements of the last one are what is committed, just when no stage is empty, none before it is
longer and its size is within the range of `int`. -/
theorem restage_replaces_iff (hready : m.Ready timestamp) (stages : List (StageCall m.extent)) (last : StageCall m.extent)
    (junk : Nat → UInt8) (d : Deserializer β) (memory : Nat → β) :
    (∃ m', m.checkpoint (stages ++ [last]) timestamp junk = .ok m' ∧ m'.HoldsOnly timestamp last.written d memory) ↔
      (∀ st ∈ stages ++ [last], 0 < st.written.count ∧ st.written.count ≤ last.written.count) ∧
        last.written.count * m.extent ≤ 2147483647 := by
  constructor
  · rintro ⟨m', h, hholds⟩
    exact le_last_of_holdsOnly hready h hholds
  · rintro ⟨hall, hnarrow⟩
    obtain ⟨s, m', hstaged, hbuf, hrun, h⟩ := checkpoint_of_le_last hready junk hall hnarrow
    obtain ⟨s', hs', _, _, hextent, hfind⟩ := checkpoint_ok hready h
    cases Except.ok.inj (hrun.symm.trans hs')
    exact ⟨m', h, holdsOnly_of_snapshot hextent hready.pos hready.nonneg hfind hstaged.elmSize hstaged.staged hbuf hnarrow
      d memory⟩

/-- A new member for elements of four bytes. -/
def fourBytes : ResizeableMember := create 4 1 fun _ => 0

/-- So many elements of four bytes. -/
def elements (count : Nat) (h : count * 4 < sizeMax) : Elements 4 := ⟨count, fun _ => 1, h⟩

theorem restage_replaces_iff_grown : (∃ m', fourBytes.checkpoint [.full (elements 1 (by decide)), .beginEnd (elements 2 (by decide))]
      0 (fun _ => 0) = .ok m' ∧ m'.HoldsOnly 0 (elements 2 (by decide)) ⟨true, id⟩ fun _ => []) ↔
    (∀ st ∈ [StageCall.full (elements 1 (by decide)), .beginEnd (elements 2 (by decide))],
      0 < st.written.count ∧ st.written.count ≤ 2) ∧ 2 * 4 ≤ 2147483647 :=
  restage_replaces_iff (m := fourBytes) (create_ready (by decide) (by decide)) [.full (elements 1 (by decide))]
    (.beginEnd (elements 2 (by decide))) (fun _ => 0) ⟨true, id⟩ fun _ => []

/-- After a stage of two elements and one of a single element, two are committed. A stage of none fails. -/
theorem restage_shrunk : (∀ m', fourBytes.checkpoint [.full (elements 2 (by decide)), .full (elements 1 (by decide))] 0
      (fun _ => 0) = .ok m' → ¬m'.HoldsOnly 0 (elements 1 (by decide)) (⟨true, id⟩ : Deserializer (List UInt8)) fun _ => []) ∧
    fourBytes.checkpoint [.full (elements 0 (by decide))] 0 (fun _ => 0) = .error (.abort .assertion) := by
  have hready : fourBytes.Ready 0 := create_ready (by decide) (by decide)
  constructor
  · rintro m' h ⟨⟨s', hs', hprotected⟩, _⟩
    obtain ⟨s, _, hstaged, _, _, hfind⟩ := checkpoint_ok hready h
    cases Option.some.inj (hfind.symm.trans hs')
    exact absurd ((hprotected 1).mp ((hstaged.staged.mem 1).mpr (by decide))) (by decide)
  · exact checkpoint_none (m := fourBytes) hready rfl

end ResizeableMember

end Fenix
