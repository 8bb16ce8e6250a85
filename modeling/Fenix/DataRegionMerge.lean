import Fenix.DataRegionInter

namespace Fenix

variable {x : Nat}

theorem sizeWrap_eq (h : x ≤ sizeMax) : sizeWrap x = x := Nat.mod_eq_of_lt (Nat.lt_succ_of_le h)

theorem sizeWrap_over (h : sizeMax < x) (htwice : x ≤ sizeMax + sizeMax + 1) : sizeWrap x = x - (sizeMax + 1) := by
  unfold sizeWrap
  rw [Nat.mod_eq_sub_mod h]
  exact Nat.mod_eq_of_lt (by omega)

open DataRegion

variable {a b m r : DataRegion} {s n first second reps stride : Nat} {A B : OrdSet DataRegion} {P P' : Nat → Prop}

namespace DataRegion

theorem fits_self (h : r.Fits s) : r.Fits r.stride := ⟨h.end_le, fun _ => rfl⟩

theorem mem_iff_stride (h : r.Fits s) : r.Mem x ↔ InBlocks r.start r.stop s r.reps x := by
  by_cases hr : r.reps = 0
  · rw [mem_block hr, hr, InBlocks.zero_iff]
  · unfold Mem
    rw [h.strided hr]

theorem end_le_stride (h : r.Fits s) : r.stop + r.reps * s ≤ sizeMax := by
  have hend := h.end_le
  by_cases hr : r.reps = 0
  · rw [hr] at hend ⊢
    omega
  · rwa [h.strided hr] at hend

theorem start_mem (r : DataRegion) : r.Mem r.start := InBlocks.first r.block

theorem lt_def : a < b ↔ a.key < b.key := Iff.rfl

/-- A region that comes later starts past the first block of one, ends past it, or has more repetitions. -/
theorem lt_cases (h : a < b) : a.start < b.start ∨ a.start = b.start ∧ (a.stop < b.stop ∨
    a.stop = b.stop ∧ (a.reps < b.reps ∨ a.reps = b.reps ∧ a.stride < b.stride)) := by
  have hkey := lt_def.mp h
  unfold key at hkey
  simpa [Prod.Lex.toLex_lt_toLex] using hkey

theorem start_le_of_lt (h : a < b) : a.start ≤ b.start := by
  have hcases := lt_cases h
  omega

/-- The first block of `b` is where one more repetition of `a` would be. -/
def Continues (a b : DataRegion) (s : Nat) : Prop :=
  sizeWrap (a.start + s * (a.reps + 1)) = b.start ∧ sizeWrap (a.stop + s * (a.reps + 1)) = b.stop

/-- A region is taken for more repetitions of another though it has a stride of its own, or though there is no
next repetition. -/
def SlipsNext (a b : DataRegion) : Prop :=
  a.rangeEnd ≠ sizeMax ∧ a.reps ≠ 0 ∧ a.Continues b a.stride ∧
    (sizeMax < a.start + a.stride * (a.reps + 1) ∨ b.reps ≠ 0 ∧ a.stride ≠ b.stride)

instance (a b : DataRegion) : Decidable (a.SlipsNext b) := by
  unfold SlipsNext Continues
  infer_instance

def Slips (a b : DataRegion) : Prop := if b < a then b.SlipsNext a else a.SlipsNext b

instance (a b : DataRegion) : Decidable (a.Slips b) := by
  unfold Slips
  infer_instance

/-- `m` stands for two regions, the first of which it starts with. -/
structure Joins (a b m : DataRegion) : Prop where
  mem : ∀ x, m.Mem x ↔ a.Mem x ∨ b.Mem x
  start : m.start = a.start
  period : m.reps ≠ 0 → a.start + m.stride ≤ b.start
  self : m.Fits m.stride
  fits : ∀ t, a.Fits t → b.Fits t → m.Fits t

theorem stride_le (h : r.Fits s) (hr : r.reps ≠ 0) : r.stop + r.stride ≤ sizeMax := by
  have hend := h.end_le
  have hmul := Nat.mul_le_mul_right r.stride (Nat.one_le_iff_ne_zero.mpr hr)
  omega

theorem next_le (h : r.Fits s) (hr : r.reps ≠ 0) : r.stop + r.stride * (r.reps + 1) ≤ sizeMax + sizeMax := by
  have hend := h.end_le
  have hstride := stride_le h hr
  rw [Nat.mul_succ, Nat.mul_comm]
  omega

theorem Continues.unwrapped (h : a.Continues b s) (hstart : a.start + s * (a.reps + 1) ≤ sizeMax)
    (hstop : a.stop ≤ sizeMax) : a.start + s * (a.reps + 1) = b.start ∧ a.stop + s * (a.reps + 1) = b.stop := by
  obtain ⟨hb, hb'⟩ := h
  have hab := a.block
  have hbb := b.block
  rw [sizeWrap_eq hstart] at hb
  rcases Nat.lt_or_ge sizeMax (a.stop + s * (a.reps + 1)) with hover | hle
  · rw [sizeWrap_over hover (by omega)] at hb'
    omega
  · rw [sizeWrap_eq hle] at hb'
    exact ⟨hb, hb'⟩

theorem make_joined (ha : a.Fits s) (hb : b.Fits s) (hne : ¬(a.reps = 0 ∧ b.reps = 0))
    (hstart : a.start + s * (a.reps + 1) = b.start) (hstop : a.stop + s * (a.reps + 1) = b.stop) :
    ∃ m, make a.start a.stop (a.reps + b.reps + 1) s = .ok m ∧ a.Joins b m := by
  have hab := a.block
  have hend := end_le_stride hb
  rw [Nat.mul_comm] at hstart hstop
  have hgap : s ≠ sizeMax ∧ a.stop < a.start + s := by
    by_cases hra : a.reps = 0
    · have hrb : b.reps ≠ 0 := fun hrb => hne ⟨hra, hrb⟩
      have hlt := b.lt_stride hrb
      have hshape := b.shape
      rw [hb.strided hrb] at hlt hshape
      omega
    · have hlt := a.lt_stride hra
      have hshape := a.shape
      rw [ha.strided hra] at hlt hshape
      omega
  have hmul : (a.reps + b.reps + 1) * s = (a.reps + 1) * s + b.reps * s := by
    rw [← Nat.add_mul, Nat.add_right_comm]
  obtain ⟨m, hm, hmem, hfits, _⟩ := make_spec hab (show _ + (a.reps + b.reps + 1) * s ≤ sizeMax by omega) (Or.inr hgap)
  refine ⟨m, hm, fun x => (hmem x).trans ?_, make_start hm, fun hrm => ?_, fits_self hfits, fun t ht ht' => ?_⟩
  · rw [InBlocks.append, hstart, hstop, mem_iff_stride ha, mem_iff_stride hb]
  · rw [hfits.strided hrm, ← hstart, Nat.succ_mul]
    omega
  · refine ⟨hfits.end_le, fun hrm => (hfits.strided hrm).trans ?_⟩
    by_cases hra : a.reps = 0
    · have hrb : b.reps ≠ 0 := fun hrb => hne ⟨hra, hrb⟩
      exact (hb.strided hrb).symm.trans (ht'.strided hrb)
    · exact (ha.strided hra).symm.trans (ht.strided hra)

/-- Regions that do not slip are merged into one that stands for both, if at all. -/
theorem mergeNext_joins (ha : a.Fits a.stride) (hb : b.Fits b.stride) (hle : a.start ≤ b.start)
    (hslip : ¬a.SlipsNext b) : ∃ o, a.mergeNext b = .ok o ∧ ∀ m, o = some m → a.Joins b m := by
  have hab := a.block
  have hbb := b.block
  unfold mergeNext
  split
  next => exact ⟨none, rfl, nofun⟩
  next hlast =>
    split
    next hblocks =>
      split
      next hnext =>
        rw [ofBlock_eq (by omega)]
        have hfits : ∀ t, (interval a.start b.stop (by omega)).Fits t := fun t => fits_block rfl (b.stop_le hb)
        refine ⟨_, rfl, fun m hm => ?_⟩
        cases Option.some.inj hm
        refine ⟨fun x => ?_, rfl, fun hrm => absurd rfl hrm, hfits _, fun t _ _ => hfits t⟩
        rw [mem_interval, mem_block hblocks.1, mem_block hblocks.2]
        omega
      next => exact ⟨none, rfl, nofun⟩
    next hblocks =>
      dsimp only
      by_cases hra : a.reps = 0
      · have hrb : b.reps ≠ 0 := fun hrb => hblocks ⟨hra, hrb⟩
        rw [if_neg (not_not.mpr hra)]
        split
        next hnext =>
          have hstride := stride_le hb hrb
          have hunwrapped : a.start + b.stride * (a.reps + 1) ≤ sizeMax := by
            by_contra hover
            have hone : b.stride * (a.reps + 1) = b.stride := by rw [hra, Nat.zero_add, Nat.mul_one]
            rw [hone] at hover hnext
            have hstop := a.stop_le ha
            rw [sizeWrap_over (by omega) (by omega)] at hnext
            omega
          obtain ⟨hstart, hstop⟩ := Continues.unwrapped hnext hunwrapped (a.stop_le ha)
          obtain ⟨m, hm, hjoins⟩ := make_joined ⟨ha.end_le, fun hne => absurd hra hne⟩ hb hblocks hstart hstop
          rw [hm]
          exact ⟨some m, rfl, fun m' hm' => Option.some.inj hm' ▸ hjoins⟩
        next => exact ⟨none, rfl, nofun⟩
      · rw [if_pos hra]
        split
        next hnext =>
          have hunwrapped : a.start + a.stride * (a.reps + 1) ≤ sizeMax :=
            Nat.le_of_not_lt fun hover => hslip ⟨hlast, hra, hnext, Or.inl hover⟩
          have hsame : b.Fits a.stride := ⟨hb.end_le, fun hrb => by
            by_contra hne
            exact hslip ⟨hlast, hra, hnext, Or.inr ⟨hrb, Ne.symm hne⟩⟩⟩
          obtain ⟨hstart, hstop⟩ := Continues.unwrapped hnext hunwrapped (a.stop_le ha)
          obtain ⟨m, hm, hjoins⟩ := make_joined ha hsame hblocks hstart hstop
          rw [hm]
          exact ⟨some m, rfl, fun m' hm' => Option.some.inj hm' ▸ hjoins⟩
        next => exact ⟨none, rfl, nofun⟩

theorem make_strided (hle : first ≤ second) (hmax : second ≠ sizeMax) (hreps : reps ≠ 0) (hs : stride ≠ sizeMax)
    (hgap : second + 1 < first + stride) :
    ∃ m, make first second reps stride = .ok m ∧ ∀ x, m.Mem x ↔ InBlocks first second stride reps x := by
  unfold make
  rw [if_neg (by omega), dif_neg (by omega), dif_pos ⟨hle, hs, hgap⟩]
  exact ⟨_, rfl, fun x => Iff.rfl⟩

/-- Regions that slip are merged into one that does not stand for both. -/
theorem mergeNext_slips (ha : a.Fits a.stride) (hb : b.Fits b.stride) (hslip : a.SlipsNext b) :
    ∃ m, a.mergeNext b = .ok (some m) ∧ ∃ x, ¬(m.Mem x ↔ a.Mem x ∨ b.Mem x) := by
  obtain ⟨hlast, hra, hnext, hover⟩ := hslip
  have hgap := a.stride_pos hra
  have hshape := a.shape
  have hstride := stride_le ha hra
  have hab := a.block
  have hbb := b.block
  obtain ⟨m, hm, hmem⟩ := make_strided a.block (by omega) (show a.reps + b.reps + 1 ≠ 0 by omega) (by omega) hgap
  refine ⟨m, ?_, ?_⟩
  · unfold mergeNext
    rw [if_neg hlast, if_neg fun h => hra h.1]
    dsimp only
    rw [if_pos hra, if_pos ⟨hnext.1, hnext.2⟩, hm]
    rfl
  · have hend : ∀ {r : DataRegion} {y}, r.Fits r.stride → r.Mem y → y ≤ r.stop + r.reps * r.stride := fun _ hy => hy.upper
    rcases Nat.lt_or_ge sizeMax (a.start + a.stride * (a.reps + 1)) with hwrap | hunwrapped
    · refine ⟨a.start + (a.reps + 1) * a.stride, fun hiff => ?_⟩
      rw [Nat.mul_comm] at hwrap
      rcases hiff.mp ((hmem _).mpr ⟨a.reps + 1, by omega, Nat.le_refl _, by omega⟩) with hx | hx
      · have hle := (hend ha hx).trans ha.end_le
        omega
      · have hle := (hend hb hx).trans hb.end_le
        omega
    · obtain ⟨hrb, hne⟩ := hover.resolve_left (Nat.not_lt.mpr hunwrapped)
      obtain ⟨hstart, hstop⟩ := hnext.unwrapped hunwrapped (a.stop_le ha)
      rw [Nat.mul_comm, Nat.succ_mul] at hstart hstop
      have hmul : (a.reps + b.reps + 1) * a.stride = a.reps * a.stride + a.stride + b.reps * a.stride := by
        rw [Nat.add_right_comm, Nat.add_mul, Nat.succ_mul]
      rcases Nat.lt_or_gt_of_ne hne with hlt | hgt
      · -- the last repetition of the later region is lost
        refine ⟨b.stop + b.reps * b.stride, fun hiff => ?_⟩
        have hlong := Nat.mul_lt_mul_of_pos_left hlt (Nat.pos_of_ne_zero hrb)
        have hup := ((hmem _).mp (hiff.mpr (Or.inr ⟨b.reps, Nat.le_refl _, by omega, Nat.le_refl _⟩))).upper
        omega
      · -- a repetition past the last of the later region is added
        refine ⟨b.stop + b.reps * a.stride, fun hiff => ?_⟩
        have hlong := Nat.mul_lt_mul_of_pos_left hgt (Nat.pos_of_ne_zero hrb)
        rcases hiff.mp ((hmem _).mpr ⟨a.reps + b.reps + 1, Nat.le_refl _, by omega, by omega⟩) with hx | hx
        · have hle := hend ha hx
          omega
        · have hle := hend hb hx
          omega

theorem Joins.comm (h : a.Joins b m) (x : Nat) : m.Mem x ↔ b.Mem x ∨ a.Mem x := (h.mem x).trans or_comm

/-- A merge of two regions denotes what they do, unless they slip. -/
theorem tryMerge_exact (ha : a.Fits a.stride) (hb : b.Fits b.stride) : ∃ o, a.tryMerge b = .ok o ∧
    ((∀ m, o = some m → ∀ x, m.Mem x ↔ a.Mem x ∨ b.Mem x) ↔ ¬a.Slips b) ∧
    (¬a.Slips b → ∀ m, o = some m → m.Fits m.stride) := by
  have hiff : ∀ {p q : DataRegion}, p.Fits p.stride → q.Fits q.stride → p.start ≤ q.start →
      ∃ o, p.mergeNext q = .ok o ∧ ((∀ m, o = some m → ∀ x, m.Mem x ↔ p.Mem x ∨ q.Mem x) ↔ ¬p.SlipsNext q) ∧
        (¬p.SlipsNext q → ∀ m, o = some m → m.Fits m.stride) := fun {p q} hp hq hle => by
    by_cases hslip : p.SlipsNext q
    · obtain ⟨m, hm, x, hx⟩ := mergeNext_slips hp hq hslip
      exact ⟨_, hm, iff_of_false (fun h => hx (h m rfl x)) (not_not.mpr hslip), fun h => absurd hslip h⟩
    · obtain ⟨o, ho, hjoins⟩ := mergeNext_joins hp hq hle hslip
      exact ⟨o, ho, iff_of_true (fun m hm => (hjoins m hm).mem) hslip, fun _ m hm => (hjoins m hm).self⟩
  unfold tryMerge Slips
  split
  next hlt =>
    simp only [or_comm (a := a.Mem _)]
    exact hiff hb ha (start_le_of_lt hlt)
  next hge => exact hiff ha hb (by
    rcases lt_or_eq_of_le (not_lt.mp hge) with hlt | heq
    · exact start_le_of_lt hlt
    · rw [heq])

/-- One more repetition of a strided region does not wrap around to the start of a later one. -/
def Clear (a b : DataRegion) : Prop :=
  a.reps ≠ 0 → a.stride * (a.reps + 1) ≤ sizeMax ∨ a.start + a.stride ≤ b.start

/-- A region that comes later than another, and clear of it. -/
def Ahead (a b : DataRegion) : Prop := a.start < b.start ∧ a.Clear b

theorem Clear.not_slips (h : a.Clear b) (ha : a.Fits s) (hb : b.Fits s) (hle : a.start ≤ b.start) :
    ¬a.SlipsNext b := by
  rintro ⟨_, hra, hnext, hover | ⟨hrb, hne⟩⟩
  · have hab := a.block
    have hup := next_le ha hra
    have hend := ha.end_le
    have hmul : a.stride * (a.reps + 1) = a.reps * a.stride + a.stride := by rw [Nat.mul_comm, Nat.succ_mul]
    have hstart := hnext.1
    rw [sizeWrap_over hover (by omega)] at hstart
    rcases h hra with hshort | hlate
    · omega
    · omega
  · exact hne ((ha.strided hra).trans (hb.strided hrb).symm)

theorem Ahead.tryMerge_joins (h : a.Ahead b) (ha : a.Fits s) (hb : b.Fits s) :
    ∃ o, a.tryMerge b = .ok o ∧ ∀ m, o = some m → a.Joins b m := by
  have hle := Nat.le_of_lt h.1
  unfold tryMerge
  rw [if_neg fun hlt => Nat.not_lt.mpr (start_le_of_lt hlt) h.1]
  exact mergeNext_joins (fits_self ha) (fits_self hb) hle (h.2.not_slips ha hb hle)

theorem Clear.congr {b' : DataRegion} (h : a.Clear b) (hb : b'.start = b.start) : a.Clear b' := by
  unfold Clear
  rw [hb]
  exact h

/-- What was ahead of the first of two merged regions is ahead of both, and what comes after the second is behind both. -/
theorem Joins.ahead (h : a.Joins b m) (hr : r.Ahead a) : r.Ahead m :=
  ⟨h.start ▸ hr.1, hr.2.congr h.start⟩

theorem Joins.behind (h : a.Joins b m) (hb : a.start < b.start) (hr : b.start ≤ r.start) : m.Ahead r := by
  have hstart := h.start
  refine ⟨by omega, fun hrm => Or.inr ?_⟩
  have hperiod := h.period hrm
  omega

end DataRegion

/-- Every region of a set is ahead of those after it. -/
def Apart (S : OrdSet DataRegion) : Prop := ∀ v ∈ S, ∀ w ∈ S, v < w → v.Ahead w

theorem Apart.of_mem_iff {S T : OrdSet DataRegion} (hS : Apart S) (h : ∀ r, r ∈ T → r ∈ S) : Apart T :=
  fun v hv w hw => hS v (h v hv) w (h w hw)

theorem Apart.merge {S T : OrdSet DataRegion} (hS : Apart S) (hT : Apart T) (hcross : ∀ v ∈ S, ∀ w ∈ T, v.Ahead w) :
    Apart (S.merge T) := by
  intro v hv w hw hlt
  rcases OrdSet.mem_merge.mp hv with hv | hv
  · rcases OrdSet.mem_merge.mp hw with hw | hw
    · exact hS v hv w hw hlt
    · exact hcross v hv w hw
  · rcases OrdSet.mem_merge.mp hw with hw | hw
    · exact absurd (start_le_of_lt hlt) (Nat.not_le.mpr (hcross w hw v hv).1)
    · exact hT v hv w hw hlt

/-- What two regions were merged into is put where the first was, the other regions being ahead of it. -/
theorem Apart.insert_last {S : OrdSet DataRegion} (hS : Apart S) (hlast : ∀ v ∈ S, v.Ahead a) (hm : a.Joins b m) :
    Apart (S.insert m) := by
  intro v hv w hw hlt
  rcases OrdSet.mem_insert.mp hv with hvm | hv
  · rw [hvm] at hlt ⊢
    rcases OrdSet.mem_insert.mp hw with hwm | hw
    · rw [hwm] at hlt
      exact absurd hlt (lt_irrefl m)
    · have hstart := (hlast w hw).1
      have hle := start_le_of_lt hlt
      rw [hm.start] at hle
      omega
  · rcases OrdSet.mem_insert.mp hw with hwm | hw
    · rw [hwm]
      exact hm.ahead (hlast v hv)
    · exact hS v hv w hw hlt

theorem mergeAcross_spec {ys : List DataRegion} (hA : StrideTiles s A P) (hys : StrideTiles s (OrdSet.ofList ys) P')
    (hsorted : ys.Pairwise (· < ·)) (hd : ∀ x, P x → ¬P' x) (hapart : Apart A) (hapart' : Apart (OrdSet.ofList ys))
    (hcross : ∀ v ∈ A, ∀ w ∈ ys, v.Ahead w) :
    ∃ S, mergeAcross A ys = .ok S ∧ (StrideTiles s S fun x => P x ∨ P' x) ∧ Apart S := by
  induction ys generalizing A P P' with
  | nil =>
    refine ⟨A, rfl, hA.congr fun x => (or_iff_left fun hx => ?_).symm, hapart⟩
    obtain ⟨r, hr, _⟩ := (hys.cover x).mpr hx
    exact OrdSet.not_mem_empty r hr
  | cons y ys ih =>
    unfold mergeAcross
    cases hlast : A.entries.getLast? with
    | none =>
      have hempty := List.getLast?_eq_none_iff.mp hlast
      refine ⟨_, rfl, hys.congr fun x => (or_iff_right fun hx => ?_).symm, hapart'⟩
      obtain ⟨r, hr, _⟩ := (hA.cover x).mpr hx
      rw [OrdSet.mem_def, hempty] at hr
      exact List.not_mem_nil hr
    | some z =>
      have hz : z ∈ A := List.mem_of_getLast? hlast
      have hy : y ∈ OrdSet.ofList (y :: ys) := OrdSet.mem_ofList.mpr List.mem_cons_self
      have hzy := hcross z hz y List.mem_cons_self
      obtain ⟨o, ho, hmerged⟩ := hzy.tryMerge_joins (hA.all z hz) (hys.all y hy)
      dsimp only
      rw [ho, Except.ok_bind]
      cases o with
      | none => exact ⟨_, rfl, hA.merge hys hd, hapart.merge hapart' fun v hv w hw => hcross v hv w (OrdSet.mem_ofList.mp hw)⟩
      | some m =>
        have hjoins := hmerged m rfl
        have hmem := hjoins.mem
        obtain ⟨hfirst, hsorted⟩ := List.pairwise_cons.mp hsorted
        have hrest := (hys.erase hy).of_mem_iff (T := OrdSet.ofList ys) fun r => by
          rw [OrdSet.mem_erase, OrdSet.mem_ofList, OrdSet.mem_ofList, List.mem_cons]
          constructor
          · exact fun hr => ⟨Or.inr hr, (hfirst r hr).ne'⟩
          · exact fun hr => hr.1.resolve_left hr.2
        have hgrown := (hA.erase hz).insert (hjoins.fits s (hA.all z hz) (hys.all y hy)) fun x hx hmx =>
          ((hmem x).mp hmx).elim hx.2 fun hyx => hd x hx.1 (hys.part hy hyx)
        have hbefore : ∀ v ∈ A.erase z, v.Ahead z := fun v hv => by
          obtain ⟨hv, hne⟩ := OrdSet.mem_erase.mp hv
          exact hapart v hv z hz (lt_of_le_of_ne (OrdSet.le_getLast hlast hv) hne)
        have hahead : Apart ((A.erase z).insert m) :=
          (hapart.of_mem_iff fun r hr => (OrdSet.mem_erase.mp hr).1).insert_last hbefore hjoins
        have hbehind : ∀ v ∈ (A.erase z).insert m, ∀ w ∈ ys, v.Ahead w := fun v hv w hw => by
          rcases OrdSet.mem_insert.mp hv with hvm | hv
          · rw [hvm]
            exact hjoins.behind hzy.1 (start_le_of_lt (hfirst w hw))
          · exact hcross v (OrdSet.mem_erase.mp hv).1 w (List.mem_cons_of_mem y hw)
        obtain ⟨S, hS, htiles, hend⟩ := ih hgrown hrest hsorted
          (fun x hx hx' => hx.elim (fun hx => hd x hx.1 hx'.1) fun hmx =>
            ((hmem x).mp hmx).elim (fun hzx => hd x (hA.part hz hzx) hx'.1) hx'.2)
          hahead (hapart'.of_mem_iff fun r hr =>
            OrdSet.mem_ofList.mpr (List.mem_cons_of_mem y (OrdSet.mem_ofList.mp hr))) hbehind
        refine ⟨S, hS, htiles.congr fun x => ?_, hend⟩
        have hzP : z.Mem x → P x := hA.part hz
        have hyP : y.Mem x → P' x := hys.part hy
        rw [hmem]
        tauto

theorem mergeLast_spec (hA : StrideTiles s A P) (hapart : Apart A) :
    ∃ S, mergeLast n A = .ok S ∧ StrideTiles s S P ∧ Apart S := by
  induction n generalizing A with
  | zero => exact ⟨A, rfl, hA, hapart⟩
  | succ n ih =>
    unfold mergeLast
    split
    next y z rest hrev =>
      have hentries : A.entries = rest.reverse ++ [z, y] := by
        have h := congrArg List.reverse hrev
        simpa using h
      have hy : y ∈ A := by rw [OrdSet.mem_def, hentries]; simp
      have hz : z ∈ A := by rw [OrdSet.mem_def, hentries]; simp
      have hsorted := A.sorted
      rw [hentries, List.pairwise_append] at hsorted
      have hlt : z < y := List.rel_of_pairwise_cons hsorted.2.1 List.mem_cons_self
      obtain ⟨o, ho, hmerged⟩ := (hapart z hz y hy hlt).tryMerge_joins (hA.all z hz) (hA.all y hy)
      rw [ho, Except.ok_bind]
      cases o with
      | none => exact ⟨A, rfl, hA, hapart⟩
      | some m =>
        have hjoins := hmerged m rfl
        have hrest : ∀ v ∈ (A.erase y).erase z, v ∈ A ∧ v < z := fun v hv => by
          obtain ⟨hv, hvz⟩ := OrdSet.mem_erase.mp hv
          obtain ⟨hv, hvy⟩ := OrdSet.mem_erase.mp hv
          refine ⟨hv, ?_⟩
          rw [OrdSet.mem_def, hentries, List.mem_append] at hv
          rcases hv with hv | hv
          · exact hsorted.2.2 v hv z List.mem_cons_self
          · simp [hvz, hvy] at hv
        exact ih (hA.fuse hy hz hlt.ne' (hjoins.fits s (hA.all z hz) (hA.all y hy)) hjoins.comm)
          ((hapart.of_mem_iff fun r hr => (hrest r hr).1).insert_last
            (fun v hv => hapart v (hrest v hv).1 z hz (hrest v hv).2) hjoins)
    next => exact ⟨A, rfl, hA, hapart⟩

/-- Merging two disjoint sets of regions loses no index and adds none, where no region wraps around to a later one. -/
theorem mergeAdjacentSets_spec (hA : StrideTiles s A P) (hB : StrideTiles s B P') (hd : ∀ x, P x → ¬P' x)
    (hapart : Apart A) (hapart' : Apart B) (hcross : ∀ v ∈ A, ∀ w ∈ B, v.Ahead w) :
    ∃ S, mergeAdjacentSets A B = .ok S ∧ (StrideTiles s S fun x => P x ∨ P' x) ∧ Apart S := by
  obtain ⟨S, hS, htiles, hend⟩ := mergeAcross_spec hA (hB.of_mem_iff fun r => OrdSet.mem_ofList) B.sorted hd hapart
    (hapart'.of_mem_iff fun r hr => OrdSet.mem_ofList.mp hr) hcross
  unfold mergeAdjacentSets
  rw [hS, Except.ok_bind]
  exact mergeLast_spec htiles hend

end Fenix
