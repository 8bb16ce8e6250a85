import Fenix.CommLogReset
import Fenix.CommLogSync

namespace Fenix.CommLog

/-- The regions a rank resumes with. -/
def resumeRegions (c : CommLog) (t : Int) : Window CRegion :=
  if t = -1 then c.regions
  else if c.region.id = t then c.regions.setCur { c.region with next := c.region.first }
  else c.regions.keep {} (c.regions.upperBound CRegion.id t)

def resumeActive (c : CommLog) (t : Int) : Int := if 0 ≤ t then t else c.activeRegion

/-- The region a rank resumes in. -/
def resumeRegion (c : CommLog) (t : Int) : CRegion :=
  let r := (c.resumeRegions t).cur
  if r.Valid then r else { r with id := c.resumeActive t }

/-- The index that region `m` continues with once it fits into the latest regions. -/
def resumeIdx (latest : Window CRegion) (m : CRegion) : Int :=
  if m.Valid ∧ ¬m.Fresh then m.next
  else
    match latest.lowerBound CRegion.id m.id with
    | none => latest.cur.next
    | some it => it.first

/-- Region `m` fits into the latest regions: beyond them, as one of them, or right before them. -/
def Fits (latest : Window CRegion) (m : CRegion) : Prop :=
  match latest.lowerBound CRegion.id m.id with
  | none => m.Valid → ¬m.Fresh → m.first = latest.cur.next
  | some it =>
    if it.id = m.id then m.Valid → ¬m.Fresh → m.first = it.first
    else (∀ b ∈ latest.beforeLowerBound CRegion.id m.id, ¬b.Valid) ∧ m.Valid ∧ m.next = it.first

/-- All of the latest regions are past `m`, so that a further region is appended to `m`. -/
def Overtaken (latest : Window CRegion) (m : CRegion) : Prop :=
  ∃ it ∈ latest.lowerBound CRegion.id m.id, it.id ≠ m.id

/-- Collective `k` is logged, and neither the reset nor a region appended erases it. -/
def Keeps (latest : Window CRegion) (c : CommLog) (t : Int) (k : Int) : Prop :=
  (∃ x ∈ c.collectives, x.idx = k) ∧ k < (c.resumeRegion t).next ∧
    ¬(Overtaken latest (c.resumeRegion t) ∧ (c.resumeRegions t).front.Holds k)

/-- A collective is active, and the rank comes to another region than the one it was called in. -/
def StaysStuck (latest : Window CRegion) (c : CommLog) (t : Int) : Prop :=
  c.activeOp.isSome ∧ ((c.resumeRegion t).id ≠ c.resumeActive t ∨ Overtaken latest (c.resumeRegion t))

section Reset

variable {c c' : CommLog} {t : Int}

/-- What the local part of a reset leaves of the collectives. -/
structure ResumesAt (c : CommLog) (t : Int) (c' : CommLog) : Prop where
  own : c'.Ordered
  used : ∀ r ∈ c'.regions.older, r.id = -1 ∨ r.Valid
  regions : c'.regions = c.resumeRegions t
  active : c'.activeRegion = c.resumeActive t
  activeOp : c'.activeOp = c.activeOp
  collectives : ∀ x, x ∈ c'.collectives ↔ x ∈ c.collectives ∧ x.idx < c'.region.next

theorem ResumesAt.seekRegion (h : ResumesAt c t c') : c'.seekRegion = c.resumeRegion t := by
  unfold CommLog.seekRegion resumeRegion region
  rw [h.regions, h.active]

/-- The collectives of the regions kept are those before the next index of the last one. -/
theorem mem_keptCollectives (h : c.Ordered) {r : CRegion} (hr : r ∈ c.regions.toList) (hv : r.Valid)
    {x : CollectiveLog} :
    x ∈ (c.keptCollectives r.id).collectives ↔ x ∈ c.collectives ∧ x.idx < r.next := by
  constructor
  · intro hx
    have hlt := idx_lt_next (h.eraseRegions _) hx
    change x.idx < (c.keptCollectives r.id).region.next at hlt
    rw [kept_region h hr hv] at hlt
    exact ⟨(mem_eraseRegions.mp hx).1, hlt⟩
  · rintro ⟨hx, hlt⟩
    refine mem_eraseRegions.mpr ⟨hx, fun y hy hh => ?_⟩
    have hmem := (mem_take_upperBound h hr).mpr (Int.le_refl r.id)
    rcases Window.take_rel_drop h.ordered hmem hy with hp | hp
    · have hge := hv.1
      omega
    · have hge := hh.2.1
      omega

theorem resumesAt_of_resets (h : c.Ordered) {r : CRegion} (hr : r ∈ c.regions.toList) (hv : r.Valid)
    (hres : ResetsCollectives c r.id c') : c'.Ordered ∧ c'.regions = c.resumeRegions r.id ∧
      ∀ x, x ∈ c'.collectives ↔ x ∈ c.collectives ∧ x.idx < c'.region.next := by
  have hge := hv.1
  have hle := id_le_region h hr
  refine ⟨h.resetsCollectives hv.1 hres, ?_⟩
  unfold resumeRegions
  rw [if_neg (by omega)]
  cases hres with
  | invalid hcv =>
    rcases Window.mem_toList.mp hr with hr | rfl
    · have hid := older_id_of_not_valid h hcv hr
      omega
    · exact absurd hv hcv
  | older hcv hlt =>
    rw [if_neg (by omega), kept_region h hr hv]
    exact ⟨rfl, fun x => mem_keptCollectives h hr hv⟩
  | current hcv hid =>
    rw [if_pos hid]
    refine ⟨?_, fun x => mem_restartCollectives h hcv⟩
    unfold restartCollectives
    rw [eraseLogs_eq]
    rfl
  | next => omega

theorem resumesAt_of_resetLocal (h : c.WellFormed) (ht : c.SyncTarget t) (hr : c.resetLocal t = .ok c') :
    ResumesAt c t c' := by
  rcases ht with rfl | ⟨r, hmem, hv, rfl⟩
  · cases Except.ok.inj ((resetLocal_continue c).symm.trans hr)
    refine ⟨h.own, h.used, rfl, rfl, rfl, fun x => ?_⟩
    exact ⟨fun hx => ⟨hx, idx_lt_next h.own hx⟩, fun hx => hx.1⟩
  · obtain ⟨_, ls, _, hres⟩ := resetLocal_cases hr
    have hres := (resetCollectives_ok_iff hv.1).mp hres
    have hown : ({ c with rankLogs := ls, activeRegion := c.resumeActive r.id } : CommLog).Ordered :=
      h.own.of_same rfl rfl
    obtain ⟨hown', hreg, hcoll⟩ := resumesAt_of_resets hown hmem hv hres
    have hused : ∀ y ∈ ({ c with rankLogs := ls, activeRegion := c.resumeActive r.id } :
        CommLog).regions.older, y.id = -1 ∨ y.Valid := h.used
    have hsame := onlyCollectives_resets hres
    exact ⟨hown', used_resets hused hres, hreg, hsame.activeRegion, hsame.activeOp, hcoll⟩

/-- What a rank resumes with is in order, whatever its target is. -/
theorem exists_resumed (h : c.WellFormed) (ht : c.SyncTarget t) : ∃ d : CommLog, d.Ordered ∧
    (∀ r ∈ d.regions.older, r.id = -1 ∨ r.Valid) ∧ d.regions = c.resumeRegions t := by
  rcases ht with rfl | ⟨r, hmem, hv, rfl⟩
  · exact ⟨c, h.own, h.used, rfl⟩
  · obtain ⟨d, hres⟩ := resetsCollectives_exists h.own hmem hv
    obtain ⟨hown, hregions, _⟩ := resumesAt_of_resets h.own hmem hv hres
    exact ⟨d, hown, used_resets h.used hres, hregions⟩

/-- An active collective is the last one or later than what the rank resumes with. -/
theorem resumeRegions_next_le (h : c.WellFormed) (ht : c.SyncTarget t) {op : CollectiveLog}
    (hop : op ∈ c.activeOp) : (c.resumeRegions t).cur.next ≤ op.idx + 1 ∧
      c.resumeActive t ≤ (c.resumeRegions t).cur.id ∧ (c.resumeRegions t).cur.Valid := by
  obtain ⟨hv, _, hidx, _, hact, _⟩ := h.inFlight op hop
  rcases ht with rfl | ⟨r, hmem, hrv, rfl⟩
  · exact ⟨by change c.region.next ≤ _; omega, hact, hv⟩
  · have hge := hrv.1
    have hle := id_le_region h.own hmem
    unfold resumeRegions resumeActive
    rw [if_neg (by omega), if_pos hge]
    split
    next hid =>
      have hfn := (h.own.shaped _ region_mem).first_le_next
      exact ⟨by change c.region.first ≤ _; omega, Int.le_of_eq hid.symm, hv.1, hv.2.1, hv.2.1⟩
    next hid =>
      have hreg : (c.regions.keep {} (c.regions.upperBound CRegion.id r.id)).cur = r :=
        kept_region h.own hmem hrv
      rw [hreg]
      refine ⟨?_, Int.le_refl _, hrv⟩
      rcases Window.mem_toList.mp hmem with hold | rfl
      · have hfn := (h.own.shaped _ region_mem).first_le_next
        rcases older_precedes h.own hold with hp | hp
        · omega
        · omega
      · exact absurd rfl hid

/-- A rank that goes back resumes in the region it goes back to. -/
theorem resumeRegions_id (h : c.WellFormed) (ht : c.SyncTarget t) :
    t = -1 ∨ (c.resumeRegions t).cur.id = c.resumeActive t := by
  rcases ht with rfl | ⟨r, hmem, hv, rfl⟩
  · exact Or.inl rfl
  · refine Or.inr ?_
    have hge := hv.1
    unfold resumeRegions resumeActive
    rw [if_neg (by omega), if_pos hge]
    split
    next hid => exact hid
    next => exact congrArg CRegion.id (kept_region h.own hmem hv)

end Reset

section Align

variable {c c' : CommLog} {latest : Window CRegion}

/-- What fitting a rank into the latest regions leaves of its collectives. -/
structure Fitted (latest : Window CRegion) (c c' : CommLog) : Prop where
  activeRegion : c'.activeRegion = c.activeRegion
  activeOp : c'.activeOp = c.activeOp
  next : c'.region.next = resumeIdx latest c.seekRegion
  collectives : ∀ x, x ∈ c'.collectives ↔
    x ∈ c.collectives ∧ ¬(Overtaken latest c.seekRegion ∧ c.regions.front.Holds x.idx)
  id : ¬Overtaken latest c.seekRegion → c'.region.id = c.seekRegion.id
  id_lt : Overtaken latest c.seekRegion → c.seekRegion.id < c'.region.id

theorem seekRegion_of_valid (h : c.Ordered) (hv : c.seekRegion.Valid) : c.seekRegion = c.region :=
  if_pos ((seekRegion_valid_iff h).mp hv)

theorem not_overtaken_of_none {m : CRegion} (h : latest.lowerBound CRegion.id m.id = none) :
    ¬Overtaken latest m := by
  rintro ⟨it, hit, _⟩
  rw [h] at hit
  cases hit

theorem not_overtaken_of_same {m it : CRegion} (h : latest.lowerBound CRegion.id m.id = some it)
    (hid : it.id = m.id) : ¬Overtaken latest m := by
  rintro ⟨it', hit, hne⟩
  rw [h] at hit
  cases hit
  exact hne hid

theorem resumeIdx_of_used {m : CRegion} (hv : m.Valid) (hf : ¬m.Fresh) : resumeIdx latest m = m.next :=
  if_pos ⟨hv, hf⟩

theorem resumeIdx_of_unused {m : CRegion} (h : ¬m.Valid ∨ m.Fresh) : resumeIdx latest m =
    match latest.lowerBound CRegion.id m.id with
    | none => latest.cur.next
    | some it => it.first := by
  refine if_neg fun hu => ?_
  rcases h with h | h
  · exact h hu.1
  · exact hu.2 h

theorem fitted_of_alignRegion (h : c.Ordered) (ha : c.alignRegion latest.cur.next latest = .ok c') :
    Fitted latest c c' := by
  obtain ⟨a, ha, happ⟩ := Except.bind_eq_ok_iff.mp ha
  obtain ⟨rfl, hv, hf, hsame⟩ | ⟨rfl, hf, hb⟩ | ⟨it, hb, rfl, hf, hid⟩ | ⟨it, hb, rfl, hv, hne, hn⟩ :=
    alignment_cases ha
  · cases Except.ok.inj happ
    have hover : ¬Overtaken latest c.seekRegion := fun ⟨it, hit, hne⟩ => hne (hsame it hit)
    have hseek := seekRegion_of_valid h hv
    refine ⟨rfl, rfl, ?_, fun x => ?_, fun _ => by rw [hseek], fun ho => absurd ho hover⟩
    · rw [resumeIdx_of_used hv hf, hseek]
    · exact ⟨fun hx => ⟨hx, fun ho => hover ho.1⟩, fun hx => hx.1⟩
  · cases Except.ok.inj happ
    have hover := not_overtaken_of_none hb
    refine ⟨rfl, rfl, ?_, fun x => ?_, fun _ => rfl, fun ho => absurd ho hover⟩
    · rw [resumeIdx_of_unused hf, hb]
      rfl
    · exact ⟨fun hx => ⟨hx, fun ho => hover ho.1⟩, fun hx => hx.1⟩
  · cases Except.ok.inj happ
    have hover := not_overtaken_of_same hb hid
    refine ⟨rfl, rfl, ?_, fun x => ?_, fun _ => rfl, fun ho => absurd ho hover⟩
    · rw [resumeIdx_of_unused hf, hb]
      rfl
    · exact ⟨fun hx => ⟨hx, fun ho => hover ho.1⟩, fun hx => hx.1⟩
  · have hover : Overtaken latest c.seekRegion := ⟨it, hb, hne⟩
    have hseek := seekRegion_of_valid h hv
    obtain ⟨hlt, rfl⟩ := appendRegion_eq happ
    refine ⟨?_, ?_, ?_, fun x => ?_, fun ho => absurd hover ho, fun _ => ?_⟩
    · rw [eraseLogs_eq]
    · rw [eraseLogs_eq]
    · change c.seekRegion.next = _
      by_cases hf : c.seekRegion.Fresh
      · rw [resumeIdx_of_unused (Or.inr hf), hb]
        exact hn
      · rw [resumeIdx_of_used hv hf]
    · refine mem_eraseLogs.trans (and_congr_right fun _ => not_congr ?_)
      exact ⟨fun hh => ⟨hover, hh⟩, fun hh => hh.2⟩
    · rw [hseek]
      exact hlt

theorem alignment_ok_iff {m : CRegion} :
    (∃ a, alignment m latest.cur.next latest = .ok a) ↔ Fits latest m := by
  unfold alignment Fits
  cases latest.lowerBound CRegion.id m.id with
  | none =>
    dsimp only
    by_cases hf : ¬m.Valid ∨ m.Fresh
    · rw [if_pos hf]
      refine iff_of_true ⟨_, rfl⟩ fun hv hnf => ?_
      exact absurd hf (not_or.mpr ⟨not_not.mpr hv, hnf⟩)
    · rw [if_neg hf]
      obtain ⟨hv, hnf⟩ := not_or.mp hf
      by_cases hfirst : m.first = latest.cur.next
      · rw [if_neg (not_not.mpr hfirst)]
        exact iff_of_true ⟨_, rfl⟩ fun _ _ => hfirst
      · rw [if_pos hfirst]
        exact iff_of_false nofun fun h => hfirst (h (not_not.mp hv) hnf)
  | some it =>
    dsimp only
    by_cases hid : it.id = m.id
    · rw [if_neg (not_not.mpr hid), if_pos hid]
      by_cases hf : ¬m.Valid ∨ m.Fresh
      · rw [if_pos hf]
        refine iff_of_true ⟨_, rfl⟩ fun hv hnf => ?_
        exact absurd hf (not_or.mpr ⟨not_not.mpr hv, hnf⟩)
      · rw [if_neg hf]
        obtain ⟨hv, hnf⟩ := not_or.mp hf
        by_cases hfirst : m.first = it.first
        · rw [if_neg (not_not.mpr hfirst)]
          exact iff_of_true ⟨_, rfl⟩ fun _ _ => hfirst
        · rw [if_pos hfirst]
          exact iff_of_false nofun fun h => hfirst (h (not_not.mp hv) hnf)
    · rw [if_pos hid, if_neg hid]
      by_cases hb : ∃ b ∈ latest.beforeLowerBound CRegion.id m.id, b.Valid
      · rw [if_pos hb]
        obtain ⟨b, hmem, hbv⟩ := hb
        exact iff_of_false nofun fun h => h.1 b hmem hbv
      · rw [if_neg hb]
        by_cases hn : ¬m.Valid ∨ m.next ≠ it.first
        · rw [if_pos hn]
          refine iff_of_false nofun fun h => ?_
          exact not_or.mpr ⟨not_not.mpr h.2.1, not_not.mpr h.2.2⟩ hn
        · rw [if_neg hn]
          obtain ⟨hv, heq⟩ := not_or.mp hn
          exact iff_of_true ⟨_, rfl⟩ ⟨fun b hmem hbv => hb ⟨b, hmem, hbv⟩, not_not.mp hv, not_not.mp heq⟩

theorem alignRegion_ok_iff (h : c.Ordered) :
    (∃ c', c.alignRegion latest.cur.next latest = .ok c') ↔ Fits latest c.seekRegion := by
  rw [← alignment_ok_iff]
  constructor
  · rintro ⟨c', ha⟩
    obtain ⟨a, ha, _⟩ := Except.bind_eq_ok_iff.mp ha
    exact ⟨a, ha⟩
  · rintro ⟨a, ha⟩
    unfold alignRegion
    rw [ha]
    obtain ⟨rfl, _⟩ | ⟨rfl, _⟩ | ⟨it, _, rfl, _⟩ | ⟨it, hit, rfl, hv, hne, _⟩ := alignment_cases ha
    · exact ⟨_, rfl⟩
    · exact ⟨_, rfl⟩
    · exact ⟨_, rfl⟩
    · obtain ⟨_, hle⟩ := Window.lowerBound_mem hit
      have hlt : c.region.id < it.id := by
        rw [seekRegion_of_valid h hv] at hle hne
        omega
      exact ⟨_, if_pos hlt⟩

/-- A rank that fits into the latest regions comes to a valid one. -/
theorem region_valid_of_alignRegion (hid : 0 ≤ c.seekRegion.id) (hl : 0 ≤ latest.cur.next)
    (hu : ∀ r ∈ latest.toList, r.id = -1 ∨ r.Valid) (h : c.Ordered)
    (ha : c.alignRegion latest.cur.next latest = .ok c') : c'.region.Valid := by
  have hfound : ∀ it ∈ latest.lowerBound CRegion.id c.seekRegion.id, it.Valid := by
    intro it hit
    obtain ⟨hmem, hle⟩ := Window.lowerBound_mem hit
    rcases hu it hmem with hneg | hv
    · omega
    · exact hv
  obtain ⟨a, ha, happ⟩ := Except.bind_eq_ok_iff.mp ha
  obtain ⟨rfl, hv, _⟩ | ⟨rfl, _⟩ | ⟨it, hit, rfl, _⟩ | ⟨it, hit, rfl, hv, _⟩ := alignment_cases ha
  · cases Except.ok.inj happ
    exact (seekRegion_valid_iff h).mp hv
  · cases Except.ok.inj happ
    exact ⟨hid, hl, hl⟩
  · cases Except.ok.inj happ
    have hge := (hfound it hit).2.1
    exact ⟨hid, hge, hge⟩
  · obtain ⟨_, rfl⟩ := appendRegion_eq happ
    have hge := (hfound it hit).1
    exact ⟨hge, hv.2.2, hv.2.2⟩

theorem resumeActive_nonneg (h : c.WellFormed) (t : Int) : 0 ≤ c.resumeActive t := by
  unfold resumeActive
  split
  next ht => exact ht
  next => exact h.active

theorem ResumesAt.seekRegion_id (hr : ResumesAt c t c') (h : c.WellFormed) : 0 ≤ c'.seekRegion.id := by
  unfold CommLog.seekRegion
  split
  next hv => exact hv.1
  next =>
    change 0 ≤ c'.activeRegion
    rw [hr.active]
    exact resumeActive_nonneg h t

theorem region_valid_of_next (h : c.Ordered) (hn : 0 ≤ c.region.next) : c.region.Valid := by
  by_contra hv
  have hneg := next_of_not_valid h hv
  omega

end Align

end Fenix.CommLog
