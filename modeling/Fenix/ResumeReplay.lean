import Fenix.CollectiveResume

namespace Fenix.CommLog

/-- A rank that still has collective `least` has all those from it up to any later one. -/
def Gapless (latest : Window CRegion) (least : Int) (c : CommLog) (t : Int) : Prop :=
  Keeps latest c t least → ∀ k, Keeps latest c t k → ∀ j, least ≤ j → j ≤ k → Keeps latest c t j

variable {c c' d : CommLog} {t least : Int} {latest : Window CRegion} {xs : List CollectiveLog}

section Contiguous

theorem mem_of_contiguousFrom {s : Int} {xs : List CollectiveLog} (h : contiguousFrom s xs = true) {k : Int}
    (hk : s ≤ k) {x : CollectiveLog} (hx : x ∈ xs) (hle : k ≤ x.idx) : ∃ y ∈ xs, y.idx = k := by
  induction xs generalizing s with
  | nil => cases hx
  | cons y ys ih =>
    obtain ⟨hy, hys⟩ := Bool.and_eq_true_iff.mp h
    have hy := of_decide_eq_true hy
    by_cases heq : k = s
    · exact ⟨y, List.mem_cons_self, by omega⟩
    · rcases List.mem_cons.mp hx with rfl | hx
      · omega
      · obtain ⟨z, hz, hzk⟩ := ih hys (by omega) hx
        exact ⟨z, List.mem_cons_of_mem _ hz, hzk⟩

/-- What is replayed are the collectives logged from an index on, if that one is logged, and there is
no gap among them. -/
theorem replayCollectives_cases {c : CommLog} {s : Int} {xs : List CollectiveLog}
    (hlt : ∀ x ∈ c.collectives, x.idx < c.region.next) (h : c.replayCollectives s = .ok xs) :
    c.region.Valid ∧ ∀ k, (∃ x ∈ xs, x.idx = k) ↔
      s ≤ k ∧ k < c.region.next ∧ ∀ j, s ≤ j → j ≤ k → ∃ x ∈ c.collectives, x.idx = j := by
  unfold replayCollectives at h
  split at h
  next => cases h
  next hv =>
    refine ⟨not_not.mp hv, fun k => ?_⟩
    split at h
    next hle =>
      cases Except.ok.inj h
      constructor
      · rintro ⟨x, hx, _⟩
        cases hx
      · rintro ⟨hs, hn, _⟩
        omega
    next hle =>
      split at h
      next hcont =>
        cases Except.ok.inj h
        unfold IndexedSet.sinceFound at hcont ⊢
        split at hcont
        next hfound =>
          rw [if_pos hfound]
          constructor
          · rintro ⟨x, hx, rfl⟩
            obtain ⟨hmem, hge⟩ := IndexedSet.mem_since.mp hx
            refine ⟨hge, hlt x hmem, fun j hsj hjk => ?_⟩
            obtain ⟨y, hy, hyj⟩ := mem_of_contiguousFrom hcont hsj hx hjk
            exact ⟨y, (IndexedSet.mem_since.mp hy).1, hyj⟩
          · rintro ⟨hs, _, hall⟩
            obtain ⟨x, hx, hk⟩ := hall k hs (Int.le_refl k)
            exact ⟨x, IndexedSet.mem_since.mpr ⟨hx, by omega⟩, hk⟩
        next hfound =>
          rw [if_neg hfound]
          constructor
          · rintro ⟨x, hx, _⟩
            cases hx
          · rintro ⟨hs, _, hall⟩
            obtain ⟨x, hx, hk⟩ := hall s (Int.le_refl s) hs
            exact absurd (List.any_eq_true.mpr ⟨x, hx, decide_eq_true hk⟩) hfound
      next => cases h

theorem contiguousFrom_of_closed {s : Int} {xs : List CollectiveLog}
    (hs : xs.Pairwise fun a b => a.idx < b.idx) (hge : ∀ x ∈ xs, s ≤ x.idx)
    (hclosed : ∀ x ∈ xs, ∀ j, s ≤ j → j ≤ x.idx → ∃ y ∈ xs, y.idx = j) : contiguousFrom s xs = true := by
  induction xs generalizing s with
  | nil => rfl
  | cons x xs ih =>
    obtain ⟨hlt, hs⟩ := List.pairwise_cons.mp hs
    have hx : x.idx = s := by
      have hgex := hge x List.mem_cons_self
      obtain ⟨y, hy, hidx⟩ := hclosed x List.mem_cons_self s (Int.le_refl s) hgex
      rcases List.mem_cons.mp hy with rfl | hy
      · exact hidx
      · have hxy := hlt y hy
        omega
    refine Bool.and_eq_true_iff.mpr ⟨decide_eq_true hx, ih hs (fun y hy => ?_) fun y hy j hj hle => ?_⟩
    · have hxy := hlt y hy
      omega
    · obtain ⟨z, hz, hidx⟩ := hclosed y (List.mem_cons_of_mem _ hy) j (by omega) hle
      rcases List.mem_cons.mp hz with rfl | hz
      · omega
      · exact ⟨z, hz, hidx⟩

theorem sinceFound_contiguous_iff (s : Int) : contiguousFrom s (c.collectives.sinceFound s) = true ↔
    ((∃ x ∈ c.collectives, x.idx = s) →
      ∀ x ∈ c.collectives, ∀ j, s ≤ j → j ≤ x.idx → ∃ y ∈ c.collectives, y.idx = j) := by
  unfold IndexedSet.sinceFound
  by_cases hfound : c.collectives.entries.any (fun x => decide (x.idx = s)) = true
  · rw [if_pos hfound]
    obtain ⟨x₀, hx₀, hidx₀⟩ := List.any_eq_true.mp hfound
    constructor
    · intro hc _ x hx j hj hle
      obtain ⟨y, hy, hidx⟩ := mem_of_contiguousFrom hc hj (IndexedSet.mem_since.mpr ⟨hx, by omega⟩) hle
      exact ⟨y, (IndexedSet.mem_since.mp hy).1, hidx⟩
    · intro hall
      refine contiguousFrom_of_closed (IndexedSet.since_sorted _ _) (fun x hx => (IndexedSet.mem_since.mp hx).2)
        fun x hx j hj hle => ?_
      obtain ⟨y, hy, hidx⟩ := hall ⟨x₀, hx₀, of_decide_eq_true hidx₀⟩ x (IndexedSet.mem_since.mp hx).1 j hj hle
      exact ⟨y, IndexedSet.mem_since.mpr ⟨hy, by omega⟩, hidx⟩
  · rw [if_neg hfound]
    refine iff_of_true rfl fun ⟨x, hx, hidx⟩ => ?_
    exact absurd (List.any_eq_true.mpr ⟨x, hx, decide_eq_true hidx⟩) hfound

theorem replayCollectives_ok_iff (hlt : ∀ x ∈ c.collectives, x.idx < c.region.next) (s : Int) :
    (∃ xs, c.replayCollectives s = .ok xs) ↔ c.region.Valid ∧ ((∃ x ∈ c.collectives, x.idx = s) →
      ∀ x ∈ c.collectives, ∀ j, s ≤ j → j ≤ x.idx → ∃ y ∈ c.collectives, y.idx = j) := by
  rw [← sinceFound_contiguous_iff]
  unfold replayCollectives
  by_cases hv : c.region.Valid
  · rw [if_neg (not_not.mpr hv)]
    by_cases hn : c.region.next ≤ s
    · rw [if_pos hn]
      refine iff_of_true ⟨_, rfl⟩ ⟨hv, (sinceFound_contiguous_iff s).mpr fun ⟨x, hx, hidx⟩ => ?_⟩
      have hxlt := hlt x hx
      omega
    · rw [if_neg hn]
      by_cases hc : contiguousFrom s (c.collectives.sinceFound s) = true
      · rw [if_pos hc]
        exact iff_of_true ⟨_, rfl⟩ ⟨hv, hc⟩
      · rw [if_neg hc]
        exact iff_of_false nofun fun h => hc h.2
  · rw [if_pos hv]
    exact iff_of_false nofun fun h => hv h.1

end Contiguous

section Resumed

/-- Nothing is logged with a rank whose region is unused. -/
theorem used_of_logged (h : c.Ordered) {x : CollectiveLog} (hx : x ∈ c.collectives) :
    c.region.Valid ∧ ¬c.region.Fresh := by
  have hv : c.region.Valid := by
    by_contra hv
    exact collectives_empty_of_not_valid h hv x hx
  refine ⟨hv, fun hf => ?_⟩
  obtain ⟨r, _, hrv, hlo, _⟩ := h.logged x hx
  have hlt := idx_lt_next h hx
  have hge := hrv.2.1
  have h₁ := hf.1.2
  have h₂ := hf.2
  omega

theorem resumeIdx_of_logged (h : c.Ordered) {x : CollectiveLog} (hx : x ∈ c.collectives) :
    resumeIdx latest c.seekRegion = c.region.next := by
  obtain ⟨hv, hf⟩ := used_of_logged h hx
  have hseek : c.seekRegion = c.region := if_pos hv
  rw [hseek]
  exact resumeIdx_of_used hv hf

theorem keeps_iff (hr : ResumesAt c t c') (hf : Fitted latest c' d) (k : Int) :
    (∃ x ∈ d.collectives, x.idx = k) ↔ Keeps latest c t k := by
  unfold Keeps
  rw [← hr.seekRegion, ← hr.regions]
  have hnext : c'.seekRegion.next = c'.region.next := by
    unfold CommLog.seekRegion
    split <;> rfl
  constructor
  · rintro ⟨x, hx, rfl⟩
    obtain ⟨hx, hnot⟩ := (hf.collectives x).mp hx
    obtain ⟨hx, hlt⟩ := (hr.collectives x).mp hx
    exact ⟨⟨x, hx, rfl⟩, by omega, hnot⟩
  · rintro ⟨⟨x, hx, rfl⟩, hlt, hnot⟩
    refine ⟨x, (hf.collectives x).mpr ⟨(hr.collectives x).mpr ⟨hx, by omega⟩, hnot⟩, rfl⟩

theorem ResumesAt.idx_lt_of_fitted (hr : ResumesAt c t c') (hf : Fitted latest c' d) :
    ∀ x ∈ d.collectives, x.idx < d.region.next := by
  intro x hx
  have hx := ((hf.collectives x).mp hx).1
  rw [hf.next, resumeIdx_of_logged hr.own hx]
  exact idx_lt_next hr.own hx

/-- What a rank replays in a sync, told from its state before. -/
theorem replays_iff_gapless (hr : ResumesAt c t c') (hf : Fitted latest c' d) (hv : d.region.Valid) :
    (∃ xs, d.replayCollectives least = .ok xs) ↔ Gapless latest least c t := by
  rw [replayCollectives_ok_iff (hr.idx_lt_of_fitted hf)]
  unfold Gapless
  simp only [← keeps_iff hr hf, hv, true_and]
  refine imp_congr_right fun _ => ⟨fun h k => ?_, fun h x hx => ?_⟩
  · rintro ⟨x, hx, rfl⟩
    exact h x hx
  · exact h x.idx ⟨x, hx, rfl⟩

/-- A rank whose region is not in use replays nothing, but has to have a region. -/
theorem replays_iff_valid (hr : ResumesAt c t c') (hu : ¬c'.StartsCollective) (s : Int) :
    (∃ xs, c'.replayCollectives s = .ok xs) ↔ (c.resumeRegions t).cur.Valid := by
  rw [replayCollectives_ok_iff fun x hx => idx_lt_next hr.own hx, ← hr.regions]
  refine and_iff_left ?_
  rintro ⟨x, hx, _⟩
  exact absurd (used_of_logged hr.own hx) hu

/-- What one rank replays after the sync, told from its state before. -/
theorem replays_iff_keeps (hr : ResumesAt c t c') (hf : Fitted latest c' d) (hx : d.replayCollectives least = .ok xs)
    (k : Int) : (∃ x ∈ xs, x.idx = k) ↔
      least ≤ k ∧ k < resumeIdx latest (c.resumeRegion t) ∧ ∀ j, least ≤ j → j ≤ k → Keeps latest c t j := by
  have hnext : d.region.next = resumeIdx latest (c.resumeRegion t) := by
    rw [hf.next, hr.seekRegion]
  rw [(replayCollectives_cases (hr.idx_lt_of_fitted hf) hx).2 k, hnext]
  simp only [keeps_iff hr hf]

/-- A collective that is kept has an index before the one that the rank resumes at. -/
theorem Keeps.lt (hr : ResumesAt c t c') (hf : Fitted latest c' d) {k : Int} (hk : Keeps latest c t k) :
    k < resumeIdx latest (c.resumeRegion t) := by
  obtain ⟨x, hx, rfl⟩ := (keeps_iff hr hf k).mpr hk
  have hx := ((hf.collectives x).mp hx).1
  rw [← hr.seekRegion, resumeIdx_of_logged hr.own hx]
  exact idx_lt_next hr.own hx

/-- With no gap but the active collective there is no gap before a logged one. -/
theorem keeps_before (h : c.WellFormed) (ht : c.SyncTarget t)
    (hall : ∀ k, least ≤ k → k < resumeIdx latest (c.resumeRegion t) →
      Keeps latest c t k ∨ ∃ op ∈ c.activeOp, op.idx = k) {k : Int}
    (hk : Keeps latest c t k) {j : Int} (hj : least ≤ j) (hjk : j ≤ k)
    (hkn : k < resumeIdx latest (c.resumeRegion t)) : Keeps latest c t j := by
  rcases hall j hj (by omega) with hkeep | ⟨op, hop, rfl⟩
  · exact hkeep
  · obtain ⟨hle, _, hcv⟩ := resumeRegions_next_le h ht hop
    have hlt := hk.2.1
    have hreg : c.resumeRegion t = (c.resumeRegions t).cur := if_pos hcv
    rw [hreg] at hlt
    have heq : op.idx = k := by omega
    rw [heq]
    exact hk

end Resumed

end Fenix.CommLog
