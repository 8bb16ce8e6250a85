import Fenix.ResumeReplay
import Fenix.SyncSchedule
import Fenix.Uniform

namespace Fenix

namespace CommLog

/-- Where some rank resumes in a region in use, ranks can go on together: none is stuck, each has every collective
from the least index resumed at up to its own one, logged or active, and a collective active below the least index
is active with all. Or all are stuck, and none has the collective of the least index. -/
def Replayable {n : Nat} (cs : Fin n → CommLog × Int) : Prop :=
  (∃ i, (cs i).1.InUse (cs i).2) → ∀ latest ∈ resumeLatest cs, ∀ least ∈ resumeLeast latest cs,
    (∃ i, StaysStuck latest (cs i).1 (cs i).2) ∧ (∀ i, StaysStuck latest (cs i).1 (cs i).2) ∧
      (∀ i, ¬Keeps latest (cs i).1 (cs i).2 least) ∨
    (∀ i, ¬StaysStuck latest (cs i).1 (cs i).2) ∧
      (∀ i k, least ≤ k → k < resumeIdx latest ((cs i).1.resumeRegion (cs i).2) →
        Keeps latest (cs i).1 (cs i).2 k ∨ ∃ op ∈ (cs i).1.activeOp, op.idx = k) ∧
      ∀ i k, (∃ op ∈ (cs i).1.activeOp, op.idx = k) → k < least → ∀ j, ∃ op ∈ (cs j).1.activeOp, op.idx = k

section Ranks

variable {c c' d : CommLog} {t least : Int} {latest : Window CRegion} {xs : List CollectiveLog}

theorem stuck_iff (h : c.WellFormed) (ht : c.SyncTarget t) (hr : ResumesAt c t c')
    (hf : Fitted latest c' d) (hv : d.region.Valid) : d.Stuck ↔ StaysStuck latest c t := by
  have hop : d.activeOp = c.activeOp := hf.activeOp.trans hr.activeOp
  have hact : d.activeRegion = c.resumeActive t := hf.activeRegion.trans hr.active
  unfold Stuck StaysStuck
  rw [hop, hact, ← hr.seekRegion]
  refine and_congr_right fun hsome => ?_
  obtain ⟨op, hmem⟩ := Option.isSome_iff_exists.mp hsome
  have hle : c.resumeActive t ≤ c'.seekRegion.id := by
    obtain ⟨_, hle, hcv⟩ := resumeRegions_next_le h ht hmem
    rw [hr.seekRegion]
    unfold resumeRegion
    rwa [if_pos hcv]
  constructor
  · intro hn
    by_cases ho : Overtaken latest c'.seekRegion
    · exact Or.inr ho
    · refine Or.inl fun hid => hn ⟨hv, ?_⟩
      rw [hf.id ho, hid]
  · rintro hn ⟨_, hid⟩
    by_cases ho : Overtaken latest c'.seekRegion
    · have hlt := hf.id_lt ho
      omega
    · exact (hn.resolve_right ho) ((hf.id ho).symm.trans hid)

/-- A rank whose region is not in use executes every collective. -/
theorem executes_of_fresh {n : Nat} {r : SyncRank n} (h : c.WellFormed) (ht : c.SyncTarget t) (hr : ResumesAt c t r.log)
    (hu : ¬c.InUse t) (hp : r.phase = .left xs) (hx : r.log.replayCollectives least = .ok xs) (k : Int) :
    r.Executes k ↔ 0 ≤ k := by
  obtain ⟨hv, hrep⟩ := replayCollectives_cases (fun x hx => idx_lt_next hr.own hx) hx
  have hf : r.log.region.Fresh := by
    by_contra hf
    unfold InUse at hu
    rw [← hr.regions] at hu
    exact hu ⟨hv, hf⟩
  have hnext : r.log.region.next = 0 := by
    have h₁ := hf.1.2
    have h₂ := hf.2
    omega
  have hstuck : ¬r.log.Stuck := by
    rintro ⟨hsome, hno⟩
    rw [hr.activeOp] at hsome
    obtain ⟨op, hop⟩ := Option.isSome_iff_exists.mp hsome
    refine hno ⟨hv, ?_⟩
    rw [hr.active]
    rcases resumeRegions_id h ht with rfl | hid
    · obtain ⟨_, hge, hidx, _⟩ := h.inFlight op hop
      have hsame : c.region = r.log.region := congrArg Window.cur hr.regions.symm
      rw [hsame] at hidx
      omega
    · rw [← hid, ← hr.regions]
      rfl
  unfold SyncRank.Executes
  rw [hp]
  constructor
  · rintro (hk | ⟨_, ⟨op, hop, rfl⟩ | hk⟩)
    · obtain ⟨hs, hlt, hall⟩ := (hrep k).mp hk
      obtain ⟨x, hx, _⟩ := hall k hs (Int.le_refl k)
      exact absurd hf (used_of_logged hr.own hx).2
    · rw [hr.activeOp] at hop
      exact (h.inFlight op hop).2.1
    · omega
  · intro hk
    exact Or.inr ⟨hstuck, Or.inr (by omega)⟩

/-- What a rank executes after the sync, told from its state before. -/
theorem executes_iff {n : Nat} {r : SyncRank n} (h : c.WellFormed) (ht : c.SyncTarget t) (hf : FormedAt latest c t r.log)
    (hp : r.phase = .left xs) (hx : r.log.replayCollectives least = .ok xs) (k : Int) :
    r.Executes k ↔
      (least ≤ k ∧ k < resumeIdx latest (c.resumeRegion t) ∧ ∀ j, least ≤ j → j ≤ k → Keeps latest c t j) ∨
      ¬StaysStuck latest c t ∧ ((∃ op ∈ c.activeOp, op.idx = k) ∨ resumeIdx latest (c.resumeRegion t) ≤ k) := by
  obtain ⟨⟨c', hr, hfit⟩, hv, _⟩ := hf
  unfold SyncRank.Executes
  rw [hp, SyncPhase.replayed, replays_iff_keeps hr hfit hx, stuck_iff h ht hr hfit hv, hfit.activeOp, hr.activeOp,
    hfit.next, hr.seekRegion]

end Ranks

section Done

variable {n : Nat} {cs : Fin n → CommLog × Int} {s : Sync n} {latest : Window CRegion} {least : Int}

/-- When all ranks are through, either all have taken part in the exchange or none is in a region in use. -/
theorem done_cases (h : s.Follows cs) (hd : s.Done) :
    (∃ i, (cs i).1.InUse (cs i).2) ∧ (∃ latest least, resumeLatest cs = some latest ∧ resumeLeast latest cs = some least ∧
      ∀ i, FormedAt latest (cs i).1 (cs i).2 (s i).log ∧
        ∃ xs, (s i).phase = .left xs ∧ (s i).log.replayCollectives least = .ok xs) ∨
    ∀ i, ¬(cs i).1.InUse (cs i).2 ∧ ResumesAt (cs i).1 (cs i).2 (s i).log ∧ ∃ k xs, (s i).phase = .left xs ∧
      (s i).log.replayCollectives k = .ok xs := by
  have hentered : ∀ i, (s i).Entered := fun i => Or.inr (hd i)
  have hcoll : ∀ i, (s i).Exchanging cs i := fun i => h.collective i (SyncRank.started_of_entered (hentered i))
  by_cases hex : ∃ i, (s i).contributed.isSome
  · obtain ⟨i, hi⟩ := hex
    have hagreed : ∀ j, (s j).contributed.isSome → (s j).agreed := by
      intro j hj
      by_contra hno
      exact (h.entered j (hentered j)).1 ⟨hj, hno⟩
    have haligned := h.aligned i (hagreed i hi)
    have hall := h.contributed i (haligned i)
    obtain ⟨k, hk⟩ := Option.isSome_iff_exists.mp (haligned i)
    obtain ⟨_, latest, hl, _⟩ := (hcoll i).aligned k hk
    have hmem : resumeIdx latest ((cs i).1.resumeRegion (cs i).2) ∈
        List.ofFn fun i => resumeIdx latest ((cs i).1.resumeRegion (cs i).2) := List.mem_ofFn.mpr ⟨i, rfl⟩
    obtain ⟨least, hleast⟩ := Option.isSome_iff_exists.mp (List.isSome_min?_of_mem hmem)
    refine Or.inl ⟨(hcoll i).joined hi, latest, least, hl, hleast, fun j => ?_⟩
    obtain ⟨m, hm⟩ := Option.isSome_iff_exists.mp (haligned j)
    obtain ⟨_, v, hv, hf⟩ := (hcoll j).aligned m hm
    cases Option.some.inj (hl.symm.trans hv)
    obtain ⟨xs, hp⟩ := hd j
    have hx := (h.left j xs hp).2.2
    rw [(hcoll j).agreed (hagreed j (hall j)) latest hl least hleast] at hx
    exact ⟨hf, xs, hp, hx⟩
  · refine Or.inr fun i => ?_
    have hno : ¬(s i).contributed.isSome := fun hi => hex ⟨i, hi⟩
    obtain ⟨xs, hp⟩ := hd i
    refine ⟨fun hu => hno ((hcoll i).starts hu), (hcoll i).unaligned fun ha => hno (h.contributed i ha i), ?_⟩
    exact ⟨_, xs, hp, (h.left i xs hp).2.2⟩

/-- Where all ranks take part in the exchange, gaps and ranks that are stuck are all that stands in the way. -/
theorem uniform_of_formed (hwf : ∀ i, (cs i).1.WellFormed) (ht : ∀ i, (cs i).1.SyncTarget (cs i).2)
    (hleast : resumeLeast latest cs = some least) (hf : ∀ i, FormedAt latest (cs i).1 (cs i).2 (s i).log ∧
      ∃ xs, (s i).phase = .left xs ∧ (s i).log.replayCollectives least = .ok xs) :
    Uniform (fun i => (s i).Executes) ↔
      (∃ i, StaysStuck latest (cs i).1 (cs i).2) ∧ (∀ i, StaysStuck latest (cs i).1 (cs i).2) ∧
        (∀ i, ¬Keeps latest (cs i).1 (cs i).2 least) ∨
      (∀ i, ¬StaysStuck latest (cs i).1 (cs i).2) ∧
        (∀ i k, least ≤ k → k < resumeIdx latest ((cs i).1.resumeRegion (cs i).2) →
          Keeps latest (cs i).1 (cs i).2 k ∨ ∃ op ∈ (cs i).1.activeOp, op.idx = k) ∧
        ∀ i k, (∃ op ∈ (cs i).1.activeOp, op.idx = k) → k < least → ∀ j, ∃ op ∈ (cs j).1.activeOp, op.idx = k := by
  obtain ⟨hmem, hle⟩ := List.min?_eq_some_iff.mp hleast
  obtain ⟨i₀, hi₀⟩ := List.mem_ofFn.mp hmem
  have hle : ∀ i, least ≤ resumeIdx latest ((cs i).1.resumeRegion (cs i).2) :=
    fun i => hle _ (List.mem_ofFn.mpr ⟨i, rfl⟩)
  rw [uniform_congr fun i k => by
    obtain ⟨hfi, xs, hp, hx⟩ := hf i
    exact executes_iff (hwf i) (ht i) hfi hp hx k]
  have hkeeps : ∀ i k, Keeps latest (cs i).1 (cs i).2 k → k < resumeIdx latest ((cs i).1.resumeRegion (cs i).2) := by
    intro i k hk
    obtain ⟨⟨⟨c', hr, hfit⟩, _⟩, _⟩ := hf i
    exact hk.lt hr hfit
  by_cases hs : ∃ i, StaysStuck latest (cs i).1 (cs i).2
  · rw [uniform_stuck_iff ⟨i₀, hi₀⟩ (fun i k hk => ?_) (fun i k hk => hk.2.1) hs]
    · constructor
      · rintro ⟨hall, hnone⟩
        refine Or.inl ⟨hs, hall, fun i hk => hnone i ⟨Int.le_refl _, hkeeps i _ hk, fun j hj hle => ?_⟩⟩
        rwa [Int.le_antisymm hle hj]
      · rintro (⟨_, hall, hnone⟩ | ⟨hno, _⟩)
        · exact ⟨hall, fun i hk => hnone i (hk.2.2 least (Int.le_refl _) (Int.le_refl _))⟩
        · exact absurd hs fun ⟨i, hi⟩ => hno i hi
    · exact ⟨Int.le_refl _, Int.lt_of_le_of_lt hk.1 hk.2.1, fun j hj hle => hk.2.2 j hj (Int.le_trans hle hk.1)⟩
  · have hno : ∀ i, ¬StaysStuck latest (cs i).1 (cs i).2 := fun i hi => hs ⟨i, hi⟩
    simp only [hno, not_false_eq_true, true_and, exists_false, false_and, false_or, implies_true]
    rw [uniform_iff ⟨i₀, hi₀⟩ hle fun i k hk => hk.1]
    refine and_congr_left fun _ => ⟨fun h i k hk hlt => ?_, fun h i k hk hlt => ?_⟩
    · exact (h i k hk hlt).imp_left fun hrep => hrep.2.2 k hk (Int.le_refl k)
    · refine (h i k hk hlt).imp_left fun hkeep => ⟨hk, hlt, fun j hj hjk => ?_⟩
      exact keeps_before (hwf i) (ht i) (h i) hkeep hj hjk hlt

end Done

/-- All ranks do the same one after another. -/
def lockstep (n : Nat) : List (SyncAction n) :=
  let ranks := List.finRange n
  ranks.map .reset ++ (ranks.flatMap (fun i => ranks.map (.reply i)) ++ (ranks.flatMap (fun i => ranks.map (.form i)) ++
    (ranks.map .align ++ (ranks.map .agree ++ (ranks.map .enter ++ ranks.map .leave)))))

/-- Rank 0 is inside a second barrier, which rank 1 has not yet called, and has sent it a message before. -/
def insideSecond : Fin 2 → CommLog × Int := fun i =>
  ({ mRank := i, maxRegions := 2, regions := ⟨[{}], ⟨0, 0, if i.val = 0 then 2 else 1⟩⟩,
     rankLogs := if i.val = 0 then firstSends else .empty,
     collectives := ⟨[⟨0, .barrier⟩], List.pairwise_singleton _ _⟩,
     activeOp := if i.val = 0 then some ⟨1, .barrier⟩ else none }, -1)

theorem insideSecond_reachable : ∀ i, Reachable (insideSecond i).1 := by
  refine Fin.forall_fin_two.mpr ⟨?_, reachable_finished 1⟩
  have hcalled := (reachable_sent 0).step
    (@Step.startCollective _ _ .barrier (Or.inr ⟨Int.le_refl 0, Int.le_refl 0, Int.le_refl 0⟩) rfl)
  exact (hcalled.step (.finishCollective rfl)).step
    (@Step.startCollective _ _ .barrier (Or.inr ⟨Int.le_refl 0, Int.le_refl 0, by decide⟩) rfl)

/-- Rank 0 is inside a barrier from which rank 1 had come out when it was lost and restored from its serialised log. -/
def insideAlone : Fin 2 → CommLog × Int := fun i =>
  ({ mRank := i, maxRegions := 2, regions := ⟨[{}], ⟨0, 0, 1⟩⟩,
     activeOp := if i.val = 0 then some ⟨0, .barrier⟩ else none }, -1)

end CommLog

end Fenix
