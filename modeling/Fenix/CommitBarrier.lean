import Fenix.Agreement
import Fenix.GroupState
import Fenix.RuntimeOptions

namespace Fenix

/-- The places at which ranks enter an agreement on the user world. -/
inductive Location where
  | errhandler
  | finalize
  | dataCommitBarrier
  deriving DecidableEq

/-- The bit of a place. -/
def Location.bit : Location → BitVec 32
  | .errhandler => 1
  | .finalize => 2
  | .dataCommitBarrier => 4

theorem Location.bit_injective {l k : Location} (h : l.bit = k.bit) : l = k := by
  cases l <;> cases k <;> first | rfl | exact absurd h (by decide)

/-- Ranks find themselves at one place exactly when all of them are there. -/
theorem Location.agree_iff {locations : List Location} {l : Location} (hl : l ∈ locations) :
    agree (locations.map Location.bit) = l.bit ↔ ∀ k ∈ locations, k = l := by
  have hcover : ∀ k : Location, k.bit &&& l.bit = l.bit → k = l := by
    intro k
    cases k <;> cases l <;> decide
  rw [agree_eq_iff (List.mem_map_of_mem hl)]
  · constructor
    · intro h k hk
      exact Location.bit_injective (h _ (List.mem_map_of_mem hk))
    · intro h x hx
      obtain ⟨k, hk, rfl⟩ := List.mem_map.mp hx
      rw [h k hk]
  · intro x hx hxl
    obtain ⟨k, hk, rfl⟩ := List.mem_map.mp hx
    rw [hcover k hxl]

/-- How `commit_barrier` ends on a rank. -/
inductive BarrierOutcome where
  | success
  | errorCommitBarrier
  | memberUnstored
  | resumed
  | assertion
  deriving DecidableEq

namespace GroupState

/-- A commit if the agreement says that all ranks are in the barrier. An error that the agreement
raises, and the one that the barrier then raises itself, are left as the options inside of the library say. -/
def commitBarrier (g : GroupState) (user : Options) (location : BitVec 32) (raised : Bool)
    (junk partnerJunk : Int → Nat → UInt8) : GroupState × BarrierOutcome :=
  let handled := user.defaultRuntime.resumeApplication
  if raised ∧ handled ≠ .returned then (g, .resumed)
  else
    let canCommit := decide (location = Location.dataCommitBarrier.bit)
    let mustRecover := !canCommit || raised
    let recovered (ret : BarrierOutcome) := if mustRecover ∧ handled ≠ .returned then .resumed else ret
    if canCommit then
      match g.bumpTimestamp.commit junk partnerJunk with
      | .ok g' => (g', recovered .success)
      | .error .memberUnstored => (g.bumpTimestamp, .memberUnstored)
      | .error _ => (g.bumpTimestamp, .assertion)
    else (g, recovered .errorCommitBarrier)

end GroupState

/-- A live rank of the group when the others of the group are in the commit barrier. -/
structure BarrierRank where
  group : GroupState
  options : Options
  location : Location

namespace BarrierRank

variable {ranks : List BarrierRank} {others : List Location} {raised : Bool}
  {junk partnerJunk : Int → Nat → UInt8} {r : BarrierRank}

/-- The agreement of the live ranks and of whatever else contributes: ranks outside the group and
ranks that fail once they have. -/
def agreed (ranks : List BarrierRank) (others : List Location) : BitVec 32 :=
  agree ((ranks.map location ++ others).map Location.bit)

/-- What a live rank holds after the barrier, those elsewhere being on their way to recovery. -/
def after (ranks : List BarrierRank) (others : List Location) (raised : Bool)
    (junk partnerJunk : Int → Nat → UInt8) (r : BarrierRank) : GroupState :=
  if r.location = .dataCommitBarrier then
    (r.group.commitBarrier r.options (agreed ranks others) raised junk partnerJunk).1
  else r.group

/-- All who contribute are in the barrier. -/
def Met (ranks : List BarrierRank) (others : List Location) : Prop :=
  (∀ r ∈ ranks, r.location = .dataCommitBarrier) ∧ ∀ l ∈ others, l = .dataCommitBarrier

instance (ranks : List BarrierRank) (others : List Location) : Decidable (Met ranks others) :=
  inferInstanceAs (Decidable (_ ∧ _))

/-- The ranks get to the commit. -/
def Passes (ranks : List BarrierRank) (others : List Location) (raised : Bool) : Prop :=
  Met ranks others ∧ raised = false

instance (ranks : List BarrierRank) (others : List Location) (raised : Bool) :
    Decidable (Passes ranks others raised) := inferInstanceAs (Decidable (_ ∧ _))

/-- Every member has stored what it staged. -/
def Stored (r : BarrierRank) : Prop := ∀ m ∈ r.group.members, m.2.hasUnstoredData = false

/-- The timestamp with which the rank comes out. -/
def shown (ranks : List BarrierRank) (others : List Location) (raised : Bool) (r : BarrierRank) : Int :=
  if Passes ranks others raised then r.group.nextTimestamp else r.group.timestamp

theorem agreed_iff (others : List Location) (hr : r ∈ ranks) (hl : r.location = .dataCommitBarrier) :
    agreed ranks others = Location.dataCommitBarrier.bit ↔ Met ranks others := by
  have hin : Location.dataCommitBarrier ∈ ranks.map location ++ others :=
    List.mem_append_left _ (List.mem_map.mpr ⟨r, hr, hl⟩)
  rw [agreed, Location.agree_iff hin, Met]
  simp only [List.mem_append, List.mem_map]
  constructor
  · intro h
    exact ⟨fun r' hr' => h _ (Or.inl ⟨r', hr', rfl⟩), fun l hl => h l (Or.inr hl)⟩
  · rintro ⟨hranks, hothers⟩ k (⟨r', hr', rfl⟩ | hk)
    · exact hranks r' hr'
    · exact hothers k hk

/-- What the barrier makes of a rank of the group. -/
theorem after_cases (others : List Location) (raised : Bool) (junk partnerJunk : Int → Nat → UInt8)
    (hr : r ∈ ranks) :
    (Passes ranks others raised ∧ r.Stored ∧ ∃ g', r.group.bumpTimestamp.commit junk partnerJunk = .ok g' ∧
      after ranks others raised junk partnerJunk r = g') ∨
    (Passes ranks others raised ∧ ¬r.Stored ∧
      after ranks others raised junk partnerJunk r = r.group.bumpTimestamp) ∨
    (¬Passes ranks others raised ∧ after ranks others raised junk partnerJunk r = r.group) := by
  unfold after
  split
  next hl =>
    have hmet := agreed_iff others hr hl
    unfold GroupState.commitBarrier
    dsimp only
    split
    next hleft =>
      refine Or.inr (Or.inr ⟨fun hp => ?_, rfl⟩)
      exact absurd hleft.1 (by simp [hp.2])
    next hstay =>
      have hreturn : raised = false := by simpa using hstay
      by_cases hm : Met ranks others
      · have hcan : agreed ranks others = Location.dataCommitBarrier.bit := hmet.mpr hm
        simp only [hcan, decide_true, ↓reduceIte]
        rcases r.group.bumpTimestamp.commit_cases junk partnerJunk with ⟨⟨m, hm', hu⟩, herr⟩ | ⟨hstored, ms, _, hok⟩
        · refine Or.inr (Or.inl ⟨⟨hm, hreturn⟩, fun hs => ?_, by rw [herr]⟩)
          rw [hs m hm'] at hu
          cases hu
        · exact Or.inl ⟨⟨hm, hreturn⟩, hstored, _, hok, by rw [hok]⟩
      · have hcan : ¬agreed ranks others = Location.dataCommitBarrier.bit := fun h => hm (hmet.mp h)
        refine Or.inr (Or.inr ⟨fun hp => hm hp.1, ?_⟩)
        simp only [hcan, decide_false, Bool.false_eq_true, ↓reduceIte]
  next hl => exact Or.inr (Or.inr ⟨fun hp => hl (hp.1.1 r hr), rfl⟩)

theorem after_timestamp (hr : r ∈ ranks) (ho : r.group.Ordered) :
    (after ranks others raised junk partnerJunk r).timestamp = shown ranks others raised r := by
  unfold shown
  rcases after_cases others raised junk partnerJunk hr with
    ⟨hp, _, g', hc, heq⟩ | ⟨hp, _, heq⟩ | ⟨hp, heq⟩
  · rw [heq, if_pos hp]
    exact (ho.holds_commit hc).2
  · rw [heq, if_pos hp]
    rfl
  · rw [heq, if_neg hp]

theorem after_holds_iff (hr : r ∈ ranks) (ho : r.group.Ordered) :
    (after ranks others raised junk partnerJunk r).Holds r.group.nextTimestamp ↔
      Passes ranks others raised ∧ r.Stored := by
  rcases after_cases others raised junk partnerJunk hr with
    ⟨hp, hs, g', hc, heq⟩ | ⟨hp, hs, heq⟩ | ⟨hp, heq⟩
  · rw [heq]
    exact iff_of_true (ho.holds_commit hc).1 ⟨hp, hs⟩
  · rw [heq]
    exact iff_of_false ho.next_not_held fun h => hs h.2
  · rw [heq]
    exact iff_of_false ho.next_not_held fun h => hp h.1

/-- Either all ranks committed or none, and they agree on the current timestamp. -/
def AllOrNone (ranks : List BarrierRank) (others : List Location) (raised : Bool)
    (junk partnerJunk : Int → Nat → UInt8) : Prop :=
  ((∀ r ∈ ranks, (after ranks others raised junk partnerJunk r).Holds r.group.nextTimestamp) ∨
    ∀ r ∈ ranks, ¬(after ranks others raised junk partnerJunk r).Holds r.group.nextTimestamp) ∧
  ∀ r ∈ ranks, ∀ q ∈ ranks, (after ranks others raised junk partnerJunk r).timestamp =
    (after ranks others raised junk partnerJunk q).timestamp

/-- The barrier commits on all ranks or on none exactly when the ranks, if they get to the commit, have
all stored their members or have none of them stored. -/
theorem commitBarrier_allOrNone_iff (ho : ∀ r ∈ ranks, r.group.Ordered) :
    AllOrNone ranks others raised junk partnerJunk ↔
      (Passes ranks others raised → (∀ r ∈ ranks, r.Stored) ∨ ∀ r ∈ ranks, ¬r.Stored) ∧
      ∀ r ∈ ranks, ∀ q ∈ ranks, shown ranks others raised r = shown ranks others raised q := by
  refine and_congr ?_ ?_
  · have hholds : ∀ r ∈ ranks, (after ranks others raised junk partnerJunk r).Holds r.group.nextTimestamp ↔
        Passes ranks others raised ∧ r.Stored := fun r hr => after_holds_iff hr (ho r hr)
    by_cases hp : Passes ranks others raised
    · simp only [hp, true_and, forall_const] at hholds ⊢
      refine or_congr (forall₂_congr hholds) (forall₂_congr fun r hr => ?_)
      rw [hholds r hr]
    · refine iff_of_true (Or.inr fun r hr h => ?_) fun h => absurd h hp
      exact hp ((hholds r hr).mp h).1
  · refine forall₂_congr fun r hr => forall₂_congr fun q hq => ?_
    rw [after_timestamp hr (ho r hr), after_timestamp hq (ho q hq)]

/-- A rank in the barrier whose one member has staged `staged` since its last store. -/
def staging (staged : DataSubset) : BarrierRank :=
  { group :=
      { timestart := 0, depth := 1, cohortRank := 0, cohortSize := 1
        members := [(7,
          { depth := 1, elmSize := 8, elmCount := 2
            stageSnapshot := { buf := ⟨16, fun _ => 0⟩, elmSize := 8, elmMaxCount := 2, cohortRank := some 0
                               protectedSubsets := [∅], stagedSubsets := [staged]
                               partner := { buf := ⟨0, fun _ => 0⟩, elmSize := 8, elmMaxCount := 2 } }
            commitSnapshots := .empty, availSnapshots := [] })] }
    options := ⟨.throw⟩
    location := .dataCommitBarrier }

theorem staging_ordered (staged : DataSubset) : (staging staged).group.Ordered where
  timestart_nonneg := Int.le_refl 0
  listed_le := fun _ ht => absurd ht (Finset.notMem_empty _)
  member_le := by
    intro m hm s hs
    rw [List.mem_singleton.mp hm] at hs
    exact absurd hs IndexedSet.not_mem_empty

theorem commitBarrier_allOrNone_staging :
    AllOrNone [staging ∅, staging ⟨{0}⟩] [.errhandler] true (fun _ _ => 0) (fun _ _ => 0) ↔
      (Passes [staging ∅, staging ⟨{0}⟩] [.errhandler] true →
        (∀ r ∈ [staging ∅, staging ⟨{0}⟩], r.Stored) ∨ ∀ r ∈ [staging ∅, staging ⟨{0}⟩], ¬r.Stored) ∧
      ∀ r ∈ [staging ∅, staging ⟨{0}⟩], ∀ q ∈ [staging ∅, staging ⟨{0}⟩],
        shown [staging ∅, staging ⟨{0}⟩] [.errhandler] true r =
          shown [staging ∅, staging ⟨{0}⟩] [.errhandler] true q :=
  commitBarrier_allOrNone_iff fun r hr => by
    rcases List.mem_cons.mp hr with rfl | hr
    · exact staging_ordered _
    · exact (List.mem_singleton.mp hr) ▸ staging_ordered _

/-- Two ranks enter the barrier, one of them with staged data that it has not stored. -/
theorem commitBarrier_divides : (∀ r ∈ [staging ∅, staging ⟨{0}⟩], r.group.Ordered ∧ r.group.timestamp = -1) ∧
    ¬AllOrNone [staging ∅, staging ⟨{0}⟩] [] false (fun _ _ => 0) (fun _ _ => 0) := by
  refine ⟨?_, fun h => ?_⟩
  · intro r hr
    rcases List.mem_cons.mp hr with rfl | hr
    · exact ⟨staging_ordered _, rfl⟩
    · rw [List.mem_singleton.mp hr]
      exact ⟨staging_ordered _, rfl⟩
  · have hpass : Passes [staging ∅, staging ⟨{0}⟩] [] false := by
      refine ⟨⟨fun q hq => ?_, fun l hl => absurd hl List.not_mem_nil⟩, rfl⟩
      rcases List.mem_cons.mp hq with rfl | hq
      · rfl
      · rw [List.mem_singleton.mp hq]
        rfl
    have hempty : (staging ∅).Stored := by
      intro m hm
      rw [List.mem_singleton.mp hm]
      rfl
    have hstaged : ¬(staging ⟨{0}⟩).Stored := fun hs => absurd (hs _ (List.mem_singleton.mpr rfl)) (by decide)
    have hin : staging ⟨{0}⟩ ∈ [staging ∅, staging ⟨{0}⟩] := List.mem_cons_of_mem _ List.mem_cons_self
    rcases h.1 with hall | hnone
    · exact hstaged ((after_holds_iff hin (staging_ordered _)).mp (hall _ hin)).2
    · have hin : staging ∅ ∈ [staging ∅, staging ⟨{0}⟩] := List.mem_cons_self
      exact hnone _ hin ((after_holds_iff hin (staging_ordered _)).mpr ⟨hpass, hempty⟩)

end BarrierRank

end Fenix
