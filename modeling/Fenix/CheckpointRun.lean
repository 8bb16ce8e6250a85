import Fenix.GroupRun
import Fenix.SyncNewest

namespace Fenix

variable {n : Nat} {S : Finset Int} {t : Int}

theorem List.mem_dropLast_of_sorted {xs : List Int} (h : xs.Pairwise (· > ·)) (t : Int) :
    t ∈ xs.dropLast ↔ t ∈ xs ∧ ∃ y ∈ xs, y < t := by
  cases hl : xs.getLast? with
  | none =>
    rw [List.getLast?_eq_none_iff.mp hl]
    simp
  | some last =>
    obtain ⟨front, rfl⟩ := List.getLast?_eq_some_iff.mp hl
    obtain ⟨_, _, hbelow⟩ := List.pairwise_append.mp h
    rw [List.dropLast_concat, List.mem_append, List.mem_singleton]
    constructor
    · intro ht
      exact ⟨Or.inl ht, last, List.mem_append_right _ List.mem_cons_self, hbelow t ht last List.mem_cons_self⟩
    · rintro ⟨ht | rfl, y, hy, hlt⟩
      · exact ht
      · rcases List.mem_append.mp hy with hy | hy
        · have := hbelow y hy t List.mem_cons_self
          omega
        · rw [List.mem_singleton.mp hy] at hlt
          omega

namespace DataGroup

theorem newestFirst_eraseOldest (S : Finset Int) : newestFirst (eraseOldest S) = (newestFirst S).dropLast := by
  have hsorted := newestFirst_sorted S
  refine newestFirst_eq (hsorted.sublist (List.dropLast_sublist _)) fun t => ?_
  rw [List.mem_dropLast_of_sorted hsorted, mem_eraseOldest]
  simp

/-- A timestamp newer than those listed becomes the first, and may drive out the last. -/
theorem newestFirst_addListed (limit : Nat) (hnew : ∀ y ∈ S, y < t) : newestFirst (Ledger.addListed limit t S) =
    t :: if S.card = limit then (newestFirst S).dropLast else newestFirst S := by
  have hin : ∀ y ∈ (if S.card = limit then (newestFirst S).dropLast else newestFirst S), y < t := by
    intro y hy
    apply hnew
    split at hy
    next => exact mem_newestFirst.mp (List.dropLast_subset _ hy)
    next => exact mem_newestFirst.mp hy
  refine newestFirst_eq (List.pairwise_cons.mpr ⟨hin, ?_⟩) fun x => ?_
  · split
    next => exact (newestFirst_sorted S).sublist (List.dropLast_sublist _)
    next => exact newestFirst_sorted S
  · rw [List.mem_cons, Ledger.addListed, Finset.mem_insert]
    split
    next => rw [← newestFirst_eraseOldest, mem_newestFirst]
    next => rw [mem_newestFirst]

/-- A list of timestamps is at each position at least as new as another. -/
structure Dominates (A B : Finset Int) : Prop where
  card_le : B.card ≤ A.card
  at_le : ∀ i, (newestFirst B).getD i (-1) ≤ (newestFirst A).getD i (-1)

theorem Dominates.refl (A : Finset Int) : Dominates A A := ⟨Nat.le_refl _, fun _ => Int.le_refl _⟩

theorem dominates_empty (hpos : ∀ t ∈ S, 0 ≤ t) : Dominates S ∅ := by
  refine ⟨by simp, fun i => ?_⟩
  have hnil : newestFirst ∅ = [] := List.eq_nil_of_length_eq_zero (by simp)
  rw [hnil, List.getD_nil, List.getD_eq_getElem?_getD]
  cases hx : (newestFirst S)[i]? with
  | none => exact Int.le_refl _
  | some x =>
    have := hpos x (mem_newestFirst.mp (List.mem_of_getElem? hx))
    rw [Option.getD_some]
    omega

theorem getD_newestFirst_le {xs : List Int} {b : Int} (hb : -1 ≤ b) (h : ∀ x ∈ xs, x ≤ b) (i : Nat) :
    xs.getD i (-1) ≤ b := by
  rw [List.getD_eq_getElem?_getD]
  cases hx : xs[i]? with
  | none => exact hb
  | some x => exact h x (List.mem_of_getElem? hx)

theorem neg_one_le_getD {xs : List Int} (h : ∀ x ∈ xs, 0 ≤ x) (i : Nat) : -1 ≤ xs.getD i (-1) := by
  rw [List.getD_eq_getElem?_getD]
  cases hx : xs[i]? with
  | none => exact Int.le_refl _
  | some x =>
    have := h x (List.mem_of_getElem? hx)
    rw [Option.getD_some]
    omega

/-- In a list with the newest first, what a position has is older than what is one before, also if the last one is
dropped. -/
theorem getD_succ_le {xs ys : List Int} (hsorted : xs.Pairwise (· > ·)) (hpos : ∀ x ∈ xs, 0 ≤ x)
    (hys : ys = xs ∨ ys = xs.dropLast) (i : Nat) : xs.getD (i + 1) (-1) ≤ ys.getD i (-1) := by
  have hyspos : ∀ y ∈ ys, 0 ≤ y := by
    rcases hys with rfl | rfl
    · exact hpos
    · exact fun y hy => hpos y (List.dropLast_subset _ hy)
  by_cases hi : i + 1 < xs.length
  · have hlt : xs[i + 1] < xs[i] := List.pairwise_iff_getElem.mp hsorted i (i + 1) (by omega) hi (Nat.lt_succ_self i)
    have hyi : ys.getD i (-1) = xs[i] := by
      rcases hys with rfl | rfl
      · exact List.getD_eq_getElem _ _ (by omega)
      · rw [List.getD_eq_getElem _ _ (by rw [List.length_dropLast]; omega), List.getElem_dropLast]
    rw [hyi, List.getD_eq_getElem _ _ hi]
    omega
  · rw [List.getD_eq_default _ _ (by omega)]
    exact neg_one_le_getD hyspos i

/-- A commit makes the list newer at each position. -/
theorem dominates_addListed (limit : Nat) (hnew : ∀ y ∈ S, y < t) (ht : 0 ≤ t) (hpos : ∀ y ∈ S, 0 ≤ y) :
    Dominates (Ledger.addListed limit t S) S := by
  have hlist := newestFirst_addListed limit hnew
  constructor
  · rw [← length_newestFirst, ← length_newestFirst, hlist, List.length_cons]
    split
    next =>
      rw [List.length_dropLast]
      omega
    next => omega
  · intro i
    rw [hlist]
    cases i with
    | zero =>
      rw [List.getD_cons_zero]
      exact getD_newestFirst_le (by omega) (fun x hx => Int.le_of_lt (hnew x (mem_newestFirst.mp hx))) 0
    | succ i =>
      rw [List.getD_cons_succ]
      apply getD_succ_le (newestFirst_sorted S) fun x hx => hpos x (mem_newestFirst.mp hx)
      split
      next => exact Or.inr rfl
      next => exact Or.inl rfl

/-- The ranks agree on a list that is at least as new as that of each, if some rank has it. -/
theorem syncTimestamps_of_dominates {timestamps : Fin n → Finset Int} {A : Finset Int}
    (hpos : ∀ k, ∀ t ∈ timestamps k, 0 ≤ t) {keeper : Fin n} (hkeeper : timestamps keeper = A)
    (h : ∀ k, Dominates A (timestamps k)) : syncTimestamps timestamps = A := by
  have hpositions : positions timestamps = A.card := by
    rw [positions_eq]
    apply Nat.le_antisymm
    · exact Finset.sup_le fun k _ => (h k).card_le
    · rw [← hkeeper]
      exact Finset.le_sup (f := fun k => (timestamps k).card) (Finset.mem_univ keeper)
  have hlists : newestFirst (syncTimestamps timestamps) = newestFirst A := by
    apply List.ext_getElem?
    intro i
    by_cases hi : i < A.card
    · have hlen : i < (newestFirst A).length := by rwa [length_newestFirst]
      rw [List.getElem?_eq_getElem hlen]
      refine (getElem?_syncTimestamps hpos).mpr ⟨by rwa [hpositions], Int.le_antisymm ?_ ?_⟩
      · obtain ⟨_, k, hk⟩ := greatestAt_held hpos (i := i) (by rwa [hpositions])
        have hle := (h k).at_le i
        rw [List.getD_eq_getElem?_getD, hk, List.getD_eq_getElem _ _ hlen] at hle
        exact hle
      · apply le_greatestAt (k := keeper)
        rw [hkeeper, List.getElem?_eq_getElem hlen]
    · have hnone : (newestFirst A)[i]? = none := List.getElem?_eq_none (by rw [length_newestFirst]; omega)
      rw [hnone, List.getElem?_eq_none_iff, length_newestFirst, card_syncTimestamps hpos, ← positions_eq, hpositions]
      omega
  ext t
  rw [← mem_newestFirst, hlists, mem_newestFirst]

end DataGroup

/-- Where a rank is in a checkpoint. It goes on with its attempts while the timestamp of its group is the old one. -/
inductive CheckpointPhase where
  | outside
  | storing (oldTimestamp : Int)
  | recovering (oldTimestamp : Int)
  | returned (timestamp : Int)
  deriving DecidableEq, Repr

/-- The test of the loop, after a commit or a recovery. -/
def CheckpointPhase.test (oldTimestamp : Int) (g : GroupState) : CheckpointPhase :=
  if oldTimestamp = g.timestamp then .storing oldTimestamp else .returned g.timestamp

/-- A failure is noticed by a rank in the checkpoint. -/
def CheckpointPhase.interrupt : CheckpointPhase → CheckpointPhase
  | .storing oldTimestamp => .recovering oldTimestamp
  | p => p

/-- The ranks of a cohort in a checkpoint, and which of them have committed in it. -/
structure CheckpointRun (n : Nat) where
  groups : Fin n → GroupState
  phase : Fin n → CheckpointPhase
  committed : Fin n → Bool

namespace CheckpointRun

/-- The ranks before the checkpoint. -/
def before (groups : Fin n → GroupState) : CheckpointRun n := ⟨groups, fun _ => .outside, fun _ => false⟩

/-- The group created anew by all ranks, some of which have replaced failed ones. -/
def recreated (timestart : Int) (depth : Nat) (failed : Fin n → Bool) (groups : Fin n → GroupState) :
    Fin n → GroupState :=
  GroupState.syncTimestamps fun k => if failed k then GroupRun.fresh timestart depth k else groups k

/-- What can happen in a checkpoint that ranks come to with timestamp `old`. A rank stores, member by member, until it
is interrupted or has stored all and commits. After failures, of which some rank of the cohort is spared, the group is
created anew and members are repaired, and a rank goes back to the loop, or leaves where recovery is not inline. -/
inductive Step (policy : DataPolicy) (timestart : Int) (depth : Nat) (old : Int) :
    CheckpointRun n → CheckpointRun n → Prop
  | enter {s : CheckpointRun n} (k : Fin n) (h : s.phase k = .outside) (hold : (s.groups k).timestamp = old) :
      Step policy timestart depth old s
        { s with phase := Function.update s.phase k (.storing (s.groups k).timestamp) }
  | store {s : CheckpointRun n} (k : Fin n) {o : Int} (id : Int) (snapshot : IMRSnapshot) (h : s.phase k = .storing o) :
      Step policy timestart depth old s { s with
        groups := Function.update s.groups k
          ((s.groups k).updateMember id fun m => { m with stageSnapshot := snapshot }) }
  | commit {s : CheckpointRun n} (k : Fin n) {o : Int} (junk partnerJunk : Int → Nat → UInt8)
      (h : s.phase k = .storing o) (hstored : (s.groups k).Stored) :
      Step policy timestart depth old s {
        groups := Function.update s.groups k ((s.groups k).dataCommit junk partnerJunk)
        phase := Function.update s.phase k (.test o ((s.groups k).dataCommit junk partnerJunk))
        committed := Function.update s.committed k true }
  | fail {s : CheckpointRun n} (failed : Fin n → Bool) (h : ∃ k, failed k = false) :
      Step policy timestart depth old s { s with
        groups := recreated timestart depth failed s.groups
        phase := fun k => if failed k then .outside else (s.phase k).interrupt }
  | repair {s : CheckpointRun n} {gs : Fin n → GroupState} (id : Int) (upTo : Nat) (junk : Fin n → Nat → Nat → UInt8)
      (h : GroupState.memberRepair policy id upTo junk s.groups = .ok gs) :
      Step policy timestart depth old s { s with groups := gs }
  | resume {s : CheckpointRun n} (k : Fin n) {o : Int} (h : s.phase k = .recovering o) :
      Step policy timestart depth old s { s with phase := Function.update s.phase k (.test o (s.groups k)) }
  | leave {s : CheckpointRun n} (k : Fin n) {o : Int} (h : s.phase k = .recovering o) :
      Step policy timestart depth old s { s with phase := Function.update s.phase k .outside }

/-- The runs of a checkpoint. -/
def Reaches (policy : DataPolicy) (timestart : Int) (depth : Nat) (old : Int) (s s' : CheckpointRun n) : Prop :=
  Relation.ReflTransGen (Step policy timestart depth old) s s'

/-- The ranks list the same timestamps, none newer than the current one. -/
structure Aligned (timestart : Int) (depth : Nat) (old : Int) (S : Finset Int) (groups : Fin n → GroupState) : Prop where
  timestart_nonneg : 0 ≤ timestart
  listed : ∀ t ∈ S, 0 ≤ t ∧ t ≤ old
  old_ge : -1 ≤ old
  timestart_eq : ∀ k, (groups k).timestart = timestart
  depth_eq : ∀ k, (groups k).depth = depth
  timestamps : ∀ k, (groups k).timestamps = S
  timestamp : ∀ k, (groups k).timestamp = old

/-- The timestamp that is committed next. -/
def nextOf (timestart old : Int) : Int := if old = -1 then timestart else old + 1

/-- The newest of the timestamps listed, if any. -/
def newest (S : Finset Int) : Int := (DataGroup.newestFirst S).head?.getD (-1)

/-- The bookkeeping of a group on a rank. -/
structure Keeps (timestart : Int) (depth : Nat) (S : Finset Int) (timestamp : Int) (g : GroupState) : Prop where
  timestart_eq : g.timestart = timestart
  depth_eq : g.depth = depth
  timestamps : g.timestamps = S
  timestamp_eq : g.timestamp = timestamp

variable {policy : DataPolicy} {timestart old ts : Int} {depth : Nat} {s s' : CheckpointRun n} {k : Fin n}
  {groups : Fin n → GroupState} {g g' : GroupState}

theorem Keeps.updateMember (h : Keeps timestart depth S ts g) (id : Int) (f : DataMember → DataMember) :
    Keeps timestart depth S ts (g.updateMember id f) := ⟨h.timestart_eq, h.depth_eq, h.timestamps, h.timestamp_eq⟩

theorem Keeps.memberAdopt (h : Keeps timestart depth S ts g) (id : Int) (model : DataMember)
    (junk : Nat → Nat → UInt8) : Keeps timestart depth S ts (g.memberAdopt policy id model junk) := by
  unfold GroupState.memberAdopt GroupState.memberCreate
  cases g.member? id with
  | some m => exact h
  | none => exact ⟨h.timestart_eq, h.depth_eq, h.timestamps, h.timestamp_eq⟩

/-- The repair of a member is no matter of the bookkeeping of the group. -/
theorem Keeps.memberRepair {gs gs' : Fin n → GroupState} {id : Int} {upTo : Nat} {junk : Fin n → Nat → Nat → UInt8}
    (h : Keeps timestart depth S ts (gs k)) (hr : GroupState.memberRepair policy id upTo junk gs = .ok gs') :
    Keeps timestart depth S ts (gs' k) := by
  unfold GroupState.memberRepair at hr
  split at hr
  next => cases hr
  next root _ =>
    split at hr
    next => cases hr
    next model _ =>
      dsimp only at hr
      split at hr
      next =>
        cases Except.ok.inj hr
        exact h.memberAdopt id model (junk k)
      next mode =>
        split at hr
        next =>
          split at hr
          next ms _ =>
            cases Except.ok.inj hr
            exact (h.memberAdopt id model (junk k)).updateMember id _
          next => cases hr
        next => cases hr

/-- The commit of a rank that has stored all. -/
theorem Keeps.dataCommit (h : Keeps timestart depth S old g) (hstored : g.Stored)
    (junk partnerJunk : Int → Nat → UInt8) : Keeps timestart depth (Ledger.addListed (depth + 1) (nextOf timestart old) S)
      (nextOf timestart old) (g.dataCommit junk partnerJunk) := by
  have hnext : g.nextTimestamp = nextOf timestart old := by
    unfold GroupState.nextTimestamp nextOf
    rw [h.timestart_eq, h.timestamp_eq]
  unfold GroupState.dataCommit
  rcases g.bumpTimestamp.commit_cases junk partnerJunk with ⟨⟨m, hm, hu⟩, _⟩ | ⟨_, members, _, heq⟩
  · rw [hstored m hm] at hu
    cases hu
  · rw [heq]
    refine ⟨h.timestart_eq, h.depth_eq, ?_, hnext⟩
    change insert g.nextTimestamp
      (if g.timestamps.card = g.depth + 1 then eraseOldest g.timestamps else g.timestamps) = _
    rw [hnext, h.timestamps, h.depth_eq]
    rfl

theorem Aligned.lt_next (h : Aligned timestart depth old S groups) : old < nextOf timestart old ∧
    0 ≤ nextOf timestart old ∧ ∀ y ∈ S, y < nextOf timestart old := by
  have hlt : old < nextOf timestart old ∧ 0 ≤ nextOf timestart old := by
    have h₁ := h.timestart_nonneg
    have h₂ := h.old_ge
    unfold nextOf
    split
    next => omega
    next => omega
  exact ⟨hlt.1, hlt.2, fun y hy => Int.lt_of_le_of_lt (h.listed y hy).2 hlt.1⟩

theorem Aligned.keeps (h : Aligned timestart depth old S groups) (k : Fin n) :
    Keeps timestart depth S old (groups k) :=
  ⟨h.timestart_eq k, h.depth_eq k, h.timestamps k, h.timestamp k⟩

theorem newest_addListed {limit : Nat} (hnew : ∀ y ∈ S, y < t) : newest (Ledger.addListed limit t S) = t := by
  rw [newest, DataGroup.newestFirst_addListed limit hnew]
  rfl

/-- Ranks that list `S`, or `S` and a new timestamp, or nothing, agree on the newest of these lists. -/
theorem sync_agrees (hnew : ∀ y ∈ S, y < t) (ht : 0 ≤ t) (hpos : ∀ y ∈ S, 0 ≤ y) (limit : Nat)
    {timestamps : Fin n → Finset Int} {A : Finset Int} (hA : A = S ∨ A = Ledger.addListed limit t S)
    (hkeeper : ∃ k, timestamps k = A) (h : ∀ k, timestamps k = A ∨ timestamps k = S ∨ timestamps k = ∅) :
    DataGroup.syncTimestamps timestamps = A := by
  have hpos' : ∀ y ∈ A, 0 ≤ y := by
    rcases hA with rfl | rfl
    · exact hpos
    · intro y hy
      rcases Ledger.mem_addListed.mp hy with rfl | hy
      · exact ht
      · exact hpos y hy.1
  have hdominates : DataGroup.Dominates A S := by
    rcases hA with rfl | rfl
    · exact .refl _
    · exact DataGroup.dominates_addListed limit hnew ht hpos
  obtain ⟨keeper, hkeeper⟩ := hkeeper
  apply DataGroup.syncTimestamps_of_dominates ?_ hkeeper
  · intro k
    rcases h k with hk | hk | hk
    · exact hk ▸ .refl A
    · exact hk ▸ hdominates
    · exact hk ▸ DataGroup.dominates_empty hpos'
  · intro k y hy
    rcases h k with hk | hk | hk
    · exact hpos' y (hk ▸ hy)
    · exact hpos y (hk ▸ hy)
    · rw [hk] at hy
      exact absurd hy (Finset.notMem_empty y)

/-- What holds throughout a checkpoint that ranks come to with the newest timestamp that they list. -/
structure Good (timestart : Int) (depth : Nat) (old : Int) (S : Finset Int) (s : CheckpointRun n) : Prop where
  ranks : ∀ k, Keeps timestart depth S old (s.groups k) ∨ (∃ l, s.committed l = true) ∧
    Keeps timestart depth (Ledger.addListed (depth + 1) (nextOf timestart old) S) (nextOf timestart old) (s.groups k)
  storing : ∀ k o, s.phase k = .storing o → o = old ∧ Keeps timestart depth S old (s.groups k)
  recovering : ∀ k o, s.phase k = .recovering o → o = old
  returned : ∀ k ts, s.phase k = .returned ts → ts = nextOf timestart old ∧ (s.groups k).timestamp = nextOf timestart old

theorem good_before (h : Aligned timestart depth old S groups) : Good timestart depth old S (before groups) :=
  ⟨fun k => Or.inl (h.keeps k), nofun, nofun, nofun⟩

theorem test_storing {o o' : Int} (h : CheckpointPhase.test o g = .storing o') : o' = o ∧ o = g.timestamp := by
  unfold CheckpointPhase.test at h
  split at h
  next heq =>
    cases h
    exact ⟨rfl, heq⟩
  next => cases h

theorem test_returned {o : Int} (h : CheckpointPhase.test o g = .returned ts) : ts = g.timestamp ∧ o ≠ g.timestamp := by
  unfold CheckpointPhase.test at h
  split at h
  next => cases h
  next hne =>
    cases h
    exact ⟨rfl, hne⟩

theorem test_ne_recovering {o o' : Int} : CheckpointPhase.test o g ≠ .recovering o' := by
  unfold CheckpointPhase.test
  split
  next => nofun
  next => nofun

theorem Good.returned_keeps (h : Good timestart depth old S s) (ha : old < nextOf timestart old)
    (ht : (s.groups k).timestamp = nextOf timestart old) : (∃ l, s.committed l = true) ∧
      Keeps timestart depth (Ledger.addListed (depth + 1) (nextOf timestart old) S) (nextOf timestart old)
        (s.groups k) := by
  rcases h.ranks k with hk | hk
  · have := hk.timestamp_eq
    omega
  · exact hk

/-- The group created anew on a rank. -/
theorem keeps_adopt {A : Finset Int} (hg : g.timestart = timestart ∧ g.depth = depth) :
    Keeps timestart depth A (newest A) (g.adopt A) := ⟨hg.1, hg.2, rfl, rfl⟩

theorem interrupt_ne_storing {p : CheckpointPhase} {o : Int} : p.interrupt ≠ .storing o := by
  cases p with
  | outside | storing _ | recovering _ | returned _ => exact nofun

theorem interrupt_recovering {p : CheckpointPhase} {o : Int} (h : p.interrupt = .recovering o) :
    p = .storing o ∨ p = .recovering o := by
  cases p with
  | outside => cases h
  | storing o' =>
    cases h
    exact Or.inl rfl
  | recovering o' => exact Or.inr h
  | returned ts => cases h

theorem interrupt_returned {p : CheckpointPhase} (h : p.interrupt = .returned ts) : p = .returned ts := by
  cases p with
  | outside => cases h
  | storing o => cases h
  | recovering o => cases h
  | returned ts' => exact h

/-- The group created anew: either a rank that is spared has committed, and all take its list over, or no rank that is
spared has, and all are back to the old list. -/
theorem recreated_cases (h : Good timestart depth old S s) (ha : Aligned timestart depth old S groups)
    {failed : Fin n → Bool} (hspared : ∃ k, failed k = false) :
    ((∃ l, s.committed l = true) ∧ ∀ k, Keeps timestart depth
      (Ledger.addListed (depth + 1) (nextOf timestart old) S) (nextOf timestart old)
      (recreated timestart depth failed s.groups k)) ∨
    (∀ k, failed k = false → (s.groups k).timestamp = old) ∧
      ∀ k, Keeps timestart depth S (newest S) (recreated timestart depth failed s.groups k) := by
  obtain ⟨hlt, hnonneg, hnew⟩ := ha.lt_next
  have hpos : ∀ y ∈ S, 0 ≤ y := fun y hy => (ha.listed y hy).1
  let gs : Fin n → GroupState := fun k => if failed k then GroupRun.fresh timestart depth k else s.groups k
  have hspare : ∀ k, failed k = false → gs k = s.groups k := fun k hk => if_neg (Bool.eq_false_iff.mp hk)
  have hfresh : ∀ k, failed k = true → gs k = GroupRun.fresh timestart depth k := fun k hk => if_pos hk
  have hkeeps : ∀ A, DataGroup.syncTimestamps (fun k => (gs k).timestamps) = A → ∀ k,
      Keeps timestart depth A (newest A) (recreated timestart depth failed s.groups k) := by
    rintro A rfl k
    refine keeps_adopt ?_
    change (gs k).timestart = timestart ∧ (gs k).depth = depth
    cases hf : failed k with
    | true =>
      rw [hfresh k hf]
      exact ⟨rfl, rfl⟩
    | false =>
      rw [hspare k hf]
      rcases h.ranks k with hk | ⟨_, hk⟩
      · exact ⟨hk.timestart_eq, hk.depth_eq⟩
      · exact ⟨hk.timestart_eq, hk.depth_eq⟩
  by_cases hsome : ∃ k, failed k = false ∧ (s.groups k).timestamp = nextOf timestart old
  · obtain ⟨keeper, hkeeper, ht⟩ := hsome
    obtain ⟨hcommitted, hlist⟩ := h.returned_keeps hlt ht
    have hall := hkeeps _ (sync_agrees hnew hnonneg hpos (depth + 1) (Or.inr rfl)
      ⟨keeper, (congrArg GroupState.timestamps (hspare keeper hkeeper)).trans hlist.timestamps⟩ fun k => by
        cases hf : failed k with
        | true =>
          rw [hfresh k hf]
          exact Or.inr (Or.inr rfl)
        | false =>
          rw [hspare k hf]
          rcases h.ranks k with hk | ⟨_, hk⟩
          · exact Or.inr (Or.inl hk.timestamps)
          · exact Or.inl hk.timestamps)
    rw [newest_addListed hnew] at hall
    exact Or.inl ⟨hcommitted, hall⟩
  · have hold : ∀ k, failed k = false → Keeps timestart depth S old (s.groups k) := by
      intro k hk
      rcases h.ranks k with hl | ⟨_, hr⟩
      · exact hl
      · exact absurd ⟨k, hk, hr.timestamp_eq⟩ hsome
    obtain ⟨keeper, hkeeper⟩ := hspared
    refine Or.inr ⟨fun k hk => (hold k hk).timestamp_eq, hkeeps S (sync_agrees hnew hnonneg hpos (depth + 1)
      (Or.inl rfl) ⟨keeper, (congrArg GroupState.timestamps (hspare keeper hkeeper)).trans
        (hold keeper hkeeper).timestamps⟩ fun k => ?_)⟩
    cases hf : failed k with
    | true =>
      rw [hfresh k hf]
      exact Or.inr (Or.inr rfl)
    | false =>
      rw [hspare k hf]
      exact Or.inl (hold k hf).timestamps

theorem Good.fail (h : Good timestart depth old S s) (ha : Aligned timestart depth old S groups)
    (hold : old = newest S) {failed : Fin n → Bool} (hspared : ∃ k, failed k = false) :
    Good timestart depth old S { s with
      groups := recreated timestart depth failed s.groups
      phase := fun k => if failed k then .outside else (s.phase k).interrupt } := by
  have hlt := ha.lt_next.1
  have hcases := recreated_cases h ha hspared
  have hphase : ∀ k p, (if failed k then CheckpointPhase.outside else (s.phase k).interrupt) = p →
      p = .outside ∨ failed k = false ∧ (s.phase k).interrupt = p := by
    intro k p hp
    split at hp
    next => exact Or.inl hp.symm
    next hf => exact Or.inr ⟨Bool.eq_false_iff.mpr hf, hp⟩
  refine ⟨fun k => ?_, fun k o hk => ?_, fun k o hk => ?_, fun k ts hk => ?_⟩
  · rcases hcases with ⟨hcommitted, hall⟩ | ⟨_, hall⟩
    · exact Or.inr ⟨hcommitted, hall k⟩
    · have hk := hall k
      rw [← hold] at hk
      exact Or.inl hk
  · rcases hphase k _ hk with hout | ⟨_, hint⟩
    · cases hout
    · exact absurd hint interrupt_ne_storing
  · rcases hphase k _ hk with hout | ⟨_, hint⟩
    · cases hout
    · rcases interrupt_recovering hint with hp | hp
      · exact (h.storing k o hp).1
      · exact h.recovering k o hp
  · rcases hphase k _ hk with hout | ⟨hf, hint⟩
    · cases hout
    · obtain ⟨hts, ht⟩ := h.returned k ts (interrupt_returned hint)
      refine ⟨hts, ?_⟩
      rcases hcases with ⟨_, hall⟩ | ⟨hnone, _⟩
      · exact (hall k).timestamp_eq
      · have := hnone k hf
        omega

theorem Good.setPhase (h : Good timestart depth old S s) (k : Fin n) {p : CheckpointPhase}
    (hstoring : ∀ o, p = .storing o → o = old ∧ Keeps timestart depth S old (s.groups k))
    (hrecovering : ∀ o, p = .recovering o → o = old)
    (hreturned : ∀ ts, p = .returned ts → ts = nextOf timestart old ∧ (s.groups k).timestamp = nextOf timestart old) :
    Good timestart depth old S { s with phase := Function.update s.phase k p } := by
  have hother : ∀ l q, Function.update s.phase k p l = q → l = k ∧ p = q ∨ s.phase l = q := by
    intro l q hl
    by_cases hlk : l = k
    · subst hlk
      rw [Function.update_self] at hl
      exact Or.inl ⟨rfl, hl⟩
    · rw [Function.update_of_ne hlk] at hl
      exact Or.inr hl
  refine ⟨h.ranks, fun l o hl => ?_, fun l o hl => ?_, fun l ts hl => ?_⟩
  · rcases hother l _ hl with ⟨rfl, hp⟩ | hl
    · exact hstoring o hp
    · exact h.storing l o hl
  · rcases hother l _ hl with ⟨rfl, hp⟩ | hl
    · exact hrecovering o hp
    · exact h.recovering l o hl
  · rcases hother l _ hl with ⟨rfl, hp⟩ | hl
    · exact hreturned ts hp
    · exact h.returned l ts hl

theorem Good.setGroups (h : Good timestart depth old S s) (ha : old < nextOf timestart old) {gs : Fin n → GroupState}
    (hkeeps : ∀ k A ts, Keeps timestart depth A ts (s.groups k) → Keeps timestart depth A ts (gs k)) :
    Good timestart depth old S { s with groups := gs } := by
  refine ⟨fun k => ?_, fun k o hk => ?_, h.recovering, fun k ts hk => ?_⟩
  · rcases h.ranks k with hk | ⟨hcommitted, hk⟩
    · exact Or.inl (hkeeps k _ _ hk)
    · exact Or.inr ⟨hcommitted, hkeeps k _ _ hk⟩
  · exact ⟨(h.storing k o hk).1, hkeeps k _ _ (h.storing k o hk).2⟩
  · obtain ⟨hts, ht⟩ := h.returned k ts hk
    exact ⟨hts, (hkeeps k _ _ (h.returned_keeps ha ht).2).timestamp_eq⟩

/-- A commit ends the loop. -/
theorem test_committed {A : Finset Int} (hg : Keeps timestart depth A (nextOf timestart old) g)
    (ha : old < nextOf timestart old) : CheckpointPhase.test old g = .returned (nextOf timestart old) := by
  unfold CheckpointPhase.test
  rw [hg.timestamp_eq, if_neg (by omega)]

theorem Good.commit (h : Good timestart depth old S s) (ha : old < nextOf timestart old) {o : Int}
    (junk partnerJunk : Int → Nat → UInt8) (hk : s.phase k = .storing o) (hstored : (s.groups k).Stored) :
    Good timestart depth old S {
      groups := Function.update s.groups k ((s.groups k).dataCommit junk partnerJunk)
      phase := Function.update s.phase k (.test o ((s.groups k).dataCommit junk partnerJunk))
      committed := Function.update s.committed k true } := by
  obtain ⟨rfl, hkeeps⟩ := h.storing k o hk
  have hnew := hkeeps.dataCommit hstored junk partnerJunk
  have hsome : ∃ l, Function.update s.committed k true l = true := ⟨k, Function.update_self k _ _⟩
  have htest := test_committed hnew ha
  refine ⟨fun l => ?_, fun l o' hl => ?_, fun l o' hl => ?_, fun l ts hl => ?_⟩ <;> dsimp only at *
  · by_cases hlk : l = k
    · subst hlk
      rw [Function.update_self]
      exact Or.inr ⟨hsome, hnew⟩
    · rw [Function.update_of_ne hlk]
      rcases h.ranks l with hold | ⟨_, hl⟩
      · exact Or.inl hold
      · exact Or.inr ⟨hsome, hl⟩
  · by_cases hlk : l = k
    · subst hlk
      rw [Function.update_self, htest] at hl
      cases hl
    · rw [Function.update_of_ne hlk] at hl ⊢
      exact h.storing l o' hl
  · by_cases hlk : l = k
    · subst hlk
      rw [Function.update_self, htest] at hl
      cases hl
    · rw [Function.update_of_ne hlk] at hl
      exact h.recovering l o' hl
  · by_cases hlk : l = k
    · subst hlk
      rw [Function.update_self, htest] at hl
      cases hl
      rw [Function.update_self]
      exact ⟨rfl, hnew.timestamp_eq⟩
    · rw [Function.update_of_ne hlk] at hl ⊢
      exact h.returned l ts hl

theorem Good.enter (h : Good timestart depth old S s) (ha : old < nextOf timestart old)
    (hold : (s.groups k).timestamp = old) : Good timestart depth old S
      { s with phase := Function.update s.phase k (.storing (s.groups k).timestamp) } := by
  apply h.setPhase k
  · intro o ho
    cases ho
    rcases h.ranks k with hk | ⟨_, hk⟩
    · exact ⟨hold, hk⟩
    · have := hk.timestamp_eq
      omega
  · exact nofun
  · exact nofun

/-- A rank that is back from the recovery tests the timestamp that the ranks have agreed on. -/
theorem Good.resume (h : Good timestart depth old S s) (ha : old < nextOf timestart old) {o : Int}
    (hk : s.phase k = .recovering o) :
    Good timestart depth old S { s with phase := Function.update s.phase k (.test o (s.groups k)) } := by
  obtain rfl := h.recovering k o hk
  apply h.setPhase k
  · intro o' ho
    obtain ⟨rfl, heq⟩ := test_storing ho
    rcases h.ranks k with hk | ⟨_, hk⟩
    · exact ⟨rfl, hk⟩
    · have := hk.timestamp_eq
      omega
  · exact fun o' ho => absurd ho test_ne_recovering
  · intro ts hts
    obtain ⟨rfl, hne⟩ := test_returned hts
    rcases h.ranks k with hk | ⟨_, hk⟩
    · exact absurd hk.timestamp_eq.symm hne
    · exact ⟨hk.timestamp_eq, hk.timestamp_eq⟩

theorem good_step (h : Good timestart depth old S s) (ha : Aligned timestart depth old S groups)
    (hold : old = newest S) (hs : Step policy timestart depth old s s') : Good timestart depth old S s' := by
  have hlt := ha.lt_next.1
  cases hs with
  | enter k _ hk => exact h.enter hlt hk
  | store k id snapshot _ =>
    apply h.setGroups hlt
    intro l A ts hl
    by_cases hlk : l = k
    · subst hlk
      rw [Function.update_self]
      exact hl.updateMember id _
    · rw [Function.update_of_ne hlk]
      exact hl
  | commit k junk partnerJunk hk hstored => exact h.commit hlt junk partnerJunk hk hstored
  | fail failed hspared => exact h.fail ha hold hspared
  | repair id upTo junk hr => exact h.setGroups hlt fun k A ts hk => hk.memberRepair hr
  | resume k hk => exact h.resume hlt hk
  | leave k _ => exact h.setPhase k nofun nofun nofun

theorem good_of_reaches (ha : Aligned timestart depth old S groups) (hold : old = newest S)
    (hr : Reaches policy timestart depth old (before groups) s) : Good timestart depth old S s := by
  induction hr with
  | refl => exact good_before ha
  | tail _ hs ih => exact good_step ih ha hold hs

/-- A checkpoint that returns on a rank has committed on some rank, and reports the timestamp after the old one, which
the group lists. No rank goes further than that, however often the checkpoint is begun again. -/
theorem checkpoint_sound (ha : Aligned timestart depth old S groups) (hold : old = newest S)
    (hr : Reaches policy timestart depth old (before groups) s) :
    (∀ k ts, s.phase k = .returned ts → ts = nextOf timestart old ∧ (s.groups k).timestamp = ts ∧
      (s.groups k).timestamps = Ledger.addListed (depth + 1) ts S ∧ ∃ l, s.committed l = true) ∧
    ∀ k, (s.groups k).timestamp = old ∨ (s.groups k).timestamp = nextOf timestart old := by
  have h := good_of_reaches ha hold hr
  constructor
  · intro k ts hk
    obtain ⟨rfl, ht⟩ := h.returned k ts hk
    obtain ⟨hcommitted, hlist⟩ := h.returned_keeps ha.lt_next.1 ht
    exact ⟨rfl, ht, hlist.timestamps, hcommitted⟩
  · intro k
    rcases h.ranks k with hk | ⟨_, hk⟩
    · exact Or.inl hk.timestamp_eq
    · exact Or.inr hk.timestamp_eq

theorem aligned_fresh : Aligned 0 1 (-1) ∅ fun k : Fin 2 => GroupRun.fresh 0 1 k where
  timestart_nonneg := Int.le_refl 0
  listed := fun t ht => absurd ht (Finset.notMem_empty t)
  old_ge := Int.le_refl _
  timestart_eq := fun _ => rfl
  depth_eq := fun _ => rfl
  timestamps := fun _ => rfl
  timestamp := fun _ => rfl

theorem newest_empty : newest ∅ = -1 := by
  have hnil : DataGroup.newestFirst ∅ = [] := List.eq_nil_of_length_eq_zero (by simp)
  rw [newest, hnil]
  rfl

/-- One rank commits the first snapshot, the other one is lost and replaced. -/
theorem checkpoint_sound_pair : ∃ s : CheckpointRun 2,
    Reaches .localOnly 0 1 (-1) (before fun k => GroupRun.fresh 0 1 k) s ∧ s.phase 0 = .returned 0 ∧
      (s.groups 0).timestamps = Ledger.addListed 2 0 ∅ ∧ ∃ l, s.committed l = true := by
  let junk : Int → Nat → UInt8 := fun _ _ => 0
  let start : CheckpointRun 2 := before fun k => GroupRun.fresh 0 1 k
  let entered : CheckpointRun 2 := { start with phase := Function.update start.phase 0 (.storing (-1)) }
  let group : GroupState := (start.groups 0).dataCommit junk junk
  let committed : CheckpointRun 2 := {
    groups := Function.update start.groups 0 group
    phase := Function.update entered.phase 0 (.test (-1) group)
    committed := Function.update start.committed 0 true }
  have hstored : (start.groups 0).Stored := fun _ hm => absurd hm List.not_mem_nil
  have henter : Step .localOnly 0 1 (-1) start entered := Step.enter 0 rfl rfl
  have hcommit : Step .localOnly 0 1 (-1) entered committed :=
    Step.commit 0 junk junk (Function.update_self 0 (CheckpointPhase.storing (-1)) start.phase) hstored
  let failed : Fin 2 → Bool := fun k => decide (k = 1)
  have hfail : Step .localOnly 0 1 (-1) committed { committed with
      groups := recreated 0 1 failed committed.groups
      phase := fun k => if failed k then .outside else (committed.phase k).interrupt } := Step.fail failed ⟨0, rfl⟩
  have hphase : committed.phase 0 = .returned 0 := by
    change Function.update entered.phase 0 (.test (-1) group) 0 = .returned 0
    rw [Function.update_self]
    exact test_committed ((aligned_fresh.keeps 0).dataCommit hstored junk junk) aligned_fresh.lt_next.1
  have hr := Relation.ReflTransGen.tail (.tail (.single henter) hcommit) hfail
  have hreturned : (committed.phase 0).interrupt = .returned 0 := hphase ▸ rfl
  obtain ⟨_, _, hlist, hsome⟩ := (checkpoint_sound aligned_fresh newest_empty.symm hr).1 0 0 hreturned
  exact ⟨_, hr, hreturned, hlist, hsome⟩

/-- A failure before any rank has committed takes the timestamp back to the newest one listed. -/
theorem recreated_uncommitted (h : Good timestart depth old S s) (ha : Aligned timestart depth old S groups)
    (hnone : ∀ l, s.committed l = false) {failed : Fin n → Bool} (hspared : ∃ k, failed k = false) (k : Fin n) :
    (recreated timestart depth failed s.groups k).timestamp = newest S := by
  rcases recreated_cases h ha hspared with ⟨⟨l, hl⟩, _⟩ | ⟨_, hall⟩
  · rw [hnone l] at hl
    cases hl
  · exact (hall k).timestamp_eq

/-- A checkpoint can return without a commit exactly if the timestamp that it begins with is not the newest one that is
listed, as after the newest snapshot is deleted: then a recovery changes the timestamp. -/
theorem unstored_success_iff (ha : Aligned timestart depth old S groups) (hn : 0 < n) :
    (∃ s, Reaches policy timestart depth old (before groups) s ∧ (∀ l, s.committed l = false) ∧
      ∃ k ts, s.phase k = .returned ts) ↔ old ≠ newest S := by
  constructor
  · rintro ⟨s, hr, hnone, k, ts, hk⟩ hold
    obtain ⟨_, _, _, l, hl⟩ := (checkpoint_sound ha hold hr).1 k ts hk
    rw [hnone l] at hl
    cases hl
  · intro hne
    let k : Fin n := ⟨0, hn⟩
    let start : CheckpointRun n := before groups
    let entered : CheckpointRun n :=
      { start with phase := Function.update start.phase k (.storing (groups k).timestamp) }
    let failed : Fin n → Bool := fun _ => false
    let back : CheckpointRun n :=
      ⟨recreated timestart depth failed groups, fun l => (entered.phase l).interrupt, fun _ => false⟩
    have hgood : Good timestart depth old S entered := (good_before ha).enter ha.lt_next.1 (ha.timestamp k)
    have henter : Step policy timestart depth old (before groups) entered := Step.enter k rfl (ha.timestamp k)
    have hfail : Step policy timestart depth old entered back := Step.fail failed ⟨k, rfl⟩
    have hphase : back.phase k = .recovering old := by
      have hentered : entered.phase k = .storing (groups k).timestamp :=
        Function.update_self k (CheckpointPhase.storing (groups k).timestamp) start.phase
      change (entered.phase k).interrupt = .recovering old
      rw [hentered, ha.timestamp k]
      rfl
    have hts : (back.groups k).timestamp = newest S := recreated_uncommitted hgood ha (fun _ => rfl) ⟨k, rfl⟩ k
    refine ⟨_, .tail (.tail (.single henter) hfail) (Step.resume k hphase), fun _ => rfl, k, newest S, ?_⟩
    change Function.update back.phase k (CheckpointPhase.test old (back.groups k)) k = .returned (newest S)
    rw [Function.update_self, CheckpointPhase.test, hts, if_neg hne]

/-- A group of which 0 and 1 are committed, with no members. -/
def committedTwice (k : Fin 2) : GroupState := { GroupRun.fresh 0 1 k with timestamp := 1, timestamps := {0, 1} }

def deletedNewest (k : Fin 2) : GroupState := { GroupRun.fresh 0 1 k with timestamp := 1, timestamps := {0} }

theorem committedTwice_delete (k : Fin 2) : (committedTwice k).snapshotDelete 1 = .ok (deletedNewest k) := by
  have hlist : DataGroup.newestFirst (committedTwice k).timestamps = [1, 0] := by
    refine DataGroup.newestFirst_eq (by decide) fun x => ?_
    change x ∈ [1, 0] ↔ x ∈ ({0, 1} : Finset Int)
    rw [Finset.mem_insert, Finset.mem_singleton, List.mem_cons, List.mem_singleton]
    exact Or.comm
  have herase : ({0, 1} : Finset Int).erase 1 = {0} := by decide
  have hsnap : (committedTwice k).snapshotErase 1 = deletedNewest k := by
    rw [GroupState.snapshotErase, deletedNewest, committedTwice, herase]
    rfl
  have hlatest : (if (1 : Int) = snapshotLatest then 1 else 1) = (1 : Int) := if_neg (by decide)
  have hmem : (1 : Int) ∈ (committedTwice k).timestamps := Finset.mem_insert_of_mem (Finset.mem_singleton_self 1)
  unfold GroupState.snapshotDelete
  rw [hlist]
  dsimp only
  rw [if_neg (by decide), hlatest, if_pos hmem, hsnap]

theorem newest_singleton (t : Int) : newest {t} = t := by
  have hlist : DataGroup.newestFirst {t} = [t] :=
    DataGroup.newestFirst_eq (List.pairwise_singleton _ t) fun x => by simp
  rw [newest, hlist]
  rfl

theorem unstored_success_pair : (∀ k, (committedTwice k).snapshotDelete 1 = .ok (deletedNewest k)) ∧
    ∃ s : CheckpointRun 2, Reaches .localOnly 0 1 1 (before deletedNewest) s ∧
      (∀ l, s.committed l = false) ∧ ∃ k ts, s.phase k = .returned ts := by
  have ha : Aligned 0 1 1 {0} deletedNewest :=
    { timestart_nonneg := Int.le_refl 0
      listed := fun t ht => by
        rw [Finset.mem_singleton.mp ht]
        decide
      old_ge := by decide
      timestart_eq := fun _ => rfl
      depth_eq := fun _ => rfl
      timestamps := fun _ => rfl
      timestamp := fun _ => rfl }
  refine ⟨committedTwice_delete, (unstored_success_iff ha (by decide)).mpr ?_⟩
  rw [newest_singleton]
  decide

end CheckpointRun

end Fenix
