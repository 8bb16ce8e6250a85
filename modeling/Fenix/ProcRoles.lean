import Fenix.ProcRecovery

namespace Fenix

/-- What a process is to the others, as of the last recovery. -/
inductive Role where
  | initialRank
  | recoveredRank
  | survivorRank
  | spareRank
  | failedRank
  deriving DecidableEq

/-- Why the role of a process cannot be told. -/
inductive RoleError where
  | intern
  | assertion
  deriving DecidableEq

/-- How a recovery ended. -/
inductive RepairResult where
  | success
  | spareRanksDepleted
  deriving DecidableEq

/-- The process groups with what the last recovery made of the processes, and the role that each of them has itself. -/
structure ProcRoles where
  groups : ProcState
  failProcs : List Nat := []
  failRanks : List Nat := []
  recoveredProcs : List Nat := []
  survivorProcs : List Nat := []
  role : Nat → Role := fun _ => .initialRank
  repairResult : RepairResult := .success

namespace ProcState

/-- The rounds of one recovery, from the failures that are known to those that are found in it. -/
inductive Rounds (oldWorld : List Nat) : ProcState → List Nat → ProcState → List Nat → Prop
  | last {s s' : ProcState} {failed : List Nat} (more : List Nat)
      (h : s.attempt oldWorld (failed ++ more) = .ok s') : Rounds oldWorld s failed s' (failed ++ more)
  | again {s t s' : ProcState} {failed failed' : List Nat} (more : List Nat)
      (h : s.attempt oldWorld (failed ++ more) = .ok t) (hr : Rounds oldWorld t (failed ++ more) s' failed') :
      Rounds oldWorld s failed s' failed'

end ProcState

namespace ProcRoles

/-- What initialisation leaves, once the communicators are built. -/
def init (nActive : Nat) (s : ProcState) : ProcRoles :=
  { groups := s.buildActiveWorlds
    repairResult := if s.userProcs.length < nActive then .spareRanksDepleted else .success }

/-- The role that a process gets in a recovery. A process without one stops with an internal error. -/
def repairRole (spareProcs survivorProcs recoveredProcs : List Nat) (p : Nat) : Option Role :=
  if p ∈ spareProcs then some .spareRank
  else if p ∈ survivorProcs then some .survivorRank
  else if p ∈ recoveredProcs then some .recoveredRank
  else none

/-- The end of `__fenix_repair_ranks`, on every process that has come out of the rounds. -/
def repairRanks (x : ProcRoles) (s : ProcState) : ProcRoles :=
  let oldUserProcs := x.groups.userProcs
  let failProcs := oldUserProcs.filter (· ∉ s.userProcs)
  let recoveredProcs := s.userProcs.filter (· ∉ oldUserProcs)
  let survivorProcs := s.userProcs.filter (· ∉ recoveredProcs)
  { groups := s.buildActiveWorlds
    failProcs := failProcs
    failRanks := failProcs.map fun p => oldUserProcs.idxOf p
    recoveredProcs := recoveredProcs
    survivorProcs := survivorProcs
    role p := (repairRole s.spareProcs survivorProcs recoveredProcs p).getD (x.role p)
    repairResult := if s.userProcs.length < s.rankToPid.length then .spareRanksDepleted else .success }

/-- A recovery: those that were in the error handler go on as survivors, and those that leave the loop of the spares as
recovered ranks. -/
def recover (x : ProcRoles) (s : ProcState) : ProcRoles :=
  let y := x.repairRanks s
  { y with
    role p :=
      if p ∈ x.groups.userProcs then if p ∈ s.world then .survivorRank else y.role p
      else if p ∈ x.groups.spareProcs ∧ p ∈ s.world ∧ p ∉ s.spareProcs then .recoveredRank
      else y.role p }

/-- `role` of a rank of a communicator, as a process sees it. -/
def roleOf (x : ProcRoles) (caller : Nat) (comm : List Nat) (r : Nat) : Except RoleError Role :=
  match comm[r]? with
  | none => .error .intern
  | some p =>
    if p ∉ x.groups.procs then .error .assertion
    else if p ∈ x.groups.deadProcs then .ok .failedRank
    else if p ∈ x.groups.spareProcs then .ok .spareRank
    else if x.role caller = .initialRank then .ok .initialRank
    else if p ∈ x.recoveredProcs then .ok .recoveredRank
    else if p ∈ x.survivorProcs then .ok .survivorRank
    else .error .assertion

/-- `n_ranks_with_role`, as a process sees it. -/
def nRanksWithRole (x : ProcRoles) (caller : Nat) : Role → Nat
  | .initialRank => if x.role caller = .initialRank then x.groups.userProcs.length else 0
  | .survivorRank => x.survivorProcs.length
  | .recoveredRank => x.recoveredProcs.length
  | .spareRank => x.groups.spareProcs.length
  | .failedRank => x.groups.deadProcs.length

def nspare (x : ProcRoles) : Nat := x.groups.spareProcs.length

def failList (x : ProcRoles) : List Nat := x.failRanks

/-- The runs of initialisation and recoveries, with the processes that have failed. -/
inductive Reachable (size spares : Nat) : ProcRoles → List Nat → Prop
  | init {s s' : ProcState} {failed : List Nat} (h : ProcState.preinit size spares = .ok s)
      (hr : ProcState.Rounds s.procs s [] s' failed) : Reachable size spares (init (size - spares) s') failed
  | recover {x : ProcRoles} {s : ProcState} {failed failed' : List Nat} (hx : Reachable size spares x failed)
      (hr : ProcState.Rounds x.groups.world x.groups failed s failed') : Reachable size spares (x.recover s) failed'

end ProcRoles

namespace Assignment

variable {a b : Assignment}

theorem replace_places {idx q : Nat} (h : a.replace idx q = .ok b) : b.rankToPid.length = a.rankToPid.length ∧
    ∀ i, i ≠ idx → b.userPids[i]? = a.userPids[i]? := by
  obtain ⟨rank, _, rfl⟩ := Except.map_eq_ok_iff.mp h
  exact ⟨List.length_set, fun i hi => List.getElem?_set_ne (Ne.symm hi)⟩

/-- Spares take over places, and no other place changes. -/
theorem replaceAll_places {places : List (Nat × Nat)} (h : a.replaceAll places = .ok b) :
    b.rankToPid.length = a.rankToPid.length ∧
      ∀ i, i ∉ places.map Prod.fst → b.userPids[i]? = a.userPids[i]? := by
  induction places generalizing a with
  | nil =>
    cases Except.ok.inj h
    exact ⟨rfl, fun _ _ => rfl⟩
  | cons place places ih =>
    obtain ⟨mid, hmid, h⟩ := Except.bind_eq_ok_iff.mp h
    obtain ⟨hlen, hsame⟩ := replace_places hmid
    obtain ⟨hlens, hothers⟩ := ih h
    refine ⟨hlens.trans hlen, fun i hi => ?_⟩
    rw [List.map_cons, List.mem_cons, not_or] at hi
    exact (hothers i hi.2).trans (hsame i hi.1)

theorem shrinkAll_length {places : List Nat} (h : a.shrinkAll places = .ok b) :
    b.rankToPid.length = a.rankToPid.length := by
  induction places generalizing a with
  | nil =>
    cases Except.ok.inj h
    rfl
  | cons idx places ih =>
    obtain ⟨mid, hmid, h⟩ := Except.bind_eq_ok_iff.mp h
    obtain ⟨rank, _, rfl⟩ := Except.map_eq_ok_iff.mp hmid
    exact (ih h).trans List.length_set

end Assignment

namespace ProcState

variable {size spares : Nat} {s s' t : ProcState} {live world failed failed' oldWorld : List Nat}

/-- With spares for all dead processes, the others stay where they are. -/
theorem rebuild_places (h : rebuildProcGroups s = .ok s') :
    s'.rankToPid.length = s.rankToPid.length ∧
      ((s.userProcs.filter (· ∈ s.procs.filter (· ∉ s.world))).length ≤
          (s.spareProcs.filter (· ∉ s.procs.filter (· ∉ s.world))).length →
        ∀ i p : Nat, p ∉ s.procs.filter (· ∉ s.world) → s.userProcs[i]? = some p → s'.userProcs[i]? = some p) := by
  unfold rebuildProcGroups at h
  obtain ⟨b, hb, h⟩ := Except.bind_eq_ok_iff.mp h
  obtain ⟨c, hc, h⟩ := Except.bind_eq_ok_iff.mp h
  cases Except.ok.inj h
  obtain ⟨hlen, hplaces⟩ := Assignment.replaceAll_places hb
  refine ⟨(Assignment.shrinkAll_length hc).trans hlen, fun hspares i p hp hi => ?_⟩
  rw [List.drop_eq_nil_of_le (by rw [List.length_map] at *; omega)] at hc
  cases Except.ok.inj hc
  refine (hplaces i fun hin => ?_).trans hi
  obtain ⟨place, hplace, hfst⟩ := List.mem_map.mp hin
  obtain ⟨q, hq, hidx⟩ := List.mem_map.mp (List.mem_of_mem_take (List.of_mem_zip hplace).1)
  obtain ⟨hq, hdead⟩ := List.mem_filter.mp hq
  have heq : s.userProcs[i]? = some q := by
    rw [← hfst, ← hidx]
    exact List.getElem?_idxOf hq
  cases Option.some.inj (hi.symm.trans heq)
  exact hp (of_decide_eq_true hdead)

/-- What the rounds of a recovery leave of the groups, those of the first round being `s`. -/
structure Repaired (size : Nat) (s s' : ProcState) (world : List Nat) : Prop where
  assigned : Assigned size s' world
  world_eq : s'.world = world
  ranks_length : s'.rankToPid.length = s.rankToPid.length
  order_kept : (s.userProcs.filter (· ∈ world)).Sublist s'.userProcs
  users : ∀ p ∈ s'.userProcs, p ∈ s.userProcs ∨ p ∈ s.spareProcs
  spares : ∀ p ∈ s'.spareProcs, p ∈ s.spareProcs
  shrunk : s'.userProcs.length ≤ s.userProcs.length
  spent : s'.userProcs.length < s.userProcs.length → s'.spareProcs = []
  places : s'.userProcs.length = s.userProcs.length →
    ∀ i p : Nat, p ∈ world → s.userProcs[i]? = some p → s'.userProcs[i]? = some p

namespace Repaired

theorem kept (h : Repaired size s s' world) {p : Nat} (hp : p ∈ s.userProcs) (hw : p ∈ world) : p ∈ s'.userProcs :=
  h.order_kept.subset (List.mem_filter.mpr ⟨hp, decide_eq_true hw⟩)

end Repaired

/-- One round. -/
theorem Assigned.repaired (h : Assigned size s live) (hw : world.Sublist live)
    (hs : rebuildProcGroups { s with world := world } = .ok s') : Repaired size s s' world := by
  obtain ⟨t, ht, hr⟩ := h.rebuild hw
  cases Except.ok.inj (hs.symm.trans ht)
  obtain ⟨hlen, hplaces⟩ := rebuild_places hs
  have hkept : ∀ p ∈ s.userProcs, p ∈ world → p ∈ s'.userProcs := fun p hp hpw =>
    hr.order_kept.subset (List.mem_filter.mpr ⟨hp, decide_eq_true hpw⟩)
  have hdead : s.userProcs.filter (· ∈ s.procs.filter (· ∉ world)) = s.userProcs.filter (· ∉ world) := by
    refine List.filter_congr fun p hp => ?_
    simp [h.mem_procs (h.mem_live.mpr (Or.inl hp))]
  have hspare : s.spareProcs.filter (· ∉ s.procs.filter (· ∉ world)) = s.spareProcs.filter (· ∈ world) := by
    refine List.filter_congr fun p hp => ?_
    simp [h.mem_procs (h.mem_live.mpr (Or.inr hp))]
  have hremoved := hr.removed
  have hspares : ∀ p ∈ s'.spareProcs, p ∈ s.spareProcs := by
    intro p hp
    have hin : p ∈ world := hr.assigned.mem_live.mpr (Or.inr hp)
    rcases h.mem_live.mp (hw.subset hin) with hu | hq
    · exact absurd hp (hr.assigned.disjoint (hkept p hu hin))
    · exact hq
  refine ⟨hr.assigned, hr.world_eq, hlen, hr.order_kept, fun p hp => ?_, hspares, by omega, fun hlt => ?_, ?_⟩
  · exact h.mem_live.mp (hw.subset (hr.assigned.mem_live.mpr (Or.inl hp)))
  · -- those alive are the users and spares that there are, and those that there were
    have hnow := hr.assigned.shared.length_eq
    have hwas : world.length = (s.userProcs.filter (· ∈ world)).length + (s.spareProcs.filter (· ∈ world)).length := by
      have hn : live.Nodup := List.nodup_range.sublist h.live_sublist
      have hall : (live.filter (· ∈ world)).Perm world := by
        refine (List.perm_ext_iff_of_nodup (hn.filter _) (hn.sublist hw)).mpr fun p => ?_
        rw [List.mem_filter, decide_eq_true_eq, and_iff_right_of_imp fun hp => hw.subset hp]
      rw [← List.length_append, ← List.filter_append, (h.shared.filter _).length_eq, hall.length_eq]
    have hsplit := List.length_eq_length_filter_add (l := s.userProcs) fun p => decide (p ∈ world)
    have hnot : (s.userProcs.filter fun p => !decide (p ∈ world)) = s.userProcs.filter (· ∉ world) :=
      List.filter_congr fun p _ => by simp
    rw [hnot] at hsplit
    rw [List.length_append] at hnow
    exact List.eq_nil_of_length_eq_zero (by omega)
  · intro heq i p hp hi
    refine hplaces ?_ i p (fun hin => ?_) hi
    · dsimp only
      rw [hdead, hspare]
      omega
    · exact of_decide_eq_true (List.mem_filter.mp hin).2 hp

theorem Repaired.trans {world' : List Nat} (h : Repaired size s t world) (h' : Repaired size t s' world')
    (hw : world'.Sublist world) : Repaired size s s' world' := by
  refine ⟨h'.assigned, h'.world_eq, h'.ranks_length.trans h.ranks_length, ?_, fun p hp => ?_,
    fun p hp => h.spares p (h'.spares p hp), Nat.le_trans h'.shrunk h.shrunk, fun hlt => ?_, fun heq i p hp hi => ?_⟩
  · have hfirst : s.userProcs.filter (· ∈ world') = (s.userProcs.filter (· ∈ world)).filter (· ∈ world') := by
      rw [List.filter_filter]
      refine List.filter_congr fun p _ => ?_
      by_cases hp : p ∈ world'
      · simp [hp, hw.subset hp]
      · simp [hp]
    rw [hfirst]
    exact (h.order_kept.filter _).trans h'.order_kept
  · rcases h'.users p hp with hu | hq
    · exact h.users p hu
    · exact Or.inr (h.spares p hq)
  · by_cases hfirst : t.userProcs.length < s.userProcs.length
    · have hnone := h.spent hfirst
      refine List.eq_nil_iff_forall_not_mem.mpr fun p hp => ?_
      have hin := h'.spares p hp
      rw [hnone] at hin
      cases hin
    · have hshrunk := h.shrunk
      exact h'.spent (by omega)
  · have hshrunk := h.shrunk
    have hshrunk' := h'.shrunk
    exact h'.places (by omega) i p hp (h.places (by omega) i p (hw.subset hp) hi)

theorem shrinkComm_sublist (oldWorld failed more : List Nat) :
    (shrinkComm oldWorld (failed ++ more)).Sublist (shrinkComm oldWorld failed) := by
  unfold shrinkComm
  refine List.monotone_filter_right oldWorld fun p hp => ?_
  simp only [List.mem_append, not_or, decide_eq_true_eq] at hp ⊢
  exact hp.1

/-- The rounds of a recovery, however many there are. -/
theorem Rounds.repaired (h : Rounds oldWorld s failed s' failed') (hs : Assigned size s (shrinkComm oldWorld failed)) :
    Repaired size s s' (shrinkComm oldWorld failed') ∧
      (shrinkComm oldWorld failed').Sublist (shrinkComm oldWorld failed) := by
  induction h with
  | last more h => exact ⟨hs.repaired (shrinkComm_sublist _ _ _) h, shrinkComm_sublist _ _ _⟩
  | again more h _ ih =>
    have hfirst := hs.repaired (shrinkComm_sublist _ _ _) h
    obtain ⟨hrest, hsub⟩ := ih hfirst.assigned
    exact ⟨hfirst.trans hrest hsub, hsub.trans (shrinkComm_sublist _ _ _)⟩

theorem Rounds.reachable (h : Rounds oldWorld s failed s' failed') (hs : Reachable size spares s failed oldWorld) :
    Reachable size spares s'.buildActiveWorlds failed' s'.world := by
  induction h with
  | last more h => exact .repair more hs h
  | again more h _ ih => exact ih (.retry more hs h)

end ProcState

namespace ProcRoles

open ProcState (Assigned Repaired)

variable {size spares : Nat} {x : ProcRoles} {s : ProcState} {failed failed' : List Nat} {caller : Nat}

/-- The groups of the processes that have not failed, as many for the application as there can be. -/
structure Manned (size spares : Nat) (x : ProcRoles) (failed : List Nat) : Prop where
  assigned : Assigned size x.groups x.groups.world
  world_iff : ∀ p, p ∈ x.groups.world ↔ p < size ∧ p ∉ failed
  userWorld : x.groups.userWorld = x.groups.userProcs
  ranks_length : x.groups.rankToPid.length = size - spares
  manned : x.groups.spareProcs ≠ [] → x.groups.userProcs.length = size - spares
  limit : x.groups.userProcs.length ≤ size - spares
  result : x.repairResult = .spareRanksDepleted ↔ x.groups.userProcs.length < size - spares

/-- No recovery has sorted the processes yet. -/
structure Initial (x : ProcRoles) : Prop where
  role : ∀ p, x.role p = .initialRank
  recovered : x.recoveredProcs = []
  survivors : x.survivorProcs = []

/-- The last recovery has sorted the processes, and each has the role that goes with that. -/
structure Sorted (x : ProcRoles) : Prop where
  spare : ∀ p ∈ x.groups.spareProcs, x.role p = .spareRank
  recovered : ∀ p ∈ x.recoveredProcs, x.role p = .recoveredRank
  survivor : ∀ p ∈ x.survivorProcs, x.role p = .survivorRank
  shared : (x.recoveredProcs ++ x.survivorProcs).Perm x.groups.userProcs

theorem Sorted.role_ne (h : Sorted x) {p : Nat} (hp : p ∈ x.groups.userProcs) : x.role p ≠ .initialRank := by
  rcases List.mem_append.mp (h.shared.mem_iff.mpr hp) with hin | hin
  · rw [h.recovered p hin]
    exact nofun
  · rw [h.survivor p hin]
    exact nofun

/-- What the rounds of a recovery do to the number of processes. -/
theorem manned_of_repaired {old : ProcState} (hr : Repaired size old s s.world)
    (hlength : old.rankToPid.length = size - spares) (hmanned : old.spareProcs ≠ [] → old.userProcs.length = size - spares)
    (hlimit : old.userProcs.length ≤ size - spares) :
    s.rankToPid.length = size - spares ∧ (s.spareProcs ≠ [] → s.userProcs.length = size - spares) ∧
      s.userProcs.length ≤ size - spares := by
  refine ⟨hr.ranks_length.trans hlength, fun hne => ?_, Nat.le_trans hr.shrunk hlimit⟩
  obtain ⟨p, hp⟩ := List.exists_mem_of_ne_nil _ hne
  have hsame : s.userProcs.length = old.userProcs.length := by
    refine Nat.le_antisymm hr.shrunk (Nat.le_of_not_lt fun hlt => hne (hr.spent hlt))
  exact hsame.trans (hmanned (List.ne_nil_of_mem (hr.spares p hp)))

theorem rounds_world {oldWorld : List Nat} {s₀ : ProcState} (h : ProcState.Rounds oldWorld s₀ failed s failed')
    (hs : Assigned size s₀ (shrinkComm oldWorld failed)) : s.world = shrinkComm oldWorld failed' ∧ failed ⊆ failed' := by
  refine ⟨(h.repaired hs).1.world_eq, ?_⟩
  clear hs
  induction h with
  | last more _ => exact List.subset_append_left _ _
  | again more _ _ ih => exact fun p hp => ih (List.mem_append_left _ hp)

theorem shrinkComm_of_alive {comm : List Nat} (h : ∀ p ∈ comm, p ∉ failed) : shrinkComm comm failed = comm :=
  List.filter_eq_self.mpr fun p hp => decide_eq_true (h p hp)

theorem assigned_build (h : Assigned size s s.world) : Assigned size s.buildActiveWorlds s.buildActiveWorlds.world :=
  ⟨h.procs_eq, h.live_sublist, h.shared, h.dead_eq, h.spares_sorted, h.users_before, h.held, h.length_pids⟩

theorem Manned.repaired (h : Manned size spares x failed) (hr : ProcState.Rounds x.groups.world x.groups failed s failed') :
    Repaired size x.groups s s.world ∧ failed ⊆ failed' ∧ ∀ p, p ∈ s.world ↔ p < size ∧ p ∉ failed' := by
  have hstart : Assigned size x.groups (shrinkComm x.groups.world failed) := by
    rw [shrinkComm_of_alive fun p hp => ((h.world_iff p).mp hp).2]
    exact h.assigned
  obtain ⟨hworld, hsub⟩ := rounds_world hr hstart
  refine ⟨hworld ▸ (hr.repaired hstart).1, hsub, fun p => ?_⟩
  rw [hworld, shrinkComm, List.mem_filter, decide_eq_true_eq, h.world_iff]
  exact ⟨fun hp => ⟨hp.1.1, hp.2⟩, fun hp => ⟨⟨hp.1, fun hin => hp.2 (hsub hin)⟩, hp.2⟩⟩

theorem result_iff {n m : Nat} : (if n < m then RepairResult.spareRanksDepleted else .success) = .spareRanksDepleted ↔
    n < m := by
  split
  next h => exact ⟨fun _ => h, fun _ => rfl⟩
  next h => exact ⟨fun heq => (nomatch heq), fun hlt => absurd hlt h⟩

theorem Reachable.manned (h : Reachable size spares x failed) : Manned size spares x failed := by
  induction h with
  | @init s s' failed hp hr =>
    have hassigned := ProcState.preinit_assigned hp
    have hstart : Assigned size s (shrinkComm s.procs []) := hassigned
    have hpre : s.procs = List.range size ∧ s.userProcs.length = size - spares ∧ s.rankToPid.length = size - spares := by
      unfold ProcState.preinit at hp
      split at hp
      next => cases hp
      next =>
        cases Except.ok.inj hp
        exact ⟨rfl, List.length_range, (List.length_map _).trans List.length_range⟩
    obtain ⟨hworld, _⟩ := rounds_world hr hstart
    have hrepaired : Repaired size s s' s'.world := hworld ▸ (hr.repaired hstart).1
    obtain ⟨hlength, hmanned, hlimit⟩ := manned_of_repaired hrepaired hpre.2.2 (fun _ => hpre.2.1) (Nat.le_of_eq hpre.2.1)
    refine ⟨assigned_build hrepaired.assigned, fun p => ?_, rfl, hlength, hmanned, hlimit, result_iff⟩
    change p ∈ s'.world ↔ _
    rw [hworld, shrinkComm, List.mem_filter, decide_eq_true_eq, hpre.1, List.mem_range]
  | @recover x s failed failed' _ hr ih =>
    obtain ⟨hrepaired, _, hworld⟩ := ih.repaired hr
    obtain ⟨hlength, hmanned, hlimit⟩ := manned_of_repaired hrepaired ih.ranks_length ih.manned ih.limit
    refine ⟨assigned_build hrepaired.assigned, hworld, rfl, hlength, hmanned, hlimit, ?_⟩
    change (if s.userProcs.length < s.rankToPid.length then _ else _) = _ ↔ s.userProcs.length < size - spares
    rw [hlength]
    exact result_iff

/-- What a recovery makes of the processes that come out of it. -/
theorem recover_cases (hr : Repaired size x.groups s s.world) (hold : Assigned size x.groups x.groups.world)
    {p : Nat} (hp : p ∈ s.world) :
    p ∈ s.spareProcs ∧ (x.recover s).role p = .spareRank ∨
    p ∉ s.spareProcs ∧ p ∉ (x.recover s).survivorProcs ∧ p ∈ (x.recover s).recoveredProcs ∧
      (x.recover s).role p = .recoveredRank ∨
    p ∉ s.spareProcs ∧ p ∈ (x.recover s).survivorProcs ∧ p ∉ (x.recover s).recoveredProcs ∧
      (x.recover s).role p = .survivorRank := by
  have hrecovered : ∀ q, q ∈ (x.recover s).recoveredProcs ↔ q ∈ s.userProcs ∧ q ∉ x.groups.userProcs := fun q => by
    change q ∈ s.userProcs.filter _ ↔ _
    rw [List.mem_filter, decide_eq_true_eq]
  have hsurvivor : ∀ q, q ∈ (x.recover s).survivorProcs ↔ q ∈ s.userProcs ∧ q ∉ (x.recover s).recoveredProcs :=
    fun q => by
      change q ∈ s.userProcs.filter _ ↔ _
      rw [List.mem_filter, decide_eq_true_eq]
      rfl
  by_cases hq : p ∈ s.spareProcs
  · refine Or.inl ⟨hq, ?_⟩
    have hnot : p ∉ x.groups.userProcs := fun hu => hold.disjoint hu (hr.spares p hq)
    change (if p ∈ x.groups.userProcs then _ else if _ then _ else _) = _
    rw [if_neg hnot, if_neg fun hand => hand.2.2 hq]
    change (repairRole _ _ _ p).getD _ = _
    unfold repairRole
    rw [if_pos hq]
    rfl
  · have hu : p ∈ s.userProcs := (hr.assigned.mem_live.mp hp).resolve_right hq
    by_cases hwas : p ∈ x.groups.userProcs
    · have hnot : p ∉ (x.recover s).recoveredProcs := fun hin => ((hrecovered p).mp hin).2 hwas
      refine Or.inr (Or.inr ⟨hq, (hsurvivor p).mpr ⟨hu, hnot⟩, hnot, ?_⟩)
      change (if p ∈ x.groups.userProcs then if p ∈ s.world then _ else _ else _) = _
      rw [if_pos hwas, if_pos hp]
    · have hin : p ∈ (x.recover s).recoveredProcs := (hrecovered p).mpr ⟨hu, hwas⟩
      refine Or.inr (Or.inl ⟨hq, fun hs => ((hsurvivor p).mp hs).2 hin, hin, ?_⟩)
      change (if p ∈ x.groups.userProcs then _ else if _ then _ else _) = _
      rw [if_neg hwas, if_pos ⟨(hr.users p hu).resolve_left hwas, hp, hq⟩]

theorem recover_sorted (hr : Repaired size x.groups s s.world) (hold : Assigned size x.groups x.groups.world) :
    Sorted (x.recover s) := by
  have hlive : ∀ p, p ∈ s.userProcs ∨ p ∈ s.spareProcs → p ∈ s.world := fun p => hr.assigned.mem_live.mpr
  have hrecovered : ∀ q ∈ (x.recover s).recoveredProcs, q ∈ s.userProcs := fun q hq => (List.mem_filter.mp hq).1
  have hsurvivor : ∀ q ∈ (x.recover s).survivorProcs, q ∈ s.userProcs := fun q hq => (List.mem_filter.mp hq).1
  refine ⟨fun p hp => ?_, fun p hp => ?_, fun p hp => ?_, ?_⟩
  · rcases recover_cases hr hold (hlive p (Or.inr hp)) with h | ⟨hnot, _⟩ | ⟨hnot, _⟩
    · exact h.2
    · exact absurd hp hnot
    · exact absurd hp hnot
  · rcases recover_cases hr hold (hlive p (Or.inl (hrecovered p hp))) with h | h | h
    · exact absurd h.1 (hr.assigned.disjoint (hrecovered p hp))
    · exact h.2.2.2
    · exact absurd hp h.2.2.1
  · rcases recover_cases hr hold (hlive p (Or.inl (hsurvivor p hp))) with h | h | h
    · exact absurd h.1 (hr.assigned.disjoint (hsurvivor p hp))
    · exact absurd hp h.2.1
    · exact h.2.2.2
  · have hperm := List.filter_append_perm (fun p => decide (p ∉ x.groups.userProcs)) s.userProcs
    have hrest : (x.recover s).survivorProcs = s.userProcs.filter fun p => !decide (p ∉ x.groups.userProcs) := by
      refine List.filter_congr fun p hp => ?_
      rw [← decide_not]
      refine decide_eq_decide.mpr (not_congr ?_)
      rw [List.mem_filter, decide_eq_true_eq, and_iff_right hp]
    rw [hrest]
    exact hperm

theorem Reachable.roles (h : Reachable size spares x failed) : Initial x ∨ Sorted x := by
  cases h with
  | init => exact Or.inl ⟨fun _ => rfl, rfl, rfl⟩
  | recover hx hr => exact Or.inr (recover_sorted (hx.manned.repaired hr).1 hx.manned.assigned)

/-- The role of a process: failed or a spare, or else the role that it has itself. -/
def roleIn (x : ProcRoles) (failed : List Nat) (p : Nat) : Role :=
  if p ∈ failed then .failedRank else if p ∈ x.groups.spareProcs then .spareRank else x.role p

theorem Manned.mem_dead (h : Manned size spares x failed) {p : Nat} (hp : p < size) :
    p ∈ x.groups.deadProcs ↔ p ∈ failed := by
  rw [h.assigned.dead_eq, List.mem_filter, decide_eq_true_eq, h.assigned.procs_eq, List.mem_range, h.world_iff]
  have hmem : p ∈ failed ∨ p ∉ failed := Classical.em _
  tauto

theorem roleIn_user (h : Manned size spares x failed) {p : Nat} (hp : p ∈ x.groups.userProcs) :
    x.roleIn failed p = x.role p := by
  have hlive := (h.world_iff p).mp (h.assigned.mem_live.mpr (Or.inl hp))
  unfold roleIn
  rw [if_neg hlive.2, if_neg (h.assigned.disjoint hp)]

theorem roleIn_spare (h : Manned size spares x failed) {p : Nat} (hp : p ∈ x.groups.spareProcs) :
    x.roleIn failed p = .spareRank := by
  have hlive := (h.world_iff p).mp (h.assigned.mem_live.mpr (Or.inr hp))
  unfold roleIn
  rw [if_neg hlive.2, if_pos hp]

theorem countP_const {l : List Nat} {f : Nat → Role} {c : Role} (role : Role) (h : ∀ q ∈ l, f q = c) :
    l.countP (fun q => f q = role) = if c = role then l.length else 0 := by
  split
  next heq => exact List.countP_eq_length.mpr fun q hq => decide_eq_true ((h q hq).trans heq)
  next hne =>
    refine List.countP_eq_zero.mpr fun q hq htrue => hne ?_
    exact (h q hq).symm.trans (of_decide_eq_true htrue)

theorem countP_roles (h : Manned size spares x failed) (role : Role) :
    (List.range size).countP (fun q => x.roleIn failed q = role) =
      x.groups.userProcs.countP (fun q => x.role q = role) +
        (if .spareRank = role then x.groups.spareProcs.length else 0) +
        if .failedRank = role then x.groups.deadProcs.length else 0 := by
  have hdead : ∀ q ∈ x.groups.deadProcs, x.roleIn failed q = .failedRank := by
    intro q hq
    have hlt : q < size := by
      rw [h.assigned.dead_eq, List.mem_filter, h.assigned.procs_eq, List.mem_range] at hq
      exact hq.1
    exact if_pos ((h.mem_dead hlt).mp hq)
  rw [← h.assigned.partition.countP_eq, List.countP_append, List.countP_append, countP_const role hdead,
    countP_const role fun q hq => roleIn_spare h hq]
  congr 2
  refine List.countP_congr fun q hq => ?_
  rw [roleIn_user h hq]

/-- All processes that the application has see each process in the role that it has itself, and how many processes have
a role is told right. -/
theorem roles_agree (h : Reachable size spares x failed) (hc : caller ∈ x.groups.userProcs) :
    (∀ (comm : List Nat) (r q : Nat), comm[r]? = some q → q < size →
      x.roleOf caller comm r = .ok (x.roleIn failed q)) ∧
    ∀ role, x.nRanksWithRole caller role = (List.range size).countP fun q => x.roleIn failed q = role := by
  have hm := h.manned
  constructor
  · intro comm r q hr hq
    have hlive := hm.world_iff q
    have hprocs : q ∈ x.groups.procs := by
      rw [hm.assigned.procs_eq]
      exact List.mem_range.mpr hq
    unfold roleOf roleIn
    rw [hr]
    dsimp only
    rw [if_neg (not_not.mpr hprocs)]
    by_cases hfailed : q ∈ failed
    · rw [if_pos ((hm.mem_dead hq).mpr hfailed), if_pos hfailed]
    · rw [if_neg fun hd => hfailed ((hm.mem_dead hq).mp hd), if_neg hfailed]
      by_cases hspare : q ∈ x.groups.spareProcs
      · rw [if_pos hspare, if_pos hspare]
      · have huser : q ∈ x.groups.userProcs :=
          (hm.assigned.mem_live.mp (hlive.mpr ⟨hq, hfailed⟩)).resolve_right hspare
        rw [if_neg hspare, if_neg hspare]
        rcases h.roles with hi | hs
        · rw [if_pos (hi.role caller), hi.role q]
        · rw [if_neg (hs.role_ne hc)]
          by_cases hin : q ∈ x.recoveredProcs
          · rw [if_pos hin, hs.recovered q hin]
          · have hsurvivor := (List.mem_append.mp (hs.shared.mem_iff.mpr huser)).resolve_left hin
            rw [if_neg hin, if_pos hsurvivor, hs.survivor q hsurvivor]
  · intro role
    rw [countP_roles hm]
    rcases h.roles with hi | hs
    · rw [countP_const role fun q _ => hi.role q]
      cases role <;> simp [nRanksWithRole, hi.role, hi.recovered, hi.survivors]
    · have hcaller := hs.role_ne hc
      rw [← hs.shared.countP_eq, List.countP_append, countP_const role hs.recovered, countP_const role hs.survivor]
      cases role <;> simp [nRanksWithRole, hcaller]

theorem roles_agree_promoted : ∃ x : ProcRoles, x.groups.userProcs = [0, 2] ∧ x.groups.deadProcs = [1] ∧
    (∀ (comm : List Nat) (r q : Nat), comm[r]? = some q → q < 3 → x.roleOf 2 comm r = .ok (x.roleIn [1] q)) ∧
    ∀ role, x.nRanksWithRole 2 role = (List.range 3).countP fun q => x.roleIn [1] q = role := by
  have hstart : Reachable 3 1 _ [] := .init (rfl : ProcState.preinit 3 1 = _) (.last [] rfl)
  have hrun : Reachable 3 1 _ [1] := .recover hstart (.last [1] rfl)
  exact ⟨_, rfl, rfl, roles_agree hrun (by decide)⟩

/-- The users that a recovery has replaced or dropped are those that have failed. -/
theorem mem_failProcs (hr : Repaired size x.groups s s.world) {p : Nat} :
    p ∈ (x.recover s).failProcs ↔ p ∈ x.groups.userProcs ∧ p ∉ s.world := by
  change p ∈ x.groups.userProcs.filter _ ↔ _
  rw [List.mem_filter, decide_eq_true_eq]
  refine and_congr_right fun hp => not_congr ⟨fun hin => hr.assigned.mem_live.mpr (Or.inl hin), fun hin => hr.kept hp hin⟩

/-- As many users as have failed are taken from the spares or missing. -/
theorem failProcs_length (hr : Repaired size x.groups s s.world) (hold : Assigned size x.groups x.groups.world) :
    (x.recover s).failProcs.length + s.userProcs.length =
      x.groups.userProcs.length + (x.recover s).recoveredProcs.length := by
  have hboth : (x.groups.userProcs.filter (· ∈ s.userProcs)).Perm (s.userProcs.filter (· ∈ x.groups.userProcs)) := by
    refine (List.perm_ext_iff_of_nodup (hold.held.nodup.filter _) (hr.assigned.held.nodup.filter _)).mpr fun p => ?_
    rw [List.mem_filter, List.mem_filter, decide_eq_true_eq, decide_eq_true_eq]
    exact and_comm
  have hwas := List.length_eq_length_filter_add (l := x.groups.userProcs) fun p => decide (p ∈ s.userProcs)
  have hnow := List.length_eq_length_filter_add (l := s.userProcs) fun p => decide (p ∈ x.groups.userProcs)
  have hfail : (x.groups.userProcs.filter fun p => !decide (p ∈ s.userProcs)) = (x.recover s).failProcs :=
    List.filter_congr fun p _ => (decide_not).symm
  have hrecovered : (s.userProcs.filter fun p => !decide (p ∈ x.groups.userProcs)) = (x.recover s).recoveredProcs :=
    List.filter_congr fun p _ => (decide_not).symm
  rw [hfail] at hwas
  rw [hrecovered] at hnow
  have hlen := hboth.length_eq
  omega

/-- Without loss of ranks those of the failed processes are taken over by recovered ones, and the others stay. -/
theorem userWorld_places (hr : Repaired size x.groups s s.world)
    (hsame : s.userProcs.length = x.groups.userProcs.length) {r p : Nat} (hp : x.groups.userProcs[r]? = some p) :
    if p ∈ s.world then s.userProcs[r]? = some p
    else ∃ q ∈ (x.recover s).recoveredProcs, s.userProcs[r]? = some q := by
  split
  next hin => exact hr.places hsame r p hin hp
  next hnot =>
    have hlt : r < s.userProcs.length := hsame ▸ (List.getElem?_eq_some_iff.mp hp).1
    refine ⟨s.userProcs[r], ?_, List.getElem?_eq_getElem hlt⟩
    have hin : s.userProcs[r] ∈ s.userProcs := List.getElem_mem hlt
    refine List.mem_filter.mpr ⟨hin, decide_eq_true fun hwas => hnot ?_⟩
    -- a user that was there before would still be at its own place
    obtain ⟨j, hj⟩ := List.getElem?_of_mem hwas
    have hlive := hr.assigned.mem_live.mpr (Or.inl hin)
    have hplace := hr.places hsame j _ hlive hj
    obtain ⟨hjlt, hjr⟩ := List.getElem?_eq_some_iff.mp hplace
    cases hr.assigned.held.nodup.getElem_inj_iff.mp hjr
    cases Option.some.inj (hj.symm.trans hp)
    exact hlive

/-- The ranks that are told to have failed are those, in the communicator from before, of the processes that failed up to
the end of the recovery. The application has as many ranks as there can be. If it has lost none, recovered ranks are
just where ranks have failed, and if it has, no spare is left. -/
theorem failList_exact (h : Reachable size spares x failed)
    (hr : ProcState.Rounds x.groups.world x.groups failed s failed') :
    (x.recover s).failList.Pairwise (· < ·) ∧
    (∀ r, r ∈ (x.recover s).failList ↔ ∃ p, x.groups.userWorld[r]? = some p ∧ p ∈ failed') ∧
    (∀ p ∈ s.world, repairRole s.spareProcs (x.recover s).survivorProcs (x.recover s).recoveredProcs p =
      some ((x.recover s).role p)) ∧
    (x.recover s).failList.length + (x.recover s).groups.userWorld.length =
      x.groups.userWorld.length + (x.recover s).recoveredProcs.length ∧
    (x.recover s).groups.userWorld.length = min (size - spares) s.world.length ∧
    (x.groups.userWorld.filter (· ∉ failed')).Sublist (x.recover s).groups.userWorld ∧
    if (x.recover s).groups.userWorld.length = x.groups.userWorld.length then
      ∀ r p : Nat, x.groups.userWorld[r]? = some p → if r ∈ (x.recover s).failList then
        ∃ q ∈ (x.recover s).recoveredProcs, (x.recover s).groups.userWorld[r]? = some q
      else (x.recover s).groups.userWorld[r]? = some p
    else (x.recover s).nspare = 0 := by
  have hm := h.manned
  have hm' : Manned size spares (x.recover s) failed' := (h.recover hr).manned
  obtain ⟨hrepaired, _, hworld⟩ := hm.repaired hr
  have hold := hm.assigned
  have hnodup := hold.held.nodup
  have hfailed : ∀ p ∈ x.groups.userProcs, (p ∉ s.world ↔ p ∈ failed') := fun p hp => by
    have hlt := ((hm.world_iff p).mp (hold.mem_live.mpr (Or.inl hp))).1
    rw [hworld, not_and_not_right]
    exact ⟨fun hin => hin hlt, fun hin _ => hin⟩
  have hmem : ∀ r, r ∈ (x.recover s).failList ↔ ∃ p, x.groups.userProcs[r]? = some p ∧ p ∈ failed' := by
    intro r
    change r ∈ (x.recover s).failProcs.map (fun p => x.groups.userProcs.idxOf p) ↔ _
    rw [List.mem_map]
    constructor
    · rintro ⟨p, hp, rfl⟩
      obtain ⟨hu, hdead⟩ := (mem_failProcs hrepaired).mp hp
      exact ⟨p, List.getElem?_idxOf hu, (hfailed p hu).mp hdead⟩
    · rintro ⟨p, hp, hin⟩
      have hu := List.mem_of_getElem? hp
      refine ⟨p, (mem_failProcs hrepaired).mpr ⟨hu, (hfailed p hu).mpr hin⟩, ?_⟩
      obtain ⟨hlt, rfl⟩ := List.getElem?_eq_some_iff.mp hp
      exact hnodup.idxOf_getElem r hlt
  rw [hm.userWorld, hm'.userWorld]
  refine ⟨?_, hmem, fun p hp => ?_, ?_, ?_, ?_, ?_⟩
  · change ((x.recover s).failProcs.map fun p => x.groups.userProcs.idxOf p).Pairwise (· < ·)
    exact List.pairwise_map.mpr ((Assignment.idxOf_pairwise hnodup).sublist List.filter_sublist)
  · unfold repairRole
    rcases recover_cases hrepaired hold hp with hcase | ⟨hs, hv, hin, hrole⟩ | ⟨hs, hin, _, hrole⟩
    · rw [if_pos hcase.1, hcase.2]
    · rw [if_neg hs, if_neg hv, if_pos hin, hrole]
    · rw [if_neg hs, if_pos hin, hrole]
  · have hlen : (x.recover s).failList.length = (x.recover s).failProcs.length := List.length_map _
    rw [hlen]
    exact failProcs_length hrepaired hold
  · have hall := hm'.assigned.shared.length_eq
    rw [List.length_append] at hall
    change _ = s.world.length at hall
    have hlimit := hm'.limit
    by_cases hspare : (x.recover s).groups.spareProcs = []
    · rw [hspare, List.length_nil] at hall
      omega
    · have hfull := hm'.manned hspare
      omega
  · have hkept := hrepaired.order_kept
    have hsame : x.groups.userProcs.filter (· ∈ s.world) = x.groups.userProcs.filter (· ∉ failed') :=
      List.filter_congr fun p hp => decide_eq_decide.mpr (not_iff_not.mp ((hfailed p hp).trans not_not.symm))
    rw [hsame] at hkept
    exact hkept
  · split
    next hsame =>
      intro r p hp
      have hplaces := userWorld_places hrepaired hsame hp
      have hu := List.mem_of_getElem? hp
      have hin : r ∈ (x.recover s).failList ↔ p ∈ failed' := by
        rw [hmem r]
        exact ⟨fun ⟨q, hq, hfail⟩ => Option.some.inj (hq.symm.trans hp) ▸ hfail, fun hfail => ⟨p, hp, hfail⟩⟩
      by_cases hfail : p ∈ failed'
      · rw [if_neg ((hfailed p hu).mpr hfail)] at hplaces
        rw [if_pos (hin.mpr hfail)]
        exact hplaces
      · rw [if_pos (not_not.mp fun hdead => hfail ((hfailed p hu).mp hdead))] at hplaces
        rw [if_neg fun hr => hfail (hin.mp hr)]
        exact hplaces
    next hne =>
      have hshrunk : s.userProcs.length ≤ x.groups.userProcs.length := hrepaired.shrunk
      have hlt : s.userProcs.length < x.groups.userProcs.length := Nat.lt_of_le_of_ne hshrunk hne
      exact List.length_eq_zero_iff.mpr (hrepaired.spent hlt)

/-- Of three ranks and a spare, rank 1 fails, and the spare after a round in which it was to replace it. -/
theorem failList_exact_again : ∃ x : ProcRoles, Reachable 4 1 x [1, 3] ∧ x.failList = [1] ∧ x.groups.userWorld = [0, 2] ∧
    x.nspare = 0 := by
  have hstart : Reachable 4 1 _ [] := .init (rfl : ProcState.preinit 4 1 = _) (.last [] rfl)
  have hrounds : ProcState.Rounds [0, 1, 2, 3] ⟨[0, 1, 2, 3], [0, 1, 2], [3], [], [some 0, some 1, some 2, none],
      [some 0, some 1, some 2], [0, 1, 2, 3], [0, 1, 2]⟩ [] _ [1, 3] := .again [1] rfl (.last [3] rfl)
  have hexact := (failList_exact hstart hrounds).2.2.2.2.2.2
  exact ⟨_, hstart.recover hrounds, rfl, rfl, hexact⟩

end ProcRoles

end Fenix
