import Fenix.ProcAssignment

namespace Fenix.ProcState

variable {size spares : Nat} {s s' : ProcState} {live world failed oldWorld : List Nat}

/-- The live processes are shared out between the user and the spare group. The spares are kept in
order, behind every process that was ever promoted. -/
structure Assigned (size : Nat) (s : ProcState) (live : List Nat) : Prop where
  procs_eq : s.procs = List.range size
  live_sublist : live.Sublist (List.range size)
  shared : (s.userProcs ++ s.spareProcs).Perm live
  dead_eq : s.deadProcs = s.procs.filter (· ∉ live)
  spares_sorted : s.spareProcs.Pairwise (· < ·)
  users_before : ∀ u ∈ s.userProcs, ∀ q ∈ s.spareProcs, u < q
  held : (Assignment.mk s.userProcs s.pidToRank s.rankToPid).Held
  length_pids : s.pidToRank.length = size

namespace Assigned

theorem mem_live (h : Assigned size s live) {p : Nat} : p ∈ live ↔ p ∈ s.userProcs ∨ p ∈ s.spareProcs := by
  rw [← h.shared.mem_iff, List.mem_append]

theorem lt_of_mem_live (h : Assigned size s live) {p : Nat} (hp : p ∈ live) : p < size :=
  List.mem_range.mp (h.live_sublist.subset hp)

theorem mem_procs (h : Assigned size s live) {p : Nat} (hp : p ∈ live) : p ∈ s.procs := by
  rw [h.procs_eq]
  exact List.mem_range.mpr (h.lt_of_mem_live hp)

theorem disjoint (h : Assigned size s live) {p : Nat} (hu : p ∈ s.userProcs) : p ∉ s.spareProcs := by
  intro hq
  exact Nat.lt_irrefl p (h.users_before p hu p hq)

theorem partition (h : Assigned size s live) :
    (s.userProcs ++ s.spareProcs ++ s.deadProcs).Perm (List.range size) := by
  refine (h.shared.append_right _).trans ?_
  rw [h.dead_eq, h.procs_eq]
  exact List.append_rest_perm List.nodup_range h.live_sublist

end Assigned

/-- What one round of a repair leaves of the groups. -/
structure Rebuilt (size : Nat) (s s' : ProcState) (world : List Nat) : Prop where
  assigned : Assigned size s' world
  world_eq : s'.world = world
  ranks_kept : ∀ r p : Nat, p ∈ world → s.rankToPid[r]? = some (some p) → s'.rankToPid[r]? = some (some p)
  order_kept : (s.userProcs.filter (· ∈ world)).Sublist s'.userProcs
  removed : s'.userProcs.length +
    ((s.userProcs.filter (· ∉ world)).length - (s.spareProcs.filter (· ∈ world)).length) = s.userProcs.length

theorem Assigned.rebuild_eq (h : Assigned size s live) (world : List Nat) :
    ∃ (c : Assignment) (removed : List Nat) (k : Nat),
      rebuildProcGroups { s with world := world } = .ok { s with
        world := world
        userProcs := c.userPids
        spareProcs := (s.spareProcs.filter (· ∈ world)).filter (· ∉ c.userPids)
        deadProcs := s.procs.filter (· ∉ world)
        pidToRank := c.pidToRank
        rankToPid := c.rankToPid } ∧
      Assignment.Change ⟨s.userProcs, s.pidToRank, s.rankToPid⟩ c removed
        ((s.spareProcs.filter (· ∈ world)).take k) ∧
      (∀ p, p ∈ removed ↔ p ∈ s.userProcs ∧ p ∉ world) ∧
      c.userPids.length + ((s.userProcs.filter (· ∉ world)).length -
        (s.spareProcs.filter (· ∈ world)).length) = s.userProcs.length := by
  have hdead : s.userProcs.filter (· ∈ s.procs.filter (· ∉ world)) = s.userProcs.filter (· ∉ world) := by
    refine List.filter_congr fun p hp => ?_
    simp [h.mem_procs (h.mem_live.mpr (Or.inl hp))]
  have hspare : s.spareProcs.filter (· ∉ s.procs.filter (· ∉ world)) = s.spareProcs.filter (· ∈ world) := by
    refine List.filter_congr fun p hp => ?_
    simp [h.mem_procs (h.mem_live.mpr (Or.inr hp))]
  have hnew : ∀ q ∈ s.spareProcs.filter (· ∈ world), q ∉ s.userProcs ∧ q < s.pidToRank.length := by
    intro q hq
    have hq := (List.mem_filter.mp hq).1
    refine ⟨fun hu => h.disjoint hu hq, ?_⟩
    rw [h.length_pids]
    exact h.lt_of_mem_live (h.mem_live.mpr (Or.inr hq))
  have hsorted : (s.spareProcs.filter (· ∈ world)).Pairwise (· < ·) := h.spares_sorted.filter _
  obtain ⟨b, c, hb, hc, hlen, hchange⟩ := h.held.rebuild_ok
    (s.userProcs.filter (· ∉ world)) List.filter_sublist (hsorted.imp Nat.ne_of_lt) hnew
  refine ⟨c, _, _, ?_, hchange, ?_, hlen⟩
  · rw [rebuildProcGroups]
    simp only [hdead, hspare]
    exact Except.bind_eq_ok_iff.mpr ⟨b, hb, Except.bind_eq_ok_iff.mpr ⟨c, hc, rfl⟩⟩
  · intro p
    rw [List.mem_append, List.mem_reverse, ← List.mem_append, List.take_append_drop, List.mem_filter,
      decide_eq_true_eq]

theorem Assigned.rebuild (h : Assigned size s live) (hw : world.Sublist live) :
    ∃ s', rebuildProcGroups { s with world := world } = .ok s' ∧ Rebuilt size s s' world := by
  obtain ⟨c, removed, k, heq, hchange, hremoved, hlen⟩ := h.rebuild_eq world
  refine ⟨_, heq, ?_⟩
  set spare := s.spareProcs.filter (· ∈ world) with hspare
  have hsorted : spare.Pairwise (· < ·) := h.spares_sorted.filter _
  have hmem : ∀ p, p ∈ c.userPids ↔ p ∈ s.userProcs ∧ p ∈ world ∨ p ∈ spare.take k := by
    intro p
    rw [hchange.mem_iff, hremoved]
    tauto
  have hspares : ∀ q, q ∈ spare ↔ q ∈ s.spareProcs ∧ q ∈ world := by
    intro q
    rw [hspare, List.mem_filter, decide_eq_true_eq]
  constructor
  case assigned =>
    constructor
    case procs_eq => exact h.procs_eq
    case live_sublist => exact hw.trans h.live_sublist
    case shared =>
      have hn := List.nodup_range.sublist (hw.trans h.live_sublist)
      refine (List.perm_ext_iff_of_nodup ?_ hn).mpr fun p => ?_
      · refine hchange.held.nodup.append ((hsorted.imp Nat.ne_of_lt).filter _) fun p hp hq => ?_
        exact absurd hp (of_decide_eq_true (List.mem_filter.mp hq).2)
      · have hin : p ∈ spare.take k → p ∈ spare := List.mem_of_mem_take
        have hlive := h.mem_live (p := p)
        have hworld : p ∈ world → p ∈ live := fun hp => hw.subset hp
        rw [List.mem_append, List.mem_filter, decide_eq_true_eq, hmem]
        rw [hspares] at hin ⊢
        tauto
    case dead_eq => rfl
    case spares_sorted => exact hsorted.filter _
    case users_before =>
      intro u hu q hq
      obtain ⟨hq, hqu⟩ := List.mem_filter.mp hq
      have hqu := of_decide_eq_true hqu
      rcases (hmem u).mp hu with hold | hnew
      · exact h.users_before u hold.1 q ((hspares q).mp hq).1
      · have hdrop : q ∈ spare.drop k := by
          rw [← List.take_append_drop k spare, List.mem_append] at hq
          exact hq.resolve_left fun hin => hqu ((hmem q).mpr (Or.inr hin))
        rw [← List.take_append_drop k spare] at hsorted
        exact (List.pairwise_append.mp hsorted).2.2 u hnew q hdrop
    case held => exact hchange.held
    case length_pids => exact hchange.length_pids.trans h.length_pids
  case world_eq => rfl
  case ranks_kept =>
    intro r p hp hr
    exact hchange.keeps r p (fun hin => ((hremoved p).mp hin).2 hp) hr
  case order_kept =>
    have hkept : s.userProcs.filter (fun p => decide (p ∈ s.userProcs ∧ p ∈ world)) =
        s.userProcs.filter (· ∈ world) := by
      refine List.filter_congr fun p hp => ?_
      simp [hp]
    rw [← hkept, ← hchange.order (fun p => decide (p ∈ s.userProcs ∧ p ∈ world)) ?_ ?_]
    · exact List.filter_sublist
    · intro p hp
      have hp := (hremoved p).mp hp
      exact decide_eq_false fun hin => hp.2 hin.2
    · intro p hp
      have hp := (hspares p).mp (List.mem_of_mem_take hp)
      exact decide_eq_false fun hin => h.disjoint hin.1 hp.1
  case removed => exact hlen

/-- A round of a repair succeeds whatever failed meanwhile. -/
theorem Assigned.attempt (h : Assigned size s (shrinkComm oldWorld failed)) (more : List Nat) :
    ∃ s', s.attempt oldWorld (failed ++ more) = .ok s' ∧
      Rebuilt size s s' (shrinkComm oldWorld (failed ++ more)) := by
  refine h.rebuild ?_
  unfold shrinkComm
  refine List.monotone_filter_right oldWorld fun p hp => ?_
  simp only [List.mem_append, not_or, decide_eq_true_eq] at hp ⊢
  exact hp.1

theorem preinit_assigned (h : preinit size spares = .ok s) : Assigned size s (shrinkComm s.procs []) := by
  unfold preinit at h
  split at h
  next => cases h
  next hlt =>
    have hsub : (List.range (size - spares)).Sublist (List.range size) :=
      List.range_sublist.mpr (Nat.sub_le ..)
    cases Except.ok.inj h
    have hall : shrinkComm (List.range size) [] = List.range size := by
      unfold shrinkComm
      exact List.filter_eq_self.mpr fun p _ => by simp
    rw [hall]
    constructor
    case procs_eq => rfl
    case live_sublist => exact List.Sublist.refl _
    case shared => exact List.append_rest_perm List.nodup_range hsub
    case dead_eq => exact (List.filter_eq_nil_iff.mpr fun p hp => by simpa using hp).symm
    case spares_sorted => exact List.pairwise_lt_range.filter _
    case users_before =>
      intro u hu q hq
      have hq := of_decide_eq_true (List.mem_filter.mp hq).2
      rw [List.mem_range] at hu hq
      omega
    case held =>
      constructor
      case filled => simp [List.reduceOption, List.filterMap_map]
      case nodup => exact List.nodup_range
      case ranked =>
        intro r p hr
        obtain ⟨hlen, hr⟩ := List.getElem?_eq_some_iff.mp hr
        rw [List.length_map, List.length_range] at hlen
        rw [List.getElem_map, List.getElem_range] at hr
        cases Option.some.inj hr
        rw [List.getElem?_map, List.getElem?_range (by omega), Option.map_some, if_pos hlen]
    case length_pids => simp

theorem Reachable.assigned (h : Reachable size spares s failed oldWorld) :
    Assigned size s (shrinkComm oldWorld failed) := by
  induction h with
  | preinit h => exact preinit_assigned h
  | retry more _ h ih =>
    obtain ⟨s', hs', hr⟩ := ih.attempt more
    cases Except.ok.inj (h.symm.trans hs')
    exact hr.assigned
  | @repair _ s' failed _ more _ h ih =>
    obtain ⟨t, hs', hr⟩ := ih.attempt more
    cases Except.ok.inj (h.symm.trans hs')
    have hworld : shrinkComm s'.world (failed ++ more) = s'.world := by
      rw [hr.world_eq, shrinkComm, shrinkComm, List.filter_filter]
      simp
    have ha := hr.assigned
    rw [← hr.world_eq] at ha
    rw [hworld]
    exact ⟨ha.procs_eq, ha.live_sublist, ha.shared, ha.dead_eq, ha.spares_sorted, ha.users_before, ha.held,
      ha.length_pids⟩

theorem Reachable.attempt (h : Reachable size spares s failed oldWorld) (more : List Nat) :
    ∃ s', s.attempt oldWorld (failed ++ more) = .ok s' ∧
      Rebuilt size s s' (shrinkComm oldWorld (failed ++ more)) := h.assigned.attempt more

/-- The groups and ranks that every round of every repair leaves. The dead are those who were not in the world any more,
or have failed in this repair. -/
theorem rebuild_assigns_ranks (h : Reachable size spares s failed oldWorld) (more : List Nat) :
    ∃ s', s.attempt oldWorld (failed ++ more) = .ok s' ∧
      (s'.userProcs ++ s'.spareProcs ++ s'.deadProcs).Perm (List.range size) ∧
      s'.rankToPid.reduceOption = s'.userProcs ∧
      (∀ r p : Nat, s'.rankToPid[r]? = some (some p) → s'.pidToRank[p]? = some (some r)) ∧
      (∀ r p : Nat, p ∉ failed ++ more → s.rankToPid[r]? = some (some p) →
        s'.rankToPid[r]? = some (some p)) ∧
      (s.userProcs.filter (· ∉ failed ++ more)).Sublist s'.userProcs ∧
      s'.userProcs.length + ((s.userProcs.filter (· ∈ failed ++ more)).length -
        (s.spareProcs.filter (· ∉ failed ++ more)).length) = s.userProcs.length ∧
      ∀ p : Nat, p ∈ s'.deadProcs ↔ p < size ∧ (p ∈ oldWorld → p ∈ failed ++ more) := by
  obtain ⟨s', hs', hr⟩ := h.attempt more
  have hold : ∀ p, p ∈ s.userProcs ∨ p ∈ s.spareProcs → p ∈ oldWorld := by
    intro p hp
    exact (List.mem_filter.mp (h.assigned.mem_live.mpr hp)).1
  have hworld : ∀ p, p ∈ s.userProcs ∨ p ∈ s.spareProcs →
      (p ∈ shrinkComm oldWorld (failed ++ more) ↔ p ∉ failed ++ more) := by
    intro p hp
    rw [shrinkComm, List.mem_filter, decide_eq_true_eq, and_iff_right (hold p hp)]
  have husers : s.userProcs.filter (· ∈ shrinkComm oldWorld (failed ++ more)) =
      s.userProcs.filter (· ∉ failed ++ more) :=
    List.filter_congr fun p hp => by rw [decide_eq_decide]; exact hworld p (Or.inl hp)
  have hdead : s.userProcs.filter (· ∉ shrinkComm oldWorld (failed ++ more)) =
      s.userProcs.filter (· ∈ failed ++ more) :=
    List.filter_congr fun p hp => by rw [decide_eq_decide, hworld p (Or.inl hp), not_not]
  have hspares : s.spareProcs.filter (· ∈ shrinkComm oldWorld (failed ++ more)) =
      s.spareProcs.filter (· ∉ failed ++ more) :=
    List.filter_congr fun p hp => by rw [decide_eq_decide]; exact hworld p (Or.inr hp)
  have horder := hr.order_kept
  have hremoved := hr.removed
  rw [husers] at horder
  rw [hdead, hspares] at hremoved
  refine ⟨s', hs', hr.assigned.partition, hr.assigned.held.filled, ?_, ?_, horder, hremoved, fun p => ?_⟩
  · intro r p hp
    exact hr.assigned.held.ranked hp
  · intro r p hp hget
    have hfilled : s.rankToPid.reduceOption = s.userProcs := h.assigned.held.filled
    have hin : p ∈ s.userProcs := by
      rw [← hfilled]
      exact List.mem_reduceOption_iff_getElem?.mpr ⟨r, hget⟩
    exact hr.ranks_kept r p ((hworld p (Or.inl hin)).mpr hp) hget
  · rw [hr.assigned.dead_eq, List.mem_filter, decide_eq_true_eq, hr.assigned.procs_eq, List.mem_range, shrinkComm,
      List.mem_filter, decide_eq_true_eq, not_and_not_right]

theorem rebuild_assigns_ranks_promoted : ∃ s',
    ProcState.attempt ⟨[0, 1, 2, 3], [0, 3, 2], [], [1], [some 0, some 1, some 2, some 1], [some 0, some 3, some 2],
      [0, 2, 3], []⟩ [0, 1, 2, 3] ([1] ++ [3]) = .ok s' ∧
      (s'.userProcs ++ s'.spareProcs ++ s'.deadProcs).Perm (List.range 4) ∧
      s'.rankToPid.reduceOption = s'.userProcs ∧
      (∀ r p : Nat, s'.rankToPid[r]? = some (some p) → s'.pidToRank[p]? = some (some r)) ∧
      (∀ r p : Nat, p ∉ [1] ++ [3] → [some 0, some 3, some 2][r]? = some (some p) →
        s'.rankToPid[r]? = some (some p)) ∧
      ([0, 3, 2].filter (· ∉ [1] ++ [3])).Sublist s'.userProcs ∧
      s'.userProcs.length + (([0, 3, 2].filter (· ∈ [1] ++ [3])).length -
        (([] : List Nat).filter (· ∉ [1] ++ [3])).length) = [0, 3, 2].length ∧
      ∀ p : Nat, p ∈ s'.deadProcs ↔ p < 4 ∧ (p ∈ [0, 1, 2, 3] → p ∈ [1] ++ [3]) :=
  rebuild_assigns_ranks (.retry [1] (.preinit (rfl : preinit 4 1 = _)) rfl) [3]

/-- The world ranks that the end of `Fenix_Finalize` sends to. -/
def notified (s : ProcState) : List Nat :=
  let firstSpareRank := s.userWorld.length
  List.range' firstSpareRank (s.world.length - firstSpareRank)

/-- The spares are the last processes of the world. -/
theorem Assigned.spares_last (h : Assigned size s live) : live.drop s.userProcs.length = s.spareProcs := by
  have hlive : live.Pairwise (· < ·) := List.pairwise_lt_range.sublist h.live_sublist
  have hn : live.Nodup := hlive.imp Nat.ne_of_lt
  have husers : (live.filter (· ∈ s.userProcs)).Perm s.userProcs := by
    refine (List.perm_ext_iff_of_nodup (hn.filter _) h.held.nodup).mpr fun p => ?_
    rw [List.mem_filter, decide_eq_true_eq, and_iff_right_of_imp fun hp => h.mem_live.mpr (Or.inl hp)]
  have hsplit : live.filter (· ∈ s.userProcs) ++ s.spareProcs = live := by
    refine ((husers.append_right _).trans h.shared).eq_of_pairwise ?_ ?_ hlive
    · intro p q _ _ hpq hqp
      omega
    · refine List.pairwise_append.mpr ⟨hlive.filter _, h.spares_sorted, fun p hp q hq => ?_⟩
      exact h.users_before p (of_decide_eq_true (List.mem_filter.mp hp).2) q hq
  rw [← hsplit, ← husers.length_eq, List.drop_left]

/-- After every repair the ranks that `Fenix_Finalize` notifies are those of the waiting spares. -/
theorem notified_spares (h : Reachable size spares s failed oldWorld) (more : List Nat)
    (hs : s.attempt oldWorld (failed ++ more) = .ok s') :
    s'.buildActiveWorlds.notified.map (s'.world[·]?) = s'.spareProcs.map some ∧
      (∀ r p : Nat, s'.world[r]? = some p → (r ∈ s'.buildActiveWorlds.notified ↔ p ∈ s'.spareProcs)) ∧
      ∀ p ∈ s'.userProcs, ∀ r ∈ s'.buildActiveWorlds.notified, s'.world[r]? ≠ some p := by
  obtain ⟨t, ht, hr⟩ := h.attempt more
  cases Except.ok.inj (hs.symm.trans ht)
  have ha : Assigned size s' s'.world := hr.world_eq ▸ hr.assigned
  have hn : s'.world.Nodup := List.nodup_range.sublist ha.live_sublist
  have hmem : ∀ r p : Nat, s'.world[r]? = some p →
      (r ∈ s'.buildActiveWorlds.notified ↔ p ∈ s'.spareProcs) := by
    intro r p hp
    obtain ⟨hlt, hp⟩ := List.getElem?_eq_some_iff.mp hp
    have hin : r ∈ s'.buildActiveWorlds.notified ↔ s'.userProcs.length ≤ r := by
      change r ∈ List.range' s'.userProcs.length (s'.world.length - s'.userProcs.length) ↔ _
      rw [List.mem_range'_1]
      omega
    rw [hin, ← ha.spares_last, List.mem_drop_iff_getElem]
    constructor
    · intro hle
      refine ⟨r - s'.userProcs.length, by omega, ?_⟩
      rw [← hp]
      congr 1
      omega
    · rintro ⟨j, hj, hget⟩
      have heq := hn.getElem_inj_iff.mp (hget.trans hp.symm)
      omega
  refine ⟨?_, hmem, ?_⟩
  · rw [← ha.spares_last]
    exact List.map_getElem?_range' _
  · intro p hp r hr hget
    exact ha.disjoint hp ((hmem r p hget).mp hr)

theorem notified_spares_promoted :
    let s' : ProcState := ⟨[0, 1, 2, 3, 4], [0, 3, 2], [4], [1], [some 0, some 1, some 2, some 1, none],
      [some 0, some 3, some 2], [0, 2, 3, 4], []⟩
    s'.buildActiveWorlds.notified.map (s'.world[·]?) = s'.spareProcs.map some ∧
      (∀ r p : Nat, s'.world[r]? = some p → (r ∈ s'.buildActiveWorlds.notified ↔ p ∈ s'.spareProcs)) ∧
      ∀ p ∈ s'.userProcs, ∀ r ∈ s'.buildActiveWorlds.notified, s'.world[r]? ≠ some p :=
  notified_spares (.preinit (rfl : preinit 5 2 = _)) [1] rfl

end Fenix.ProcState
