import Fenix.CommLogRestore

namespace Fenix.CommLog

/-- The region that a collective is called in, set up if there is none yet. -/
def enterRegion (c : CommLog) : Except Abort CommLog :=
  if c.region.Valid then .ok c else c.appendRegion (.starting c.activeRegion 0)

/-- The syncs that the application makes in a recovery. -/
def recover (c : CommLog) : List SyncInput → Except Abort CommLog
  | [] => .ok c
  | i :: rest => do
    let (c, _) ← c.resetConsistency i
    c.recover rest

/-- A collective fails where the recovery of the log is manual: the error is returned after the recovery, and the
collective is not the active one any more. -/
def failCollective (c : CommLog) (op : CollectiveOp) (recovery : List SyncInput) : Except Abort CommLog := do
  let c ← c.startCollective op
  let c ← c.recover recovery
  return { c with activeOp := none }

/-- A log after a failed collective is as it would be if the collective had not been called. -/
structure Unchanged (failed spared : CommLog) : Prop where
  next : failed.region.next = spared.region.next
  collectives : failed.collectives = spared.collectives
  activeOp : failed.activeOp = spared.activeOp

/-- The first sync that does not just continue goes back to the active region or an earlier one, or it is the last one,
goes to a later region and has the collective exchange. -/
def Rewinds (c : CommLog) (recovery : List SyncInput) : Prop :=
  ∃ before i after, recovery = before ++ i :: after ∧ (∀ j ∈ before, j.target = -1) ∧ 0 ≤ i.target ∧
    (i.target ≤ c.activeRegion ∨ after = [] ∧ i.collective.isSome)

/-- Two logs tell the same about the traffic with peers. -/
structure SameTraffic (a b : CommLog) : Prop where
  maxRegions : b.maxRegions = a.maxRegions
  activeRegion : b.activeRegion = a.activeRegion
  rankLogs : b.rankLogs = a.rankLogs

/-- Two logs tell the same but for the collective that is active. -/
structure Agree (a b : CommLog) : Prop extends SameTraffic a b where
  regions : b.regions = a.regions
  collectives : b.collectives = a.collectives

/-- A log and what it is with one more index taken. -/
structure Begun (a b : CommLog) : Prop extends SameTraffic a b where
  valid : a.region.Valid
  own : a.Ordered
  regions : b.regions = a.regions.setCur { a.region with next := a.region.next + 1 }
  collectives : b.collectives = a.collectives

/-- An operation leaves the collectives of a log alone. -/
structure KeepsCollectives (c c' : CommLog) : Prop where
  maxRegions : c'.maxRegions = c.maxRegions
  activeRegion : c'.activeRegion = c.activeRegion
  regions : c'.regions = c.regions
  collectives : c'.collectives = c.collectives
  activeOp : c'.activeOp = c.activeOp

variable {a b c a' b' c' : CommLog} {t : Int} {i : SyncInput} {o o' : SyncOutput} {ps : List (Int × Window Region)}
  {os os' : List Offer} {ans : Option CollectiveAnswer}

section Traffic

theorem exchangeAll_keeps (h : c.exchangeAll ps = .ok (c', os)) : KeepsCollectives c c' := by
  induction ps generalizing c os with
  | nil =>
    cases Except.ok.inj h
    exact ⟨rfl, rfl, rfl, rfl, rfl⟩
  | cons p ps ih =>
    obtain ⟨⟨m, o⟩, hm, h⟩ := Except.bind_eq_ok_iff.mp h
    obtain ⟨⟨f, os'⟩, hf, h⟩ := Except.bind_eq_ok_iff.mp h
    cases Except.ok.inj h
    obtain ⟨_, l, _, rfl⟩ := onLog_eq hm
    have hk := ih hf
    exact ⟨hk.maxRegions, hk.activeRegion, hk.regions, hk.collectives, hk.activeOp⟩

theorem SameTraffic.exchangeAll (h : SameTraffic a b) (ha : a.exchangeAll ps = .ok (a', os))
    (hb : b.exchangeAll ps = .ok (b', os')) : SameTraffic a' b' := by
  induction ps generalizing a b os os' with
  | nil =>
    cases Except.ok.inj ha
    cases Except.ok.inj hb
    exact h
  | cons p ps ih =>
    obtain ⟨⟨m, o⟩, hm, ha⟩ := Except.bind_eq_ok_iff.mp ha
    obtain ⟨⟨f, _⟩, hf, ha⟩ := Except.bind_eq_ok_iff.mp ha
    obtain ⟨⟨m', o'⟩, hm', hb⟩ := Except.bind_eq_ok_iff.mp hb
    obtain ⟨⟨f', _⟩, hf', hb⟩ := Except.bind_eq_ok_iff.mp hb
    cases Except.ok.inj ha
    cases Except.ok.inj hb
    refine ih ?_ hf hf'
    obtain ⟨_, l, hl, rfl⟩ := onLog_eq hm
    obtain ⟨_, l', hl', rfl⟩ := onLog_eq hm'
    have hlogs : b.logs p.1 = a.logs p.1 := by
      unfold logs
      rw [h.rankLogs, h.maxRegions]
    rw [hlogs, h.activeRegion, hl] at hl'
    cases Except.ok.inj hl'
    refine ⟨h.maxRegions, h.activeRegion, ?_⟩
    change b.rankLogs.put l = a.rankLogs.put l
    rw [h.rankLogs]

/-- The parts of a sync. -/
theorem resetConsistency_parts (h : c.resetConsistency i = .ok (c', o)) : ∃ r e os, c.resetLocal i.target = .ok r ∧
    r.exchangeAll i.peers = .ok (e, os) ∧ e.formCollective i.collective = .ok c' := by
  obtain ⟨r, hr, h⟩ := Except.bind_eq_ok_iff.mp h
  obtain ⟨⟨e, os⟩, he, h⟩ := Except.bind_eq_ok_iff.mp h
  obtain ⟨f, hf, h⟩ := Except.bind_eq_ok_iff.mp h
  obtain ⟨xs, _, h⟩ := Except.bind_eq_ok_iff.mp h
  cases Except.ok.inj h
  exact ⟨r, e, os, hr, he, hf⟩

end Traffic

theorem resetConsistency_activeOp (h : c.resetConsistency i = .ok (c', o)) : c'.activeOp = c.activeOp := by
  obtain ⟨r, e, os, hr, he, hf⟩ := resetConsistency_parts h
  have hreset : r.activeOp = c.activeOp := by
    rcases resetLocal_resets hr with ⟨_, rfl⟩ | ⟨_, ls, _, hres⟩
    · rfl
    · exact (onlyCollectives_resets hres).activeOp
  rw [← hreset, ← (exchangeAll_keeps he).activeOp]
  cases hc : i.collective with
  | none =>
    rw [hc] at hf
    cases Except.ok.inj hf
    rfl
  | some ans =>
    rw [hc] at hf
    obtain ⟨m, hm, hf⟩ := Except.bind_eq_ok_iff.mp hf
    cases Except.ok.inj hf
    exact (onlyCollectives_align hm).activeOp

theorem recover_activeOp {recovery : List SyncInput} (h : c.recover recovery = .ok c') : c'.activeOp = c.activeOp := by
  induction recovery generalizing c with
  | nil =>
    cases Except.ok.inj h
    rfl
  | cons i rest ih =>
    obtain ⟨⟨m, o⟩, hm, h⟩ := Except.bind_eq_ok_iff.mp h
    rw [ih h, resetConsistency_activeOp hm]

theorem recover_append (c : CommLog) (xs ys : List SyncInput) :
    c.recover (xs ++ ys) = c.recover xs >>= fun c => c.recover ys := by
  induction xs generalizing c with
  | nil => rfl
  | cons i xs ih =>
    change (c.resetConsistency i >>= fun p => p.1.recover (xs ++ ys)) =
      (c.resetConsistency i >>= fun p => p.1.recover xs) >>= fun c => c.recover ys
    cases c.resetConsistency i with
    | error e => rfl
    | ok p => exact ih p.1

section Agreement

theorem Agree.eq_graft (h : Agree a b) : b = b.graft a := by
  obtain ⟨_, _, _, _, _, _, _, _, _⟩ := a
  obtain ⟨_, _, _, _, _, _, _, _, _⟩ := b
  obtain ⟨⟨h₁, h₂, _⟩, h₃, h₄⟩ := h
  simp only at h₁ h₂ h₃ h₄
  subst h₁ h₂ h₃ h₄
  rfl

theorem Agree.resetLocal (h : Agree a b) (ha : a.resetLocal t = .ok a') (hb : b.resetLocal t = .ok b') :
    Agree a' b' := by
  rcases resetLocal_resets ha with ⟨ht, rfl⟩ | ⟨ht, ls, hls, hres⟩
  · subst ht
    cases Except.ok.inj ((resetLocal_continue b).symm.trans hb)
    exact h
  · rcases resetLocal_resets hb with ⟨ht', _⟩ | ⟨_, ls', hls', hres'⟩
    · omega
    · rw [h.rankLogs, hls] at hls'
      cases Except.ok.inj hls'
      have hagree : Agree { a with rankLogs := ls, activeRegion := t } { b with rankLogs := ls, activeRegion := t } :=
        ⟨⟨h.maxRegions, rfl, rfl⟩, h.regions, h.collectives⟩
      have hb' := (resetCollectives_ok_iff ht).mpr hres'
      rw [hagree.eq_graft, resetCollectives_graft, (resetCollectives_ok_iff ht).mpr hres] at hb'
      cases Except.ok.inj hb'
      have honly := onlyCollectives_resets hres
      exact ⟨⟨rfl, rfl, honly.rankLogs.symm⟩, rfl, rfl⟩

theorem Agree.exchangeAll (h : Agree a b) (ha : a.exchangeAll ps = .ok (a', os))
    (hb : b.exchangeAll ps = .ok (b', os')) : Agree a' b' := by
  have hka := exchangeAll_keeps ha
  have hkb := exchangeAll_keeps hb
  exact ⟨h.toSameTraffic.exchangeAll ha hb, hkb.regions.trans (h.regions.trans hka.regions.symm),
    hkb.collectives.trans (h.collectives.trans hka.collectives.symm)⟩

theorem Agree.formCollective (h : Agree a b) (ha : a.formCollective ans = .ok a') (hb : b.formCollective ans = .ok b') :
    Agree a' b' := by
  cases ans with
  | none =>
    cases Except.ok.inj ha
    cases Except.ok.inj hb
    exact h
  | some ans =>
    obtain ⟨m, hm, ha⟩ := Except.bind_eq_ok_iff.mp ha
    obtain ⟨m', hm', hb⟩ := Except.bind_eq_ok_iff.mp hb
    cases Except.ok.inj ha
    cases Except.ok.inj hb
    rw [h.eq_graft, alignRegion_graft, hm] at hm'
    cases Except.ok.inj hm'
    exact ⟨⟨rfl, rfl, h.rankLogs.trans (onlyCollectives_align hm).rankLogs.symm⟩, rfl, rfl⟩

theorem Agree.resetConsistency (h : Agree a b) (ha : a.resetConsistency i = .ok (a', o))
    (hb : b.resetConsistency i = .ok (b', o')) : Agree a' b' := by
  obtain ⟨r, e, os, hr, he, hf⟩ := resetConsistency_parts ha
  obtain ⟨r', e', os', hr', he', hf'⟩ := resetConsistency_parts hb
  exact ((h.resetLocal hr hr').exchangeAll he he').formCollective hf hf'

/-- Two logs that agree still do after the same recovery. -/
theorem Agree.recover {recovery : List SyncInput} (h : Agree a b) (ha : a.recover recovery = .ok a')
    (hb : b.recover recovery = .ok b') : Agree a' b' := by
  induction recovery generalizing a b with
  | nil =>
    cases Except.ok.inj ha
    cases Except.ok.inj hb
    exact h
  | cons i rest ih =>
    obtain ⟨⟨m, o⟩, hm, ha⟩ := Except.bind_eq_ok_iff.mp ha
    obtain ⟨⟨m', o'⟩, hm', hb⟩ := Except.bind_eq_ok_iff.mp hb
    exact ih (h.resetConsistency hm hm') ha hb

end Agreement

section Shift

variable {m : CRegion} {latestIdx : Int} {latest : Window CRegion}

/-- Where a region fits, and another of the same id that is in use and has a different next index, that one is kept and
has the first index of the root. -/
theorem alignment_pair {m' : CRegion} {x y : Alignment} (hv : m.Valid) (hv' : m'.Valid) (hid : m'.id = m.id)
    (hused : ¬m'.Fresh) (hnext : m'.next ≠ m.next) (hx : alignment m latestIdx latest = .ok x)
    (hy : alignment m' latestIdx latest = .ok y) :
    y = .keep ∧ (m.Fresh ∧ x = .restart m'.first ∨ m.first = m'.first ∧ x = .keep) := by
  have hused : ¬(¬m'.Valid ∨ m'.Fresh) := not_or.mpr ⟨not_not.mpr hv', hused⟩
  have hfound : ∀ idx, (if ¬m.Valid ∨ m.Fresh then Except.ok (Alignment.restart idx)
      else if m.first ≠ idx then .error Abort.regionConflictsWithRoot else .ok .keep) = .ok x →
      (if m'.first ≠ idx then .error Abort.regionConflictsWithRoot else .ok Alignment.keep) = Except.ok y →
      y = .keep ∧ (m.Fresh ∧ x = .restart m'.first ∨ m.first = m'.first ∧ x = .keep) := by
    intro idx hx hy
    split at hy
    next => cases hy
    next hfirst =>
      rw [not_not] at hfirst
      refine ⟨(Except.ok.inj hy).symm, ?_⟩
      split at hx
      next hf => exact Or.inl ⟨hf.resolve_left (not_not.mpr hv), hfirst ▸ (Except.ok.inj hx).symm⟩
      next =>
        split at hx
        next => cases hx
        next heq => exact Or.inr ⟨(not_not.mp heq).trans hfirst.symm, (Except.ok.inj hx).symm⟩
  unfold alignment at hx hy
  rw [hid] at hy
  cases hl : latest.lowerBound CRegion.id m.id with
  | none =>
    rw [hl] at hx hy
    dsimp only at hx hy
    rw [if_neg hused] at hy
    exact hfound _ hx hy
  | some it =>
    rw [hl] at hx hy
    dsimp only at hx hy
    by_cases hsame : it.id = m.id
    · rw [if_neg (not_not.mpr hsame)] at hx hy
      rw [if_neg hused] at hy
      exact hfound _ hx hy
    · rw [if_pos hsame] at hx hy
      split at hx
      next => cases hx
      next hbefore =>
        rw [if_neg hbefore] at hy
        split at hx
        next => cases hx
        next hfirst =>
          split at hy
          next => cases hy
          next hfirst' =>
            rw [not_or, not_not, not_not] at hfirst hfirst'
            exact absurd (hfirst'.2.trans hfirst.2.symm) hnext

theorem Begun.region (h : Begun a b) : b.region = { a.region with next := a.region.next + 1 } := by
  unfold CommLog.region
  rw [h.regions, Window.cur_setCur]
  rfl

theorem Begun.region_valid (h : Begun a b) : b.region.Valid := by
  rw [h.region]
  exact ⟨h.valid.1, h.valid.2.1, Int.le_trans h.valid.2.2 (Int.le_of_lt (Int.lt_succ _))⟩

theorem seekRegion_eq (hv : c.region.Valid) : c.seekRegion = c.region := if_pos hv

/-- Where both logs continue, the one stays ahead of the other. -/
theorem Begun.continue (h : Begun a b) (ht : i.target = -1) (ha : a.resetConsistency i = .ok (a', o))
    (hb : b.resetConsistency i = .ok (b', o')) : Begun a' b' ∧ a'.region = a.region := by
  obtain ⟨r, e, os, hr, he, hf⟩ := resetConsistency_parts ha
  obtain ⟨r', e', os', hr', he', hf'⟩ := resetConsistency_parts hb
  rw [ht] at hr hr'
  cases Except.ok.inj ((resetLocal_continue a).symm.trans hr)
  cases Except.ok.inj ((resetLocal_continue b).symm.trans hr')
  have hka := exchangeAll_keeps he
  have hkb := exchangeAll_keeps he'
  have htraffic := h.toSameTraffic.exchangeAll he he'
  have hreg : e.region = a.region := congrArg Window.cur hka.regions
  have hexchanged : Begun e e' := by
    refine ⟨htraffic, hreg ▸ h.valid, h.own.of_same hka.regions hka.collectives, ?_, ?_⟩
    · rw [hkb.regions, h.regions, hka.regions, hreg]
    · rw [hkb.collectives, h.collectives, hka.collectives]
  cases hc : i.collective with
  | none =>
    rw [hc] at hf hf'
    cases Except.ok.inj hf
    cases Except.ok.inj hf'
    exact ⟨hexchanged, hreg⟩
  | some ans =>
    rw [hc] at hf hf'
    obtain ⟨m, hm, hf⟩ := Except.bind_eq_ok_iff.mp hf
    obtain ⟨m', hm', hf'⟩ := Except.bind_eq_ok_iff.mp hf'
    cases Except.ok.inj hf
    cases Except.ok.inj hf'
    obtain ⟨x, hx, hm⟩ := Except.bind_eq_ok_iff.mp hm
    obtain ⟨y, hy, hm'⟩ := Except.bind_eq_ok_iff.mp hm'
    rw [seekRegion_eq hexchanged.valid] at hx
    rw [seekRegion_eq hexchanged.region_valid, hexchanged.region] at hy
    have hle := (hexchanged.own.shaped _ region_mem).first_le_next
    have hnext : e.region.next + 1 ≠ e.region.next := by omega
    have hused : ¬({ e.region with next := e.region.next + 1 } : CRegion).Fresh := fun hf => by
      have heq := hf.1.2
      change e.region.first = e.region.next + 1 at heq
      omega
    have hv := hexchanged.region_valid
    rw [hexchanged.region] at hv
    obtain ⟨rfl, hkeep⟩ := alignment_pair hexchanged.valid hv rfl hused hnext hx hy
    cases Except.ok.inj hm'
    have hsame : m = e := by
      rcases hkeep with ⟨⟨⟨_, hnext⟩, _⟩, rfl⟩ | ⟨_, rfl⟩
      · have hcur : CRegion.starting e.seekRegion.id e.region.first = e.region := by
          rw [seekRegion_eq hexchanged.valid]
          exact congrArg (CRegion.mk e.region.id e.region.first) hnext
        cases Except.ok.inj hm
        exact congrArg e.setRegion hcur
      · exact (Except.ok.inj hm).symm
    subst hsame
    exact ⟨⟨⟨htraffic.1, htraffic.2, htraffic.3⟩, hexchanged.valid, hexchanged.own.of_same rfl rfl, hexchanged.regions,
      hexchanged.collectives⟩, hreg⟩

/-- The collectives that a region holds are erased all the same with one more index. -/
theorem holds_begun (h : a.Ordered) {x : CollectiveLog} (hx : x ∈ a.collectives) :
    ({ a.region with next := a.region.next + 1 } : CRegion).Holds x.idx ↔ a.region.Holds x.idx := by
  have hlt := idx_lt_next h hx
  constructor
  · rintro ⟨hv, hlo, _⟩
    refine ⟨⟨hv.1, hv.2.1, ?_⟩, hlo, hlt⟩
    have := hv.2.1
    change a.region.first ≤ x.idx at hlo
    change 0 ≤ a.region.first at this
    omega
  · rintro ⟨hv, hlo, hhi⟩
    have hnext := hv.2.2
    exact ⟨⟨hv.1, hv.2.1, by change 0 ≤ a.region.next + 1; omega⟩, hlo, Int.lt_trans hhi (Int.lt_succ _)⟩

/-- A reset to the region that the index was taken in, or to an earlier one, gives it back. -/
theorem Begun.resets_rewound (h : Begun a b) (ht : t ≤ a.region.id) (ha : ResetsCollectives a t a')
    (hb : ResetsCollectives b t b') : Agree a' b' := by
  have hreg := h.region
  have hid : b.region.id = a.region.id := by rw [hreg]
  have honly := onlyCollectives_resets ha
  have honly' := onlyCollectives_resets hb
  have htraffic : SameTraffic a' b' := ⟨honly'.maxRegions.trans (h.maxRegions.trans honly.maxRegions.symm),
    honly'.activeRegion.trans (h.activeRegion.trans honly.activeRegion.symm),
    honly'.rankLogs.trans (h.rankLogs.trans honly.rankLogs.symm)⟩
  cases ha with
  | invalid hv => exact absurd h.valid hv
  | next _ hgt => omega
  | older _ hlt =>
    cases hb with
    | invalid hv => exact absurd h.region_valid hv
    | next _ hgt => omega
    | current _ heq => omega
    | older _ hlt' =>
      have hle : a.regions.upperBound CRegion.id t ≤ a.regions.older.length := Window.upperBound_le_older hlt
      have hbound : b.regions.upperBound CRegion.id t = a.regions.upperBound CRegion.id t := by
        rw [Window.upperBound_of_lt_cur (w := b.regions) hlt', Window.upperBound_of_lt_cur (w := a.regions) hlt, h.regions]
        rfl
      refine ⟨htraffic, ?_, IndexedSet.ext_mem fun x => ?_⟩
      · change b.regions.keep {} (b.regions.upperBound CRegion.id t) = a.regions.keep {} _
        rw [hbound, h.regions, Window.keep_setCur _ _ hle]
      · unfold keptCollectives
        rw [mem_eraseRegions, mem_eraseRegions, hbound, h.collectives, h.regions]
        refine and_congr_right fun hx => ?_
        unfold Window.toList
        rw [Window.older_setCur, Window.cur_setCur, List.drop_append_of_le_length hle, List.drop_append_of_le_length hle,
          List.forall_mem_append, List.forall_mem_append, List.forall_mem_singleton, List.forall_mem_singleton]
        exact and_congr_right fun _ => not_congr (holds_begun h.own hx)
  | current hv heq =>
    cases hb with
    | invalid hv => exact absurd h.region_valid hv
    | next _ hgt => omega
    | older _ hlt' => omega
    | current _ _ =>
      refine ⟨htraffic, ?_, IndexedSet.ext_mem fun x => ?_⟩
      · have herase : ∀ c r, (eraseLogs c r).regions = c.regions := fun c r => by rw [eraseLogs_eq]
        change (b.eraseLogs b.region).regions.setCur _ = (a.eraseLogs a.region).regions.setCur _
        rw [herase, herase, h.regions, hreg]
        rfl
      · change x ∈ (b.eraseLogs b.region).collectives ↔ x ∈ (a.eraseLogs a.region).collectives
        rw [mem_eraseLogs, mem_eraseLogs, h.collectives, hreg]
        exact and_congr_right fun hx => not_congr (holds_begun h.own hx)

/-- A sync that goes back to the region of the index, or to an earlier one, leaves logs that agree. -/
theorem Begun.rewind (h : Begun a b) (hpos : 0 ≤ i.target) (ht : i.target ≤ a.region.id)
    (ha : a.resetConsistency i = .ok (a', o)) (hb : b.resetConsistency i = .ok (b', o')) : Agree a' b' := by
  obtain ⟨r, e, os, hr, he, hf⟩ := resetConsistency_parts ha
  obtain ⟨r', e', os', hr', he', hf'⟩ := resetConsistency_parts hb
  obtain ⟨ls, hls, hres⟩ := ((resetLocal_resets hr).resolve_left (by omega)).2
  obtain ⟨ls', hls', hres'⟩ := ((resetLocal_resets hr').resolve_left (by omega)).2
  rw [h.rankLogs, hls] at hls'
  cases Except.ok.inj hls'
  have hbegun : Begun { a with rankLogs := ls, activeRegion := i.target } { b with rankLogs := ls, activeRegion := i.target } :=
    ⟨⟨h.maxRegions, rfl, rfl⟩, h.valid, h.own.of_same rfl rfl, h.regions, h.collectives⟩
  exact ((hbegun.resets_rewound ht hres hres').exchangeAll he he').formCollective hf hf'

/-- A sync that goes to a later region keeps the index taken, unless the collectives are exchanged. -/
theorem Begun.advance (h : Begun a b) (ht : a.region.id < i.target)
    (ha : a.resetConsistency i = .ok (a', o)) (hb : b.resetConsistency i = .ok (b', o')) :
    b'.collectives = a'.collectives ∧ (b'.region.next = a'.region.next ↔ i.collective.isSome) := by
  have hpos := h.valid.1
  have hreg := h.region
  obtain ⟨r, e, os, hr, he, hf⟩ := resetConsistency_parts ha
  obtain ⟨r', e', os', hr', he', hf'⟩ := resetConsistency_parts hb
  obtain ⟨ls, _, hres⟩ := ((resetLocal_resets hr).resolve_left (by omega)).2
  obtain ⟨ls', _, hres'⟩ := ((resetLocal_resets hr').resolve_left (by omega)).2
  have hka := exchangeAll_keeps he
  have hkb := exchangeAll_keeps he'
  have hnext : r.region = .starting i.target a.region.next ∧
      ∀ x, x ∈ r.collectives ↔ x ∈ a.collectives ∧ ¬a.regions.front.Holds x.idx := by
    cases hres with
    | invalid hv => exact absurd h.valid hv
    | older _ hlt => exact absurd ht (Int.not_lt.mpr (Int.le_of_lt hlt))
    | current _ heq => exact absurd heq (Int.ne_of_lt ht)
    | next => exact ⟨rfl, fun x => mem_eraseLogs⟩
  have hnext' : r'.region = .starting i.target (a.region.next + 1) ∧
      ∀ x, x ∈ r'.collectives ↔ x ∈ b.collectives ∧ ¬b.regions.front.Holds x.idx := by
    have hid : b.region.id < i.target := by rw [hreg]; exact ht
    cases hres' with
    | invalid hv => exact absurd h.region_valid hv
    | older _ hlt => exact absurd hid (Int.not_lt.mpr (Int.le_of_lt hlt))
    | current _ heq => exact absurd heq (Int.ne_of_lt hid)
    | next =>
      refine ⟨?_, fun x => mem_eraseLogs⟩
      change CRegion.starting i.target b.region.next = _
      rw [hreg]
  -- the front region is the one of the index if the window has no other
  have hcoll : r'.collectives = r.collectives := by
    refine IndexedSet.ext_mem fun x => ?_
    rw [hnext.2, hnext'.2, h.collectives, h.regions]
    refine and_congr_right fun hx => not_congr ?_
    unfold Window.front
    rw [Window.older_setCur, Window.cur_setCur]
    cases hold : a.regions.older with
    | nil => exact holds_begun h.own hx
    | cons r rs => exact Iff.rfl
  have hcollectives : e'.collectives = e.collectives := by
    rw [hka.collectives, hkb.collectives, hcoll]
  have hregion : e.region = .starting i.target a.region.next := (congrArg Window.cur hka.regions).trans hnext.1
  have hregion' : e'.region = .starting i.target (a.region.next + 1) := (congrArg Window.cur hkb.regions).trans hnext'.1
  cases hc : i.collective with
  | none =>
    rw [hc] at hf hf'
    cases Except.ok.inj hf
    cases Except.ok.inj hf'
    refine ⟨hcollectives, ?_⟩
    rw [hregion, hregion']
    exact ⟨fun heq => absurd heq (Int.ne_of_gt (Int.lt_succ _)), fun hsome => nomatch hsome⟩
  | some ans =>
    rw [hc] at hf hf'
    obtain ⟨m, hm, hf⟩ := Except.bind_eq_ok_iff.mp hf
    obtain ⟨m', hm', hf'⟩ := Except.bind_eq_ok_iff.mp hf'
    cases Except.ok.inj hf
    cases Except.ok.inj hf'
    obtain ⟨x, hx, hm⟩ := Except.bind_eq_ok_iff.mp hm
    obtain ⟨y, hy, hm'⟩ := Except.bind_eq_ok_iff.mp hm'
    have hge := h.valid.2.2
    have hv : (CRegion.starting i.target a.region.next).Valid := CRegion.valid_starting (by omega) hge
    have hv' : (CRegion.starting i.target (a.region.next + 1)).Valid := CRegion.valid_starting (by omega) (by omega)
    rw [seekRegion_eq (hregion.symm ▸ hv), hregion] at hx
    rw [seekRegion_eq (hregion'.symm ▸ hv'), hregion'] at hy
    have hused : ¬(CRegion.starting i.target (a.region.next + 1)).Fresh := fun hf => by
      have hzero : a.region.next + 1 = 0 := hf.2
      omega
    have hne : (CRegion.starting i.target (a.region.next + 1)).next ≠ (CRegion.starting i.target a.region.next).next :=
      Int.ne_of_gt (Int.lt_succ _)
    obtain ⟨rfl, hkeep⟩ := alignment_pair hv hv' rfl hused hne hx hy
    cases Except.ok.inj hm'
    rcases hkeep with ⟨_, rfl⟩ | ⟨heq, _⟩
    · cases Except.ok.inj hm
      refine ⟨hcollectives, fun _ => rfl, fun _ => ?_⟩
      change e'.region.next = _
      rw [hregion']
      rfl
    · rw [CRegion.starting_first, CRegion.starting_first] at heq
      omega

end Shift

section Failure

variable {op : CollectiveOp} {recovery before : List SyncInput} {spared failed : CommLog}

theorem Begun.continues (h : Begun a b) (ht : ∀ i ∈ before, i.target = -1) (ha : a.recover before = .ok a')
    (hb : b.recover before = .ok b') : Begun a' b' ∧ a'.region = a.region := by
  induction before generalizing a b with
  | nil =>
    cases Except.ok.inj ha
    cases Except.ok.inj hb
    exact ⟨h, rfl⟩
  | cons i rest ih =>
    obtain ⟨hi, hrest⟩ := List.forall_mem_cons.mp ht
    obtain ⟨⟨m, o⟩, hm, ha⟩ := Except.bind_eq_ok_iff.mp ha
    obtain ⟨⟨m', o'⟩, hm', hb⟩ := Except.bind_eq_ok_iff.mp hb
    obtain ⟨hbegun, hreg⟩ := h.continue hi hm hm'
    obtain ⟨hbegun', hreg'⟩ := ih hbegun hrest ha hb
    exact ⟨hbegun', hreg'.trans hreg⟩

/-- A sync in a recovery, with what the ones before and after it do. -/
theorem recover_split {i : SyncInput} {after : List SyncInput} (h : c.recover (before ++ i :: after) = .ok c') :
    ∃ m n o, c.recover before = .ok m ∧ m.resetConsistency i = .ok (n, o) ∧ n.recover after = .ok c' := by
  rw [recover_append] at h
  obtain ⟨m, hm, h⟩ := Except.bind_eq_ok_iff.mp h
  obtain ⟨⟨n, o⟩, hn, h⟩ := Except.bind_eq_ok_iff.mp h
  exact ⟨m, n, o, hm, hn, h⟩

/-- A recovery just continues, or there is a first sync that does not. -/
theorem continues_or_resets (h : c.recover recovery = .ok c') : (∀ i ∈ recovery, i.target = -1) ∨
    ∃ before i after, recovery = before ++ i :: after ∧ (∀ j ∈ before, j.target = -1) ∧ 0 ≤ i.target := by
  induction recovery generalizing c with
  | nil => exact Or.inl fun _ hi => absurd hi List.not_mem_nil
  | cons i rest ih =>
    obtain ⟨⟨m, o⟩, hm, h⟩ := Except.bind_eq_ok_iff.mp h
    obtain ⟨_, _, _, hr, _⟩ := resetConsistency_parts hm
    rcases resetLocal_resets hr with ⟨ht, _⟩ | ⟨ht, _⟩
    · rcases ih h with hall | ⟨before, j, after, rfl, hbefore, hj⟩
      · exact Or.inl (List.forall_mem_cons.mpr ⟨ht, hall⟩)
      · exact Or.inr ⟨i :: before, j, after, rfl, List.forall_mem_cons.mpr ⟨ht, hbefore⟩, hj⟩
    · exact Or.inr ⟨[], i, rest, rfl, fun _ hj => absurd hj List.not_mem_nil, ht⟩

/-- A collective that is begun takes one index in the active region. -/
theorem startCollective_begun (h : c.WellFormed) (ha : c.enterRegion = .ok a)
    (hb : c.startCollective op = .ok b) : Begun a b ∧ a.activeOp = none ∧ a.region.id = c.activeRegion := by
  change (c.enterRegion >>= _) = _ at hb
  rw [ha, Except.ok_bind] at hb
  split at hb
  next => cases hb
  next hidle =>
    rw [not_or, not_not] at hidle
    cases Except.ok.inj hb
    unfold enterRegion at ha
    split at ha
    next hv =>
      cases Except.ok.inj ha
      exact ⟨⟨⟨rfl, rfl, rfl⟩, hv, h.own, rfl, rfl⟩, Option.not_isSome_iff_eq_none.mp hidle.1, hidle.2⟩
    next hv =>
      have hown := h.own.appendRegion h.active (Int.le_refl 0) (by rw [next_of_not_valid h.own hv]; decide) ha
      obtain ⟨_, rfl⟩ := appendRegion_eq ha
      exact ⟨⟨⟨rfl, rfl, rfl⟩, CRegion.valid_starting h.active (Int.le_refl 0), hown, rfl, rfl⟩,
        Option.not_isSome_iff_eq_none.mp hidle.1, rfl⟩

theorem unchanged_of_rewinds (h : Begun a b) (hid : a.region.id = c.activeRegion) (hr : c.Rewinds recovery)
    (ha : a.recover recovery = .ok a') (hb : b.recover recovery = .ok b') :
    b'.region.next = a'.region.next ∧ b'.collectives = a'.collectives := by
  obtain ⟨before, i, after, rfl, hbefore, hpos, hi⟩ := hr
  obtain ⟨m, n, o, hm, hn, ha⟩ := recover_split ha
  obtain ⟨m', n', o', hm', hn', hb⟩ := recover_split hb
  obtain ⟨hbegun, hreg⟩ := h.continues hbefore hm hm'
  by_cases hle : i.target ≤ c.activeRegion
  · have hagree := (hbegun.rewind hpos (by rw [hreg, hid]; exact hle) hn hn').recover ha hb
    exact ⟨congrArg (fun w => w.cur.next) hagree.regions, hagree.collectives⟩
  · obtain ⟨rfl, hsome⟩ := hi.resolve_left hle
    cases Except.ok.inj ha
    cases Except.ok.inj hb
    obtain ⟨hcoll, hnext⟩ := hbegun.advance (by rw [hreg, hid]; omega) hn hn'
    exact ⟨hnext.mpr hsome, hcoll⟩

theorem rewinds_of_next_eq (h : Begun a b) (hid : a.region.id = c.activeRegion)
    (hlast : ∀ i ∈ recovery.dropLast, i.target ≤ c.activeRegion) (ha : a.recover recovery = .ok a')
    (hb : b.recover recovery = .ok b') (hnext : b'.region.next = a'.region.next) : c.Rewinds recovery := by
  rcases continues_or_resets ha with hall | ⟨before, i, after, rfl, hbefore, hpos⟩
  · have hreg := (h.continues hall ha hb).1.region
    rw [hreg] at hnext
    exact absurd hnext (Int.ne_of_gt (Int.lt_succ _))
  · refine ⟨before, i, after, rfl, hbefore, hpos, ?_⟩
    by_cases hle : i.target ≤ c.activeRegion
    · exact Or.inl hle
    · obtain ⟨m, n, o, hm, hn, ha⟩ := recover_split ha
      obtain ⟨m', n', o', hm', hn', hb⟩ := recover_split hb
      obtain ⟨hbegun, hreg⟩ := h.continues hbefore hm hm'
      cases after with
      | nil =>
        cases Except.ok.inj ha
        cases Except.ok.inj hb
        exact Or.inr ⟨rfl, (hbegun.advance (by rw [hreg, hid]; omega) hn hn').2.mp hnext⟩
      | cons j after =>
        rw [List.dropLast_append_of_ne_nil (List.cons_ne_nil _ _), List.dropLast_cons_of_ne_nil (List.cons_ne_nil _ _)] at hlast
        exact absurd (hlast i (List.mem_append_right _ List.mem_cons_self)) hle

/-- A failed collective leaves the log as if it had not been called where the recovery goes back to its region or an
earlier one, or on with an exchange; and only there, if no sync follows one to a later region. -/
theorem failed_unchanged (hc : Reachable c) (ha : c.enterRegion = .ok a) (hf : c.failCollective op recovery = .ok failed)
    (hs : a.recover recovery = .ok spared) : (c.Rewinds recovery → Unchanged failed spared) ∧
    ((∀ i ∈ recovery.dropLast, i.target ≤ c.activeRegion) → Unchanged failed spared → c.Rewinds recovery) := by
  obtain ⟨b, hb, hf⟩ := Except.bind_eq_ok_iff.mp hf
  obtain ⟨b', hb', hf⟩ := Except.bind_eq_ok_iff.mp hf
  cases Except.ok.inj hf
  obtain ⟨hbegun, hidle, hid⟩ := startCollective_begun (reachable_wellFormed hc) ha hb
  constructor
  · intro hr
    obtain ⟨hnext, hcoll⟩ := unchanged_of_rewinds hbegun hid hr hs hb'
    exact ⟨hnext, hcoll, ((recover_activeOp hs).trans hidle).symm⟩
  · exact fun hlast h => rewinds_of_next_eq hbegun hid hlast hs hb' h.next

end Failure

/-- A log in its first region. -/
def inFirstRegion : CommLog := { mRank := 0, maxRegions := 2, regions := ⟨[{}], ⟨0, 0, 0⟩⟩ }

/-- A barrier fails in the first region, and the recovery goes back to the beginning of the region. -/
theorem failed_unchanged_rewound : ∃ c failed, Reachable c ∧
    c.failCollective .barrier [⟨0, [], none⟩] = .ok failed ∧ Unchanged failed c := by
  have hfail : ∃ failed, inFirstRegion.failCollective .barrier [⟨0, [], none⟩] = .ok failed := ⟨_, rfl⟩
  have hrecover : inFirstRegion.recover [⟨0, [], none⟩] = .ok inFirstRegion := rfl
  obtain ⟨failed, hfail⟩ := hfail
  refine ⟨_, _, reachable_begun 0, hfail, ?_⟩
  exact (failed_unchanged (reachable_begun 0) rfl hfail hrecover).1
    ⟨[], _, [], rfl, fun _ hj => absurd hj List.not_mem_nil, by decide, Or.inl (by decide)⟩

/-- A barrier that fails keeps its index where the recovery makes no sync. -/
theorem failed_keeps_index : ∃ c failed, Reachable c ∧ c.enterRegion = .ok c ∧ c.recover [] = .ok c ∧
    c.failCollective .barrier [] = .ok failed ∧ ¬Unchanged failed c :=
  ⟨_, _, reachable_begun 0, rfl, rfl, rfl, fun h => absurd h.next (by decide)⟩

end Fenix.CommLog
