import Fenix.CommLogInvariant
import Fenix.CommLogSerialize

namespace Fenix.CommLog

/-- One step of a rank, whatever the others do. The regions a rank receives are those of a log whose
next index is not negative, so an entry in use is valid; and a rank leaves a sync with a valid region. -/
inductive Step : CommLog → CommLog → Prop
  | send {c c' dst buf tag out} (h : c.send dst buf tag = .ok (c', out)) : Step c c'
  | irecv {c c' src r} (h : c.irecv src r = .ok (c', ())) : Step c c'
  | irecvFailed {c c' src r} (h : c.irecv src r = .ok (c', ())) :
      Step c (c'.putLog { c'.logs src with activeIrecv := none })
  | wait {c c' src request} (h : c.wait src request = .ok (c', ())) : Step c c'
  | beginRegion {c c' id} (hg : c.region.id = -1 ∨ c.region.Valid) (ha : c.activeOp = none)
      (h : c.beginRegion id = .ok c') : Step c c'
  | startCollective {c c' op} (hg : c.region.id = -1 ∨ c.region.Valid)
      (h : c.startCollective op = .ok c') : Step c c'
  | finishCollective {c c'} (h : c.finishCollective = .ok c') : Step c c'
  | abandonCollective {c} : Step c { c with activeOp := none }
  | reset {c c' t} (ht : t = -1 ∨ c.activeOp = none) (h : c.resetLocal t = .ok c') : Step c c'
  | offer {c c' peer} (h : c.offerConsistency peer = .ok (c', ())) : Step c c'
  | form {c c' peer remote out} (h : c.formConsistency peer remote = .ok (c', out)) : Step c c'
  | align {c c' latestIdx latest} (hi : 0 ≤ latestIdx) (hl : ∀ r ∈ latest.toList, r.id = -1 ∨ r.Valid)
      (h : c.alignRegion latestIdx latest = .ok c') : Step c c'
  | agree {c} (all any : Int) :
      Step c { c with completedCollectiveAll := all, completedCollectiveAny := any }

/-- The logs a rank can come to, being restored from a serialised log any number of times. -/
inductive Reachable : CommLog → Prop
  | create (mRank : Int) {maxRegions : Nat} (h : 0 < maxRegions) : Reachable (create mRank maxRegions)
  | step {c c' : CommLog} (hc : Reachable c) (h : Step c c') : Reachable c'
  | restore {c c' : CommLog} {ts : List LogToken} (hc : Reachable c) (hs : c.serialize = .ok ts)
      (h : deserialize c.mRank ts = .ok c') : Reachable c'

structure WellFormed (c : CommLog) : Prop where
  size : c.regions.size = c.maxRegions
  active : 0 ≤ c.activeRegion
  own : c.Ordered
  used : ∀ r ∈ c.regions.older, r.id = -1 ∨ r.Valid
  peers : ∀ l ∈ c.rankLogs, l.WellFormed ∧ l.regions.size = c.maxRegions
  inFlight : ∀ op ∈ c.activeOp, c.region.Valid ∧ 0 ≤ op.idx ∧ op.idx = c.region.next - 1 ∧
    (∀ x ∈ c.collectives, x.idx < op.idx) ∧ c.activeRegion ≤ c.region.id ∧
    (c.region.id = c.activeRegion → c.region.first < c.region.next)

theorem wellFormed_create (mRank : Int) {maxRegions : Nat} (h : 0 < maxRegions) :
    (create mRank maxRegions).WellFormed := by
  refine ⟨?_, Int.le_refl 0, ordered_create _ _, ?_, fun l hl => absurd hl IndexedSet.not_mem_empty, ?_⟩
  · change (Window.fill (maxRegions - 1) ({} : CRegion)).size = maxRegions
    rw [Window.size_fill]
    omega
  · intro r hr
    exact Or.inl (congrArg CRegion.id (List.eq_of_mem_replicate hr))
  · intro op hop
    cases hop

section Peers

variable {c c' : CommLog}

theorem logs_wellFormed (h : c.WellFormed) (peer : Int) : (c.logs peer).WellFormed ∧
    (c.logs peer).rank = peer ∧ (c.logs peer).regions.size = c.maxRegions := by
  unfold logs
  cases hf : c.rankLogs.find? peer with
  | none =>
    refine ⟨RankLog.wellFormed_create _ _, rfl, ?_⟩
    change (Window.fill (c.maxRegions - 1) ({} : Region)).size = c.maxRegions
    rw [Window.size_fill, ← h.size]
    exact Nat.sub_add_cancel (Nat.le_add_left 1 _)
  | some l =>
    obtain ⟨hl, hr⟩ := IndexedSet.find?_some hf
    exact ⟨(h.peers l hl).1, hr, (h.peers l hl).2⟩

theorem WellFormed.putLog (h : c.WellFormed) {l : RankLog} (hl : l.WellFormed)
    (hs : l.regions.size = c.maxRegions) : (c.putLog l).WellFormed := by
  refine ⟨h.size, h.active, h.own.of_same rfl rfl, h.used, ?_, h.inFlight⟩
  intro m hm
  rcases IndexedSet.mem_put.mp hm with rfl | ⟨hm, _⟩
  · exact ⟨hl, hs⟩
  · exact h.peers m hm

theorem onLog_eq {α : Type} {peer : Int} {f : RankLog → Except Abort (RankLog × α)} {x : α}
    (h : c.onLog peer f = .ok (c', x)) :
    0 ≤ peer ∧ ∃ l, f (c.logs peer) = .ok (l, x) ∧ c' = c.putLog l := by
  unfold onLog at h
  split at h
  next => cases h
  next hp =>
    obtain ⟨⟨l, y⟩, hl, he⟩ := Except.map_eq_ok_iff.mp h
    obtain ⟨rfl, rfl⟩ := Prod.mk.inj he
    exact ⟨by omega, l, hl, rfl⟩

/-- An operation of the traffic with a peer that respects the log's invariant respects the whole. -/
theorem WellFormed.onLog {α : Type} (h : c.WellFormed) {peer : Int}
    {f : RankLog → Except Abort (RankLog × α)} {x : α}
    (hf : ∀ l l' y, l.WellFormed → f l = .ok (l', y) → l'.WellFormed ∧ RankLog.SameFrame l l')
    (ho : c.onLog peer f = .ok (c', x)) : c'.WellFormed := by
  obtain ⟨_, l, hl, rfl⟩ := onLog_eq ho
  obtain ⟨hwf, _, hsize⟩ := logs_wellFormed h peer
  obtain ⟨hwf', _, hsize'⟩ := hf _ _ _ hwf hl
  exact h.putLog hwf' (hsize'.trans hsize)

theorem map_unit_eq {x : Except Abort RankLog} {l : RankLog} {u : Unit}
    (h : x.map (fun l => (l, ())) = .ok (l, u)) : x = .ok l := by
  obtain ⟨m, hm, he⟩ := Except.map_eq_ok_iff.mp h
  rw [hm, (Prod.mk.inj he).1]

theorem peers_updateM {f : RankLog → Except Abort RankLog} {hk : ∀ a b, f a = .ok b → b.rank = a.rank}
    {ls : IndexedSet RankLog RankLog.rank} (h : c.WellFormed)
    (hu : c.rankLogs.updateM f hk = .ok ls)
    (hf : ∀ l l', l.WellFormed → f l = .ok l' → l'.WellFormed ∧ RankLog.SameFrame l l') :
    ∀ l ∈ ls, l.WellFormed ∧ l.regions.size = c.maxRegions := by
  intro l' hl'
  obtain ⟨l, hl, hll'⟩ := List.exists_left_of_forall₂ (IndexedSet.updateM_eq_ok_iff.mp hu) hl'
  obtain ⟨hwf, hsize⟩ := h.peers l hl
  obtain ⟨hwf', _, hsize'⟩ := hf l l' hwf hll'
  exact ⟨hwf', hsize'.trans hsize⟩

end Peers

section Regions

variable {c c' : CommLog}

theorem used_push (h : ∀ r ∈ c.regions.older, r.id = -1 ∨ r.Valid)
    (hc : c.region.id = -1 ∨ c.region.Valid) (r : CRegion) :
    ∀ y ∈ (c.regions.push r).older, y.id = -1 ∨ y.Valid := by
  intro y hy
  rcases Window.mem_toList.mp (List.mem_of_mem_tail hy) with hy | rfl
  · exact h y hy
  · exact hc

theorem used_keep (h : ∀ r ∈ c.regions.older, r.id = -1 ∨ r.Valid) (hv : c.region.Valid) (k : Nat) :
    ∀ y ∈ (c.regions.keep {} k).older, y.id = -1 ∨ y.Valid := by
  intro y hy
  rcases Window.mem_keep (Window.mem_toList.mpr (Or.inl hy)) with rfl | hy
  · exact Or.inl rfl
  · rcases Window.mem_toList.mp (List.mem_of_mem_take hy) with hy | rfl
    · exact h y hy
    · exact Or.inr hv

theorem used_resets {t : Int} (h : ∀ r ∈ c.regions.older, r.id = -1 ∨ r.Valid)
    (hres : ResetsCollectives c t c') : ∀ r ∈ c'.regions.older, r.id = -1 ∨ r.Valid := by
  cases hres with
  | invalid => exact h
  | older hv => exact used_keep h hv _
  | current =>
    intro r hr
    change r ∈ (c.eraseLogs c.region).regions.older at hr
    rw [eraseLogs_eq] at hr
    exact h r hr
  | next hv => exact used_push h (Or.inr hv) _

/-- Appending a region, which continues the indices when a collective is in flight. -/
theorem WellFormed.appendRegion (h : c.WellFormed) {id n : Int} (hi : 0 ≤ id) (hn : 0 ≤ n)
    (hge : c.region.next ≤ n) (hc : c.region.id = -1 ∨ c.region.Valid)
    (ha : ∀ op ∈ c.activeOp, n = c.region.next)
    (hap : c.appendRegion (.starting id n) = .ok c') : c'.WellFormed := by
  have hord := h.own.appendRegion hi hn hge hap
  obtain ⟨hlt, rfl⟩ := appendRegion_eq hap
  have hsub : ∀ x ∈ (c.eraseLogs c.regions.front).collectives, x ∈ c.collectives :=
    fun x hx => (mem_eraseLogs.mp hx).1
  rw [eraseLogs_eq] at hord ⊢
  refine ⟨(Window.size_push _ _).trans h.size, h.active, hord, used_push h.used hc _, h.peers, ?_⟩
  intro op hop
  obtain ⟨hv, hop0, hidx, hlog, hact, _⟩ := h.inFlight op hop
  refine ⟨CRegion.valid_starting hi hn, hop0, ?_, fun x hx => hlog x (hsub x hx), ?_, ?_⟩
  · rw [hidx, ha op hop]
    rfl
  · exact Int.le_trans hact (Int.le_of_lt hlt)
  · intro heq
    change id = c.activeRegion at heq
    change c.region.id < id at hlt
    omega

theorem next_of_not_valid (h : c.Ordered) (hv : ¬c.region.Valid) : c.region.next = -1 := by
  rcases (h.shaped _ region_mem).2 with hs | hs
  · exact absurd hs.1 hv
  · exact hs.2

theorem WellFormed.beginCRegion (h : c.WellFormed) {id : Int} (hi : 0 ≤ id)
    (hg : c.region.id = -1 ∨ c.region.Valid) (hb : c.beginCRegion id = .ok c') : c'.WellFormed := by
  unfold CommLog.beginCRegion at hb
  split at hb
  next =>
    split at hb
    next => exact Except.ok.inj hb ▸ h
    next => cases hb
  next =>
    split at hb
    next =>
      split at hb
      next => cases hb
      next =>
        split at hb
        next => exact Except.ok.inj hb ▸ h
        next => cases hb
    next =>
      split at hb
      next hv => exact h.appendRegion hi hv.2.2 (Int.le_refl _) hg (fun _ _ => rfl) hb
      next hv =>
        refine h.appendRegion hi (Int.le_refl 0) ?_ hg (fun op hop => ?_) hb
        · rw [next_of_not_valid h.own hv]
          decide
        · exact absurd (h.inFlight op hop).1 hv

theorem WellFormed.beginRegion (h : c.WellFormed) {id : Int} (hg : c.region.id = -1 ∨ c.region.Valid)
    (ha : c.activeOp = none) (hb : c.beginRegion id = .ok c') : c'.WellFormed := by
  unfold CommLog.beginRegion at hb
  split at hb
  next => cases hb
  next hid =>
    obtain ⟨ls, hls, hb⟩ := Except.bind_eq_ok_iff.mp hb
    have hpeers := peers_updateM h hls fun l l' hl hll' =>
      ⟨hl.beginRegion hll', RankLog.sameFrame_beginRegion hll'⟩
    have hi : 0 ≤ id := by omega
    have hwf : ({ c with rankLogs := ls, activeRegion := id } : CommLog).WellFormed := by
      refine ⟨h.size, hi, h.own.of_same rfl rfl, h.used, hpeers, ?_⟩
      intro op hop
      change op ∈ c.activeOp at hop
      rw [ha] at hop
      cases hop
    exact hwf.beginCRegion hi hg hb

theorem WellFormed.startCollective (h : c.WellFormed) {op : CollectiveOp}
    (hg : c.region.id = -1 ∨ c.region.Valid) (hs : c.startCollective op = .ok c') : c'.WellFormed := by
  obtain ⟨m, hm, hs⟩ := Except.bind_eq_ok_iff.mp hs
  split at hs
  next => cases hs
  next hno =>
    cases Except.ok.inj hs
    have hcond := not_or.mp hno
    have hnone : m.activeOp = none := by simpa using hcond.1
    have hmw : m.WellFormed ∧ m.region.Valid := by
      split at hm
      next hv => exact Except.ok.inj hm ▸ ⟨h, hv⟩
      next hv =>
        refine ⟨h.appendRegion h.active (Int.le_refl 0) ?_ hg (fun op hop => ?_) hm, ?_⟩
        · rw [next_of_not_valid h.own hv]
          decide
        · exact absurd (h.inFlight op hop).1 hv
        · obtain ⟨_, rfl⟩ := appendRegion_eq hm
          exact CRegion.valid_starting h.active (Int.le_refl 0)
    obtain ⟨hw, hv⟩ := hmw
    have hle := (hw.own.shaped _ region_mem).first_le_next
    have hext : ({ m.region with next := m.region.next + 1 } : CRegion).Valid :=
      ⟨hv.1, hv.2.1, by have hn := hv.2.2; change 0 ≤ m.region.next + 1; omega⟩
    have hord : (m.setRegion { m.region with next := m.region.next + 1 }).Ordered := by
      refine hw.own.setRegion ?_ ?_ ?_
      · exact ⟨Int.le_trans (by decide) hv.1, Or.inl ⟨hext, by change m.region.first ≤ m.region.next + 1; omega⟩⟩
      · intro y hy
        exact (older_precedes hw.own hy).trans_start (Int.le_refl _) hext (Int.le_refl _)
      · intro x _ hh
        have hlt := hh.2.2
        exact ⟨hext, hh.2.1, by change x.idx < m.region.next + 1; omega⟩
    refine ⟨hw.size, hw.active, hord.of_same rfl rfl, hw.used, hw.peers, ?_⟩
    intro new hop
    cases hop
    refine ⟨hext, hv.2.2, ?_, ?_, ?_, ?_⟩
    · change m.region.next = m.region.next + 1 - 1
      omega
    · intro x hx
      exact idx_lt_next hw.own hx
    · exact Int.le_of_eq (not_not.mp hcond.2).symm
    · intro _
      exact Int.lt_add_one_of_le hle

theorem WellFormed.finishCollective (h : c.WellFormed) (hf : c.finishCollective = .ok c') :
    c'.WellFormed := by
  unfold CommLog.finishCollective at hf
  split at hf
  next => cases hf
  next op hop =>
    split at hf
    next hcond =>
      cases Except.ok.inj hf
      obtain ⟨hv, _, hidx, _, _, hlt⟩ := h.inFlight op hop
      refine ⟨h.size, h.active, ⟨h.own.shaped, h.own.ordered, ?_⟩, h.used, h.peers, fun _ ho => by cases ho⟩
      intro x hx
      rcases IndexedSet.mem_of_mem_insert hx with rfl | hx
      · have hlt' := hlt hcond.2
        exact ⟨c.region, region_mem, hv, by omega, by omega⟩
      · exact h.own.logged x hx
    next => cases hf

theorem resetLocal_continue (c : CommLog) : c.resetLocal (-1) = .ok c := by
  have hu : c.rankLogs.updateM (·.resetConsistency (-1))
      (fun _ _ h => (RankLog.sameFrame_resetConsistency h).1) = .ok c.rankLogs :=
    IndexedSet.updateM_eq_ok_iff.mpr
      (List.forall₂_same.mpr fun l _ => RankLog.resetConsistency_continue l)
  unfold resetLocal
  rw [if_neg (by decide), hu]
  exact resetCollectives_continue c

theorem resetLocal_cases {t : Int} (h : c.resetLocal t = .ok c') : -1 ≤ t ∧ ∃ ls,
    c.rankLogs.updateM (·.resetConsistency t) (fun _ _ h => (RankLog.sameFrame_resetConsistency h).1) = .ok ls ∧
    ({ c with rankLogs := ls, activeRegion := if 0 ≤ t then t else c.activeRegion } : CommLog
      ).resetCollectives t = .ok c' := by
  unfold resetLocal at h
  split at h
  next => cases h
  next ht =>
    obtain ⟨ls, hls, h⟩ := Except.bind_eq_ok_iff.mp h
    exact ⟨by omega, ls, hls, h⟩

theorem WellFormed.resetLocal (h : c.WellFormed) {t : Int} (ht : t = -1 ∨ c.activeOp = none)
    (hr : c.resetLocal t = .ok c') : c'.WellFormed := by
  obtain ⟨hge, ls, hls, hr⟩ := resetLocal_cases hr
  have hpeers := peers_updateM h hls fun l l' hl hll' =>
    ⟨hl.resetConsistency hll', RankLog.sameFrame_resetConsistency hll'⟩
  by_cases htc : 0 ≤ t
  · rw [if_pos htc] at hr
    have hnone : c.activeOp = none := by
      rcases ht with ht | ht
      · omega
      · exact ht
    generalize hm : ({ c with rankLogs := ls, activeRegion := t } : CommLog) = m at hr
    have hmw : m.WellFormed := by
      subst hm
      refine ⟨h.size, htc, h.own.of_same rfl rfl, h.used, hpeers, ?_⟩
      intro op hop
      change op ∈ c.activeOp at hop
      rw [hnone] at hop
      cases hop
    have hmn : m.activeOp = none := by
      subst hm
      exact hnone
    have hres := (resetCollectives_ok_iff htc).mp hr
    have hused := used_resets hmw.used hres
    have hsize := resetsCollectives_size hres
    have hord := hmw.own.resetsCollectives htc hres
    have heq := onlyCollectives_resets hres
    refine ⟨?_, ?_, hord, hused, ?_, ?_⟩
    · rw [hsize, heq.maxRegions]
      exact hmw.size
    · rw [heq.activeRegion]
      exact hmw.active
    · rw [heq.rankLogs, heq.maxRegions]
      exact hmw.peers
    · intro op hop
      rw [heq.activeOp, hmn] at hop
      cases hop
  · have htm : t = -1 := by omega
    subst htm
    rw [if_neg (by decide)] at hr
    cases Except.ok.inj ((resetCollectives_continue _).symm.trans hr)
    exact ⟨h.size, h.active, h.own.of_same rfl rfl, h.used, hpeers, h.inFlight⟩

/-- What a reset does before any communication: nothing to continue, else the regions are reset. -/
theorem resetLocal_resets {t : Int} (h : c.resetLocal t = .ok c') : t = -1 ∧ c' = c ∨ 0 ≤ t ∧ ∃ ls,
    c.rankLogs.updateM (·.resetConsistency t) (fun _ _ h => (RankLog.sameFrame_resetConsistency h).1) = .ok ls ∧
    ResetsCollectives { c with rankLogs := ls, activeRegion := t } t c' := by
  obtain ⟨hge, ls, hls, hres⟩ := resetLocal_cases h
  by_cases ht : 0 ≤ t
  · rw [if_pos ht] at hres
    exact Or.inr ⟨ht, ls, hls, (resetCollectives_ok_iff ht).mp hres⟩
  · obtain rfl : t = -1 := by omega
    exact Or.inl ⟨rfl, (Except.ok.inj ((resetLocal_continue c).symm.trans h)).symm⟩

theorem seekRegion_valid_iff (h : c.Ordered) : c.seekRegion.Valid ↔ c.region.Valid := by
  unfold seekRegion
  split
  next hv => exact Iff.rfl
  next hv =>
    have hn := next_of_not_valid h hv
    constructor
    · intro hs
      have hge := hs.2.2
      change 0 ≤ c.region.next at hge
      omega
    · intro hr
      exact absurd hr hv

theorem seekRegion_id (h : c.WellFormed) : 0 ≤ c.seekRegion.id := by
  unfold seekRegion
  split
  next hv => exact hv.1
  next => exact h.active

/-- A region in use is only begun anew when it is fresh, and only appended to when it is valid. -/
theorem alignment_cases {m : CRegion} {latestIdx : Int} {latest : Window CRegion} {a : Alignment}
    (h : alignment m latestIdx latest = .ok a) :
    (a = .keep ∧ m.Valid ∧ ¬m.Fresh ∧ ∀ it ∈ latest.lowerBound CRegion.id m.id, it.id = m.id) ∨
    (a = .restart latestIdx ∧ (¬m.Valid ∨ m.Fresh) ∧ latest.lowerBound CRegion.id m.id = none) ∨
    (∃ it, latest.lowerBound CRegion.id m.id = some it ∧ a = .restart it.first ∧ (¬m.Valid ∨ m.Fresh) ∧
      it.id = m.id) ∨
    (∃ it, latest.lowerBound CRegion.id m.id = some it ∧ a = .append it.id ∧ m.Valid ∧ it.id ≠ m.id ∧
      m.next = it.first) := by
  unfold alignment at h
  split at h
  next hb =>
    split at h
    next hf => exact Or.inr (Or.inl ⟨(Except.ok.inj h).symm, hf, hb⟩)
    next hf =>
      split at h
      next => cases h
      next =>
        obtain ⟨hv, hnf⟩ := not_or.mp hf
        refine Or.inl ⟨(Except.ok.inj h).symm, not_not.mp hv, hnf, fun it hit => ?_⟩
        rw [hb] at hit
        cases hit
  next it hit =>
    split at h
    next hne =>
      split at h
      next => cases h
      next =>
        split at h
        next => cases h
        next hn =>
          obtain ⟨hv, heq⟩ := not_or.mp hn
          exact Or.inr (Or.inr (Or.inr ⟨it, hit, (Except.ok.inj h).symm, not_not.mp hv, hne, not_not.mp heq⟩))
    next heq =>
      have hid := not_not.mp heq
      split at h
      next hf => exact Or.inr (Or.inr (Or.inl ⟨it, hit, (Except.ok.inj h).symm, hf, hid⟩))
      next hf =>
        split at h
        next => cases h
        next =>
          obtain ⟨hv, hnf⟩ := not_or.mp hf
          refine Or.inl ⟨(Except.ok.inj h).symm, not_not.mp hv, hnf, fun it' hit' => ?_⟩
          rw [hit] at hit'
          cases hit'
          exact hid

/-- What aligning may do: begin the current region anew, leave it, or append the root's one. -/
theorem alignRegion_cases (h : c.WellFormed) {latestIdx : Int} {latest : Window CRegion}
    (hi : 0 ≤ latestIdx) (hl : ∀ r ∈ latest.toList, r.id = -1 ∨ r.Valid)
    (ha : c.alignRegion latestIdx latest = .ok c') :
    (∃ n, 0 ≤ n ∧ (¬c.region.Valid ∨ c.region.Fresh) ∧ c' = c.setRegion (.starting c.seekRegion.id n)) ∨
    (c.region.Valid ∧ c' = c) ∨
    (∃ id, c.region.Valid ∧ c.appendRegion (.starting id c.region.next) = .ok c') := by
  have hseek : c.region.Valid → c.seekRegion = c.region := fun hv => if_pos hv
  obtain ⟨a, ha, happ⟩ := Except.bind_eq_ok_iff.mp ha
  have hfresh : ¬c.seekRegion.Valid ∨ c.seekRegion.Fresh → ¬c.region.Valid ∨ c.region.Fresh := by
    intro hf
    by_cases hv : c.region.Valid
    · rwa [hseek hv] at hf
    · exact Or.inl hv
  obtain ⟨rfl, hv, _⟩ | ⟨rfl, hf, _⟩ | ⟨it, hit, rfl, hf, hid⟩ | ⟨it, _, rfl, hv, _⟩ := alignment_cases ha
  · exact Or.inr (Or.inl ⟨(seekRegion_valid_iff h.own).mp hv, (Except.ok.inj happ).symm⟩)
  · exact Or.inl ⟨latestIdx, hi, hfresh hf, (Except.ok.inj happ).symm⟩
  · refine Or.inl ⟨it.first, ?_, hfresh hf, (Except.ok.inj happ).symm⟩
    have hge := seekRegion_id h
    rcases hl it (Window.lowerBound_mem hit).1 with hneg | hv
    · omega
    · exact hv.2.1
  · have hv := (seekRegion_valid_iff h.own).mp hv
    unfold applyAlignment at happ
    rw [hseek hv] at happ
    exact Or.inr (Or.inr ⟨it.id, hv, happ⟩)

theorem collectives_empty_of_fresh (h : c.WellFormed) (hf : c.region.Fresh) (x : CollectiveLog) :
    x ∉ c.collectives := by
  intro hx
  obtain ⟨r, _, hh⟩ := h.own.logged x hx
  have h₁ := idx_lt_next h.own hx
  have h₂ := hh.1.2.1
  have h₃ := hh.2.1
  have h₄ := hf.1.2
  have h₅ := hf.2
  omega

theorem WellFormed.alignRegion (h : c.WellFormed) {latestIdx : Int} {latest : Window CRegion}
    (hi : 0 ≤ latestIdx) (hl : ∀ r ∈ latest.toList, r.id = -1 ∨ r.Valid)
    (ha : c.alignRegion latestIdx latest = .ok c') : c'.WellFormed := by
  obtain ⟨n, hn, hc, rfl⟩ | ⟨_, rfl⟩ | ⟨id, hv, hap⟩ := alignRegion_cases h hi hl ha
  · have hrv := CRegion.valid_starting (seekRegion_id h) hn
    have hempty : ∀ x, x ∉ c.collectives := by
      rcases hc with hc | hc
      · exact collectives_empty_of_not_valid h.own hc
      · exact collectives_empty_of_fresh h hc
    have hord : (c.setRegion (.starting c.seekRegion.id n)).Ordered := by
      refine h.own.setRegion (CRegion.shaped_starting (seekRegion_id h) hn) ?_
        fun x hx => absurd hx (hempty x)
      intro y hy
      rcases hc with hc | hc
      · exact Or.inl (older_id_of_not_valid h.own hc hy)
      · refine (older_precedes h.own hy).trans_start ?_ hrv ?_
        · rw [seekRegion, if_pos hc.1.1]
          exact Int.le_refl _
        · rw [hc.2]
          exact hn
    refine ⟨h.size, h.active, hord, h.used, h.peers, ?_⟩
    intro op hop
    obtain ⟨hv, hge, hidx, _⟩ := h.inFlight op hop
    rcases hc with hc | hc
    · exact absurd hv hc
    · have h₁ := hc.1.2
      have h₂ := hc.2
      omega
  · exact h
  · have hid := (appendRegion_eq hap).1
    have hge := hv.1
    change c.region.id < id at hid
    exact h.appendRegion (by omega) hv.2.2 (Int.le_refl _) (Or.inr hv) (fun _ _ => rfl) hap

end Regions

theorem WellFormed.step {c c' : CommLog} (h : c.WellFormed) (hs : Step c c') : c'.WellFormed := by
  cases hs with
  | send hs =>
    exact h.onLog (fun l l' y hl hf => ⟨hl.send h.active hf, RankLog.sameFrame_send hf⟩) hs
  | irecv hr =>
    refine h.onLog (fun l l' y hl hf => ?_) hr
    have hf := map_unit_eq hf
    exact ⟨hl.irecv h.active hf, RankLog.sameFrame_irecv hf⟩
  | irecvFailed hr =>
    have hc' := h.onLog (fun l l' y hl hf => by
      have hf := map_unit_eq hf
      exact ⟨hl.irecv h.active hf, RankLog.sameFrame_irecv hf⟩) hr
    obtain ⟨hwf, _, hsize⟩ := logs_wellFormed hc' _
    exact hc'.putLog (hwf.setIrecv none) hsize
  | wait hw =>
    refine h.onLog (fun l l' y hl hf => ?_) hw
    have hf := map_unit_eq hf
    exact ⟨hl.wait hf, RankLog.sameFrame_wait hf⟩
  | beginRegion hg ha hb => exact h.beginRegion hg ha hb
  | startCollective hg hs => exact h.startCollective hg hs
  | finishCollective hf => exact h.finishCollective hf
  | abandonCollective => exact ⟨h.size, h.active, h.own.of_same rfl rfl, h.used, h.peers, fun _ ho => by cases ho⟩
  | reset ht hr => exact h.resetLocal ht hr
  | offer ho =>
    refine h.onLog (fun l l' y hl hf => ?_) ho
    have hf := map_unit_eq hf
    exact ⟨hl.offerConsistency h.active hf, RankLog.sameFrame_offerConsistency hf⟩
  | form hf =>
    exact h.onLog (fun l l' y hl hf => ⟨hl.formConsistency hf, RankLog.sameFrame_formConsistency hl hf⟩) hf
  | align hi hl ha => exact h.alignRegion hi hl ha
  | agree => exact ⟨h.size, h.active, h.own.of_same rfl rfl, h.used, h.peers, h.inFlight⟩

/-- Only the collectives can be missing for a restored log to be in order. -/
theorem WellFormed.restored {c : CommLog} (h : c.WellFormed) : c.restored.WellFormed := by
  refine ⟨h.size, h.active, ⟨h.own.shaped, h.own.ordered, ?_⟩, h.used, ?_, fun _ ho => by cases ho⟩
  · intro x hx
    exact absurd hx IndexedSet.not_mem_empty
  · intro l hl
    exact h.peers l (IndexedSet.mem_filter.mp hl).1

theorem reachable_wellFormed {c : CommLog} (h : Reachable c) : c.WellFormed := by
  induction h with
  | create _ hm => exact wellFormed_create _ hm
  | step _ hs ih => exact ih.step hs
  | restore _ hs hd ih =>
    rw [deserialize_serialize hs fun l hl => (ih.peers l hl).2] at hd
    exact Except.ok.inj hd ▸ ih.restored

/-- A rank that has begun its first region, -/
theorem reachable_begun (mRank : Int) :
    Reachable { mRank := mRank, maxRegions := 2, regions := ⟨[{}], ⟨0, 0, 0⟩⟩ } :=
  (Reachable.create mRank Nat.zero_lt_two).step (@Step.beginRegion _ _ 0 (Or.inl rfl) rfl rfl)

/-- The traffic with rank 1 after a first send in region 0. -/
def firstSends : IndexedSet RankLog RankLog.rank :=
  ⟨[{ rank := 1, sends := ⟨[⟨0, ⟨0, 0, []⟩, 0⟩], List.pairwise_singleton _ _⟩, regions := ⟨[{}], ⟨0, ⟨0, 1⟩, ⟨0, 0⟩⟩⟩ }],
    List.pairwise_singleton _ _⟩

/-- that has sent a message to rank 1 there, -/
theorem reachable_sent (mRank : Int) :
    Reachable { mRank := mRank, maxRegions := 2, regions := ⟨[{}], ⟨0, 0, 0⟩⟩, rankLogs := firstSends } :=
  (reachable_begun mRank).step (@Step.send _ _ 1 ⟨0, 0, []⟩ 0 _ rfl)

/-- that is inside a barrier called there, -/
theorem reachable_inside (mRank : Int) :
    Reachable { mRank := mRank, maxRegions := 2, regions := ⟨[{}], ⟨0, 0, 1⟩⟩,
                activeOp := some ⟨0, .barrier⟩ } :=
  (reachable_begun mRank).step
    (@Step.startCollective _ _ .barrier (Or.inr (CRegion.valid_starting (Int.le_refl 0) (Int.le_refl 0))) rfl)

/-- and that has come out of it. -/
theorem reachable_finished (mRank : Int) :
    Reachable { mRank := mRank, maxRegions := 2, regions := ⟨[{}], ⟨0, 0, 1⟩⟩,
                collectives := ⟨[⟨0, .barrier⟩], List.pairwise_singleton _ _⟩ } :=
  (reachable_inside mRank).step (.finishCollective rfl)

end Fenix.CommLog
