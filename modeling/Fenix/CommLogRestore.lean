import Fenix.CommLogSync

namespace Fenix

namespace RankLog

/-- A log in order that awaits no message. -/
structure Idle (maxRegions : Nat) (l : RankLog) : Prop where
  wellFormed : l.WellFormed
  size : l.regions.size = maxRegions
  awaits : l.activeIrecv = none

theorem exchange_cases {l l' : RankLog} {active : Int} {remote : Window Region} {o : Offer}
    (h : l.exchange active remote = .ok (l', o)) : ∃ m, l.offerConsistency active = .ok m ∧
      m.formConsistency remote = .ok (l', o.replayed, o.reposted) := by
  obtain ⟨m, hm, h⟩ := Except.bind_eq_ok_iff.mp h
  obtain ⟨⟨f, out⟩, hf, h⟩ := Except.bind_eq_ok_iff.mp h
  cases Except.ok.inj h
  exact ⟨m, hm, hf⟩

theorem Idle.exchange {n : Nat} {l l' : RankLog} (h : Idle n l) {active : Int} (ha : 0 ≤ active)
    {remote : Window Region} {o : Offer} (he : l.exchange active remote = .ok (l', o)) : Idle n l' := by
  obtain ⟨m, hm, hf⟩ := exchange_cases he
  have hmw := h.wellFormed.offerConsistency ha hm
  refine ⟨hmw.formConsistency hf, ?_, ?_⟩
  · rw [(sameFrame_formConsistency hmw hf).2, (sameFrame_offerConsistency hm).2]
    exact h.size
  · rw [(formConsistency_realigned hmw hf).2.2.2.2]
    obtain ⟨_, rfl⟩ | ⟨_, _, rfl⟩ := offerConsistency_cases hm
    · exact h.awaits
    · exact h.awaits

/-- The unused entries of a log are all alike. -/
theorem older_eq_replicate {n : Nat} {l : RankLog} (h : Idle n l) (hv : ¬l.curRegion.Valid) :
    l.regions.older = List.replicate (n - 1) {} := by
  have hlen : l.regions.older.length = n - 1 := by
    rw [← h.size]
    rfl
  rw [← hlen]
  refine List.eq_replicate_of_mem fun r hr => ?_
  have hid := older_id_of_not_valid h.wellFormed hv hr
  obtain ⟨_, hshape⟩ := h.wellFormed.shaped r (Window.mem_toList.mpr (Or.inl hr))
  obtain ⟨id, send, recv⟩ := r
  rcases hshape with hval | ⟨hs, hr⟩
  · have hge := hval.1
    omega
  · subst hid
    subst hs
    subst hr
    rfl

/-- Two unused logs for one peer take part in an exchange alike. -/
theorem unused_exchange_eq {n : Nat} {l l' : RankLog} (h : Idle n l) (h' : Idle n l')
    (hv : ¬l.curRegion.Valid) (hv' : ¬l'.curRegion.Valid) (hr : l.rank = l'.rank) (active : Int)
    (remote : Window Region) : l.exchange active remote = l'.exchange active remote := by
  have hoff : ∀ m : RankLog, Idle n m → ¬m.curRegion.Valid →
      m.offerConsistency active = .ok (m.setCur { id := active }) := by
    intro m hm hmv
    unfold offerConsistency
    rw [if_neg hmv, if_neg (by simp [hm.awaits])]
  have hsends : l.sends = l'.sends := IndexedSet.ext_mem fun s =>
    ⟨fun hs => absurd hs (sends_empty_of_not_valid h.wellFormed hv s),
      fun hs => absurd hs (sends_empty_of_not_valid h'.wellFormed hv' s)⟩
  have hwin : l.regions.setCur { id := active } = l'.regions.setCur { id := active } := by
    simp only [Window.setCur, older_eq_replicate h hv, older_eq_replicate h' hv']
  unfold RankLog.exchange
  rw [hoff l h hv, hoff l' h' hv']
  obtain ⟨rank, sends, alreadySent, regions, activeIrecv⟩ := l
  obtain ⟨rank', sends', alreadySent', regions', activeIrecv'⟩ := l'
  have ha : activeIrecv = none := h.awaits
  have ha' : activeIrecv' = none := h'.awaits
  simp only at hr hsends
  subst hr hsends ha ha'
  simp only [setCur, hwin]
  rfl

end RankLog

namespace CommLog

/-- Two logs without collectives that differ in unused peer logs and what is not serialised only. -/
structure Alike (c d : CommLog) : Prop where
  maxRegions : c.maxRegions = d.maxRegions
  activeRegion : c.activeRegion = d.activeRegion
  regions : c.regions = d.regions
  validLogs : c.validLogs = d.validLogs
  collectives : c.collectives = .empty
  collectives' : d.collectives = .empty
  some_region : 0 < c.maxRegions
  active : 0 ≤ c.activeRegion
  peers : ∀ l ∈ c.rankLogs, RankLog.Idle c.maxRegions l
  peers' : ∀ l ∈ d.rankLogs, RankLog.Idle d.maxRegions l

theorem mem_validLogs {c : CommLog} {l : RankLog} :
    l ∈ c.validLogs ↔ l ∈ c.rankLogs ∧ l.curRegion.Valid := by
  simp [validLogs]

theorem Alike.symm {c d : CommLog} (h : Alike c d) : Alike d c where
  maxRegions := h.maxRegions.symm
  activeRegion := h.activeRegion.symm
  regions := h.regions.symm
  validLogs := h.validLogs.symm
  collectives := h.collectives'
  collectives' := h.collectives
  some_region := h.maxRegions ▸ h.some_region
  active := h.activeRegion ▸ h.active
  peers := h.peers'
  peers' := h.peers

theorem idle_logs {c : CommLog} (hm : 0 < c.maxRegions) (h : ∀ l ∈ c.rankLogs, RankLog.Idle c.maxRegions l)
    (peer : Int) : RankLog.Idle c.maxRegions (c.logs peer) ∧ (c.logs peer).rank = peer ∧
      ((c.logs peer).curRegion.Valid → c.logs peer ∈ c.validLogs) := by
  unfold logs
  cases hf : c.rankLogs.find? peer with
  | none =>
    refine ⟨⟨RankLog.wellFormed_create _ _, ?_, rfl⟩, rfl, ?_⟩
    · change (Window.fill (c.maxRegions - 1) ({} : Region)).size = c.maxRegions
      rw [Window.size_fill]
      omega
    · intro hv
      exact absurd hv Region.not_valid_default
  | some l =>
    obtain ⟨hl, hr⟩ := IndexedSet.find?_some hf
    exact ⟨h l hl, hr, fun hv => mem_validLogs.mpr ⟨hl, hv⟩⟩

theorem logs_of_mem {c : CommLog} {l : RankLog} (h : l ∈ c.rankLogs) : c.logs l.rank = l := by
  unfold logs
  rw [IndexedSet.find?_eq_some_of_mem h]
  rfl

section Peers

variable {c d : CommLog}

/-- The logs for one peer are the same, or both unused. -/
theorem Alike.logs (h : Alike c d) (peer : Int) : c.logs peer = d.logs peer ∨
    ¬(c.logs peer).curRegion.Valid ∧ ¬(d.logs peer).curRegion.Valid := by
  obtain ⟨_, hr, hc⟩ := idle_logs h.some_region h.peers peer
  obtain ⟨_, hr', hd⟩ := idle_logs (h.maxRegions ▸ h.some_region) h.peers' peer
  by_cases hv : (c.logs peer).curRegion.Valid
  · have hmem := hc hv
    rw [h.validLogs] at hmem
    have heq := logs_of_mem (mem_validLogs.mp hmem).1
    rw [hr] at heq
    exact Or.inl heq.symm
  · by_cases hv' : (d.logs peer).curRegion.Valid
    · have hmem := hd hv'
      rw [← h.validLogs] at hmem
      have heq := logs_of_mem (mem_validLogs.mp hmem).1
      rw [hr'] at heq
      exact Or.inl heq
    · exact Or.inr ⟨hv, hv'⟩

theorem Alike.exchange_eq (h : Alike c d) (peer : Int) (remote : Window Region) :
    (c.logs peer).exchange c.activeRegion remote = (d.logs peer).exchange d.activeRegion remote := by
  rw [← h.activeRegion]
  rcases h.logs peer with heq | ⟨hv, hv'⟩
  · rw [heq]
  · obtain ⟨hi, hr, _⟩ := idle_logs h.some_region h.peers peer
    obtain ⟨hi', hr', _⟩ := idle_logs (h.maxRegions ▸ h.some_region) h.peers' peer
    rw [← h.maxRegions] at hi'
    exact RankLog.unused_exchange_eq hi hi' hv hv' (hr.trans hr'.symm) _ _

theorem Alike.putLog (h : Alike c d) {l : RankLog} (hl : RankLog.Idle c.maxRegions l) :
    Alike (c.putLog l) (d.putLog l) where
  maxRegions := h.maxRegions
  activeRegion := h.activeRegion
  regions := h.regions
  validLogs := by
    refine IndexedSet.ext_mem fun x => ?_
    have hx : x ∈ c.validLogs ↔ x ∈ d.validLogs := by rw [h.validLogs]
    simp only [mem_validLogs] at hx
    simp only [mem_validLogs, CommLog.putLog, IndexedSet.mem_put]
    tauto
  collectives := h.collectives
  collectives' := h.collectives'
  some_region := h.some_region
  active := h.active
  peers := by
    intro x hx
    rcases IndexedSet.mem_put.mp hx with rfl | ⟨hx, _⟩
    · exact hl
    · exact h.peers x hx
  peers' := by
    intro x hx
    rcases IndexedSet.mem_put.mp hx with rfl | ⟨hx, _⟩
    · exact h.maxRegions ▸ hl
    · exact h.peers' x hx

theorem Alike.exchange (h : Alike c d) {peer : Int} {remote : Window Region} {c' : CommLog} {o : Offer}
    (he : c.exchange peer remote = .ok (c', o)) :
    ∃ d', d.exchange peer remote = .ok (d', o) ∧ Alike c' d' := by
  obtain ⟨hp, l, hl, rfl⟩ := onLog_eq he
  refine ⟨d.putLog l, ?_, h.putLog ((idle_logs h.some_region h.peers peer).1.exchange h.active hl)⟩
  rw [h.exchange_eq] at hl
  unfold CommLog.exchange onLog
  rw [if_neg (by omega)]
  change Except.map _ ((d.logs peer).exchange d.activeRegion remote) = _
  rw [hl]
  rfl

theorem Alike.exchangeAll {ps : List (Int × Window Region)} (h : Alike c d) {c' : CommLog}
    {os : List Offer} (he : c.exchangeAll ps = .ok (c', os)) :
    ∃ d', d.exchangeAll ps = .ok (d', os) ∧ Alike c' d' := by
  induction ps generalizing c d os with
  | nil =>
    cases Except.ok.inj he
    exact ⟨d, rfl, h⟩
  | cons p ps ih =>
    obtain ⟨⟨m, o⟩, hm, he⟩ := Except.bind_eq_ok_iff.mp he
    obtain ⟨⟨f, os'⟩, hf, he⟩ := Except.bind_eq_ok_iff.mp he
    cases Except.ok.inj he
    obtain ⟨m', hm', ha⟩ := h.exchange hm
    obtain ⟨f', hf', ha'⟩ := ih ha hf
    exact ⟨f', Except.bind_eq_ok_iff.mpr ⟨_, hm', Except.bind_eq_ok_iff.mpr ⟨_, hf', rfl⟩⟩, ha'⟩

end Peers

section Graft

/-- The log with all that is not about regions and collectives taken from another. -/
def graft (d c : CommLog) : CommLog :=
  { c with mRank := d.mRank, rankLogs := d.rankLogs, activeOp := d.activeOp,
           completedCollectiveAll := d.completedCollectiveAll,
           completedCollectiveAny := d.completedCollectiveAny }

variable {c d : CommLog}

theorem eraseLogs_graft (c d : CommLog) (r : CRegion) :
    (d.graft c).eraseLogs r = d.graft (c.eraseLogs r) := by
  unfold eraseLogs
  split <;> rfl

theorem foldl_eraseLogs_graft (d : CommLog) (rs : List CRegion) (c : CommLog) :
    rs.foldl eraseLogs (d.graft c) = d.graft (rs.foldl eraseLogs c) := by
  induction rs generalizing c with
  | nil => rfl
  | cons r rs ih => rw [List.foldl_cons, eraseLogs_graft, ih, List.foldl_cons]

@[simp] theorem graft_regions (c d : CommLog) : (d.graft c).regions = c.regions := rfl

@[simp] theorem graft_region (c d : CommLog) : (d.graft c).region = c.region := rfl

@[simp] theorem graft_seekRegion (c d : CommLog) : (d.graft c).seekRegion = c.seekRegion := rfl

theorem eraseRegions_graft (c d : CommLog) (k : Nat) :
    (d.graft c).eraseRegions k = d.graft (c.eraseRegions k) := by
  unfold eraseRegions
  simp only [graft_regions, foldl_eraseLogs_graft]
  rfl

theorem appendRegion_graft (c d : CommLog) (r : CRegion) :
    (d.graft c).appendRegion r = (c.appendRegion r).map d.graft := by
  unfold appendRegion
  simp only [graft_regions, graft_region, eraseLogs_graft]
  split <;> rfl

theorem resetCollectives_graft (c d : CommLog) (t : Int) :
    (d.graft c).resetCollectives t = (c.resetCollectives t).map d.graft := by
  unfold resetCollectives
  simp only [graft_regions, graft_region, eraseRegions_graft, appendRegion_graft, eraseLogs_graft]
  split
  next => split <;> rfl
  next =>
    split
    next => rfl
    next => split <;> rfl

theorem applyAlignment_graft (c d : CommLog) (a : Alignment) :
    (d.graft c).applyAlignment a = (c.applyAlignment a).map d.graft := by
  cases a with
  | keep => rfl
  | restart idx => rfl
  | append id => exact appendRegion_graft c d _

theorem alignRegion_graft (c d : CommLog) (latestIdx : Int) (latest : Window CRegion) :
    (d.graft c).alignRegion latestIdx latest = (c.alignRegion latestIdx latest).map d.graft := by
  unfold alignRegion
  rw [graft_seekRegion]
  cases alignment c.seekRegion latestIdx latest with
  | error e => rfl
  | ok a => exact applyAlignment_graft c d a

end Graft

section Syncs

variable {c d : CommLog}

theorem Alike.eq_graft (h : Alike c d) : d = d.graft c := by
  obtain ⟨_, _, _, _, _, _, _, _, _⟩ := c
  obtain ⟨_, _, _, _, _, _, _, _, _⟩ := d
  have h₁ := h.maxRegions
  have h₂ := h.activeRegion
  have h₃ := h.regions
  have h₄ := h.collectives.trans h.collectives'.symm
  simp only at h₁ h₂ h₃ h₄
  subst h₁ h₂ h₃ h₄
  rfl

/-- A change of regions and collectives that logs nothing is the same to both. -/
theorem Alike.regraft (h : Alike c d) {c' : CommLog} (ho : OnlyCollectives c c')
    (he : c'.collectives = .empty) : Alike c' (d.graft c') where
  maxRegions := rfl
  activeRegion := rfl
  regions := rfl
  validLogs := by
    have hc : c'.validLogs = c.validLogs := by
      unfold CommLog.validLogs
      rw [ho.rankLogs]
    exact hc.trans h.validLogs
  collectives := he
  collectives' := he
  some_region := ho.maxRegions ▸ h.some_region
  active := ho.activeRegion ▸ h.active
  peers := by
    rw [ho.rankLogs, ho.maxRegions]
    exact h.peers
  peers' := by
    intro l hl
    change RankLog.Idle c'.maxRegions l
    rw [ho.maxRegions, h.maxRegions]
    exact h.peers' l hl

theorem collectives_subset_resets {c' : CommLog} {t : Int} (h : ResetsCollectives c t c')
    {x : CollectiveLog} (hx : x ∈ c'.collectives) : x ∈ c.collectives := by
  cases h with
  | invalid => exact hx
  | older => exact (mem_eraseRegions.mp hx).1
  | current => exact (mem_eraseLogs.mp hx).1
  | next => exact (mem_eraseLogs.mp hx).1

theorem eq_empty_of_subset {s : IndexedSet CollectiveLog CollectiveLog.idx} (h : c.collectives = .empty)
    (hs : ∀ x ∈ s, x ∈ c.collectives) : s = .empty := by
  refine IndexedSet.ext_mem fun x => ⟨fun hx => ?_, fun hx => absurd hx IndexedSet.not_mem_empty⟩
  have hx := hs x hx
  rwa [h] at hx

theorem Alike.resetCollectives (h : Alike c d) {c' : CommLog} {t : Int} (ht : -1 ≤ t)
    (hr : c.resetCollectives t = .ok c') : ∃ d', d.resetCollectives t = .ok d' ∧ Alike c' d' := by
  refine ⟨d.graft c', ?_, ?_⟩
  · rw [h.eq_graft, resetCollectives_graft, hr]
    rfl
  · by_cases hc : 0 ≤ t
    · have hres := (resetCollectives_ok_iff hc).mp hr
      exact h.regraft (onlyCollectives_resets hres)
        (eq_empty_of_subset h.collectives fun x hx => collectives_subset_resets hres hx)
    · have htm : t = -1 := by omega
      subst htm
      cases Except.ok.inj ((resetCollectives_continue c).symm.trans hr)
      exact h.regraft ⟨rfl, rfl, rfl, rfl, rfl, rfl, rfl⟩ h.collectives

theorem idle_resetConsistency {n : Nat} {l l' : RankLog} (h : RankLog.Idle n l) {t : Int}
    (hr : l.resetConsistency t = .ok l') : RankLog.Idle n l' := by
  refine ⟨h.wellFormed.resetConsistency hr, (RankLog.sameFrame_resetConsistency hr).2.trans h.size, ?_⟩
  by_cases ht : 0 ≤ t
  · exact (RankLog.resets_activeIrecv (RankLog.resets_of_ok ht hr).2).trans h.awaits
  · by_cases hc : t = -1
    · subst hc
      cases Except.ok.inj ((RankLog.resetConsistency_continue l).symm.trans hr)
      exact h.awaits
    · unfold RankLog.resetConsistency at hr
      rw [if_pos (by omega)] at hr
      cases hr

theorem resetConsistency_unused {n : Nat} {l : RankLog} (h : RankLog.Idle n l) (hv : ¬l.curRegion.Valid)
    {t : Int} (ht : -1 ≤ t) : l.resetConsistency t = .ok l := by
  unfold RankLog.resetConsistency
  rw [if_neg (by omega), if_neg (by simp [h.awaits]), if_pos hv]

/-- The valid logs of the one are reset as those of the other. -/
theorem Alike.mem_reset (h : Alike c d) {t : Int} (ht : -1 ≤ t) {ls ls' : IndexedSet RankLog RankLog.rank}
    (hu : List.Forall₂ (fun l l' => l.resetConsistency t = .ok l') c.rankLogs.entries ls.entries)
    (hu' : List.Forall₂ (fun l l' => l.resetConsistency t = .ok l') d.rankLogs.entries ls'.entries)
    {x : RankLog} (hx : x ∈ ls) (hv : x.curRegion.Valid) : x ∈ ls' := by
  obtain ⟨l, hl, hr⟩ := List.exists_left_of_forall₂ hu hx
  have hlv : l.curRegion.Valid := by
    by_contra hn
    cases Except.ok.inj ((resetConsistency_unused (h.peers l hl) hn ht).symm.trans hr)
    exact hn hv
  have hmem : l ∈ c.validLogs := mem_validLogs.mpr ⟨hl, hlv⟩
  rw [h.validLogs] at hmem
  obtain ⟨y, hy, hr'⟩ := List.exists_right_of_forall₂ hu' (mem_validLogs.mp hmem).1
  cases Except.ok.inj (hr.symm.trans hr')
  exact hy

theorem Alike.resetLocal (h : Alike c d) {c' : CommLog} {t : Int} (hr : c.resetLocal t = .ok c') :
    ∃ d', d.resetLocal t = .ok d' ∧ Alike c' d' := by
  obtain ⟨ht, ls, hls, hres⟩ := resetLocal_cases hr
  have hu := IndexedSet.updateM_eq_ok_iff.mp hls
  obtain ⟨ls', hls'⟩ : ∃ ls', d.rankLogs.updateM (·.resetConsistency t)
      (fun _ _ h => (RankLog.sameFrame_resetConsistency h).1) = .ok ls' := by
    refine IndexedSet.updateM_ok_exists_iff.mpr fun l hl => ?_
    by_cases hv : l.curRegion.Valid
    · have hmem : l ∈ d.validLogs := mem_validLogs.mpr ⟨hl, hv⟩
      rw [← h.validLogs] at hmem
      obtain ⟨l', _, hl'⟩ := List.exists_right_of_forall₂ hu (mem_validLogs.mp hmem).1
      exact ⟨l', hl'⟩
    · exact ⟨l, resetConsistency_unused (h.peers' l hl) hv ht⟩
  have hu' := IndexedSet.updateM_eq_ok_iff.mp hls'
  have hmid : Alike { c with rankLogs := ls, activeRegion := if 0 ≤ t then t else c.activeRegion }
      { d with rankLogs := ls', activeRegion := if 0 ≤ t then t else d.activeRegion } := by
    refine ⟨h.maxRegions, ?_, h.regions, ?_, h.collectives, h.collectives', h.some_region, ?_, ?_, ?_⟩
    · simp only [h.activeRegion]
    · refine IndexedSet.ext_mem fun x => ?_
      simp only [mem_validLogs]
      exact ⟨fun hx => ⟨h.mem_reset ht hu hu' hx.1 hx.2, hx.2⟩,
        fun hx => ⟨h.symm.mem_reset ht hu' hu hx.1 hx.2, hx.2⟩⟩
    · change 0 ≤ if 0 ≤ t then t else c.activeRegion
      split
      next h₀ => exact h₀
      next => exact h.active
    · intro x hx
      obtain ⟨l, hl, hlx⟩ := List.exists_left_of_forall₂ hu hx
      exact idle_resetConsistency (h.peers l hl) hlx
    · intro x hx
      obtain ⟨l, hl, hlx⟩ := List.exists_left_of_forall₂ hu' hx
      exact idle_resetConsistency (h.peers' l hl) hlx
  obtain ⟨d', hd', ha⟩ := hmid.resetCollectives ht hres
  refine ⟨d', ?_, ha⟩
  unfold CommLog.resetLocal
  rw [if_neg (by omega), hls']
  exact hd'

theorem Alike.alignRegion (h : Alike c d) {c' : CommLog} {latestIdx : Int} {latest : Window CRegion}
    (ha : c.alignRegion latestIdx latest = .ok c') :
    ∃ d', d.alignRegion latestIdx latest = .ok d' ∧ Alike c' d' := by
  refine ⟨d.graft c', ?_, ?_⟩
  · rw [h.eq_graft, alignRegion_graft, ha]
    rfl
  · obtain ⟨a, _, happ⟩ := Except.bind_eq_ok_iff.mp ha
    cases a with
    | keep =>
      cases Except.ok.inj happ
      exact h.regraft ⟨rfl, rfl, rfl, rfl, rfl, rfl, rfl⟩ h.collectives
    | restart n =>
      cases Except.ok.inj happ
      exact h.regraft ⟨rfl, rfl, rfl, rfl, rfl, rfl, rfl⟩ h.collectives
    | append id =>
      obtain ⟨_, rfl⟩ := appendRegion_eq happ
      have hsub : ∀ x ∈ (c.eraseLogs c.regions.front).collectives, x ∈ c.collectives :=
        fun x hx => (mem_eraseLogs.mp hx).1
      refine h.regraft ?_ (eq_empty_of_subset h.collectives hsub)
      rw [eraseLogs_eq]
      exact ⟨rfl, rfl, rfl, rfl, rfl, rfl, rfl⟩

theorem Alike.formCollective (h : Alike c d) {c' : CommLog} {a : Option CollectiveAnswer}
    (hf : c.formCollective a = .ok c') : ∃ d', d.formCollective a = .ok d' ∧ Alike c' d' := by
  cases a with
  | none =>
    cases Except.ok.inj hf
    exact ⟨d, rfl, h⟩
  | some a =>
    obtain ⟨m, hm, hf⟩ := Except.bind_eq_ok_iff.mp hf
    cases Except.ok.inj hf
    obtain ⟨m', hm', ha⟩ := h.alignRegion hm
    refine ⟨_, Except.bind_eq_ok_iff.mpr ⟨m', hm', rfl⟩, ?_⟩
    exact ⟨ha.maxRegions, ha.activeRegion, ha.regions, ha.validLogs, ha.collectives, ha.collectives',
      ha.some_region, ha.active, ha.peers, ha.peers'⟩

/-- A log without collectives has none to replay. -/
theorem replayCollectives_empty (h : c.collectives = .empty) {n : Int} {xs : List CollectiveLog} :
    c.replayCollectives n = .ok xs ↔ c.region.Valid ∧ xs = [] := by
  have hs : c.collectives.sinceFound n = [] := by
    rw [h]
    rfl
  unfold replayCollectives
  rw [hs]
  by_cases hv : c.region.Valid
  · rw [if_neg (not_not.mpr hv)]
    simp [contiguousFrom, hv, eq_comm]
  · rw [if_pos hv]
    simp [hv]

theorem Alike.resetConsistency (h : Alike c d) {c' : CommLog} {i : SyncInput} {o : SyncOutput}
    (hr : c.resetConsistency i = .ok (c', o)) :
    ∃ d', d.resetConsistency i = .ok (d', o) ∧ Alike c' d' := by
  obtain ⟨r, hres, hr⟩ := Except.bind_eq_ok_iff.mp hr
  obtain ⟨⟨e, os⟩, hex, hr⟩ := Except.bind_eq_ok_iff.mp hr
  obtain ⟨f, hf, hr⟩ := Except.bind_eq_ok_iff.mp hr
  obtain ⟨xs, hrep, hr⟩ := Except.bind_eq_ok_iff.mp hr
  cases Except.ok.inj hr
  obtain ⟨r', hres', ha⟩ := h.resetLocal hres
  obtain ⟨e', hex', ha'⟩ := ha.exchangeAll hex
  obtain ⟨f', hf', ha''⟩ := ha'.formCollective hf
  refine ⟨f', ?_, ha''⟩
  have hreg : r.region = r'.region := congrArg Window.cur ha.regions
  have hreg' : c'.region = f'.region := congrArg Window.cur ha''.regions
  have hrep' : f'.replayCollectives (f'.completedCollectiveAll + 1) = .ok xs := by
    rw [replayCollectives_empty ha''.collectives, hreg'] at hrep
    rwa [replayCollectives_empty ha''.collectives']
  unfold CommLog.resetConsistency
  simp only [Except.bind_eq_ok_iff]
  refine ⟨r', hres', (e', os), hex', f', hf', xs, hrep', ?_⟩
  simp only [initiates, StartsCollective, ha.validLogs, ha.regions, hreg, hreg']
  rfl

theorem Alike.syncs (h : Alike c d) {is : List SyncInput} {os : List SyncOutput} (hs : Syncs c is os) :
    Syncs d is os := by
  induction hs generalizing d with
  | nil => exact .nil d
  | cons ht hr _ ih =>
    obtain ⟨d', hd', ha⟩ := h.resetConsistency hr
    refine .cons ?_ hd' (ih ha)
    unfold SyncTarget
    rw [← h.regions]
    exact ht

end Syncs

section Restored

variable {c : CommLog}

theorem serialize_exists (ha : ∀ l ∈ c.rankLogs, l.activeIrecv = none) : ∃ ts, c.serialize = .ok ts := by
  obtain ⟨tss, hl⟩ : ∃ tss, c.validLogs.entries.mapM RankLog.serializeEntry = .ok tss := by
    refine List.mapM_ok_exists_iff.mpr fun l hl => ?_
    obtain ⟨hmem, hv⟩ := mem_validLogs.mp hl
    have hs : l.serialize = .ok _ := if_pos ⟨hv, ha l hmem⟩
    exact ⟨_, Except.bind_eq_ok_iff.mpr ⟨_, hs, rfl⟩⟩
  exact ⟨_, Except.bind_eq_ok_iff.mpr ⟨tss, hl, rfl⟩⟩

theorem alike_restored (h : c.WellFormed) (ha : ∀ l ∈ c.rankLogs, l.activeIrecv = none)
    (he : c.collectives = .empty) : Alike c c.restored where
  maxRegions := rfl
  activeRegion := rfl
  regions := rfl
  validLogs := by
    refine IndexedSet.ext_mem fun x => ?_
    simp only [mem_validLogs, CommLog.restored]
    tauto
  collectives := he
  collectives' := rfl
  some_region := by rw [← h.size]; exact Nat.succ_pos _
  active := h.active
  peers := fun l hl => ⟨(h.peers l hl).1, (h.peers l hl).2, ha l hl⟩
  peers' := by
    intro l hl
    have hmem := (IndexedSet.mem_filter.mp hl).1
    exact ⟨(h.peers l hmem).1, (h.peers l hmem).2, ha l hmem⟩

/-- A rank that has the latest index keeps its region. -/
theorem alignRegion_self (h : c.WellFormed) (hv : c.region.Valid) (hf : ¬c.region.Fresh) (n : Int) :
    c.alignRegion n c.regions = .ok c := by
  have hseek : c.seekRegion = c.region := if_pos hv
  have hal : alignment c.region n c.regions = .ok .keep := by
    unfold alignment
    cases hb : c.regions.lowerBound CRegion.id c.region.id with
    | none =>
      have hnone := List.find?_eq_none.mp hb c.region region_mem
      simp at hnone
    | some it =>
      obtain ⟨hmem, hle⟩ := Window.lowerBound_mem hb
      have hge := id_le_region h.own hmem
      have hit : it = c.region := by
        rcases Window.mem_toList.mp hmem with hold | hcur
        · have hid := hv.1
          rcases older_precedes h.own hold with hp | hp
          · omega
          · omega
        · exact hcur
      subst hit
      simp only [ne_eq, not_true_eq_false, if_false, hv, hf, or_self]
  unfold alignRegion
  rw [hseek, hal]
  rfl

/-- A sync in which no peer takes part and the rank itself has the latest index. -/
def loneSync (c : CommLog) (earliestIdx : Int) : SyncInput :=
  ⟨-1, [], some ⟨c.region.next, c.regions, earliestIdx⟩⟩

/-- What a rank shows in such a sync. -/
def loneOutput (c : CommLog) (xs : List CollectiveLog) : SyncOutput :=
  { initiated := c.initiates, offers := [], startsCollective := decide c.StartsCollective,
    regions := c.regions, next := c.region.next, replayed := xs }

theorem resetConsistency_loneSync (h : c.WellFormed) (hv : c.region.Valid) (hf : ¬c.region.Fresh) {n : Int}
    {c' : CommLog} {o : SyncOutput} : c.resetConsistency (c.loneSync n) = .ok (c', o) ↔
      ∃ xs, c.replayCollectives n = .ok xs ∧ o = c.loneOutput xs ∧ c' = { c with
        completedCollectiveAny := c.region.next - 1, completedCollectiveAll := n - 1 } := by
  have hform : c.formCollective (some ⟨c.region.next, c.regions, n⟩) = .ok { c with
      completedCollectiveAny := c.region.next - 1, completedCollectiveAll := n - 1 } :=
    Except.bind_eq_ok_iff.mpr ⟨c, alignRegion_self h hv hf _, rfl⟩
  have hrep : ∀ xs, CommLog.replayCollectives { c with
      completedCollectiveAny := c.region.next - 1, completedCollectiveAll := n - 1 } (n - 1 + 1) = .ok xs ↔
      c.replayCollectives n = .ok xs := by
    intro xs
    rw [Int.sub_add_cancel]
    rfl
  constructor
  · intro hr
    obtain ⟨r, hres, hr⟩ := Except.bind_eq_ok_iff.mp hr
    cases Except.ok.inj ((resetLocal_continue c).symm.trans hres)
    obtain ⟨⟨e, os⟩, hex, hr⟩ := Except.bind_eq_ok_iff.mp hr
    cases Except.ok.inj hex
    obtain ⟨f, hf, hr⟩ := Except.bind_eq_ok_iff.mp hr
    cases Except.ok.inj (hform.symm.trans hf)
    obtain ⟨xs, hxs, hr⟩ := Except.bind_eq_ok_iff.mp hr
    cases Except.ok.inj hr
    exact ⟨xs, (hrep xs).mp hxs, rfl, rfl⟩
  · rintro ⟨xs, hxs, rfl, rfl⟩
    unfold CommLog.resetConsistency
    simp only [Except.bind_eq_ok_iff]
    exact ⟨c, resetLocal_continue c, (c, []), rfl, _, hform, xs, (hrep xs).mpr hxs, rfl⟩

/-- What is replayed from a logged collective on begins with it. -/
theorem replayCollectives_ne_nil (h : c.WellFormed) {x : CollectiveLog} (hx : x ∈ c.collectives)
    {xs : List CollectiveLog} (hr : c.replayCollectives x.idx = .ok xs) : x ∈ xs := by
  have hlt := idx_lt_next h.own hx
  unfold replayCollectives at hr
  split at hr
  next => cases hr
  next =>
    split at hr
    next => omega
    next =>
      split at hr
      next =>
        cases Except.ok.inj hr
        unfold IndexedSet.sinceFound
        rw [if_pos]
        · exact IndexedSet.mem_since.mpr ⟨hx, Int.le_refl _⟩
        · exact List.any_eq_true.mpr ⟨x, hx, decide_eq_true rfl⟩
      next => cases hr

end Restored

end CommLog

end Fenix
