import Fenix.CommLogRun
import Fenix.PairCompletion

/-- Updating a set entry by entry, seen from one key. -/
theorem IndexedSet.updateM_find? {α ε : Type} {key : α → Int} {f : α → Except ε α} {s t : IndexedSet α key}
    {h : ∀ a b, f a = .ok b → key b = key a} (hu : s.updateM f h = .ok t) (k : Int) :
    s.find? k = none ∧ t.find? k = none ∨ ∃ x y, s.find? k = some x ∧ f x = .ok y ∧ t.find? k = some y := by
  have hf := updateM_eq_ok_iff.mp hu
  cases hk : s.find? k with
  | none =>
    refine Or.inl ⟨rfl, List.find?_eq_none.mpr fun y hy => ?_⟩
    obtain ⟨x, hx, hxy⟩ := List.exists_left_of_forall₂ hf hy
    have hne := find?_none hk x hx
    rw [← h x y hxy] at hne
    simpa using hne
  | some x =>
    obtain ⟨hx, hxk⟩ := find?_some hk
    obtain ⟨y, hy, hxy⟩ := List.exists_right_of_forall₂ hf hx
    exact Or.inr ⟨x, y, rfl, hxy, find?_eq_some_iff.mpr ⟨hy, (h x y hxy).trans hxk⟩⟩

theorem IndexedSet.find?_filter {α : Type} {key : α → Int} (s : IndexedSet α key) (p : α → Bool) (k : Int) :
    (s.filter p).find? k = (s.find? k).filter p := by
  cases hk : s.find? k with
  | none => exact List.find?_eq_none.mpr fun x hx => by simpa using find?_none hk x (mem_filter.mp hx).1
  | some x =>
    obtain ⟨hx, hxk⟩ := find?_some hk
    by_cases hp : p x = true
    · rw [Option.filter_some_pos hp]
      exact find?_eq_some_iff.mpr ⟨mem_filter.mpr ⟨hx, hp⟩, hxk⟩
    · rw [Option.filter_some_neg (by simpa using hp)]
      refine List.find?_eq_none.mpr fun y hy => ?_
      obtain ⟨hys, hyp⟩ := mem_filter.mp hy
      refine fun hyk => hp ?_
      rw [eq_of_key_eq hx hys (hxk.trans (of_decide_eq_true hyk).symm)]
      exact hyp

namespace Fenix

theorem RankLog.formConsistency_rank {l l' : RankLog} {remote : Window Region} {out : List SendLog × Option IrecvLog}
    (h : l.formConsistency remote = .ok (l', out)) : l'.rank = l.rank := by
  obtain ⟨_, _, _, _, _, rfl, _⟩ := formConsistency_cases h
  rfl

namespace CommLog

variable {c c' : CommLog} {peer : Int}

theorem endpoint_putLog (l : RankLog) (peer : Int) :
    (c.putLog l).endpoint peer = if l.rank = peer then (c.endpoint peer).setLog l else c.endpoint peer := by
  unfold endpoint putLog
  dsimp only
  rw [IndexedSet.find?_put]
  split
  next => rfl
  next => rfl

theorem rank_logs (c : CommLog) (peer : Int) : (c.logs peer).rank = peer := by
  unfold logs
  cases hf : c.rankLogs.find? peer with
  | none => rfl
  | some l => exact (IndexedSet.find?_some hf).2

/-- An operation of the traffic with one peer leaves the other ends as they are. -/
theorem endpoint_onLog {α : Type} {p : Int} {f : RankLog → Except Abort (RankLog × α)} {x : α}
    (hrank : ∀ l l' y, f l = .ok (l', y) → l'.rank = l.rank) (h : c.onLog p f = .ok (c', x)) (peer : Int) :
    c'.endpoint peer = c.endpoint peer ∨
      ∃ l, f (c.endpoint peer).logs = .ok (l, x) ∧ c'.endpoint peer = (c.endpoint peer).setLog l := by
  obtain ⟨_, l, hl, rfl⟩ := onLog_eq h
  have hr := (hrank _ _ _ hl).trans (c.rank_logs p)
  rw [endpoint_putLog]
  split
  next hp =>
    rw [hr] at hp
    subst hp
    exact Or.inr ⟨l, hl, rfl⟩
  next => exact Or.inl rfl

theorem OnlyCollectives.endpoint (h : OnlyCollectives c c') (peer : Int) : c'.endpoint peer = c.endpoint peer := by
  unfold CommLog.endpoint
  rw [h.maxRegions, h.activeRegion, h.rankLogs]

/-- What a step of a rank makes of its end of the traffic with a peer. -/
inductive EndpointStep (e : Endpoint) : Endpoint → Prop
  | kept : EndpointStep e e
  | moves {e' : Endpoint} (h : e.Moves e') : EndpointStep e e'
  | failed {m : Endpoint} (h : e.Moves m) : EndpointStep e m.abandonIrecv

theorem onlyCollectives_begin {id : Int} (h : c.beginCRegion id = .ok c') : OnlyCollectives c c' := by
  have hrefl : OnlyCollectives c c := ⟨rfl, rfl, rfl, rfl, rfl, rfl, rfl⟩
  unfold beginCRegion at h
  split at h
  next =>
    split at h
    next => exact Except.ok.inj h ▸ hrefl
    next => cases h
  next =>
    split at h
    next =>
      split at h
      next => cases h
      next =>
        split at h
        next => exact Except.ok.inj h ▸ hrefl
        next => cases h
    next =>
      split at h
      next => exact onlyCollectives_append h
      next => exact onlyCollectives_append h

theorem endpoint_beginRegion {id : Int} (h : c.beginRegion id = .ok c') (peer : Int) :
    (c.endpoint peer).beginRegion id = .ok (c'.endpoint peer) := by
  unfold CommLog.beginRegion at h
  split at h
  next => cases h
  next hid =>
    obtain ⟨ls, hls, h⟩ := Except.bind_eq_ok_iff.mp h
    rw [(onlyCollectives_begin h).endpoint]
    unfold Endpoint.beginRegion endpoint
    rw [if_neg hid]
    obtain ⟨hnone, hnone'⟩ | ⟨l, l', hl, hb, hl'⟩ := IndexedSet.updateM_find? hls peer
    · dsimp only
      rw [hnone, hnone']
    · dsimp only
      rw [hl, hl']
      exact Except.map_eq_ok_iff.mpr ⟨l', hb, rfl⟩

theorem endpoint_resetLocal {t : Int} (h : c.resetLocal t = .ok c') (peer : Int) :
    (c.endpoint peer).resetLocal t = .ok (c'.endpoint peer) := by
  obtain ⟨ht, ls, hls, hres⟩ := resetLocal_cases h
  have hkept : c'.endpoint peer =
      ({ c with rankLogs := ls, activeRegion := if 0 ≤ t then t else c.activeRegion } : CommLog).endpoint peer := by
    by_cases h0 : 0 ≤ t
    · exact (onlyCollectives_resets ((resetCollectives_ok_iff h0).mp hres)).endpoint peer
    · obtain rfl : t = -1 := by omega
      cases Except.ok.inj ((resetCollectives_continue _).symm.trans hres)
      rfl
  rw [hkept]
  unfold Endpoint.resetLocal endpoint
  rw [if_neg (by omega)]
  obtain ⟨hnone, hnone'⟩ | ⟨l, l', hl, hr, hl'⟩ := IndexedSet.updateM_find? hls peer
  · dsimp only
    rw [hnone, hnone']
  · dsimp only
    rw [hl, hl']
    exact Except.map_eq_ok_iff.mpr ⟨l', hr, rfl⟩

/-- Every step of a rank is, for each of its peers, one that the end of their traffic can take. -/
theorem endpointStep_of_step (hs : Step c c') (peer : Int) :
    EndpointStep (c.endpoint peer) (c'.endpoint peer) := by
  cases hs with
  | send h =>
    rcases endpoint_onLog (fun _ _ _ hf => (RankLog.sameFrame_send hf).1) h peer with heq | ⟨l, hl, heq⟩
    · rw [heq]
      exact .kept
    · rw [heq]
      exact .moves (.send (Except.map_eq_ok_iff.mpr ⟨_, hl, rfl⟩))
  | irecv h =>
    rcases endpoint_onLog (fun _ _ _ hf => (RankLog.sameFrame_irecv (map_unit_eq hf)).1) h peer with heq | ⟨l, hl, heq⟩
    · rw [heq]
      exact .kept
    · rw [heq]
      exact .moves (.irecv (Except.map_eq_ok_iff.mpr ⟨l, map_unit_eq hl, rfl⟩))
  | @irecvFailed m src r h =>
    have hrank : ({ m.logs src with activeIrecv := none } : RankLog).rank = src := m.rank_logs src
    obtain ⟨_, l, hl, rfl⟩ := onLog_eq h
    have hl := map_unit_eq hl
    have hlr := (RankLog.sameFrame_irecv hl).1.trans (c.rank_logs src)
    rw [endpoint_putLog, hrank, endpoint_putLog, hlr]
    split
    next hp =>
      subst hp
      have hlog : (c.putLog l).logs src = l := by
        change ((c.putLog l).endpoint src).logs = l
        rw [endpoint_putLog, if_pos hlr]
        rfl
      rw [hlog]
      exact .failed (.irecv (Except.map_eq_ok_iff.mpr ⟨l, hl, rfl⟩))
    next => exact .kept
  | wait h =>
    rcases endpoint_onLog (fun _ _ _ hf => (RankLog.sameFrame_wait (map_unit_eq hf)).1) h peer with heq | ⟨l, hl, heq⟩
    · rw [heq]
      exact .kept
    · rw [heq]
      exact .moves (.wait (Except.map_eq_ok_iff.mpr ⟨l, map_unit_eq hl, rfl⟩))
  | beginRegion _ _ h => exact .moves (.beginRegion (endpoint_beginRegion h peer))
  | startCollective _ h =>
    obtain ⟨m, hm, h⟩ := Except.bind_eq_ok_iff.mp h
    have hkept : m.endpoint peer = c.endpoint peer := by
      split at hm
      next => rw [Except.ok.inj hm]
      next => exact (onlyCollectives_append hm).endpoint peer
    split at h
    next => cases h
    next =>
      cases Except.ok.inj h
      rw [← hkept]
      exact .kept
  | finishCollective h =>
    unfold CommLog.finishCollective at h
    split at h
    next => cases h
    next =>
      split at h
      next =>
        cases Except.ok.inj h
        exact .kept
      next => cases h
  | abandonCollective => exact .kept
  | reset _ h => exact .moves (.resetLocal (endpoint_resetLocal h peer))
  | offer h =>
    rcases endpoint_onLog (fun _ _ _ hf => (RankLog.sameFrame_offerConsistency (map_unit_eq hf)).1) h peer with
      heq | ⟨l, hl, heq⟩
    · rw [heq]
      exact .kept
    · rw [heq]
      exact .moves (.offerConsistency (Except.map_eq_ok_iff.mpr ⟨l, map_unit_eq hl, rfl⟩))
  | form h =>
    rcases endpoint_onLog (fun _ _ _ hf => RankLog.formConsistency_rank hf) h peer with heq | ⟨l, hl, heq⟩
    · rw [heq]
      exact .kept
    · rw [heq]
      exact .moves (.formConsistency (Except.map_eq_ok_iff.mpr ⟨_, hl, rfl⟩))
  | align _ _ h =>
    rw [(onlyCollectives_align h).endpoint]
    exact .kept
  | agree => exact .kept

/-- What a restored log knows of a peer is what the rank reads back of its end. -/
theorem endpoint_restored {ts : List LogToken} (hs : c.serialize = .ok ts) (peer : Int) :
    (c.endpoint peer).saved = .ok (c.restored.endpoint peer) := by
  have hfound : c.validLogs.find? peer = (c.rankLogs.find? peer).filter fun l => decide l.curRegion.Valid :=
    IndexedSet.find?_filter _ _ _
  unfold Endpoint.saved endpoint restored
  dsimp only
  rw [hfound]
  cases hl : c.rankLogs.find? peer with
  | none => rfl
  | some l =>
    dsimp only
    by_cases hv : l.curRegion.Valid
    · have hidle : l.activeIrecv = none := by
        obtain ⟨tss, htss, _⟩ := Except.bind_eq_ok_iff.mp hs
        have hmem : l ∈ c.validLogs.entries :=
          IndexedSet.mem_filter.mpr ⟨(IndexedSet.find?_some hl).1, decide_eq_true hv⟩
        obtain ⟨ts, _, hts⟩ := List.exists_right_of_forall₂ (List.mapM_eq_ok_iff.mp htss) hmem
        obtain ⟨us, hus, _⟩ := Except.bind_eq_ok_iff.mp hts
        unfold RankLog.serialize at hus
        split at hus
        next hok => exact hok.2
        next => cases hus
      rw [if_neg (not_not.mpr hv), hidle, Option.filter_some_pos (by simpa using hv)]
      rfl
    · rw [if_pos hv, Option.filter_some_neg (by simpa using hv)]

/-- An end of the traffic in order, with the sends of the regions that it retains. -/
structure EndStocked (e : Endpoint) : Prop where
  wellFormed : e.WellFormed
  stocked : e.logs.Stocked

theorem EndStocked.step {e e' : Endpoint} (h : EndStocked e) (hs : EndpointStep e e') : EndStocked e' := by
  have hmoves {e m : Endpoint} (h : EndStocked e) (hm : e.Moves m) : EndStocked m :=
    ⟨h.wellFormed.moves hm, Endpoint.stocked_moves h.stocked h.wellFormed hm⟩
  cases hs with
  | kept => exact h
  | moves hm => exact hmoves h hm
  | failed hm => exact hmoves (hmoves h hm) .abandonIrecv

/-- All ends of a log that a rank can come to are in order. -/
theorem Reachable.endStocked (h : Reachable c) (peer : Int) : EndStocked (c.endpoint peer) := by
  induction h with
  | create mRank hm =>
    refine ⟨⟨Int.le_refl 0, fun l hl => ?_⟩, RankLog.stocked_create _ _⟩
    cases hl
  | step _ hs ih => exact ih.step (endpointStep_of_step hs peer)
  | restore hc hs hd ih =>
    rw [deserialize_serialize hs fun l hl => ((reachable_wellFormed hc).peers l hl).2] at hd
    cases Except.ok.inj hd
    have hsaved := endpoint_restored hs peer
    exact ⟨ih.wellFormed.saved hsaved, Endpoint.stocked_saved ih.stocked hsaved⟩

end CommLog

end Fenix
