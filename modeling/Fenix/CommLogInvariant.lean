import Fenix.CommLog

namespace Fenix

namespace CRegion

/-- As for the regions of a peer's log, with the one range of the collectives. -/
def Precedes (a b : CRegion) : Prop := a.id = -1 ∨ (a.id < b.id ∧ b.Valid ∧ a.next ≤ b.first)

def Shaped (r : CRegion) : Prop := -1 ≤ r.id ∧ (r.Valid ∧ r.first ≤ r.next ∨ r.first = -1 ∧ r.next = -1)

def Holds (r : CRegion) (idx : Int) : Prop := r.Valid ∧ r.first ≤ idx ∧ idx < r.next

theorem shaped_default : ({} : CRegion).Shaped := ⟨by decide, Or.inr ⟨rfl, rfl⟩⟩

theorem default_precedes (r : CRegion) : ({} : CRegion).Precedes r := Or.inl rfl

theorem valid_starting {id n : Int} (hi : 0 ≤ id) (hn : 0 ≤ n) : (starting id n).Valid := ⟨hi, hn, hn⟩

theorem shaped_starting {id n : Int} (hi : 0 ≤ id) (hn : 0 ≤ n) : (starting id n).Shaped :=
  ⟨Int.le_trans (by decide) hi, Or.inl ⟨valid_starting hi hn, Int.le_refl _⟩⟩

theorem Shaped.first_le_next {r : CRegion} (h : r.Shaped) : r.first ≤ r.next := by
  rcases h.2 with h | h <;> omega

theorem Precedes.id_le {a b : CRegion} (h : a.Precedes b) (hb : b.Shaped) : a.id ≤ b.id := by
  rcases h with h | h
  · rw [h]
    exact hb.1
  · exact Int.le_of_lt h.1

theorem Precedes.trans_start {a b c : CRegion} (h : a.Precedes b) (hid : b.id ≤ c.id) (hc : c.Valid)
    (hf : b.first ≤ c.first) : a.Precedes c := by
  rcases h with h | ⟨hlt, _, hn⟩
  · exact Or.inl h
  · exact Or.inr ⟨by omega, hc, by omega⟩

end CRegion

namespace CommLog

/-- The communicator's own regions are in order, and what is logged are collectives of theirs. -/
structure Ordered (c : CommLog) : Prop where
  shaped : ∀ r ∈ c.regions.toList, r.Shaped
  ordered : c.regions.toList.Pairwise CRegion.Precedes
  logged : ∀ x ∈ c.collectives, ∃ r ∈ c.regions.toList, r.Holds x.idx

theorem Ordered.of_same {c c' : CommLog} (h : c.Ordered) (hr : c'.regions = c.regions)
    (hx : c'.collectives = c.collectives) : c'.Ordered :=
  ⟨hr ▸ h.shaped, hr ▸ h.ordered, hr ▸ hx ▸ h.logged⟩

section Facts

variable {c : CommLog}

theorem region_mem : c.region ∈ c.regions.toList := c.regions.cur_mem

theorem older_precedes (h : c.Ordered) {r : CRegion} (hr : r ∈ c.regions.older) : r.Precedes c.region :=
  Window.older_rel_cur h.ordered hr

theorem older_id_of_not_valid (h : c.Ordered) (hv : ¬c.region.Valid) {r : CRegion}
    (hr : r ∈ c.regions.older) : r.id = -1 := by
  rcases older_precedes h hr with hp | hp
  · exact hp
  · exact absurd hp.2.1 hv

theorem collectives_empty_of_not_valid (h : c.Ordered) (hv : ¬c.region.Valid) (x : CollectiveLog) :
    x ∉ c.collectives := by
  intro hx
  obtain ⟨r, hr, hh⟩ := h.logged x hx
  rcases Window.mem_toList.mp hr with hr | rfl
  · have hid := older_id_of_not_valid h hv hr
    have hge := hh.1.1
    omega
  · exact hv hh.1

theorem id_sorted (h : c.Ordered) : c.regions.toList.Pairwise fun a b => a.id ≤ b.id := by
  refine List.Pairwise.imp_of_mem ?_ h.ordered
  intro a b _ hb hab
  exact hab.id_le (h.shaped b hb)

theorem id_le_region (h : c.Ordered) {r : CRegion} (hr : r ∈ c.regions.toList) : r.id ≤ c.region.id := by
  rcases Window.mem_toList.mp hr with hr | rfl
  · exact (older_precedes h hr).id_le (h.shaped _ region_mem)
  · exact Int.le_refl _

theorem idx_lt_next (h : c.Ordered) {x : CollectiveLog} (hx : x ∈ c.collectives) :
    x.idx < c.region.next := by
  obtain ⟨r, hr, hv, hlo, hhi⟩ := h.logged x hx
  rcases Window.mem_toList.mp hr with hr | rfl
  · rcases older_precedes h hr with hp | hp
    · have hge := hv.1
      omega
    · have hle := (h.shaped _ region_mem).first_le_next
      omega
  · exact hhi

theorem eq_region_of_id_eq (h : c.Ordered) {r : CRegion} (hr : r ∈ c.regions.toList) (hv : r.Valid)
    (hid : r.id = c.region.id) : r = c.region := by
  rcases Window.mem_toList.mp hr with hr | rfl
  · rcases older_precedes h hr with hp | hp
    · have hge := hv.1
      omega
    · omega
  · rfl

end Facts

theorem mem_eraseLogs {c : CommLog} {r : CRegion} {x : CollectiveLog} :
    x ∈ (c.eraseLogs r).collectives ↔ x ∈ c.collectives ∧ ¬r.Holds x.idx := by
  unfold eraseLogs CRegion.Holds
  split
  next h => simp [h]
  next h => simp [h]

/-- Erasing collectives changes nothing else. -/
theorem eraseLogs_eq (c : CommLog) (r : CRegion) :
    c.eraseLogs r = { c with collectives := (c.eraseLogs r).collectives } := by
  unfold eraseLogs
  split <;> rfl

theorem foldl_eraseLogs_eq (rs : List CRegion) (c : CommLog) :
    rs.foldl eraseLogs c = { c with collectives := (rs.foldl eraseLogs c).collectives } := by
  induction rs generalizing c with
  | nil => rfl
  | cons r rs ih =>
    rw [List.foldl_cons, ih, eraseLogs_eq c r]

theorem mem_foldl_eraseLogs {rs : List CRegion} {c : CommLog} {x : CollectiveLog} :
    x ∈ (rs.foldl eraseLogs c).collectives ↔ x ∈ c.collectives ∧ ∀ r ∈ rs, ¬r.Holds x.idx := by
  induction rs generalizing c with
  | nil => simp
  | cons r rs ih =>
    rw [List.foldl_cons, ih, mem_eraseLogs]
    simp only [List.mem_cons, forall_eq_or_imp, and_assoc]

theorem mem_eraseRegions {c : CommLog} {k : Nat} {x : CollectiveLog} :
    x ∈ (c.eraseRegions k).collectives ↔
      x ∈ c.collectives ∧ ∀ r ∈ c.regions.toList.drop k, ¬r.Holds x.idx :=
  mem_foldl_eraseLogs

theorem eraseRegions_eq (c : CommLog) (k : Nat) : c.eraseRegions k =
    { c with collectives := (c.eraseRegions k).collectives, regions := c.regions.keep {} k } := by
  unfold eraseRegions
  rw [foldl_eraseLogs_eq]

@[simp] theorem eraseRegions_regions (c : CommLog) (k : Nat) :
    (c.eraseRegions k).regions = c.regions.keep {} k := rfl

theorem appendRegion_eq {c c' : CommLog} {r : CRegion} (h : c.appendRegion r = .ok c') :
    c.region.id < r.id ∧ c' = { c.eraseLogs c.regions.front with regions := c.regions.push r } := by
  unfold appendRegion at h
  split at h
  next hlt => exact ⟨hlt, (Except.ok.inj h).symm⟩
  next => cases h

theorem ordered_create (mRank : Int) (maxRegions : Nat) : (create mRank maxRegions).Ordered := by
  have hblank : ∀ r ∈ (create mRank maxRegions).regions.toList, r = {} := by
    intro r hr
    change r ∈ (Window.fill (maxRegions - 1) ({} : CRegion)).toList at hr
    rw [Window.toList_fill] at hr
    exact List.eq_of_mem_replicate hr
  refine ⟨fun r hr => hblank r hr ▸ CRegion.shaped_default, ?_, ?_⟩
  · exact List.pairwise_of_forall_mem_list fun a ha b _ => hblank a ha ▸ CRegion.default_precedes b
  · intro x hx
    exact absurd hx IndexedSet.not_mem_empty

theorem Ordered.eraseRegions {c : CommLog} (h : c.Ordered) (k : Nat) : (c.eraseRegions k).Ordered := by
  refine ⟨?_, Window.pairwise_keep h.ordered CRegion.default_precedes, ?_⟩
  · intro r hr
    rcases Window.mem_keep hr with rfl | hr
    · exact CRegion.shaped_default
    · exact h.shaped r (List.mem_of_mem_take hr)
  · intro x hx
    obtain ⟨hx, hnot⟩ := mem_eraseRegions.mp hx
    obtain ⟨r, hr, hh⟩ := h.logged x hx
    refine ⟨r, ?_, hh⟩
    rw [eraseRegions_regions, Window.toList_keep]
    refine List.mem_append_right _ ?_
    rw [← List.take_append_drop k c.regions.toList] at hr
    rcases List.mem_append.mp hr with hr | hr
    · exact hr
    · exact absurd hh (hnot r hr)

theorem Ordered.appendRegion {c c' : CommLog} (h : c.Ordered) {id n : Int} (hi : 0 ≤ id) (hn : 0 ≤ n)
    (hge : c.region.next ≤ n) (ha : c.appendRegion (.starting id n) = .ok c') : c'.Ordered := by
  obtain ⟨hid, rfl⟩ := appendRegion_eq ha
  refine ⟨?_, Window.pairwise_push h.ordered ?_, ?_⟩
  · intro r hr
    rcases Window.mem_push hr with hr | rfl
    · exact h.shaped r (List.mem_of_mem_tail hr)
    · exact CRegion.shaped_starting hi hn
  · intro r hr
    rcases Window.mem_toList.mp hr with hr | rfl
    · have hle := (h.shaped _ region_mem).first_le_next
      exact (older_precedes h hr).trans_start (Int.le_of_lt hid) (CRegion.valid_starting hi hn)
        (Int.le_trans hle hge)
    · exact Or.inr ⟨hid, CRegion.valid_starting hi hn, hge⟩
  · intro x hx
    obtain ⟨hx, hnf⟩ := mem_eraseLogs.mp hx
    obtain ⟨r, hr, hh⟩ := h.logged x hx
    rw [Window.toList_eq_cons] at hr
    rcases List.mem_cons.mp hr with rfl | hr
    · exact absurd hh hnf
    · exact ⟨r, by simp [hr], hh⟩

/-- Replacing the current region by one that begins no earlier and holds the logged collectives. -/
theorem Ordered.setRegion {c : CommLog} (h : c.Ordered) {r : CRegion} (hs : r.Shaped)
    (hp : ∀ y ∈ c.regions.older, y.Precedes r)
    (hl : ∀ x ∈ c.collectives, c.region.Holds x.idx → r.Holds x.idx) : (c.setRegion r).Ordered := by
  refine ⟨?_, Window.pairwise_setCur h.ordered hp, ?_⟩
  · intro y hy
    rcases List.mem_append.mp hy with hy | hy
    · exact h.shaped y (Window.mem_toList.mpr (Or.inl hy))
    · exact List.mem_singleton.mp hy ▸ hs
  · intro x hx
    obtain ⟨y, hy, hh⟩ := h.logged x hx
    rcases Window.mem_toList.mp hy with hy | rfl
    · exact ⟨y, Window.mem_toList.mpr (Or.inl hy), hh⟩
    · exact ⟨r, Window.cur_mem _, hl x hx hh⟩

/-- The log with the current region begun anew, as when it is the one to resume in. -/
def restartCollectives (c : CommLog) : CommLog :=
  (c.eraseLogs c.region).setRegion { c.region with next := c.region.first }

theorem mem_restartCollectives {c : CommLog} (h : c.Ordered) (hv : c.region.Valid) {x : CollectiveLog} :
    x ∈ c.restartCollectives.collectives ↔ x ∈ c.collectives ∧ x.idx < c.region.first := by
  refine mem_eraseLogs.trans (and_congr_right fun hx => ?_)
  have hlt := idx_lt_next h hx
  constructor
  · intro hnot
    by_contra hge
    exact hnot ⟨hv, by omega, hlt⟩
  · intro hlt' hh
    have hge := hh.2.1
    omega

theorem Ordered.restartCollectives {c : CommLog} (h : c.Ordered) (hv : c.region.Valid) :
    c.restartCollectives.Ordered := by
  have hrv : ({ c.region with next := c.region.first } : CRegion).Valid := ⟨hv.1, hv.2.1, hv.2.1⟩
  have herase : (c.eraseLogs c.region).regions = c.regions := by rw [eraseLogs_eq]
  have hreg : c.restartCollectives.regions = c.regions.setCur { c.region with next := c.region.first } := by
    change (c.eraseLogs c.region).regions.setCur _ = _
    rw [herase]
  refine ⟨?_, ?_, ?_⟩
  · intro y hy
    rw [hreg, Window.toList_setCur] at hy
    rcases List.mem_append.mp hy with hy | hy
    · exact h.shaped y (Window.mem_toList.mpr (Or.inl hy))
    · rw [List.mem_singleton.mp hy]
      exact ⟨Int.le_trans (by decide) hv.1, Or.inl ⟨hrv, Int.le_refl _⟩⟩
  · rw [hreg]
    refine Window.pairwise_setCur h.ordered ?_
    intro y hy
    exact (older_precedes h hy).trans_start (Int.le_refl _) hrv (Int.le_refl _)
  · intro x hx
    obtain ⟨hx, hlt⟩ := (mem_restartCollectives h hv).mp hx
    obtain ⟨y, hy, hh⟩ := h.logged x hx
    rcases Window.mem_toList.mp hy with hy | rfl
    · refine ⟨y, ?_, hh⟩
      rw [hreg]
      exact Window.mem_toList.mpr (Or.inl hy)
    · have hge := hh.2.1
      simp only [region] at hlt
      omega

/-- The regions after `t` erased. -/
def keptCollectives (c : CommLog) (t : Int) : CommLog :=
  c.eraseRegions (c.regions.upperBound CRegion.id t)

def appendedCollectives (c : CommLog) (t : Int) : CommLog :=
  { c.eraseLogs c.regions.front with regions := c.regions.push (.starting t c.region.next) }

theorem appendRegion_next {c : CommLog} {t : Int} (h : c.region.id < t) :
    c.appendRegion (.starting t c.region.next) = .ok (c.appendedCollectives t) :=
  if_pos h

/-- What `reset_consistency` does to the communicator's own regions to resume in region `t`. -/
inductive ResetsCollectives (c : CommLog) (t : Int) : CommLog → Prop
  | invalid (hv : ¬c.region.Valid) : ResetsCollectives c t c
  | older (hv : c.region.Valid) (hlt : t < c.region.id)
      (hk : (c.keptCollectives t).region.Valid → (c.keptCollectives t).region.id = t) :
      ResetsCollectives c t (c.keptCollectives t)
  | current (hv : c.region.Valid) (hid : c.region.id = t) : ResetsCollectives c t c.restartCollectives
  | next (hv : c.region.Valid) (hgt : c.region.id < t) : ResetsCollectives c t (c.appendedCollectives t)

theorem resetCollectives_continue (c : CommLog) : c.resetCollectives (-1) = .ok c := by
  unfold resetCollectives
  by_cases hv : c.region.Valid
  · have hid := hv.1
    rw [if_neg (fun h => h.2.1 rfl), if_neg (by omega), if_neg (by omega)]
  · rw [if_neg (fun h => hv h.1), if_neg (fun h => hv h.1), if_neg (fun h => hv h.1)]

theorem resetCollectives_ok_iff {c c' : CommLog} {t : Int} (ht : 0 ≤ t) :
    c.resetCollectives t = .ok c' ↔ ResetsCollectives c t c' := by
  constructor
  · intro h
    unfold resetCollectives at h
    split at h
    next hlt =>
      change (if (c.keptCollectives t).region.Valid ∧ (c.keptCollectives t).region.id ≠ t then _
        else Except.ok (c.keptCollectives t)) = _ at h
      split at h
      next => cases h
      next hk =>
        cases Except.ok.inj h
        exact .older hlt.1 hlt.2.2 fun hkv => by
          by_contra hne
          exact hk ⟨hkv, hne⟩
    next hlt =>
      split at h
      next hgt =>
        rw [appendRegion_next hgt.2] at h
        cases Except.ok.inj h
        exact .next hgt.1 hgt.2
      next hgt =>
        split at h
        next heq =>
          cases Except.ok.inj h
          exact .current heq.1 heq.2
        next heq =>
          cases Except.ok.inj h
          refine .invalid fun hv => ?_
          have h₁ : ¬t < c.region.id := fun h => hlt ⟨hv, by omega, h⟩
          have h₂ : ¬c.region.id < t := fun h => hgt ⟨hv, h⟩
          exact heq ⟨hv, by omega⟩
  · intro h
    unfold resetCollectives
    cases h with
    | invalid hv => rw [if_neg (fun h => hv h.1), if_neg (fun h => hv h.1), if_neg (fun h => hv h.1)]
    | older hv hlt hk =>
      rw [if_pos ⟨hv, by omega, hlt⟩]
      exact if_neg fun h => h.2 (hk h.1)
    | current hv hid =>
      rw [if_neg (by omega), if_neg (by omega), if_pos ⟨hv, hid⟩]
      rfl
    | next hv hgt =>
      rw [if_neg (by omega), if_pos ⟨hv, hgt⟩]
      exact appendRegion_next hgt

theorem Ordered.resetsCollectives {c c' : CommLog} (h : c.Ordered) {t : Int} (ht : 0 ≤ t)
    (hr : ResetsCollectives c t c') : c'.Ordered := by
  cases hr with
  | invalid => exact h
  | older => exact h.eraseRegions _
  | current hv => exact h.restartCollectives hv
  | next hv hgt => exact h.appendRegion ht hv.2.2 (Int.le_refl _) (appendRegion_next hgt)

/-- Nothing but the regions and collectives of the communicator is changed. -/
structure OnlyCollectives (c c' : CommLog) : Prop where
  mRank : c'.mRank = c.mRank
  maxRegions : c'.maxRegions = c.maxRegions
  activeRegion : c'.activeRegion = c.activeRegion
  rankLogs : c'.rankLogs = c.rankLogs
  activeOp : c'.activeOp = c.activeOp
  completedCollectiveAll : c'.completedCollectiveAll = c.completedCollectiveAll
  completedCollectiveAny : c'.completedCollectiveAny = c.completedCollectiveAny

theorem onlyCollectives_resets {c c' : CommLog} {t : Int} (h : ResetsCollectives c t c') :
    OnlyCollectives c c' := by
  cases h with
  | invalid => exact ⟨rfl, rfl, rfl, rfl, rfl, rfl, rfl⟩
  | older =>
    rw [keptCollectives, eraseRegions_eq]
    exact ⟨rfl, rfl, rfl, rfl, rfl, rfl, rfl⟩
  | current =>
    rw [restartCollectives, eraseLogs_eq]
    exact ⟨rfl, rfl, rfl, rfl, rfl, rfl, rfl⟩
  | next =>
    rw [appendedCollectives, eraseLogs_eq]
    exact ⟨rfl, rfl, rfl, rfl, rfl, rfl, rfl⟩

theorem onlyCollectives_append {c c' : CommLog} {r : CRegion} (h : c.appendRegion r = .ok c') : OnlyCollectives c c' := by
  obtain ⟨_, rfl⟩ := appendRegion_eq h
  rw [eraseLogs_eq]
  exact ⟨rfl, rfl, rfl, rfl, rfl, rfl, rfl⟩

theorem onlyCollectives_align {c c' : CommLog} {latestIdx : Int} {latest : Window CRegion}
    (h : c.alignRegion latestIdx latest = .ok c') : OnlyCollectives c c' := by
  obtain ⟨al, _, happ⟩ := Except.bind_eq_ok_iff.mp h
  cases al with
  | keep =>
    cases Except.ok.inj happ
    exact ⟨rfl, rfl, rfl, rfl, rfl, rfl, rfl⟩
  | restart n =>
    cases Except.ok.inj happ
    exact ⟨rfl, rfl, rfl, rfl, rfl, rfl, rfl⟩
  | append id => exact onlyCollectives_append happ

theorem resetsCollectives_size {c c' : CommLog} {t : Int} (h : ResetsCollectives c t c') :
    c'.regions.size = c.regions.size := by
  cases h with
  | invalid => rfl
  | older => exact Window.size_keep _ (Window.upperBound_le _ _)
  | current =>
    change ((c.eraseLogs c.region).regions.setCur _).size = _
    rw [Window.size_setCur, eraseLogs_eq]
  | next => exact Window.size_push _ _

end CommLog

end Fenix
