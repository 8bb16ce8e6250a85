import Fenix.RankLog

namespace Fenix

/-- An entry of a window is unused, or an earlier region than the valid one after it. -/
def Region.Precedes (a b : Region) : Prop :=
  a.id = -1 ∨ (a.id < b.id ∧ b.Valid ∧ a.send.next ≤ b.send.first ∧ a.recv.next ≤ b.recv.first)

/-- A window entry holds valid ranges or none. -/
def Region.Shaped (r : Region) : Prop := -1 ≤ r.id ∧ (r.Valid ∨ r.send = {} ∧ r.recv = {})

def Region.Holds (r : Region) (idx : Int) : Prop :=
  r.Valid ∧ r.send.first ≤ idx ∧ idx < r.send.next

theorem Region.shaped_default : ({} : Region).Shaped := ⟨by decide, Or.inr ⟨rfl, rfl⟩⟩

theorem Region.Valid.shaped {r : Region} (h : r.Valid) : r.Shaped :=
  ⟨Int.le_trans (by decide) h.1, Or.inl h⟩

theorem Region.default_precedes (r : Region) : ({} : Region).Precedes r := Or.inl rfl

theorem Region.Precedes.id_le {a b : Region} (h : a.Precedes b) (hb : b.Shaped) : a.id ≤ b.id := by
  rcases h with h | h
  · rw [h]
    exact hb.1
  · exact Int.le_of_lt h.1

/-- What held before a region also holds before one that begins no earlier. -/
theorem Region.Precedes.trans_start {a b c : Region} (h : a.Precedes b) (hid : b.id ≤ c.id) (hc : c.Valid)
    (hs : b.send.first ≤ c.send.first) (hr : b.recv.first ≤ c.recv.first) : a.Precedes c := by
  rcases h with h | ⟨hlt, hv, hsn, hrn⟩
  · exact Or.inl h
  · exact Or.inr ⟨by omega, hc, by omega, by omega⟩

/-- Two valid entries with one id are the same entry. -/
theorem Region.eq_cur_of_id_eq {w : Window Region} (h : w.toList.Pairwise Precedes) {r : Region}
    (hr : r ∈ w.toList) (hv : r.Valid) (hid : r.id = w.cur.id) : r = w.cur := by
  rcases Window.mem_toList.mp hr with hr | rfl
  · rcases Window.older_rel_cur h hr with hp | hp
    · have hge := hv.1
      omega
    · omega
  · rfl

namespace RankLog

/-- The retained regions are in order, and what is logged are sends of theirs without a gap. -/
structure WellFormed (l : RankLog) : Prop where
  shaped : ∀ r ∈ l.regions.toList, r.Shaped
  ordered : l.regions.toList.Pairwise Region.Precedes
  logged : ∀ s ∈ l.sends, ∃ r ∈ l.regions.toList, r.Holds s.idx
  closed : ∀ s ∈ l.sends, ∀ i, s.idx ≤ i → i < l.nextSend → ∃ s' ∈ l.sends, s'.idx = i

section Facts

variable {l : RankLog}

theorem curRegion_mem : l.curRegion ∈ l.regions.toList := l.regions.cur_mem

theorem older_precedes_cur (h : l.WellFormed) {r : Region} (hr : r ∈ l.regions.older) :
    r.Precedes l.curRegion :=
  Window.older_rel_cur h.ordered hr

theorem older_id_of_not_valid (h : l.WellFormed) (hv : ¬l.curRegion.Valid) {r : Region}
    (hr : r ∈ l.regions.older) : r.id = -1 := by
  rcases older_precedes_cur h hr with hp | hp
  · exact hp
  · exact absurd hp.2.1 hv

theorem not_valid_of_not_valid (h : l.WellFormed) (hv : ¬l.curRegion.Valid) {r : Region}
    (hr : r ∈ l.regions.toList) : ¬r.Valid := by
  rcases Window.mem_toList.mp hr with hr | rfl
  · intro hrv
    have hid := older_id_of_not_valid h hv hr
    have hge := hrv.1
    omega
  · exact hv

theorem sends_empty_of_not_valid (h : l.WellFormed) (hv : ¬l.curRegion.Valid) (s : SendLog) :
    s ∉ l.sends := by
  intro hs
  obtain ⟨r, hr, hh⟩ := h.logged s hs
  exact not_valid_of_not_valid h hv hr hh.1

theorem id_sorted (h : l.WellFormed) : l.regions.toList.Pairwise fun a b => a.id ≤ b.id := by
  refine List.Pairwise.imp_of_mem ?_ h.ordered
  intro a b _ hb hab
  exact hab.id_le (h.shaped b hb)

theorem id_le_cur (h : l.WellFormed) {r : Region} (hr : r ∈ l.regions.toList) :
    r.id ≤ l.curRegion.id := by
  rcases Window.mem_toList.mp hr with hr | rfl
  · exact (older_precedes_cur h hr).id_le (h.shaped _ curRegion_mem)
  · exact Int.le_refl _

theorem idx_lt_nextSend (h : l.WellFormed) {s : SendLog} (hs : s ∈ l.sends) : s.idx < l.nextSend := by
  obtain ⟨r, hr, hv, hlo, hhi⟩ := h.logged s hs
  rcases Window.mem_toList.mp hr with hr | rfl
  · rcases older_precedes_cur h hr with hp | hp
    · have hge := hv.1
      omega
    · have hle := hp.2.1.2.1.2
      simp only [nextSend]
      omega
  · exact hhi

theorem eq_cur_of_id_eq (h : l.WellFormed) {r : Region} (hr : r ∈ l.regions.toList) (hv : r.Valid)
    (hid : r.id = l.curRegion.id) : r = l.curRegion :=
  Region.eq_cur_of_id_eq h.ordered hr hv hid

end Facts

theorem mem_eraseSends {l : RankLog} {r : Region} {s : SendLog} :
    s ∈ (l.eraseSends r).sends ↔ s ∈ l.sends ∧ ¬r.Holds s.idx := by
  unfold eraseSends Region.Holds
  split
  next h => simp [h]
  next h => simp [h]

@[simp] theorem eraseSends_regions (l : RankLog) (r : Region) : (l.eraseSends r).regions = l.regions := by
  unfold eraseSends
  split <;> rfl

@[simp] theorem eraseSends_rank (l : RankLog) (r : Region) : (l.eraseSends r).rank = l.rank := by
  unfold eraseSends
  split <;> rfl

@[simp] theorem eraseSends_alreadySent (l : RankLog) (r : Region) :
    (l.eraseSends r).alreadySent = l.alreadySent := by
  unfold eraseSends
  split <;> rfl

@[simp] theorem eraseSends_activeIrecv (l : RankLog) (r : Region) :
    (l.eraseSends r).activeIrecv = l.activeIrecv := by
  unfold eraseSends
  split <;> rfl

theorem foldl_eraseSends_rank (rs : List Region) (l : RankLog) :
    (rs.foldl eraseSends l).rank = l.rank ∧ (rs.foldl eraseSends l).activeIrecv = l.activeIrecv ∧
      (rs.foldl eraseSends l).alreadySent = l.alreadySent := by
  induction rs generalizing l with
  | nil => exact ⟨rfl, rfl, rfl⟩
  | cons r rs ih =>
    obtain ⟨h₁, h₂, h₃⟩ := ih (l.eraseSends r)
    simp only [List.foldl_cons, h₁, h₂, h₃, eraseSends_rank, eraseSends_activeIrecv,
      eraseSends_alreadySent, and_self]

theorem mem_foldl_eraseSends {rs : List Region} {l : RankLog} {s : SendLog} :
    s ∈ (rs.foldl eraseSends l).sends ↔ s ∈ l.sends ∧ ∀ r ∈ rs, ¬r.Holds s.idx := by
  induction rs generalizing l with
  | nil => simp
  | cons r rs ih =>
    rw [List.foldl_cons, ih, mem_eraseSends]
    simp only [List.mem_cons, forall_eq_or_imp, and_assoc]

@[simp] theorem setCur_curRegion (l : RankLog) (r : Region) : (l.setCur r).curRegion = r := rfl

@[simp] theorem setCur_sends (l : RankLog) (r : Region) : (l.setCur r).sends = l.sends := rfl

@[simp] theorem setCur_rank (l : RankLog) (r : Region) : (l.setCur r).rank = l.rank := rfl

@[simp] theorem setCur_regions (l : RankLog) (r : Region) :
    (l.setCur r).regions = l.regions.setCur r := rfl

@[simp] theorem eraseRegions_regions (l : RankLog) (k : Nat) :
    (l.eraseRegions k).regions = l.regions.keep {} k := rfl

theorem mem_eraseRegions {l : RankLog} {k : Nat} {s : SendLog} :
    s ∈ (l.eraseRegions k).sends ↔ s ∈ l.sends ∧ ∀ r ∈ l.regions.toList.drop k, ¬r.Holds s.idx :=
  mem_foldl_eraseSends

theorem wellFormed_create (maxRegions : Nat) (rank : Int) : (create maxRegions rank).WellFormed := by
  have hblank : ∀ r ∈ (create maxRegions rank).regions.toList, r = {} := by
    intro r hr
    change r ∈ (Window.fill (maxRegions - 1) ({} : Region)).toList at hr
    rw [Window.toList_fill] at hr
    exact List.eq_of_mem_replicate hr
  refine ⟨fun r hr => hblank r hr ▸ Region.shaped_default, ?_, fun s hs => absurd hs ?_,
    fun s hs => absurd hs ?_⟩
  · exact List.pairwise_of_forall_mem_list fun a ha b _ => hblank a ha ▸ Region.default_precedes b
  all_goals exact IndexedSet.not_mem_empty

/-- Replacing the current region by one that begins no earlier and holds the logged sends. -/
theorem WellFormed.setCur {l : RankLog} (h : l.WellFormed) {r : Region} (hs : r.Shaped)
    (hp : ∀ y ∈ l.regions.older, y.Precedes r)
    (hl : ∀ s ∈ l.sends, l.curRegion.Holds s.idx → r.Holds s.idx)
    (hn : ∀ s ∈ l.sends, ∀ i, s.idx ≤ i → i < r.send.next → i < l.nextSend) :
    (l.setCur r).WellFormed := by
  refine ⟨?_, Window.pairwise_setCur h.ordered hp, ?_, ?_⟩
  · intro y hy
    simp only [setCur_regions, Window.toList_setCur, List.mem_append, List.mem_singleton] at hy
    rcases hy with hy | rfl
    · exact h.shaped y (Window.mem_toList.mpr (Or.inl hy))
    · exact hs
  · intro s hs
    obtain ⟨y, hy, hh⟩ := h.logged s hs
    rcases Window.mem_toList.mp hy with hy | rfl
    · exact ⟨y, by simp [hy], hh⟩
    · exact ⟨r, by simp, hl s hs hh⟩
  · intro s hs i hi hin
    exact h.closed s hs i hi (hn s hs i hi hin)

theorem appendRegion_eq {l l' : RankLog} {r : Region} (h : l.appendRegion r = .ok l') :
    l.curRegion.id < r.id ∧ l' = { l.eraseSends l.regions.front with regions := l.regions.push r } := by
  unfold appendRegion at h
  split at h
  next hlt => exact ⟨hlt, (Except.ok.inj h).symm⟩
  next => cases h

/-- Only the sends of the front region leave the log with it. -/
theorem not_front_holds {l : RankLog} (h : l.WellFormed) {r : Region} (hr : r ∈ l.regions.toList.tail)
    {idx : Int} (hh : r.Holds idx) : ¬l.regions.front.Holds idx := by
  intro hf
  rcases Window.front_rel h.ordered hr with hp | hp
  · have hge := hf.1.1
    omega
  · have hlt := hf.2.2
    have hle := hh.2.1
    omega

theorem WellFormed.appendRegion {l l' : RankLog} (h : l.WellFormed) {r : Region} (hv : r.Valid)
    (hf : r.send.first = r.send.next)
    (hs : l.nextSend ≤ r.send.first) (hr : l.nextRecv ≤ r.recv.first)
    (hgap : ∀ s ∈ l.sends, r.send.first ≤ l.nextSend)
    (ha : l.appendRegion r = .ok l') : l'.WellFormed := by
  obtain ⟨hid, rfl⟩ := appendRegion_eq ha
  have hprec : ∀ y ∈ l.regions.toList, y.Precedes r := by
    intro y hy
    rcases Window.mem_toList.mp hy with hy | rfl
    · rcases older_precedes_cur h hy with hp | ⟨hlt, hcv, hsn, hrn⟩
      · exact Or.inl hp
      · have h₁ := hcv.2.1.2
        have h₂ := hcv.2.2.2
        simp only [nextSend, nextRecv] at hs hr
        exact Or.inr ⟨by omega, hv, by omega, by omega⟩
    · exact Or.inr ⟨hid, hv, hs, hr⟩
  refine ⟨?_, Window.pairwise_push h.ordered hprec, ?_, ?_⟩
  · intro y hy
    rcases Window.mem_push hy with hy | rfl
    · exact h.shaped y (List.mem_of_mem_tail hy)
    · exact hv.shaped
  · intro s hs
    obtain ⟨hs, hnf⟩ := mem_eraseSends.mp hs
    obtain ⟨y, hy, hh⟩ := h.logged s hs
    rw [Window.toList_eq_cons] at hy
    rcases List.mem_cons.mp hy with rfl | hy
    · exact absurd hh hnf
    · exact ⟨y, by simp [hy], hh⟩
  · intro s hs' i hi hin
    obtain ⟨hs', hnf⟩ := mem_eraseSends.mp hs'
    have hlt : i < l.nextSend := by
      have hle := hgap s hs'
      change i < r.send.next at hin
      omega
    obtain ⟨s', hmem, hidx⟩ := h.closed s hs' i hi hlt
    refine ⟨s', mem_eraseSends.mpr ⟨hmem, ?_⟩, hidx⟩
    intro hfr
    obtain ⟨y, hy, hh⟩ := h.logged s hs'
    rw [Window.toList_eq_cons] at hy
    rcases List.mem_cons.mp hy with rfl | hy
    · exact hnf hh
    · rcases Window.front_rel h.ordered hy with hp | hp
      · have hge := hfr.1.1
        omega
      · have h₁ := hfr.2.2
        have h₂ := hh.2.1
        omega

theorem WellFormed.appendFollowing {l l' : RankLog} (h : l.WellFormed) {id : Int} (hi : 0 ≤ id)
    (hv : l.curRegion.Valid) (ha : l.appendRegion (.following id l.curRegion) = .ok l') :
    l'.WellFormed := by
  have hs := hv.2.1
  have hr := hv.2.2
  refine h.appendRegion (Region.valid_starting hi ?_ ?_) rfl (Int.le_refl _) (Int.le_refl _)
    (fun _ _ => Int.le_refl _) ha
  · exact Int.le_trans hs.1 hs.2
  · exact Int.le_trans hr.1 hr.2

theorem next_of_not_valid {l : RankLog} (h : l.WellFormed) (hv : ¬l.curRegion.Valid) :
    l.nextSend = -1 ∧ l.nextRecv = -1 := by
  rcases (h.shaped _ curRegion_mem).2 with hc | ⟨hs, hr⟩
  · exact absurd hc hv
  · simp only [nextSend, nextRecv, hs, hr, and_self]

theorem WellFormed.appendStarting {l l' : RankLog} (h : l.WellFormed) {id : Int} (hi : 0 ≤ id)
    (hv : ¬l.curRegion.Valid) (ha : l.appendRegion (.starting id 0 0) = .ok l') : l'.WellFormed := by
  obtain ⟨hs, hr⟩ := next_of_not_valid h hv
  refine h.appendRegion (Region.valid_starting hi (Int.le_refl 0) (Int.le_refl 0)) rfl ?_ ?_ ?_ ha
  · rw [hs]
    exact (by decide : (-1 : Int) ≤ 0)
  · rw [hr]
    exact (by decide : (-1 : Int) ≤ 0)
  · intro s hs
    exact absurd hs (sends_empty_of_not_valid h hv s)

end RankLog

end Fenix
