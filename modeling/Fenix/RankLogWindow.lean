import Fenix.RankLogStocked

namespace Fenix

namespace Region

/-- The messages of `b` follow on those of `a`. -/
def Continues (a b : Region) : Prop := b.send.first = a.send.next ∧ b.recv.first = a.recv.next

/-- The entry after a valid region continues it, where no gap is allowed. -/
def Links (gap : Region → Prop) (a b : Region) : Prop := a.Valid → gap a ∨ a.Continues b

variable {gap : Region → Prop} {a b c : Region}

theorem links_of_not_valid (h : ¬a.Valid) : Links gap a b := fun hv => absurd hv h

theorem Links.of_first (h : Links gap a b) (hs : c.send.first = b.send.first) (hr : c.recv.first = b.recv.first) :
    Links gap a c := by
  intro hv
  rcases h hv with hg | hc
  · exact Or.inl hg
  · exact Or.inr ⟨hs.trans hc.1, hr.trans hc.2⟩

theorem links_following (gap : Region → Prop) (id : Int) (a : Region) : Links gap a (.following id a) :=
  fun _ => Or.inr ⟨rfl, rfl⟩

/-- Nothing comes before a region that never had a message. -/
theorem Precedes.fresh (h : a.Precedes b) (ha : a.Valid) (hb : b.Fresh) : a.Fresh := by
  obtain ⟨hid, ⟨hs, hsn⟩, hr, hrn⟩ := ha
  obtain ⟨_, ⟨hbs, _⟩, hbr, _⟩ := hb
  rcases h with h | ⟨_, _, hps, hpr⟩
  · omega
  · exact ⟨hid, ⟨by omega, by omega⟩, by omega, by omega⟩

theorem Precedes.valid (h : a.Precedes b) (ha : a.Valid) : b.Valid := by
  rcases h with h | h
  · have hid := ha.1
    omega
  · exact h.2.1

theorem Precedes.id_lt (h : a.Precedes b) (ha : a.Valid) : a.id < b.id := by
  rcases h with h | h
  · have hid := ha.1
    omega
  · exact h.1

/-- The valid entries of a window are its last ones. -/
theorem split_valid {xs : List Region} (h : xs.Pairwise Precedes) :
    ∃ unused vs, xs = unused ++ vs ∧ (∀ r ∈ unused, ¬r.Valid) ∧ ∀ r ∈ vs, r.Valid := by
  induction xs with
  | nil => exact ⟨[], [], rfl, by simp, by simp⟩
  | cons x xs ih =>
    obtain ⟨hx, htail⟩ := List.pairwise_cons.mp h
    by_cases hv : x.Valid
    · refine ⟨[], x :: xs, rfl, by simp, ?_⟩
      intro r hr
      rcases List.mem_cons.mp hr with rfl | hr
      · exact hv
      · exact (hx r hr).valid hv
    · obtain ⟨unused, vs, rfl, hunused, hvs⟩ := ih htail
      refine ⟨x :: unused, vs, rfl, ?_, hvs⟩
      intro r hr
      rcases List.mem_cons.mp hr with rfl | hr
      · exact hv
      · exact hunused r hr

/-- Where a gap follows on regions without any message only, the others form a chain. -/
theorem split_fresh {vs : List Region} (hv : ∀ r ∈ vs, r.Valid) (hp : vs.Pairwise Precedes)
    (hc : vs.IsChain (Links Fresh)) :
    ∃ fresh linked, vs = fresh ++ linked ∧ (∀ r ∈ fresh, r.Fresh) ∧ linked.IsChain Continues := by
  induction vs with
  | nil => exact ⟨[], [], rfl, by simp, by simp⟩
  | cons x xs ih =>
    obtain ⟨hx, htail⟩ := List.pairwise_cons.mp hp
    by_cases hf : x.Fresh
    · obtain ⟨fresh, linked, rfl, hfresh, hlinked⟩ := ih (fun r hr => hv r (List.mem_cons_of_mem _ hr)) htail hc.tail
      refine ⟨x :: fresh, linked, rfl, ?_, hlinked⟩
      intro r hr
      rcases List.mem_cons.mp hr with rfl | hr
      · exact hf
      · exact hfresh r hr
    · have hnot : ∀ r ∈ x :: xs, ¬r.Fresh := by
        intro r hr
        rcases List.mem_cons.mp hr with rfl | hr
        · exact hf
        · intro hrf
          exact hf ((hx r hr).fresh (hv x List.mem_cons_self) hrf)
      refine ⟨[], x :: xs, rfl, by simp, hc.imp_of_mem_imp ?_⟩
      intro a b ha _ hab
      exact (hab (hv a ha)).resolve_left (hnot a ha)

theorem chain_first_le {r : Region} {rs : List Region} (hv : ∀ x ∈ r :: rs, x.Valid)
    (hc : (r :: rs).IsChain Continues) :
    r.send.first ≤ ((r :: rs).getLast (List.cons_ne_nil r rs)).send.next := by
  have hle := (hv r List.mem_cons_self).2.1.2
  induction rs generalizing r with
  | nil => exact hle
  | cons y ys ih =>
    obtain ⟨hry, hc⟩ := List.isChain_cons_cons.mp hc
    have hvtail : ∀ x ∈ y :: ys, x.Valid := fun x hx => hv x (List.mem_cons_of_mem _ hx)
    have hrest := ih hvtail hc (hvtail y List.mem_cons_self).2.1.2
    have hnext := hry.1
    rw [List.getLast_cons (List.cons_ne_nil y ys)]
    omega

/-- Together the regions of a chain hold all indices from the first one on. -/
theorem holds_chain {r : Region} {rs : List Region} (hv : ∀ x ∈ r :: rs, x.Valid) (hc : (r :: rs).IsChain Continues)
    (i : Int) : (∃ x ∈ r :: rs, x.Holds i) ↔
      r.send.first ≤ i ∧ i < ((r :: rs).getLast (List.cons_ne_nil r rs)).send.next := by
  induction rs generalizing r with
  | nil =>
    rw [List.getLast_singleton]
    simp only [List.mem_singleton, exists_eq_left]
    exact and_iff_right (hv r List.mem_cons_self)
  | cons y ys ih =>
    obtain ⟨hry, hc⟩ := List.isChain_cons_cons.mp hc
    have hvtail : ∀ x ∈ y :: ys, x.Valid := fun x hx => hv x (List.mem_cons_of_mem _ hx)
    have hrv := hv r List.mem_cons_self
    have hrle := hrv.2.1.2
    have hnext := hry.1
    have hlast := chain_first_le hvtail hc
    rw [List.getLast_cons (List.cons_ne_nil y ys)]
    constructor
    · rintro ⟨x, hx, hxi⟩
      rcases List.mem_cons.mp hx with rfl | hx
      · have hlo := hxi.2.1
        have hhi := hxi.2.2
        exact ⟨hlo, by omega⟩
      · have hin := (ih hvtail hc).mp ⟨x, hx, hxi⟩
        exact ⟨by omega, hin.2⟩
    · rintro ⟨hlo, hhi⟩
      by_cases hlt : i < y.send.first
      · exact ⟨r, List.mem_cons_self, hrv, hlo, by omega⟩
      · obtain ⟨x, hx, hxi⟩ := (ih hvtail hc).mpr ⟨by omega, hhi⟩
        exact ⟨x, List.mem_cons_of_mem _ hx, hxi⟩

end Region

namespace RankLog

/-- Each region continues the one before it, where no gap is allowed. -/
def Linked (gap : Region → Prop) (l : RankLog) : Prop := l.regions.toList.IsChain (Region.Links gap)

section Steps

variable {gap : Region → Prop} {l l' : RankLog}

theorem linked_create (gap : Region → Prop) (maxRegions : Nat) (rank : Int) : (create maxRegions rank).Linked gap := by
  change (Window.fill (maxRegions - 1) ({} : Region)).toList.IsChain _
  rw [Window.toList_fill]
  exact List.isChain_replicate_of_rel _ (Region.links_of_not_valid Region.not_valid_default)

theorem Linked.of_regions (h : l.Linked gap) (hr : l'.regions = l.regions) : l'.Linked gap := by
  unfold Linked
  rw [hr]
  exact h

/-- The current region is replaced by one that begins with the same messages. -/
theorem Linked.setCur (h : l.Linked gap) {r : Region} (hr : l'.regions = l.regions.setCur r)
    (hs : r.send.first = l.curRegion.send.first) (hrecv : r.recv.first = l.curRegion.recv.first) : l'.Linked gap := by
  unfold Linked
  rw [hr]
  exact Window.isChain_setCur h fun _ _ hy => hy.of_first hs hrecv

theorem Linked.appendRegion (h : l.Linked gap) {r : Region} (hr : l.curRegion.Links gap r)
    (ha : l.appendRegion r = .ok l') : l'.Linked gap := by
  obtain ⟨_, rfl⟩ := appendRegion_eq ha
  exact Window.isChain_push h hr

theorem Linked.ensureConsistency (h : l.Linked gap) {active : Int} (he : l.ensureConsistency active = .ok l') :
    l'.Linked gap := by
  obtain ⟨m, hm, he⟩ := Except.bind_eq_ok_iff.mp he
  split at he
  next => cases he
  next =>
    cases Except.ok.inj he
    split at hm
    next => exact Except.ok.inj hm ▸ h
    next hv => exact h.appendRegion (Region.links_of_not_valid hv) hm

theorem Linked.send (h : l.Linked gap) {active tag : Int} {buf : MPIBuffer} {out : Option SendLog}
    (hs : l.send active buf tag = .ok (l', out)) : l'.Linked gap := by
  obtain ⟨m, hm, _, _, rfl, _⟩ := send_cases hs
  exact (h.ensureConsistency hm).setCur rfl rfl rfl

theorem Linked.irecv (h : l.Linked gap) {active : Int} {r : IrecvLog} (hr : l.irecv active r = .ok l') :
    l'.Linked gap := by
  obtain ⟨_, m, hm, _, rfl⟩ := irecv_cases hr
  exact (h.ensureConsistency hm).of_regions rfl

theorem Linked.wait (h : l.Linked gap) {request : Nat} (hw : l.wait request = .ok l') : l'.Linked gap := by
  obtain ⟨_, _, rfl⟩ := wait_cases hw
  exact h.setCur rfl rfl rfl

theorem Linked.beginRegion (h : l.Linked gap) {id : Int} (hb : l.beginRegion id = .ok l') : l'.Linked gap := by
  obtain ⟨_, ⟨rfl, _⟩ | ⟨_, ha⟩ | ⟨hv, ha⟩⟩ := beginRegion_cases hb
  · exact h
  · exact h.appendRegion (Region.links_following gap id _) ha
  · exact h.appendRegion (Region.links_of_not_valid hv) ha

theorem Linked.eraseRegions (h : l.Linked gap) (k : Nat) : (l.eraseRegions k).Linked gap := by
  unfold Linked
  rw [eraseRegions_regions]
  exact Window.isChain_keep h fun _ => Region.links_of_not_valid Region.not_valid_default

theorem Linked.restartRegion (h : l.Linked gap) : l.restartRegion.Linked gap :=
  h.setCur (restartRegion_regions l) rfl rfl

theorem Linked.resets (h : l.Linked gap) {t : Int} (hr : Resets l t l') : l'.Linked gap := by
  cases hr with
  | invalid => exact h
  | forgotten => exact h.eraseRegions _
  | older => exact (h.eraseRegions _).restartRegion
  | current => exact h.restartRegion
  | next _ hgt => exact (h.appendRegion (Region.links_following gap t _) (appendRegion_following hgt)).restartRegion

theorem Linked.resetConsistency (h : l.Linked gap) {t : Int} (hr : l.resetConsistency t = .ok l') : l'.Linked gap := by
  by_cases ht : 0 ≤ t
  · exact h.resets (resets_of_ok ht hr).2
  · by_cases hc : t = -1
    · subst hc
      cases Except.ok.inj ((resetConsistency_continue l).symm.trans hr)
      exact h
    · unfold RankLog.resetConsistency at hr
      rw [if_pos (by omega)] at hr
      cases hr

/-- Nothing is held before a current region without ranges. -/
theorem Linked.setInvalid (h : l.Linked gap) (hwf : l.WellFormed) (hv : ¬l.curRegion.Valid) {r : Region}
    (hr : l'.regions = l.regions.setCur r) : l'.Linked gap := by
  unfold Linked
  rw [hr]
  refine Window.isChain_setCur h fun y hy _ => Region.links_of_not_valid ?_
  exact not_valid_of_not_valid hwf hv (Window.mem_toList.mpr (Or.inl hy))

theorem Linked.offerConsistency (h : l.Linked gap) (hwf : l.WellFormed) {active : Int}
    (ho : l.offerConsistency active = .ok l') : l'.Linked gap := by
  obtain ⟨_, rfl⟩ | ⟨hv, _, rfl⟩ := offerConsistency_cases ho
  · exact h
  · exact h.setInvalid hwf hv rfl

/-- A valid current region is given other first messages only if it never had one. -/
theorem reconcile_valid {mine remote mine' remote' : Window Region} (ho : mine.toList.Pairwise Region.Precedes)
    (hv : mine.cur.Valid) (h : reconcile mine remote = .ok (mine', remote')) :
    mine' = mine ∨ mine.cur.Fresh ∧ ∃ s r, mine' = mine.setCur (.starting mine.cur.id s r) := by
  unfold reconcile at h
  split at h
  next =>
    unfold checkConsistent at h
    split at h
    next =>
      obtain ⟨⟨a', b'⟩, hc, hs⟩ := Except.map_eq_ok_iff.mp h
      obtain ⟨rfl, rfl⟩ := Prod.mk.inj hs
      obtain ⟨ra, _, _, h | h | h⟩ := checkOrdered_cases hc
      · exact Or.inl h.2.1
      · exact Or.inr ⟨h.2.2, _, _, h.2.1⟩
      · exact Or.inl h.2.1
    next =>
      obtain ⟨ra, hra, _, h | h | ⟨h, _, hf, hid⟩⟩ := checkOrdered_cases h
      · exact Or.inl h.1
      · exact Or.inl h.1
      · have hcur := Region.eq_cur_of_id_eq ho hra (Region.Fresh.valid hf) hid
        rw [hcur] at h hf
        exact Or.inr ⟨hf, _, _, h⟩
  next =>
    unfold recoverInvalid at h
    rw [if_neg (not_not.mpr hv)] at h
    exact Or.inl (recoverOrdered_cases h).1

/-- Consistency is formed by moving the messages of a current region that follows on another one. -/
def Shifts (l l' : RankLog) : Prop := l.curRegion.Fresh ∧ (∃ y ∈ l.regions.older, y.Valid) ∧ l'.regions ≠ l.regions

theorem Linked.formConsistency (h : l.Linked gap) (hwf : l.WellFormed) {remote : Window Region}
    {out : List SendLog × Option IrecvLog} (hf : l.formConsistency remote = .ok (l', out))
    (hgap : l.Shifts l' → ∀ y ∈ l.regions.older, y.Valid → gap y) : l'.Linked gap := by
  obtain ⟨mine, theirs, hc, _, _, rfl, _⟩ := formConsistency_cases hf
  by_cases hv : l.curRegion.Valid
  · by_cases heq : mine = l.regions
    · exact h.of_regions heq
    · obtain hsame | ⟨hfresh, s, r, hset⟩ := reconcile_valid hwf.ordered hv hc
      · exact absurd hsame heq
      · unfold Linked
        rw [hset]
        refine Window.isChain_setCur h fun y hy _ hyv => Or.inl ?_
        exact hgap ⟨hfresh, ⟨y, hy, hyv⟩, heq⟩ y hy hyv
  · obtain hsame | ⟨id, s, r, hset, _⟩ := realigned_of_reconcile hwf.ordered hc
    · exact h.of_regions hsame
    · exact h.setInvalid hwf hv hset

end Steps

/-- The sends that are kept are the ones from `first` up to the next one, in order. -/
def Retains (l : RankLog) (first : Int) : Prop :=
  Consecutive first (l.sends.entries.map SendLog.idx) ∧ first + l.sends.entries.length = l.nextSend

/-- The window is made up of unused entries, regions that never had a message, and regions that continue each
other, whose sends are kept. -/
structure LogWindow (l : RankLog) (unused fresh linked : List Region) : Prop where
  window : l.regions.toList = unused ++ (fresh ++ linked)
  unused : ∀ r ∈ unused, ¬r.Valid
  valid : ∀ r ∈ fresh ++ linked, r.Valid
  increasing : (fresh ++ linked).Pairwise fun a b => a.id < b.id
  untouched : ∀ r ∈ fresh, r.Fresh
  chained : linked.IsChain Region.Continues
  retained : ∀ r ∈ linked.head?, l.Retains r.send.first
  forgotten : linked = [] → l.sends.entries = []

section Windows

variable {l l' : RankLog} {unused fresh linked : List Region}

theorem not_holds_of_fresh {r : Region} (h : r.Fresh) {i : Int} : ¬r.Holds i := by
  rintro ⟨_, hlo, hhi⟩
  have hnext := h.2.1.2
  omega

/-- The sends that are kept are held by a region after the ones without messages. -/
theorem mem_sends_iff (hwf : l.WellFormed) (hstock : l.Stocked) (hwin : l.regions.toList = unused ++ (fresh ++ linked))
    (hu : ∀ r ∈ unused, ¬r.Valid) (hf : ∀ r ∈ fresh, r.Fresh) {i : Int} :
    i ∈ l.sends.entries.map SendLog.idx ↔ ∃ r ∈ linked, r.Holds i := by
  rw [List.mem_map]
  constructor
  · rintro ⟨s, hs, rfl⟩
    obtain ⟨r, hr, hi⟩ := hwf.logged s hs
    rw [hwin, List.mem_append, List.mem_append] at hr
    rcases hr with hr | hr | hr
    · exact absurd hi.1 (hu r hr)
    · exact absurd hi (not_holds_of_fresh (hf r hr))
    · exact ⟨r, hr, hi⟩
  · rintro ⟨r, hr, hi⟩
    have hmem : r ∈ l.regions.toList := by
      rw [hwin]
      exact List.mem_append_right _ (List.mem_append_right _ hr)
    exact hstock r hmem i hi

theorem getLast_eq_cur {r : Region} {rs : List Region} (hwin : l.regions.toList = unused ++ (fresh ++ r :: rs)) :
    (r :: rs).getLast (List.cons_ne_nil r rs) = l.curRegion := by
  have hcur : l.regions.toList.getLast? = some l.curRegion := List.getLast?_concat
  rw [hwin, ← List.append_assoc, List.getLast?_append_of_ne_nil _ (List.cons_ne_nil r rs)] at hcur
  exact List.getLast_of_mem_getLast? hcur

theorem retains_of_chain (hwf : l.WellFormed) (hstock : l.Stocked) {r : Region} {rs : List Region}
    (hwin : l.regions.toList = unused ++ (fresh ++ r :: rs)) (hu : ∀ r ∈ unused, ¬r.Valid) (hf : ∀ r ∈ fresh, r.Fresh)
    (hv : ∀ x ∈ r :: rs, x.Valid) (hc : (r :: rs).IsChain Region.Continues) : l.Retains r.send.first := by
  have hle := Region.chain_first_le hv hc
  have hin : ∀ i, i ∈ l.sends.entries.map SendLog.idx ↔ r.send.first ≤ i ∧ i < l.nextSend := by
    intro i
    rw [mem_sends_iff hwf hstock hwin hu hf, Region.holds_chain hv hc, getLast_eq_cur hwin]
    rfl
  rw [getLast_eq_cur hwin] at hle
  change r.send.first ≤ l.nextSend at hle
  have hcons : Consecutive r.send.first (l.sends.entries.map SendLog.idx) :=
    Consecutive.of_sorted (List.pairwise_map.mpr l.sends.sorted) hin
  refine ⟨hcons, ?_⟩
  have hlen : ∀ i, r.send.first ≤ i ∧ i < r.send.first + l.sends.entries.length ↔ r.send.first ≤ i ∧ i < l.nextSend := by
    intro i
    rw [← hin, hcons.mem_iff, List.length_map]
  have h₁ := hlen l.nextSend
  have h₂ := hlen (r.send.first + l.sends.entries.length)
  omega

theorem LogWindow.of_chain (hwf : l.WellFormed) (hstock : l.Stocked)
    (hwin : l.regions.toList = unused ++ (fresh ++ linked)) (hu : ∀ r ∈ unused, ¬r.Valid)
    (hv : ∀ r ∈ fresh ++ linked, r.Valid) (hf : ∀ r ∈ fresh, r.Fresh) (hc : linked.IsChain Region.Continues) :
    LogWindow l unused fresh linked := by
  have hordered := hwf.ordered
  rw [hwin] at hordered
  refine ⟨hwin, hu, hv, ?_, hf, hc, ?_, ?_⟩
  · refine List.Pairwise.imp_of_mem ?_ (List.pairwise_append.mp hordered).2.1
    intro a b ha _ hab
    exact hab.id_lt (hv a ha)
  · intro r hr
    obtain ⟨rs, rfl⟩ := List.head?_eq_some_iff.mp hr
    exact retains_of_chain hwf hstock hwin hu hf (fun x hx => hv x (List.mem_append_right _ hx)) hc
  · rintro rfl
    apply List.map_eq_nil_iff.mp
    apply List.eq_nil_iff_forall_not_mem.mpr
    intro i hi
    obtain ⟨r, hr, _⟩ := (mem_sends_iff hwf hstock hwin hu hf).mp hi
    cases hr

/-- A gap is left after regions without any message only. -/
theorem Linked.logWindow (h : l.Linked Region.Fresh) (hwf : l.WellFormed) (hstock : l.Stocked) :
    ∃ unused fresh linked, LogWindow l unused fresh linked := by
  obtain ⟨unused, vs, hwin, hu, hv⟩ := Region.split_valid hwf.ordered
  have hordered := hwf.ordered
  unfold Linked at h
  rw [hwin] at h hordered
  obtain ⟨fresh, linked, rfl, hf, hc⟩ := Region.split_fresh hv (List.pairwise_append.mp hordered).2.1
    h.right_of_append
  exact ⟨unused, fresh, linked, .of_chain hwf hstock hwin hu hv hf hc⟩

/-- Without a gap, the valid regions are the ones that continue each other. -/
theorem linked_iff_logWindow (hwf : l.WellFormed) (hstock : l.Stocked) :
    l.Linked (fun _ => False) ↔ ∃ unused linked, LogWindow l unused [] linked := by
  constructor
  · intro h
    obtain ⟨unused, vs, hwin, hu, hv⟩ := Region.split_valid hwf.ordered
    unfold Linked at h
    rw [hwin] at h
    have hc : vs.IsChain Region.Continues := by
      refine h.right_of_append.imp_of_mem_imp ?_
      intro a b ha _ hab
      exact (hab (hv a ha)).resolve_left id
    exact ⟨unused, vs, .of_chain hwf hstock hwin hu hv (by simp) hc⟩
  · rintro ⟨unused, linked, hw⟩
    unfold Linked
    rw [hw.window]
    apply List.isChain_append.mpr
    refine ⟨?_, ?_, ?_⟩
    · refine (List.pairwise_of_forall_mem_list fun a ha b _ => ?_).isChain
      exact Region.links_of_not_valid (hw.unused a ha)
    · exact hw.chained.imp fun _ _ hab _ => Or.inr hab
    · intro a ha b _
      exact Region.links_of_not_valid (hw.unused a (List.mem_of_getLast? ha))

theorem starting_of_fresh {r : Region} (h : r.Fresh) {sf rf : Int} (hs : sf = r.send.first) (hr : rf = r.recv.first) :
    Region.starting r.id sf rf = r := by
  obtain ⟨_, ⟨_, hsn⟩, _, hrn⟩ := h
  obtain ⟨id, ⟨first, next⟩, ⟨first', next'⟩⟩ := r
  simp only at hs hr hsn hrn
  rw [hs, hr, ← hsn, ← hrn]
  rfl

/-- A chain is broken exactly by moving a region that follows on another one. -/
theorem formConsistency_linked_iff (h : l.Linked fun _ => False) (hwf : l.WellFormed) {remote : Window Region}
    {out : List SendLog × Option IrecvLog} (hf : l.formConsistency remote = .ok (l', out)) :
    l'.Linked (fun _ => False) ↔ ¬l.Shifts l' := by
  constructor
  · rintro h' ⟨hfresh, ⟨y, hy, hyv⟩, hne⟩
    obtain ⟨mine, theirs, hc, _, _, rfl, _⟩ := formConsistency_cases hf
    obtain hsame | ⟨_, s, r, hset⟩ := reconcile_valid hwf.ordered (Region.Fresh.valid hfresh) hc
    · exact hne hsame
    · obtain ⟨zs, z, hz⟩ := (List.eq_nil_or_concat' l.regions.older).resolve_left (List.ne_nil_of_mem hy)
      have hzv : z.Valid := by
        have hordered := (List.pairwise_append.mp hwf.ordered).1
        rw [hz] at hordered hy
        rcases List.mem_append.mp hy with hy | hy
        · exact ((List.pairwise_append.mp hordered).2.2 y hy z (by simp)).valid hyv
        · exact List.mem_singleton.mp hy ▸ hyv
      have hlast : z ∈ l.regions.older.getLast? := by
        rw [hz]
        exact List.getLast?_concat
      have hcur : z.Continues l.curRegion :=
        ((List.isChain_append.mp h).2.2 z hlast l.curRegion rfl hzv).resolve_left id
      have hnew : z.Continues (.starting l.curRegion.id s r) := by
        unfold Linked at h'
        rw [hset, Window.toList_setCur] at h'
        exact ((List.isChain_append.mp h').2.2 z hlast _ rfl hzv).resolve_left id
      have hkept : Region.starting l.curRegion.id s r = l.curRegion :=
        starting_of_fresh hfresh (hnew.1.trans hcur.1.symm) (hnew.2.trans hcur.2.symm)
      exact hne (hset.trans (congrArg l.regions.setCur hkept))
  · intro hn
    exact h.formConsistency hwf hf fun hs => absurd hs hn

end Windows

end RankLog

end Fenix
