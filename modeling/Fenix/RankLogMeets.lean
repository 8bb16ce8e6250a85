import Fenix.RankLogExchange
import Fenix.RankLogStocked

namespace Fenix.RankLog

/-- A window as a rank sends it: its regions are in order, and the last one has an id. -/
structure Arranged (w : Window Region) : Prop where
  shaped : ∀ r ∈ w.toList, r.Shaped
  ordered : w.toList.Pairwise Region.Precedes
  nonneg : 0 ≤ w.cur.id

/-- `a` still holds the region that `b` is in, and the two agree on its first messages or one has had none. -/
def Fits (a b : Window Region) : Prop :=
  ∃ r ∈ a.lowerBound Region.id b.cur.id, r.id = b.cur.id ∧
    (StartsMatch r b.cur ∨ b.cur.Fresh ∧ r.Valid ∨ r.Fresh ∧ r.id = a.cur.id)

/-- `a` still holds the region that `b` is to begin, or the next one it holds is without any messages. -/
def Admits (a b : Window Region) : Prop :=
  ∃ r ∈ a.lowerBound Region.id b.cur.id, if r.id = b.cur.id then r.Valid else r.Fresh

/-- The windows of two ranks that can form consistency. -/
def Meets (w v : Window Region) : Prop :=
  if w.cur.Valid ∧ v.cur.Valid then
    if w.cur.id < v.cur.id then Fits v w else Fits w v
  else if w.cur.Valid then Admits w v else v.cur.Valid ∧ Admits v w

instance (a b : Window Region) : Decidable (Fits a b) := inferInstanceAs (Decidable (∃ _, _ ∧ _))

instance (a b : Window Region) : Decidable (Admits a b) := inferInstanceAs (Decidable (∃ _, _ ∧ _))

instance (w v : Window Region) : Decidable (Meets w v) :=
  inferInstanceAs (Decidable (if w.cur.Valid ∧ v.cur.Valid then if w.cur.id < v.cur.id then Fits v w else Fits w v
    else if w.cur.Valid then Admits w v else v.cur.Valid ∧ Admits v w))

/-- Of the sends since the region that is compared, those that the peer is missing are logged. -/
def Supplied (l : RankLog) (remote : Window Region) : Prop :=
  ∀ r ∈ l.regions.lowerBound Region.id remote.cur.id, ∀ i, r.send.first ≤ i → remote.cur.recv.next ≤ i →
    i < l.nextSend → ∃ s ∈ l.sends, s.idx = i

section Meets

variable {a b w v x y : Window Region} {r : Region} {id c : Int}

theorem mirrored_valid (hid : 0 ≤ id) (hv : r.Valid) : (mirrored id r).Valid :=
  Region.valid_starting hid hv.2.2.1 hv.2.1.1

theorem valid_of_mirrored (hs : r.Shaped) (hv : (mirrored id r).Valid) : r.Valid := by
  rcases hs.2 with hr | ⟨hsend, _⟩
  · exact hr
  · have hge : 0 ≤ r.send.first := hv.2.2.1
    rw [hsend] at hge
    change (0 : Int) ≤ -1 at hge
    omega

theorem valid_of_startsMatch (hs : r.Shaped) {q : Region} (hq : q.Valid) (hm : StartsMatch r q) : r.Valid := by
  rcases hs.2 with hr | ⟨hsend, _⟩
  · exact hr
  · have hge := hq.2.2.1
    have hfirst := hm.1
    rw [hsend] at hfirst
    change (-1 : Int) = _ at hfirst
    omega

theorem checkOrdered_ok_iff (ha : Arranged a) (hav : a.cur.Valid) (hbv : b.cur.Valid) :
    (∃ x y, checkOrdered a b = .ok (x, y) ∧ x.cur.Valid ∧ y.cur.Valid) ↔ Fits a b := by
  unfold checkOrdered Fits
  cases hl : a.lowerBound Region.id b.cur.id with
  | none => simp
  | some ra =>
    have hshape := ha.shaped ra (Window.lowerBound_mem hl).1
    simp only [Option.mem_def, Option.some.injEq, exists_eq_left']
    by_cases hid : ra.id = b.cur.id
    · rw [if_neg (not_not.mpr hid.symm)]
      by_cases hm : StartsMatch ra b.cur
      · rw [if_pos hm]
        exact ⟨fun _ => ⟨hid, Or.inl hm⟩, fun _ => ⟨a, b, rfl, hav, hbv⟩⟩
      · rw [if_neg hm]
        by_cases hf : b.cur.Fresh
        · rw [if_pos hf]
          constructor
          · rintro ⟨_, _, hok, _, hy⟩
            cases Except.ok.inj hok
            exact ⟨hid, Or.inr (Or.inl ⟨hf, valid_of_mirrored hshape hy⟩)⟩
          · rintro ⟨_, hstarts | ⟨_, hv⟩ | ⟨hfresh, _⟩⟩
            · exact absurd hstarts hm
            · exact ⟨_, _, rfl, hav, mirrored_valid hbv.1 hv⟩
            · exact absurd (startsMatch_of_fresh hfresh hf) hm
        · rw [if_neg hf]
          by_cases hlast : ra.Fresh ∧ ra.id = a.cur.id
          · rw [if_pos hlast]
            exact ⟨fun _ => ⟨hid, Or.inr (Or.inr hlast)⟩,
              fun _ => ⟨_, _, rfl, mirrored_valid hlast.1.1 hbv, hbv⟩⟩
          · rw [if_neg hlast]
            simp [hm, hf, hlast]
    · rw [if_pos (Ne.symm hid)]
      simp [hid]

theorem recoverOrdered_ok_iff (ha : Arranged a) (h0 : 0 ≤ b.cur.id) :
    (∃ x y, recoverOrdered c a b = .ok (x, y) ∧ x.cur.Valid ∧ y.cur.Valid) ↔ a.cur.Valid ∧ Admits a b := by
  unfold recoverOrdered Admits
  dsimp only
  rw [if_neg (Int.not_lt.mpr h0)]
  cases hl : a.lowerBound Region.id b.cur.id with
  | none => simp
  | some ra =>
    have hshape := ha.shaped ra (Window.lowerBound_mem hl).1
    simp only [Option.mem_def, Option.some.injEq, exists_eq_left']
    by_cases hid : ra.id = b.cur.id
    · rw [if_neg (not_not.mpr hid), if_pos hid]
      constructor
      · rintro ⟨_, _, hok, hx, hy⟩
        cases Except.ok.inj hok
        exact ⟨hx, valid_of_mirrored hshape hy⟩
      · rintro ⟨hav, hv⟩
        exact ⟨_, _, rfl, hav, mirrored_valid h0 hv⟩
    · rw [if_pos hid, if_neg hid]
      by_cases hf : ra.Fresh
      · rw [if_pos hf]
        constructor
        · rintro ⟨_, _, hok, hx, _⟩
          cases Except.ok.inj hok
          exact ⟨hx, hf⟩
        · rintro ⟨hav, _⟩
          exact ⟨_, _, rfl, hav, Region.valid_starting hf.1 (Int.le_refl 0) (Int.le_refl 0)⟩
      · rw [if_neg hf]
        simp [hf]

theorem exists_map_swap {z : Except Abort (Window Region × Window Region)} {P : Window Region → Window Region → Prop} :
    (∃ x y, z.map Prod.swap = .ok (x, y) ∧ P x y) ↔ ∃ x y, z = .ok (y, x) ∧ P x y := by
  constructor
  · rintro ⟨x, y, h, hP⟩
    obtain ⟨⟨c, d⟩, hz, hswap⟩ := Except.map_eq_ok_iff.mp h
    obtain ⟨rfl, rfl⟩ := Prod.mk.inj hswap
    exact ⟨d, c, hz, hP⟩
  · rintro ⟨x, y, hz, hP⟩
    exact ⟨x, y, Except.map_eq_ok_iff.mpr ⟨(y, x), hz, rfl⟩, hP⟩

theorem reconcile_ok_iff (hw : Arranged w) (hv : Arranged v) :
    (∃ x y, reconcile w v = .ok (x, y) ∧ x.cur.Valid ∧ y.cur.Valid) ↔ Meets w v := by
  unfold reconcile Meets
  by_cases hvalid : v.cur.Valid ∧ w.cur.Valid
  · rw [if_pos hvalid, if_pos hvalid.symm]
    unfold checkConsistent
    by_cases hlt : w.cur.id < v.cur.id
    · rw [if_pos hlt, if_pos hlt, exists_map_swap, ← checkOrdered_ok_iff hv hvalid.1 hvalid.2]
      exact ⟨fun ⟨x, y, hok, hx, hy⟩ => ⟨y, x, hok, hy, hx⟩, fun ⟨x, y, hok, hx, hy⟩ => ⟨y, x, hok, hy, hx⟩⟩
    · rw [if_neg hlt, if_neg hlt]
      exact checkOrdered_ok_iff hw hvalid.2 hvalid.1
  · rw [if_neg hvalid, if_neg fun h => hvalid h.symm]
    unfold recoverInvalid
    by_cases hwv : w.cur.Valid
    · rw [if_neg (not_not.mpr hwv), if_pos hwv, recoverOrdered_ok_iff hw hv.nonneg]
      exact and_iff_right hwv
    · rw [if_pos hwv, if_neg hwv]
      by_cases hvv : v.cur.Valid
      · rw [if_pos hvv, exists_map_swap, ← recoverOrdered_ok_iff (c := w.cur.id) hv hw.nonneg]
        exact ⟨fun ⟨x, y, hok, hx, hy⟩ => ⟨y, x, hok, hy, hx⟩, fun ⟨x, y, hok, hx, hy⟩ => ⟨y, x, hok, hy, hx⟩⟩
      · rw [if_neg hvv]
        simp [hvv]

/-- Whether two ranks can form consistency is the same for both. -/
theorem meets_comm (hw : Arranged w) (hv : Arranged v) : Meets w v ↔ Meets v w := by
  rw [← reconcile_ok_iff hw hv, ← reconcile_ok_iff hv hw]
  exact ⟨fun ⟨x, y, hok, hx, hy⟩ => ⟨y, x, reconcile_swap hw.ordered hv.ordered hok, hy, hx⟩,
    fun ⟨x, y, hok, hx, hy⟩ => ⟨y, x, reconcile_swap hv.ordered hw.ordered hok, hy, hx⟩⟩

/-- What the later rank has to send again begins at the region that is compared, unless its own traffic
is to begin. -/
theorem checkOrdered_later (ha : Arranged a) (hbv : b.cur.Valid) (h : checkOrdered a b = .ok (x, y)) (hy : y.cur.Valid) :
    ∃ ra ∈ a.lowerBound Region.id b.cur.id,
      x.cur.send.next = a.cur.send.next ∧ y.cur.recv.next = max ra.send.first b.cur.recv.next ∨
      a.cur.send.next ≤ ra.send.first ∧ x.cur.send.next ≤ y.cur.recv.next := by
  unfold checkOrdered at h
  split at h
  next => cases h
  next ra hra =>
    refine ⟨ra, hra, ?_⟩
    have hle := hbv.2.2.2
    dsimp only at h
    split at h
    next => cases h
    next hid =>
      have hid := (not_not.mp hid).symm
      split at h
      next hm =>
        cases Except.ok.inj h
        have hfirst := hm.1
        exact Or.inl ⟨rfl, by omega⟩
      next =>
        split at h
        next hf =>
          cases Except.ok.inj h
          have hge : 0 ≤ ra.send.first := hy.2.2.1
          have hnext := hf.2.2
          unfold MsgRange.Fresh at hnext
          refine Or.inl ⟨rfl, ?_⟩
          change ra.send.first = _
          omega
        next =>
          split at h
          next hf =>
            cases Except.ok.inj h
            have hcur := Region.eq_cur_of_nonneg ha.ordered (Window.lowerBound_mem hra).1 hf.1.1 hf.2
            have hnext := hf.1.2.1
            unfold MsgRange.Fresh at hnext
            refine Or.inr ⟨?_, ?_⟩
            · rw [← hcur]
              omega
            · exact hle
          next => cases h

theorem recoverOrdered_later (hb : b.cur.Shaped) (hbv : ¬b.cur.Valid) (h : recoverOrdered c a b = .ok (x, y))
    (hy : y.cur.Valid) : ∃ ra ∈ a.lowerBound Region.id b.cur.id,
      x.cur.send.next = a.cur.send.next ∧ y.cur.recv.next = max ra.send.first b.cur.recv.next := by
  have hnext := (hb.next_of_not_valid hbv).2
  unfold recoverOrdered at h
  dsimp only at h
  split at h
  next => cases h
  next =>
    split at h
    next => cases h
    next ra hra =>
      refine ⟨ra, hra, ?_⟩
      split at h
      next hne =>
        split at h
        next hf =>
          cases Except.ok.inj h
          have hfirst := hf.2.1.1
          refine ⟨rfl, ?_⟩
          change (0 : Int) = _
          omega
        next => cases h
      next heq =>
        cases Except.ok.inj h
        have hge : 0 ≤ ra.send.first := hy.2.2.1
        refine ⟨rfl, ?_⟩
        change ra.send.first = _
        omega

/-- A retained region does not end after the current one begins. -/
theorem recv_first_le (ha : a.toList.Pairwise Region.Precedes) (hav : a.cur.Valid) (hr : r ∈ a.toList) (hv : r.Valid) :
    r.recv.first ≤ a.cur.recv.next := by
  have hle := hav.2.2.2
  rcases Window.mem_toList.mp hr with hr | rfl
  · rcases Window.older_rel_cur ha hr with hp | hp
    · have hge := hv.1
      omega
    · have hrange := hv.2.2.2
      have hbefore := hp.2.2.2
      omega
  · exact hle

/-- The earlier rank has to send again what is in its current region only, if anything. -/
theorem checkOrdered_earlier (ha : Arranged a) (hav : a.cur.Valid) (hbv : b.cur.Valid)
    (h : checkOrdered a b = .ok (x, y)) (hy : y.cur.Valid) : y.cur.send.next ≤ x.cur.recv.next ∨
      y.cur = b.cur ∧ b.cur.send.first ≤ x.cur.recv.next := by
  obtain ⟨ra, hra, hid, ⟨rfl, rfl, hm⟩ | ⟨rfl, rfl, _⟩ | ⟨rfl, rfl, _, _⟩⟩ := checkOrdered_cases h
  · have hle := recv_first_le ha.ordered hav hra (valid_of_startsMatch (ha.shaped ra hra) hbv hm)
    exact Or.inr ⟨rfl, hm.2 ▸ hle⟩
  · exact Or.inl (recv_first_le ha.ordered hav hra (valid_of_mirrored (ha.shaped ra hra) hy))
  · exact Or.inr ⟨rfl, Int.le_refl _⟩

theorem recoverOrdered_earlier (ha : Arranged a) (hav : a.cur.Valid) (h : recoverOrdered c a b = .ok (x, y))
    (hy : y.cur.Valid) : y.cur.send.next ≤ x.cur.recv.next := by
  obtain ⟨rfl, ra, hra, _, ⟨_, rfl⟩ | ⟨_, _, rfl⟩⟩ := recoverOrdered_cases h
  · exact recv_first_le ha.ordered hav hra (valid_of_mirrored (ha.shaped ra hra) hy)
  · exact Int.le_trans hav.2.2.1 hav.2.2.2

end Meets

/-- The next message that a rank with window `v` expects; without a region it has had none. -/
def expected (v : Window Region) : Int := if v.cur.Valid then v.cur.recv.next else 0

/-- A rank with window `v` has had messages in its current region, or the peer begins this region with its first message. -/
def Expects (v w : Window Region) : Prop :=
  v.cur.Valid ∧ ¬v.cur.Fresh ∨ ∀ r ∈ w.toList, r.Valid → r.id = v.cur.id → r.send.first = 0

section Expects

variable {a b v w x y : Window Region} {r s : Region} {c : Int}

theorem Arranged.cases (ha : Arranged a) (hr : r ∈ a.toList) (hs : s ∈ a.toList) : r = s ∨ r.Precedes s ∨ s.Precedes r :=
  List.Pairwise.forall_of_forall_of_flip (R := fun p q => p = q ∨ p.Precedes q ∨ q.Precedes p) (fun _ _ => Or.inl rfl)
    (ha.ordered.imp fun h => Or.inr (Or.inl h)) (ha.ordered.imp fun h => Or.inr (Or.inr h)) hr hs

theorem eq_of_id_eq (ha : Arranged a) (hr : r ∈ a.toList) (hs : s ∈ a.toList) (h0 : 0 ≤ r.id) (hid : r.id = s.id) : r = s := by
  rcases ha.cases hr hs with heq | (hp | hp) | (hp | hp)
  · exact heq
  · omega
  · omega
  · omega
  · omega

theorem expected_of_fresh (hf : v.cur.Fresh) : v.cur.recv.next = 0 := by
  have hrange := hf.2.2
  unfold MsgRange.Fresh at hrange
  omega

theorem expects_of_first (hw : Arranged w) (hr : r ∈ w.toList) (hid : r.id = v.cur.id) (h0 : 0 ≤ v.cur.id)
    (hfirst : v.cur.Fresh → r.send.first = 0) (hv : v.cur.Valid) : Expects v w := by
  by_cases hf : v.cur.Fresh
  · refine Or.inr fun s hs _ hsid => ?_
    rw [← eq_of_id_eq hw hr hs (by omega) (by omega)]
    exact hfirst hf
  · exact Or.inl ⟨hv, hf⟩

/-- An unused region continues where the peer is exactly when this is its beginning. -/
theorem expects_iff_first (hw : Arranged w) (hr : r ∈ w.toList) (hrv : r.Valid) (hid : r.id = v.cur.id) (hf : ¬v.cur.Valid ∨ v.cur.Fresh) :
    r.send.first = 0 ↔ Expects v w := by
  constructor
  · intro hfirst
    refine Or.inr fun s hs _ hsid => ?_
    rw [← eq_of_id_eq hw hr hs hrv.1 (by omega)]
    exact hfirst
  · rintro (⟨hv, hnf⟩ | hall)
    · exact absurd hf (not_or.mpr ⟨not_not.mpr hv, hnf⟩)
    · exact hall r hr hrv hid

theorem checkOrdered_expects (ha : Arranged a) (hb : Arranged b) (hav : a.cur.Valid) (hbv : b.cur.Valid)
    (hle : b.cur.id ≤ a.cur.id) (h : checkOrdered a b = .ok (x, y)) (hy : y.cur.Valid) :
    (x.cur.recv.next = a.cur.recv.next ↔ Expects a b) ∧ (y.cur.recv.next = b.cur.recv.next ↔ Expects b a) := by
  -- a region that the later rank is in is one of the earlier rank only as its current one
  have hlater : ∀ s ∈ b.toList, s.id = a.cur.id → b.cur.id = a.cur.id ∧ s = b.cur := by
    intro s hs hsid
    have hsle := Region.id_le_cur hb.ordered hs hb.nonneg
    have hbid : b.cur.id = a.cur.id := by omega
    exact ⟨hbid, Region.eq_cur_of_nonneg hb.ordered hs (hsid ▸ ha.nonneg) (by omega)⟩
  have h0 := ha.nonneg
  have h0' := hb.nonneg
  obtain ⟨ra, hra, hid, ⟨rfl, rfl, hm⟩ | ⟨rfl, rfl, hf⟩ | ⟨rfl, rfl, hf, hcur⟩⟩ := checkOrdered_cases h
  · refine ⟨iff_of_true rfl ?_, iff_of_true rfl (expects_of_first ha hra hid hbv.1 (fun hf => ?_) hbv)⟩
    · by_cases hf : x.cur.Fresh
      · refine Or.inr fun s hs _ hsid => ?_
        obtain ⟨hbid, rfl⟩ := hlater s hs hsid
        rw [Region.eq_cur_of_nonneg ha.ordered hra (by omega) (by omega)] at hm
        have hfirst := hf.2.2.1
        have hmatch := hm.2
        omega
      · exact Or.inl ⟨hav, hf⟩
    · have hfirst := hf.2.2.1
      have hmatch := hm.1
      omega
  · have hv := valid_of_mirrored (ha.shaped ra hra) hy
    refine ⟨iff_of_true rfl ?_, ?_⟩
    · by_cases hfa : x.cur.Fresh
      · refine Or.inr fun s hs _ hsid => ?_
        rw [(hlater s hs hsid).2]
        exact hf.2.1.1.symm
      · exact Or.inl ⟨hav, hfa⟩
    · rw [expected_of_fresh hf, ← expects_iff_first ha hra hv hid (Or.inr hf)]
      exact Iff.rfl
  · obtain rfl := Region.eq_cur_of_nonneg ha.ordered hra hf.1 hcur
    refine ⟨?_, iff_of_true rfl (expects_of_first ha hra hid hbv.1 (fun _ => hf.2.1.1.symm) hbv)⟩
    rw [expected_of_fresh hf, ← expects_iff_first hb y.cur_mem hbv hid.symm (Or.inr hf)]
    exact Iff.rfl

/-- A rank without a region that takes up one of the peer's. -/
theorem recoverOrdered_expects (ha : Arranged a) (hb : Arranged b) (hav : a.cur.Valid) (hbv : ¬b.cur.Valid)
    (h : recoverOrdered c a b = .ok (x, y)) (hy : y.cur.Valid) :
    (x.cur.recv.next = expected a ↔ Expects a b) ∧ (y.cur.recv.next = expected b ↔ Expects b a) := by
  obtain ⟨rfl, ra, hra, hle, hcases⟩ := recoverOrdered_cases h
  refine ⟨iff_of_true (if_pos hav).symm (Or.inr fun s hs hsv _ => ?_), ?_⟩
  · rcases Window.mem_toList.mp hs with hs | rfl
    · rcases Window.older_rel_cur hb.ordered hs with hp | hp
      · have hge := hsv.1
        omega
      · exact absurd hp.2.1 hbv
    · exact absurd hsv hbv
  · have hzero : expected b = 0 := if_neg hbv
    rw [hzero]
    obtain ⟨hid, rfl⟩ | ⟨hid, hf, rfl⟩ := hcases
    · rw [← expects_iff_first ha hra (valid_of_mirrored (ha.shaped ra hra) hy) hid (Or.inl hbv)]
      exact Iff.rfl
    · refine iff_of_true rfl (Or.inr fun s hs hsv hsid => ?_)
      have hfirst := hf.2.1.1
      have hrange := hsv.2.1
      unfold MsgRange.Valid at hrange
      have hge := hsv.1
      rcases ha.cases hs hra with rfl | (hp | hp) | (hp | hp)
      · exact absurd hsid hid
      · omega
      · omega
      · omega
      · omega

theorem reconcile_expects (hv : Arranged v) (hw : Arranged w) (h : reconcile v w = .ok (x, y)) (hx : x.cur.Valid)
    (hy : y.cur.Valid) : x.cur.recv.next = expected v ↔ Expects v w := by
  unfold reconcile at h
  split at h
  next hvalid =>
    have hexpected : expected v = v.cur.recv.next := if_pos hvalid.2
    rw [hexpected]
    unfold checkConsistent at h
    split at h
    next hlt =>
      obtain ⟨⟨p, q⟩, hc, hswap⟩ := Except.map_eq_ok_iff.mp h
      cases hswap
      exact (checkOrdered_expects hw hv hvalid.1 hvalid.2 (Int.le_of_lt hlt) hc hx).2
    next hle => exact (checkOrdered_expects hv hw hvalid.2 hvalid.1 (by omega) h hy).1
  next hvalid =>
    unfold recoverInvalid at h
    split at h
    next hvv =>
      split at h
      next hwv =>
        obtain ⟨⟨p, q⟩, hc, hswap⟩ := Except.map_eq_ok_iff.mp h
        cases hswap
        exact (recoverOrdered_expects hw hv hwv hvv hc hx).2
      next => cases h
    next hvv =>
      have hvv := not_not.mp hvv
      exact (recoverOrdered_expects hv hw hvv (fun hwv => hvalid ⟨hwv, hvv⟩) h hy).1

/-- A current region in use stays as it is. -/
theorem reconcile_kept (hw : Arranged w) (h : reconcile v w = .ok (x, y)) : y.cur = w.cur ∨ ¬w.cur.Valid ∨ w.cur.Fresh := by
  unfold reconcile at h
  split at h
  next hvalid =>
    unfold checkConsistent at h
    split at h
    next =>
      obtain ⟨⟨p, q⟩, hc, hswap⟩ := Except.map_eq_ok_iff.mp h
      cases hswap
      obtain ⟨ra, hra, _, ⟨rfl, _, _⟩ | ⟨rfl, _, _⟩ | ⟨_, _, hf, hcur⟩⟩ := checkOrdered_cases hc
      · exact Or.inl rfl
      · exact Or.inl rfl
      · exact Or.inr (Or.inr (Region.eq_cur_of_nonneg hw.ordered hra hf.1 hcur ▸ hf))
    next =>
      obtain ⟨ra, hra, _, ⟨_, rfl, _⟩ | ⟨_, _, hf⟩ | ⟨_, rfl, _, _⟩⟩ := checkOrdered_cases h
      · exact Or.inl rfl
      · exact Or.inr (Or.inr hf)
      · exact Or.inl rfl
  next hvalid =>
    by_cases hwv : w.cur.Valid
    · unfold recoverInvalid at h
      split at h
      next =>
        obtain ⟨⟨p, q⟩, hc, hswap⟩ := Except.map_eq_ok_iff.mp h
        cases hswap
        obtain ⟨rfl, _⟩ := recoverOrdered_cases hc
        exact Or.inl rfl
      next hvv => exact absurd ⟨hwv, not_not.mp hvv⟩ hvalid
    · exact Or.inr (Or.inl hwv)

/-- Where the peer has sent messages before the region that this rank is to begin, they are passed over. -/
theorem expected_lt_of_not_expects (hw : Arranged w) (h : reconcile v w = .ok (x, y)) (hno : ¬Expects v w) :
    expected v < y.cur.send.next := by
  obtain ⟨hunused, hall⟩ := not_or.mp hno
  obtain ⟨r, hr⟩ := not_forall.mp hall
  simp only [Classical.not_imp] at hr
  obtain ⟨hr, hrv, hid, hfirst⟩ := hr
  have hzero : expected v = 0 := by
    unfold expected
    split
    next hv => exact expected_of_fresh (by_contra fun hf => hunused ⟨hv, hf⟩)
    next => rfl
  have hrange := hrv.2.1
  unfold MsgRange.Valid at hrange
  have hle : r = w.cur ∨ w.cur.Valid ∧ r.send.next ≤ w.cur.send.first := by
    rcases Window.mem_toList.mp hr with hr | rfl
    · rcases Window.older_rel_cur hw.ordered hr with hp | hp
      · have hge := hrv.1
        omega
      · exact Or.inr ⟨hp.2.1, hp.2.2.1⟩
    · exact Or.inl rfl
  have hwv : w.cur.Valid := hle.elim (fun heq => heq ▸ hrv) And.left
  have hcur := hwv.2.1
  unfold MsgRange.Valid at hcur
  have hpos : 0 < w.cur.send.first := by
    rcases hle with rfl | hle
    · omega
    · omega
  rcases reconcile_kept hw h with hkept | hnv | hf
  · rw [hzero, hkept]
    omega
  · exact absurd hwv hnv
  · have hzero' := hf.2.1.1
    omega

end Expects

section Supplied

variable {l : RankLog} {remote mine theirs : Window Region}

/-- What there is to send again is what the log has to supply. -/
theorem supplied_of_later {ra : Region} (hra : ra ∈ l.regions.lowerBound Region.id remote.cur.id)
    (h : mine.cur.send.next = l.regions.cur.send.next ∧ theirs.cur.recv.next = max ra.send.first remote.cur.recv.next ∨
      l.regions.cur.send.next ≤ ra.send.first ∧ mine.cur.send.next ≤ theirs.cur.recv.next) :
    (∀ i, theirs.cur.recv.next - 1 < i → i < mine.cur.send.next → ∃ s ∈ l.sends, s.idx = i) ↔ l.Supplied remote := by
  constructor
  · intro hall r hr i hlo hnext hhi
    cases Option.some.inj (hra.symm.trans hr)
    unfold nextSend curRegion at hhi
    refine hall i ?_ ?_
    · omega
    · omega
  · intro hall i hlo hhi
    refine hall ra hra i ?_ ?_ ?_
    · omega
    · omega
    · unfold nextSend curRegion
      omega

/-- A rank that is not ahead has nothing to supply that it has not logged. -/
theorem supplied_of_earlier (hs : l.Stocked)
    (hnone : ∀ r ∈ l.regions.lowerBound Region.id remote.cur.id, l.nextSend ≤ r.send.first)
    (h : mine.cur.send.next ≤ theirs.cur.recv.next ∨
      l.curRegion.Valid ∧ mine.cur = l.curRegion ∧ l.curRegion.send.first ≤ theirs.cur.recv.next) :
    (∀ i, theirs.cur.recv.next - 1 < i → i < mine.cur.send.next → ∃ s ∈ l.sends, s.idx = i) ↔ l.Supplied remote := by
  constructor
  · intro _ r hr i hlo _ hhi
    have hle := hnone r hr
    omega
  · intro _ i hlo hhi
    rcases h with h | ⟨hv, hcur, h⟩
    · omega
    · rw [hcur] at hhi
      exact hs _ curRegion_mem i ⟨hv, by omega, hhi⟩

theorem lowerBound_id_le {w : Window Region} (hw : w.toList.Pairwise Region.Precedes) (h0 : 0 ≤ w.cur.id) {k : Int}
    (hlt : w.cur.id < k) {r : Region} : r ∉ w.lowerBound Region.id k := by
  intro hr
  obtain ⟨hmem, hle⟩ := Window.lowerBound_mem hr
  have hcur := Region.id_le_cur hw hmem h0
  omega

/-- What is left to send again once the windows are reconciled. -/
theorem supplied_iff (h : l.WellFormed) (hs : l.Stocked) (hown : Arranged l.regions) (hremote : Arranged remote)
    (hc : reconcile l.regions remote = .ok (mine, theirs)) (hm : mine.cur.Valid) (ht : theirs.cur.Valid) :
    (∀ i, theirs.cur.recv.next - 1 < i → i < mine.cur.send.next → ∃ s ∈ l.sends, s.idx = i) ↔ l.Supplied remote := by
  unfold reconcile at hc
  split at hc
  next hvalid =>
    unfold checkConsistent at hc
    split at hc
    next hlt =>
      obtain ⟨⟨x, y⟩, hok, hswap⟩ := Except.map_eq_ok_iff.mp hc
      obtain ⟨rfl, rfl⟩ := Prod.mk.inj hswap
      have hnone : ∀ r ∈ l.regions.lowerBound Region.id remote.cur.id, l.nextSend ≤ r.send.first :=
        fun r hr => absurd hr (lowerBound_id_le hown.ordered hown.nonneg hlt)
      refine supplied_of_earlier hs hnone ?_
      exact (checkOrdered_earlier hremote hvalid.1 hvalid.2 hok hm).imp_right fun hcur => ⟨hvalid.2, hcur⟩
    next =>
      obtain ⟨ra, hra, hlater⟩ := checkOrdered_later hown hvalid.1 hc ht
      exact supplied_of_later hra hlater
  next hvalid =>
    unfold recoverInvalid at hc
    split at hc
    next hinvalid =>
      split at hc
      next hvalid =>
        obtain ⟨⟨x, y⟩, hok, hswap⟩ := Except.map_eq_ok_iff.mp hc
        obtain ⟨rfl, rfl⟩ := Prod.mk.inj hswap
        have hnext := (next_of_not_valid h hinvalid).1
        have hnone : ∀ r ∈ l.regions.lowerBound Region.id remote.cur.id, l.nextSend ≤ r.send.first := by
          intro r hr
          have hmem := (Window.lowerBound_mem hr).1
          rcases (h.shaped r hmem).2 with hv | ⟨hsend, _⟩
          · exact absurd hv (not_valid_of_not_valid h hinvalid hmem)
          · rw [hnext, hsend]
        exact supplied_of_earlier hs hnone (Or.inl (recoverOrdered_earlier hremote hvalid hok hm))
      next => cases hc
    next hown =>
      have hremotev : ¬remote.cur.Valid := fun hv => hvalid ⟨hv, not_not.mp hown⟩
      obtain ⟨ra, hra, hlater⟩ := recoverOrdered_later (hremote.shaped _ remote.cur_mem) hremotev hc ht
      exact supplied_of_later hra (Or.inl hlater)

/-- Consistency is formed exactly when the windows meet and no send that the peer is missing has been dropped. -/
theorem formConsistency_ok_iff (h : l.WellFormed) (hs : l.Stocked) (hown : Arranged l.regions)
    (hremote : Arranged remote) :
    (∃ formed, l.formConsistency remote = .ok formed) ↔ Meets l.regions remote ∧ l.Supplied remote := by
  rw [← reconcile_ok_iff hown hremote]
  constructor
  · rintro ⟨⟨l', out⟩, hf⟩
    obtain ⟨mine, theirs, hc, hm, ht, rfl, hr⟩ := formConsistency_cases hf
    refine ⟨⟨mine, theirs, hc, hm, ht⟩, ?_⟩
    rw [← supplied_iff h hs hown hremote hc hm ht]
    exact (replayMessages_ok_iff (h.formConsistency hf)).mp ⟨out, hr⟩
  · rintro ⟨⟨mine, theirs, hc, hm, ht⟩, hsupplied⟩
    rw [← supplied_iff h hs hown hremote hc hm ht] at hsupplied
    have hwf := h.realigned (realigned_of_reconcile h.ordered hc) hm (theirs.cur.recv.next - 1)
    obtain ⟨out, hr⟩ := (replayMessages_ok_iff hwf).mpr hsupplied
    refine ⟨⟨{ l with regions := mine, alreadySent := theirs.cur.recv.next - 1 }, out⟩, ?_⟩
    unfold formConsistency
    rw [hc]
    refine (if_pos ⟨hm, ht⟩).trans ?_
    rw [hr]
    rfl

end Supplied

end Fenix.RankLog
