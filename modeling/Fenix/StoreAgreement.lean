import Fenix.BuddyStore

namespace Fenix

open BuddyMember (left)

/-- The copy of the left rank's snapshot as it was made, or as earlier stores and repairs have left it, with whatever
bytes. -/
inductive KeptCopy (elmSize count : Nat) : RegionSnapshot → Prop
  | made (buf : DataBuffer) : KeptCopy elmSize count { buf := buf, elmSize := elmSize, elmMaxCount := count }
  | grown {p p' : RegionSnapshot} {subset : RegionSubset} (hp : KeptCopy elmSize count p) (hsubset : subset.WellFormed)
      (hin : subset.Inside elmSize 2147483647) (h : p.addAndFit subset = .ok p') (bytes : Nat → UInt8) :
      KeptCopy elmSize count { p' with buf := { p'.buf with bytes := bytes } }

theorem KeptCopy.fitted {p : RegionSnapshot} {elmSize max : Nat} (helm : 0 < elmSize)
    (hcount : max * elmSize ≤ 2147483647) (hp : KeptCopy elmSize max p) : p.Fitted elmSize max := by
  induction hp with
  | made buf => exact RegionSnapshot.empty_fitted rfl rfl rfl
  | grown _ hsubset hin h _ ih =>
    obtain ⟨p', hp', hfitted, _⟩ := RegionSnapshot.addAndFit_fitted ih helm hcount hsubset hin
    cases Except.ok.inj (hp'.symm.trans h)
    exact ⟨hfitted.size_eq, hfitted.count_eq, hfitted.wellFormed, hfitted.narrow, hfitted.below⟩

namespace BuddySnapshot

variable {n : Nat}

/-- A snapshot that nothing is staged in, new or taken back for reuse: its copy is not cleared. -/
def fresh (elmSize elmMaxCount : Nat) (buf : DataBuffer) (partner : RegionSnapshot) : BuddySnapshot n where
  buf := buf
  elmSize := elmSize
  elmMaxCount := elmMaxCount
  partner := partner

/-- What the ranks of a cohort may have in the snapshots they stage in. Whatever is staged has its byte offsets
within the range of `int`, as they are computed. -/
inductive Reachable (carries : Nat → Bool) (elmSize : Nat) (count : Fin n → Nat) : (Fin n → BuddySnapshot n) → Prop
  | create {buf copy : Fin n → DataBuffer} (helm : 0 < elmSize) (hcount : ∀ k, count k * elmSize ≤ 2147483647) :
      Reachable carries elmSize count fun k =>
        fresh elmSize (count k) (buf k) { buf := copy k, elmSize := elmSize, elmMaxCount := count k }
  | stage {snaps : Fin n → BuddySnapshot n} {k : Fin n} {written : DataBuffer} {subset : RegionSubset}
      {staged : BuddySnapshot n} (hr : Reachable carries elmSize count snaps) (hsubset : subset.WellFormed)
      (hin : subset.Inside elmSize 2147483647) (h : (snaps k).stage k written subset = .ok staged) :
      Reachable carries elmSize count (Function.update snaps k staged)
  | store {snaps stored : Fin n → BuddySnapshot n} (hr : Reachable carries elmSize count snaps)
      (h : store carries snaps = .ok stored) : Reachable carries elmSize count stored
  | storev {snaps stored : Fin n → BuddySnapshot n} (hr : Reachable carries elmSize count snaps)
      (h : storev carries snaps = .ok stored) : Reachable carries elmSize count stored
  | renew {snaps : Fin n → BuddySnapshot n} {k : Fin n} {buf : DataBuffer} {partner : RegionSnapshot}
      (hr : Reachable carries elmSize count snaps) (hp : KeptCopy elmSize (count k) partner) :
      Reachable carries elmSize count (Function.update snaps k (fresh elmSize (count k) buf partner))

/-- The same elements are staged on all ranks. -/
def SameStaged (snaps : Fin n → BuddySnapshot n) : Prop :=
  ∀ k l x, ((snaps k).stagedSubsets k).Mem x ↔ ((snaps l).stagedSubsets l).Mem x

/-- Each rank has the left rank's staged elements in its copy, at their own indices. -/
def CopiesLeft (carries : Nat → Bool) (elmSize : Nat) (snaps stored : Fin n → BuddySnapshot n) : Prop :=
  ∀ k x, ((snaps (left k)).stagedSubsets (left k)).Mem x →
    (stored k).partner.stagedSubset.Mem x ∧ (x + 1) * elmSize ≤ (stored k).partner.buf.size ∧
      ∀ b < elmSize, carries b = true →
        (stored k).partner.buf.elementAt elmSize x b = (snaps (left k)).buf.elementAt elmSize x b

/-- Two stores leave the same indices protected, and the same in the copies. -/
structure Agree (elmSize : Nat) (stored stored' : Fin n → BuddySnapshot n) : Prop where
  protectedBy : ∀ k i x, ((stored k).protectedSubsets i).Mem x ↔ ((stored' k).protectedSubsets i).Mem x
  partner : ∀ k x, (stored k).partner.stagedSubset.Mem x ↔ (stored' k).partner.stagedSubset.Mem x
  data : ∀ k x, (stored k).partner.stagedSubset.Mem x → ∀ b < elmSize,
    (stored k).partner.buf.elementAt elmSize x b = (stored' k).partner.buf.elementAt elmSize x b

/-- `store` and `storev` both go through, agree, and have each rank copy the left one. -/
def StoresAgree (carries : Nat → Bool) (elmSize : Nat) (snaps : Fin n → BuddySnapshot n) : Prop :=
  ∃ stored stored', store carries snaps = .ok stored ∧ storev carries snaps = .ok stored' ∧
    Agree elmSize stored stored' ∧ CopiesLeft carries elmSize snaps stored ∧ CopiesLeft carries elmSize snaps stored'

/-- The bytes of an element that the datatype carries. -/
def carried (carries : Nat → Bool) (elmSize : Nat) (buf : DataBuffer) (i : Nat) : List UInt8 :=
  ((List.range elmSize).filter carries).map (buf.elementAt elmSize i)

/-- The elements of the left rank are the same in the order of its blocks and in that of the blocks of the rank. -/
def SameOrder (carries : Nat → Bool) (elmSize : Nat) (snaps : Fin n → BuddySnapshot n) (k : Fin n) : Prop :=
  ((snaps (left k)).stagedSubsets (left k)).indices.map (carried carries elmSize (snaps (left k)).buf) =
    ((snaps k).stagedSubsets k).indices.map (carried carries elmSize (snaps (left k)).buf)

variable {carries : Nat → Bool} {elmSize : Nat} {count : Fin n → Nat} {snaps : Fin n → BuddySnapshot n} {k : Fin n}

/-- Of the same blocks the orders are the same. -/
theorem SameOrder.of_eq (h : (snaps (left k)).stagedSubsets (left k) = (snaps k).stagedSubsets k) :
    SameOrder carries elmSize snaps k := by
  unfold SameOrder
  rw [h]

/-- What all operations keep of the snapshot a rank stages in. -/
structure Sound (s : BuddySnapshot n) (k : Fin n) (elmSize count : Nat) : Prop where
  own : (s.own k).Fitted elmSize count
  room : (s.stagedSubsets k).Inside elmSize s.buf.size
  protectedBy : ∀ i, (s.protectedSubsets i).WellFormed ∧ (s.protectedSubsets i).Inside elmSize 2147483647
  partner : s.partner.Fitted elmSize count

theorem fresh_sound {max : Nat} {buf : DataBuffer} {partner : RegionSnapshot} (hp : partner.Fitted elmSize max) :
    (fresh elmSize max buf partner : BuddySnapshot n).Sound k elmSize max := by
  have hown : ((fresh elmSize max buf partner : BuddySnapshot n).own k).Fitted elmSize max :=
    RegionSnapshot.empty_fitted rfl rfl rfl
  exact ⟨hown, fun x hx => absurd hx (RegionSubset.not_mem_empty x), fun i => ⟨hown.wellFormed, hown.narrow⟩, hp⟩

theorem stage_sound {s staged : BuddySnapshot n} {max : Nat} {written : DataBuffer} {subset : RegionSubset}
    (hs : s.Sound k elmSize max) (helm : 0 < elmSize) (hcount : max * elmSize ≤ 2147483647)
    (hsubset : subset.WellFormed) (hin : subset.Inside elmSize 2147483647) (h : s.stage k written subset = .ok staged) :
    staged.Sound k elmSize max := by
  have hown : ({ s.own k with buf := written } : RegionSnapshot).Fitted elmSize max :=
    ⟨hs.own.size_eq, hs.own.count_eq, hs.own.wellFormed, hs.own.narrow, hs.own.below⟩
  obtain ⟨t, ht, hfitted, _, _, hroom⟩ := RegionSnapshot.addAndFit_fitted hown helm hcount hsubset hin
  obtain ⟨t', ht', h⟩ := Except.bind_eq_ok_iff.mp h
  cases Except.ok.inj (ht.symm.trans ht')
  cases Except.ok.inj h
  have hstaged : Function.update s.stagedSubsets k t.stagedSubset k = t.stagedSubset := Function.update_self ..
  have hfitted' : RegionSubset.WellFormed (Function.update s.stagedSubsets k t.stagedSubset k) ∧
      RegionSubset.Inside (Function.update s.stagedSubsets k t.stagedSubset k) elmSize 2147483647 ∧
      (∀ x, RegionSubset.Mem (Function.update s.stagedSubsets k t.stagedSubset k) x → Below max x) ∧
      RegionSubset.Inside (Function.update s.stagedSubsets k t.stagedSubset k) elmSize t.buf.size := by
    rw [hstaged]
    exact ⟨hfitted.wellFormed, hfitted.narrow, hfitted.below, hroom⟩
  obtain ⟨hwf, hnarrow, hbelow, hroom⟩ := hfitted'
  exact ⟨⟨hs.own.size_eq, hs.own.count_eq, hwf, hnarrow, hbelow⟩, hroom, hs.protectedBy, hs.partner⟩

theorem protect_spec {s : BuddySnapshot n} (helm : 0 < elmSize)
    (hprotected : ∀ i, (s.protectedSubsets i).WellFormed ∧ (s.protectedSubsets i).Inside elmSize 2147483647)
    (hstaged : ∀ i, (s.stagedSubsets i).WellFormed ∧ (s.stagedSubsets i).Inside elmSize 2147483647) :
    ∃ sums, s.protect = .ok { s with protectedSubsets := sums, stagedSubsets := fun _ => ∅ } ∧
      (∀ i x, (sums i).Mem x ↔ (s.protectedSubsets i).Mem x ∨ (s.stagedSubsets i).Mem x) ∧
      ∀ i, (sums i).WellFormed ∧ (sums i).Inside elmSize 2147483647 := by
  choose sums hsums hwf hmem using fun i =>
    RegionSubset.add_inside (hprotected i).1 (hstaged i).1 (hprotected i).2 helm
  refine ⟨sums, ?_, hmem, fun i => ⟨hwf i, fun x hx => ?_⟩⟩
  · unfold protect
    rw [Except.sequence_eq_ok_iff.mpr hsums]
    rfl
  · exact ((hmem i x).mp hx).elim ((hprotected i).2 x) ((hstaged i).2 x)

/-- What a rank has when its part of a store is done, whatever message it got. -/
theorem iprotect_sound {known : Fin n → BuddySnapshot n} {t : BuddySnapshot n} {max : Nat} (helm : 0 < elmSize)
    (hcount : max * elmSize ≤ 2147483647) (hs : (known k).Sound k elmSize max)
    (hstaged : ∀ i, ((known k).stagedSubsets i).WellFormed ∧ ((known k).stagedSubsets i).Inside elmSize 2147483647)
    (h : iprotect carries known k = .ok t) : t.Sound k elmSize max := by
  obtain ⟨partner, hpartner, hfitted, _⟩ := RegionSnapshot.addAndFit_fitted hs.partner helm hcount
    (hstaged (left k)).1 (hstaged (left k)).2
  unfold iprotect at h
  dsimp only at h
  rw [hpartner] at h
  obtain ⟨_, hp, h⟩ := Except.bind_eq_ok_iff.mp h
  cases Except.ok.inj hp
  obtain ⟨_, _, h⟩ := Except.bind_eq_ok_iff.mp h
  obtain ⟨_, _, h⟩ := Except.bind_eq_ok_iff.mp h
  obtain ⟨_, _, h⟩ := Except.bind_eq_ok_iff.mp h
  obtain ⟨buf, _, h⟩ := Except.bind_eq_ok_iff.mp h
  obtain ⟨sums, hsums, _, hprotected⟩ :=
    protect_spec (s := { known k with partner := { partner with buf := buf } }) helm hs.protectedBy hstaged
  rw [hsums] at h
  cases Except.ok.inj h
  have hpartner' : ({ partner with buf := buf } : RegionSnapshot).Fitted elmSize max :=
    ⟨hfitted.size_eq, hfitted.count_eq, hfitted.wellFormed, hfitted.narrow, hfitted.below⟩
  exact ⟨RegionSnapshot.empty_fitted rfl hs.own.size_eq hs.own.count_eq,
    fun x hx => absurd hx (RegionSubset.not_mem_empty x), hprotected, hpartner'⟩

theorem spread_sound {s : BuddySnapshot n} {max : Nat} (hs : s.Sound k elmSize max) :
    (s.spread k).Sound k elmSize max :=
  ⟨⟨hs.own.size_eq, hs.own.count_eq, hs.own.wellFormed, hs.own.narrow, hs.own.below⟩, hs.room, hs.protectedBy,
    hs.partner⟩

/-- What a rank knows after the exchange. -/
def informed (snaps : Fin n → BuddySnapshot n) (k : Fin n) : BuddySnapshot n :=
  { snaps k with stagedSubsets := fun i => (snaps i).stagedSubsets i }

/-- What the ranks have after they told each other is what each has staged. -/
theorem exchangeSubsets_iff {known : Fin n → BuddySnapshot n} : exchangeSubsets snaps = .ok known ↔
    RegionSubset.exchangedBytes (fun i => (snaps i).stagedSubsets i) ≤ 2147483647 ∧
      known = informed snaps := by
  have hsame : ∀ i, OrdSet.ofList ((snaps i).stagedSubsets i).entries = (snaps i).stagedSubsets i := fun i =>
    OrdSet.ext (OrdSet.entries_ofList ((snaps i).stagedSubsets i).sorted)
  unfold exchangeSubsets
  simp only [hsame]
  constructor
  · intro h
    obtain ⟨size, hsize, h⟩ := Except.bind_eq_ok_iff.mp h
    have hle := (toInt_eq_ok hsize).2
    unfold intMax at hle
    exact ⟨by omega, (Except.ok.inj h).symm⟩
  · rintro ⟨hle, rfl⟩
    rw [toInt_ok (by unfold intMax; omega) (by unfold intMax; omega)]
    rfl

theorem storev_sound {stored : Fin n → BuddySnapshot n} (helm : 0 < elmSize)
    (hcount : ∀ k, count k * elmSize ≤ 2147483647) (hs : ∀ k, (snaps k).Sound k elmSize (count k))
    (h : storev carries snaps = .ok stored) (k : Fin n) : (stored k).Sound k elmSize (count k) := by
  obtain ⟨known, hknown, h⟩ := Except.bind_eq_ok_iff.mp h
  obtain ⟨_, rfl⟩ := exchangeSubsets_iff.mp hknown
  have hk := hs k
  refine iprotect_sound helm (hcount k) ?_ (fun i => ?_) (Except.sequence_eq_ok_iff.mp h k)
  · exact ⟨⟨hk.own.size_eq, hk.own.count_eq, hk.own.wellFormed, hk.own.narrow, hk.own.below⟩, hk.room, hk.protectedBy,
      hk.partner⟩
  · exact ⟨(hs i).own.wellFormed, (hs i).own.narrow⟩

theorem store_sound {stored : Fin n → BuddySnapshot n} (helm : 0 < elmSize)
    (hcount : ∀ k, count k * elmSize ≤ 2147483647) (hs : ∀ k, (snaps k).Sound k elmSize (count k))
    (h : store carries snaps = .ok stored) (k : Fin n) : (stored k).Sound k elmSize (count k) := by
  have hk := Except.sequence_eq_ok_iff.mp h k
  refine iprotect_sound helm (hcount k) ?_ (fun _ => ?_) hk
  · exact spread_sound (hs k)
  · exact ⟨(hs k).own.wellFormed, (hs k).own.narrow⟩

theorem update_sound {s : BuddySnapshot n} {k : Fin n} (hs : ∀ i, (snaps i).Sound i elmSize (count i))
    (hk : s.Sound k elmSize (count k)) (i : Fin n) : (Function.update snaps k s i).Sound i elmSize (count i) := by
  by_cases hi : i = k
  · subst hi
    rwa [Function.update_self]
  · rw [Function.update_of_ne hi]
    exact hs i

theorem reachable_sound (hr : Reachable carries elmSize count snaps) :
    0 < elmSize ∧ (∀ k, count k * elmSize ≤ 2147483647) ∧ ∀ k, (snaps k).Sound k elmSize (count k) := by
  induction hr with
  | create helm hcount => exact ⟨helm, hcount, fun k => fresh_sound (RegionSnapshot.empty_fitted rfl rfl rfl)⟩
  | stage _ hsubset hin h ih =>
    obtain ⟨helm, hcount, hs⟩ := ih
    exact ⟨helm, hcount, update_sound hs (stage_sound (hs _) helm (hcount _) hsubset hin h)⟩
  | store _ h ih =>
    obtain ⟨helm, hcount, hs⟩ := ih
    exact ⟨helm, hcount, store_sound helm hcount hs h⟩
  | storev _ h ih =>
    obtain ⟨helm, hcount, hs⟩ := ih
    exact ⟨helm, hcount, storev_sound helm hcount hs h⟩
  | renew _ hp ih =>
    obtain ⟨helm, hcount, hs⟩ := ih
    exact ⟨helm, hcount, update_sound hs (fresh_sound (hp.fitted helm (hcount _)))⟩

/-- What a rank has after its part of a store: the left rank's elements as they come, in `received` the places of
its own datatype. -/
structure Stored (carries : Nat → Bool) (elmSize : Nat) (s sent t : BuddySnapshot n) (received loaded : RegionSubset) :
    Prop where
  protectedBy : ∀ i x, (t.protectedSubsets i).Mem x ↔ (s.protectedSubsets i).Mem x ∨ (s.stagedSubsets i).Mem x
  partner : ∀ x, t.partner.stagedSubset.Mem x ↔ s.partner.stagedSubset.Mem x ∨ received.Mem x
  room : t.partner.stagedSubset.Inside elmSize t.partner.buf.size
  copied : ∀ e ∈ received.indices.zip loaded.indices, ∀ b < elmSize, t.partner.buf.elementAt elmSize e.1 b =
    if carries b = true then sent.buf.elementAt elmSize e.2 b else s.partner.buf.elementAt elmSize e.1 b
  other : ∀ y, ¬received.Mem y → ∀ b < elmSize,
    t.partner.buf.elementAt elmSize y b = s.partner.buf.elementAt elmSize y b

/-- A rank that takes the left one to have staged the same elements gets a message of as many as it expects. -/
theorem iprotect_stored {known : Fin n → BuddySnapshot n} {max max' : Nat} (helm : 0 < elmSize)
    (hcount : max * elmSize ≤ 2147483647) (hs : (known k).Sound k elmSize max)
    (hstaged : ∀ i, ((known k).stagedSubsets i).WellFormed ∧ ((known k).stagedSubsets i).Inside elmSize 2147483647)
    (hbelow : ∀ x, ((known k).stagedSubsets (left k)).Mem x → Below max x)
    (hsent : ((known (left k)).own (left k)).Fitted elmSize max')
    (hroom : ((known (left k)).stagedSubsets (left k)).Inside elmSize (known (left k)).buf.size)
    (hsame : ∀ x, ((known k).stagedSubsets (left k)).Mem x ↔ ((known (left k)).stagedSubsets (left k)).Mem x) :
    ∃ t, iprotect carries known k = .ok t ∧ Stored carries elmSize (known k) (known (left k)) t
      ((known k).stagedSubsets (left k)) ((known (left k)).stagedSubsets (left k)) := by
  set s := known k with hsdef
  set sent := known (left k) with hsentdef
  set received := s.stagedSubsets (left k) with hreceived
  set loaded := sent.stagedSubsets (left k) with hloaded
  obtain ⟨hwf, hin⟩ := hstaged (left k)
  have hlwf : loaded.WellFormed := hsent.wellFormed
  have hlin : loaded.Inside elmSize 2147483647 := hsent.narrow
  obtain ⟨partner, hpartner, hfitted, hbytes, hmem, hfits⟩ :=
    RegionSnapshot.addAndFit_fitted hs.partner helm hcount hwf hin
  obtain ⟨sendType, hsendType, hsendPlaces⟩ := RegionSubset.toDatatype_places hlwf hlin helm
  obtain ⟨recvType, hrecvType, hrecvPlaces⟩ := RegionSubset.toDatatype_places hwf hin helm
  have hsend : sendElements elmSize sent.buf sendType = _ :=
    sendElements_ok hsendPlaces fun x hx => hroom x (RegionSubset.mem_indices.mp hx)
  have hlen : (loaded.indices.map (sent.buf.elementAt elmSize)).length = received.indices.length := by
    rw [List.length_map]
    exact ((RegionSubset.indices_perm hwf hlwf hsame).length_eq).symm
  have hpmem : ∀ x, partner.stagedSubset.Mem x ↔ s.partner.stagedSubset.Mem x ∨ received.Mem x := fun x =>
    (hmem x).trans (or_congr_right (and_iff_left_of_imp (hbelow x)))
  obtain ⟨buf, hrecv, hsize, hcopied, hother⟩ := recvElements_spec carries helm hrecvPlaces
    (RegionSubset.nodup_indices hwf) hlen fun x hx => hfits x ((hpmem x).mpr (Or.inr (RegionSubset.mem_indices.mp hx)))
  obtain ⟨sums, hsums, hsummem, _⟩ :=
    protect_spec (s := { s with partner := { partner with buf := buf } }) helm hs.protectedBy hstaged
  have hold : ∀ y b, partner.buf.elementAt elmSize y b = s.partner.buf.elementAt elmSize y b := fun y b =>
    congrFun hbytes (y * elmSize + b)
  refine ⟨{ s with partner := { partner with buf := buf }, protectedSubsets := sums, stagedSubsets := fun _ => ∅ }, ?_,
    hsummem, hpmem, ?_, fun e he b hb => ?_, fun y hy b hb => ?_⟩
  · unfold iprotect
    dsimp only
    rw [← hsdef, ← hsentdef, ← hreceived, ← hloaded, hpartner, hsendType, hrecvType]
    change (sendElements sent.elmSize sent.buf sendType >>= fun message =>
      recvElements carries s.elmSize recvType message partner.buf >>= fun buf =>
        (protect { s with partner := { partner with buf := buf } }).mapError _) = _
    have hsend' : sendElements sent.elmSize sent.buf sendType =
        .ok (loaded.indices.map (sent.buf.elementAt elmSize)) := by
      rw [show sent.elmSize = elmSize from hsent.size_eq, hsend]
    have hrecv' : recvElements carries s.elmSize recvType (loaded.indices.map (sent.buf.elementAt elmSize))
        partner.buf = .ok buf := by
      rw [show s.elmSize = elmSize from hs.own.size_eq, hrecv]
    rw [hsend', Except.ok_bind, hrecv', Except.ok_bind, hsums]
    rfl
  · change partner.stagedSubset.Inside elmSize buf.size
    rw [hsize]
    exact hfits
  · have he' : (e.1, sent.buf.elementAt elmSize e.2) ∈
        received.indices.zip (loaded.indices.map (sent.buf.elementAt elmSize)) := by
      rw [List.zip_map_right]
      exact List.mem_map_of_mem he
    exact (hcopied _ he' b hb).trans (if_congr Iff.rfl rfl (hold e.1 b))
  · exact (hother y (fun h => hy (RegionSubset.mem_indices.mp h)) b hb).trans (hold y b)

theorem carried_eq_iff {buf : DataBuffer} {x y : Nat} : carried carries elmSize buf x = carried carries elmSize buf y ↔
    ∀ b < elmSize, carries b = true → buf.elementAt elmSize x b = buf.elementAt elmSize y b := by
  unfold carried
  rw [List.map_inj_left]
  simp only [List.mem_filter, List.mem_range, and_imp]

section Copy

variable {s sent t : BuddySnapshot n} {received loaded : RegionSubset}

theorem exists_zip_of_mem (hwf : received.WellFormed) (hlwf : loaded.WellFormed)
    (hsame : ∀ x, received.Mem x ↔ loaded.Mem x) {x : Nat} (hx : received.Mem x) :
    ∃ y, (x, y) ∈ received.indices.zip loaded.indices := by
  have hlen := (RegionSubset.indices_perm hwf hlwf hsame).length_eq
  have hfst : (received.indices.zip loaded.indices).map Prod.fst = received.indices := List.map_fst_zip hlen.le
  have hmem := RegionSubset.mem_indices.mpr hx
  rw [← hfst] at hmem
  obtain ⟨⟨_, y⟩, he, rfl⟩ := List.mem_map.mp hmem
  exact ⟨y, he⟩

/-- The elements in two orders are the same if those at one place are. -/
theorem order_eq_iff (carries : Nat → Bool) (elmSize : Nat) (buf : DataBuffer) (hwf : received.WellFormed)
    (hlwf : loaded.WellFormed) (hsame : ∀ x, received.Mem x ↔ loaded.Mem x) :
    loaded.indices.map (carried carries elmSize buf) = received.indices.map (carried carries elmSize buf) ↔
      ∀ e ∈ received.indices.zip loaded.indices, ∀ b < elmSize, carries b = true →
        buf.elementAt elmSize e.1 b = buf.elementAt elmSize e.2 b := by
  have hlen := (RegionSubset.indices_perm hwf hlwf hsame).length_eq
  rw [eq_comm, ← List.forall₂_eq_eq_eq, List.forall₂_map_left_iff, List.forall₂_map_right_iff, List.forall₂_iff_zip,
    and_iff_right hlen]
  simp only [carried_eq_iff]
  exact ⟨fun h e he => h he, fun h x y he => h (x, y) he⟩

/-- Where the orders do not matter, the elements that were received are those of the left rank, and all else is as it
was before. -/
theorem Stored.values (h : Stored carries elmSize s sent t received loaded) (hwf : received.WellFormed)
    (hlwf : loaded.WellFormed) (hsame : ∀ x, received.Mem x ↔ loaded.Mem x)
    (horder : ∀ e ∈ received.indices.zip loaded.indices, ∀ b < elmSize, carries b = true →
      sent.buf.elementAt elmSize e.1 b = sent.buf.elementAt elmSize e.2 b) (x : Nat) {b : Nat} (hb : b < elmSize) :
    (received.Mem x ∧ carries b = true → t.partner.buf.elementAt elmSize x b = sent.buf.elementAt elmSize x b) ∧
      (¬(received.Mem x ∧ carries b = true) →
        t.partner.buf.elementAt elmSize x b = s.partner.buf.elementAt elmSize x b) := by
  constructor
  · rintro ⟨hx, hcarried⟩
    obtain ⟨y, he⟩ := exists_zip_of_mem hwf hlwf hsame hx
    exact (h.copied _ he b hb).trans ((if_pos hcarried).trans (horder _ he b hb hcarried).symm)
  · intro hno
    by_cases hx : received.Mem x
    · obtain ⟨y, he⟩ := exists_zip_of_mem hwf hlwf hsame hx
      exact (h.copied _ he b hb).trans (if_neg fun hcarried => hno ⟨hx, hcarried⟩)
    · exact h.other x hx b hb

/-- The left rank's elements are in the copy at their own indices just if the two orders do not matter. -/
theorem Stored.copies_iff (h : Stored carries elmSize s sent t received loaded) (hwf : received.WellFormed)
    (hlwf : loaded.WellFormed) (hsame : ∀ x, received.Mem x ↔ loaded.Mem x) :
    (∀ x, loaded.Mem x → t.partner.stagedSubset.Mem x ∧ (x + 1) * elmSize ≤ t.partner.buf.size ∧
      ∀ b < elmSize, carries b = true →
        t.partner.buf.elementAt elmSize x b = sent.buf.elementAt elmSize x b) ↔
      ∀ e ∈ received.indices.zip loaded.indices, ∀ b < elmSize, carries b = true →
        sent.buf.elementAt elmSize e.1 b = sent.buf.elementAt elmSize e.2 b := by
  constructor
  · intro hcopies e he b hb hcarried
    have hx : received.Mem e.1 := RegionSubset.mem_indices.mp (List.of_mem_zip he).1
    have hvalue := (hcopies e.1 ((hsame _).mp hx)).2.2 b hb hcarried
    exact hvalue.symm.trans ((h.copied e he b hb).trans (if_pos hcarried))
  · intro horder x hx
    have hx' := (hsame x).mpr hx
    have hpartner := (h.partner x).mpr (Or.inr hx')
    exact ⟨hpartner, h.room x hpartner, fun b hb hcarried =>
      (h.values hwf hlwf hsame horder x hb).1 ⟨hx', hcarried⟩⟩

end Copy

/-- With the same elements staged on all ranks a store goes through. -/
theorem store_stored (carries : Nat → Bool) (helm : 0 < elmSize) (hcount : ∀ k, count k * elmSize ≤ 2147483647)
    (hs : ∀ k, (snaps k).Sound k elmSize (count k)) (hsame : SameStaged snaps) :
    ∃ stored, store carries snaps = .ok stored ∧ ∀ k,
      Stored carries elmSize ((snaps k).spread k) ((snaps (left k)).spread (left k)) (stored k)
        ((snaps k).stagedSubsets k) ((snaps (left k)).stagedSubsets (left k)) := by
  have hstep (k : Fin n) : ∃ t, iprotect carries (fun i => (snaps i).spread i) k = .ok t ∧
      Stored carries elmSize ((snaps k).spread k) ((snaps (left k)).spread (left k)) t ((snaps k).stagedSubsets k)
        ((snaps (left k)).stagedSubsets (left k)) := by
    have hsent := (spread_sound (hs (left k))).own
    refine iprotect_stored helm (hcount k) ?_ (fun _ => ?_) (hs k).own.below hsent (hs (left k)).room
      (hsame k (left k))
    · exact spread_sound (hs k)
    · exact ⟨(hs k).own.wellFormed, (hs k).own.narrow⟩
  choose stored hstored hcopy using hstep
  exact ⟨stored, Except.sequence_eq_ok_iff.mpr hstored, hcopy⟩

/-- A store of exchanged subsets goes through as well, if their regions can be exchanged. -/
theorem storev_stored (carries : Nat → Bool) (helm : 0 < elmSize) (hcount : ∀ k, count k * elmSize ≤ 2147483647)
    (hs : ∀ k, (snaps k).Sound k elmSize (count k)) (hsame : SameStaged snaps)
    (hbytes : RegionSubset.exchangedBytes (fun i => (snaps i).stagedSubsets i) ≤ 2147483647) :
    ∃ stored, storev carries snaps = .ok stored ∧ ∀ k,
      Stored carries elmSize (informed snaps k) (informed snaps (left k)) (stored k)
        ((snaps (left k)).stagedSubsets (left k)) ((snaps (left k)).stagedSubsets (left k)) := by
  have hstep (k : Fin n) : ∃ t, iprotect carries (informed snaps) k = .ok t ∧
      Stored carries elmSize (informed snaps k) (informed snaps (left k)) t
        ((snaps (left k)).stagedSubsets (left k)) ((snaps (left k)).stagedSubsets (left k)) := by
    have hsound : ∀ i, (informed snaps i).Sound i elmSize (count i) := fun i =>
      ⟨⟨(hs i).own.size_eq, (hs i).own.count_eq, (hs i).own.wellFormed, (hs i).own.narrow, (hs i).own.below⟩,
        (hs i).room, (hs i).protectedBy, (hs i).partner⟩
    exact iprotect_stored helm (hcount k) (hsound k) (fun i => ⟨(hs i).own.wellFormed, (hs i).own.narrow⟩)
      (fun x hx => (hs k).own.below x ((hsame k (left k) x).mpr hx)) (hsound (left k)).own (hs (left k)).room
      fun _ => Iff.rfl
  choose stored hstored hcopy using hstep
  refine ⟨stored, ?_, hcopy⟩
  unfold storev
  rw [exchangeSubsets_iff.mpr ⟨hbytes, rfl⟩]
  exact Except.sequence_eq_ok_iff.mpr hstored

/-- `store` and `storev` of the same elements agree, the copies being right, just if the regions can be exchanged and
every rank has the left one's elements in the order of that rank's blocks, or it makes no difference. -/
theorem storesAgree_iff (hr : Reachable carries elmSize count snaps) (hsame : SameStaged snaps) :
    StoresAgree carries elmSize snaps ↔
      RegionSubset.exchangedBytes (fun i => (snaps i).stagedSubsets i) ≤ 2147483647 ∧
        ∀ k, SameOrder carries elmSize snaps k := by
  obtain ⟨helm, hcount, hs⟩ := reachable_sound hr
  obtain ⟨stored, hstore, hcopy⟩ := store_stored carries helm hcount hs hsame
  have hwf : ∀ k, ((snaps k).stagedSubsets k).WellFormed := fun k => (hs k).own.wellFormed
  have horder (k : Fin n) := order_eq_iff carries elmSize (snaps (left k)).buf (hwf k) (hwf (left k))
    (hsame k (left k))
  constructor
  · rintro ⟨stored₁, stored₂, hstore₁, hstorev, _, hleft, _⟩
    cases Except.ok.inj (hstore.symm.trans hstore₁)
    obtain ⟨known, hknown, _⟩ := Except.bind_eq_ok_iff.mp hstorev
    refine ⟨(exchangeSubsets_iff.mp hknown).1, fun k => (horder k).mpr ?_⟩
    exact ((hcopy k).copies_iff (hwf k) (hwf (left k)) (hsame k (left k))).mp (hleft k)
  · rintro ⟨hbytes, hsameOrder⟩
    obtain ⟨stored', hstorev, hcopy'⟩ := storev_stored carries helm hcount hs hsame hbytes
    have hplaces := fun k => (horder k).mp (hsameOrder k)
    have hplaces' := fun k => (order_eq_iff carries elmSize (snaps (left k)).buf (hwf (left k)) (hwf (left k))
      fun _ => Iff.rfl).mp rfl
    refine ⟨stored, stored', hstore, hstorev, ⟨fun k i x => ?_, fun k x => ?_, fun k x _ b hb => ?_⟩, fun k => ?_,
      fun k => ?_⟩
    · exact ((hcopy k).protectedBy i x).trans ((or_congr_right (hsame k i x)).trans ((hcopy' k).protectedBy i x).symm)
    · exact ((hcopy k).partner x).trans ((or_congr_right (hsame k (left k) x)).trans ((hcopy' k).partner x).symm)
    · have hvalue := (hcopy k).values (hwf k) (hwf (left k)) (hsame k (left k)) (hplaces k) x hb
      have hvalue' := (hcopy' k).values (hwf (left k)) (hwf (left k)) (fun _ => Iff.rfl) (hplaces' k) x hb
      rw [← hsame k (left k) x] at hvalue'
      by_cases hx : ((snaps k).stagedSubsets k).Mem x ∧ carries b = true
      · exact (hvalue.1 hx).trans (hvalue'.1 hx).symm
      · exact (hvalue.2 hx).trans (hvalue'.2 hx).symm
    · exact ((hcopy k).copies_iff (hwf k) (hwf (left k)) (hsame k (left k))).mpr (hplaces k)
    · exact ((hcopy' k).copies_iff (hwf (left k)) (hwf (left k)) fun _ => Iff.rfl).mpr (hplaces' k)

/-- Single elements at a distance. -/
def singles (first reps stride : Nat) (h : 0 < reps ∧ stride ≠ sizeMax ∧ first + 1 < first + stride) : DataRegion :=
  ⟨first, first, reps, stride, Nat.le_refl first, Or.inr h⟩

/-- The indices 0, 4 and 8. -/
def fromZero : DataRegion := singles 0 2 4 (by decide)

/-- The indices 2, 6 and 10. -/
def fromTwo : DataRegion := singles 2 2 4 (by decide)

def twoParts : RegionSubset := ⟨[fromZero, fromTwo], by decide⟩

/-- The even indices from 0 to 10. -/
def everyOther : RegionSubset := {singles 0 5 2 (by decide)}

/-- Twelve bytes, each of which is its own index. -/
def unstaged : BuddySnapshot 2 :=
  fresh 1 12 ⟨12, UInt8.ofNat⟩ { buf := ⟨0, fun _ => 0⟩, elmSize := 1, elmMaxCount := 12 }

def staged (subset : RegionSubset) (k : Fin 2) : BuddySnapshot 2 :=
  { unstaged with stagedSubsets := Function.update (fun _ => ∅) k subset }

/-- One rank has staged all even indices at once, the other one has staged every second of them, then the others. -/
def twoOrders : Fin 2 → BuddySnapshot 2 :=
  Function.update (Function.update (fun _ => unstaged) 0 (staged twoParts 0)) 1 (staged everyOther 1)

def oneOrder : Fin 2 → BuddySnapshot 2 :=
  Function.update (Function.update (fun _ => unstaged) 0 (staged everyOther 0)) 1 (staged everyOther 1)

theorem unstaged_reachable : Reachable (fun _ => true) 1 (fun _ => 12) fun _ => unstaged :=
  Reachable.create Nat.one_pos fun _ => by decide

theorem everyOther_wellFormed : everyOther.WellFormed :=
  RegionSubset.wellFormed_singleton (s := 2) ⟨by decide, fun _ => rfl⟩

theorem everyOther_inside : everyOther.Inside 1 2147483647 :=
  RegionSubset.Inside.of_stop everyOther_wellFormed (by decide)

theorem twoOrders_reachable : Reachable (fun _ => true) 1 (fun _ => 12) twoOrders := by
  have hzero : ({fromZero} : RegionSubset).WellFormed := RegionSubset.wellFormed_singleton (s := 4) ⟨by decide, fun _ => rfl⟩
  have htwo : ({fromTwo} : RegionSubset).WellFormed := RegionSubset.wellFormed_singleton (s := 4) ⟨by decide, fun _ => rfl⟩
  have hfirst : unstaged.stage 0 unstaged.buf {fromZero} = .ok (staged {fromZero} 0) := rfl
  have hsecond : (staged {fromZero} 0).stage 0 unstaged.buf {fromTwo} = .ok (staged twoParts 0) := by
    refine Eq.trans (b := .ok { staged {fromZero} 0 with
      stagedSubsets := Function.update (staged {fromZero} 0).stagedSubsets 0 twoParts }) rfl ?_
    unfold staged
    rw [Function.update_idem]
  have hthird : unstaged.stage 1 unstaged.buf everyOther = .ok (staged everyOther 1) := rfl
  have hone : Reachable (fun _ => true) 1 (fun _ => 12) (Function.update (fun _ => unstaged) 0
      (staged {fromZero} 0)) :=
    unstaged_reachable.stage hzero (RegionSubset.Inside.of_stop hzero (by decide)) hfirst
  have htwo := hone.stage (k := 0) htwo (RegionSubset.Inside.of_stop htwo (by decide)) hsecond
  rw [Function.update_idem] at htwo
  exact htwo.stage (k := 1) everyOther_wellFormed everyOther_inside hthird

theorem twoOrders_sameStaged : SameStaged twoOrders := by
  have hperm : twoParts.indices.Perm everyOther.indices := by decide
  have hsame : ∀ x, twoParts.Mem x ↔ everyOther.Mem x := fun x => by
    rw [← RegionSubset.mem_indices, ← RegionSubset.mem_indices, hperm.mem_iff]
  intro k l x
  match k, l with
  | 0, 0 => exact Iff.rfl
  | 0, 1 => exact hsame x
  | 1, 0 => exact (hsame x).symm
  | 1, 1 => exact Iff.rfl

theorem storesAgree_iff_oneOrder : StoresAgree (fun _ => true) 1 oneOrder := by
  have hfirst : unstaged.stage 0 unstaged.buf everyOther = .ok (staged everyOther 0) := rfl
  have hsecond : unstaged.stage 1 unstaged.buf everyOther = .ok (staged everyOther 1) := rfl
  have hone : Reachable (fun _ => true) 1 (fun _ => 12) (Function.update (fun _ => unstaged) 0 (staged everyOther 0)) :=
    unstaged_reachable.stage everyOther_wellFormed everyOther_inside hfirst
  have hr : Reachable (fun _ => true) 1 (fun _ => 12) oneOrder :=
    hone.stage (k := 1) everyOther_wellFormed everyOther_inside hsecond
  have hparts : ∀ k, (oneOrder k).stagedSubsets k = everyOther := fun k => by
    match k with
    | 0 => rfl
    | 1 => rfl
  have hsame : SameStaged oneOrder := fun k l x => by rw [hparts, hparts]
  exact (storesAgree_iff hr hsame).mpr ⟨by decide, fun k => SameOrder.of_eq ((hparts _).trans (hparts k).symm)⟩

/-- The byte with index 4 is in the copy at index 2. -/
theorem store_mixes : Reachable (fun _ => true) 1 (fun _ => 12) twoOrders ∧ SameStaged twoOrders ∧
    (∃ stored, store (fun _ => true) twoOrders = .ok stored ∧ (stored 1).partner.buf.bytes 2 = 4) ∧
    ¬StoresAgree (fun _ => true) 1 twoOrders := by
  obtain ⟨helm, hcount, hs⟩ := reachable_sound twoOrders_reachable
  obtain ⟨stored, hstore, hcopy⟩ := store_stored (fun _ => true) helm hcount hs twoOrders_sameStaged
  have hmixed : (stored 1).partner.buf.bytes 2 = 4 := (hcopy 1).copied (2, 4) (by decide) 0 helm
  refine ⟨twoOrders_reachable, twoOrders_sameStaged, ⟨stored, hstore, hmixed⟩, ?_⟩
  rintro ⟨stored', _, hstore', _, _, hleft, _⟩
  cases Except.ok.inj (hstore.symm.trans hstore')
  have hmem : ((twoOrders (left 1)).stagedSubsets (left 1)).Mem 2 := RegionSubset.mem_indices.mp (by decide)
  have hright : (stored 1).partner.buf.bytes 2 = 2 := (hleft 1 2 hmem).2.2 0 helm rfl
  exact absurd (hmixed.symm.trans hright) (by decide)

end BuddySnapshot

end Fenix
