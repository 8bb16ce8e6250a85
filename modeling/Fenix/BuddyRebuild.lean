import Fenix.BuddyCopy
import Fenix.LatestRecovery

namespace Fenix

open BuddyMember (left right)

/-- What the ranks of a cohort have protected of a member at a commit, and the values of that. -/
structure CommitRecord (n : Nat) where
  protectedBy : Fin n → DataSubset
  value : Fin n → Nat → Nat → UInt8

/-- A buffer for elements of a size has the values of a subset. -/
structure DataBuffer.Stores (b : DataBuffer) (extent : Nat) (subset : DataSubset) (value : Nat → Nat → UInt8) : Prop where
  room : ∀ i ∈ subset.idxs, (i + 1) * extent ≤ b.size
  values : ∀ i ∈ subset.idxs, ∀ c < extent, b.bytes (i * extent + c) = value i c

/-- A snapshot is for elements of a size and for so many of them, as its copy is. -/
structure IMRSnapshot.Sized (s : IMRSnapshot) (extent count : Nat) : Prop where
  elmSize : s.elmSize = extent
  elmMaxCount : s.elmMaxCount = count
  copySize : s.partner.elmSize = extent
  copyMaxCount : s.partner.elmMaxCount = count

/-- The copy of a snapshot has nothing staged, not even for another rank. -/
def IMRSnapshot.Unused (s : IMRSnapshot) : Prop := ∀ x ∈ s.partner.stagedSubsets, x = ∅

/-- A snapshot of rank `k` has what a record says: it knows what each rank has protected, and has the values of its
own and a copy of those of the rank at the left. -/
structure IMRSnapshot.Keeps {n : Nat} (s : IMRSnapshot) (k : Fin n) (extent count : Nat) (r : CommitRecord n) : Prop where
  sized : s.Sized extent count
  cohortRank : s.cohortRank = some k.val
  known : s.protectedSubsets = List.ofFn r.protectedBy
  data : s.buf.Stores extent (r.protectedBy k) (r.value k)
  aligned : s.buf.size % extent = 0
  copyRank : s.partner.cohortRank = some k.val
  copied : s.partner.stagedSubsets[k.val]? = some (r.protectedBy (left k))
  copy : s.partner.buf.Stores extent (r.protectedBy (left k)) (r.value (left k))

/-- What a record names are elements of the member. -/
def CommitRecord.Below {n : Nat} (r : CommitRecord n) (count : Nat) : Prop :=
  ∀ k, ∀ i ∈ (r.protectedBy k).idxs, Fenix.Below count i

theorem DataSubset.mem_elems {s : DataSubset} {i : Nat} : i ∈ s.elems ↔ i ∈ s.idxs := Finset.mem_sort _

theorem DataBuffer.Stores.congr {b : DataBuffer} {extent : Nat} {subset : DataSubset} {value value' : Nat → Nat → UInt8}
    (h : b.Stores extent subset value) (hv : ∀ i ∈ subset.idxs, ∀ c < extent, value i c = value' i c) :
    b.Stores extent subset value' :=
  ⟨h.room, fun i hi c hc => (h.values i hi c hc).trans (hv i hi c hc)⟩

/-- The larger of two buffers of whole elements is one too. -/
theorem max_aligned {a b extent : Nat} (ha : a % extent = 0) (hb : b % extent = 0) : max a b % extent = 0 := by
  rcases max_choice a b with h | h
  · rw [h]
    exact ha
  · rw [h]
    exact hb

namespace DataSnapshot

variable {s : DataSnapshot} {rank extent count : Nat} {subset : DataSubset}

theorem resizeSubsets_getElem? {xs : List DataSubset} {size i : Nat} {x : DataSubset} (hi : i < size)
    (h : xs[i]? = some x) : (resizeSubsets xs size)[i]? = some x := by
  obtain ⟨hlt, _⟩ := List.getElem?_eq_some_iff.mp h
  unfold resizeSubsets
  rw [List.getElem?_take_of_lt hi, List.getElem?_append_left hlt, h]

theorem resizeSubsets_of_empty {xs : List DataSubset} {size i : Nat} (hi : i < size) (h : ∀ x ∈ xs, x = ∅) :
    (resizeSubsets xs size)[i]? = some ∅ := by
  unfold resizeSubsets
  rw [List.getElem?_take_of_lt hi]
  by_cases hlt : i < xs.length
  · rw [List.getElem?_append_left hlt, List.getElem?_eq_getElem hlt, h _ (List.getElem_mem hlt)]
  · rw [List.getElem?_append_right (Nat.le_of_not_lt hlt)]
    exact List.getElem?_replicate_of_lt (by omega)

/-- A snapshot with nothing staged, given elements and then their values, has just these. -/
theorem addAndFit_unpack (hpos : 0 < extent) (hrank : s.cohortRank = some rank)
    (hstaged : s.stagedSubsets[rank]? = some ∅) (hsize : s.elmSize = extent) (hcount : s.elmMaxCount = count)
    (hbelow : ∀ i ∈ subset.idxs, Below count i) (value : Nat → Nat → UInt8) :
    ∃ buf, BuddyMember.unpackInto (s.addAndFit subset) subset (subset.elems.map value) =
        .ok { s.addAndFit subset with buf := buf } ∧ buf.Stores extent subset value ∧
      (s.addAndFit subset).cohortRank = some rank ∧ (s.addAndFit subset).stagedSubsets[rank]? = some subset ∧
      (s.addAndFit subset).protectedSubsets = s.protectedSubsets ∧ (s.addAndFit subset).elmSize = extent ∧
      (s.addAndFit subset).elmMaxCount = count ∧ (s.buf.size % extent = 0 → buf.size % extent = 0) := by
  have hadded : (s.stagedSubsets.modify rank fun x => (x + subset).upTo s.elmMaxCount)[rank]? = some subset := by
    have hunion : (∅ : DataSubset) + subset = subset := congrArg DataSubset.mk (Finset.empty_union _)
    rw [List.getElem?_modify_eq, hstaged, hcount]
    exact congrArg some ((congrArg (DataSubset.upTo · count) hunion).trans (DataSubset.upTo_of_below hbelow))
  have hroom : ∀ i ∈ subset.idxs, (i + 1) * extent ≤ (s.addAndFit subset).buf.size := by
    intro i hi
    rw [addAndFit_eq hrank, DataBuffer.grow_eq, hsize]
    refine Nat.le_trans (Nat.mul_le_mul_right extent ?_) (Nat.le_max_right _ _)
    split
    next =>
      rw [List.getD_eq_getElem?_getD, hadded]
      exact DataSubset.lt_maxCount hi
    next hne =>
      rw [hcount] at hne ⊢
      exact (hbelow i hi).resolve_left hne
  have hfields : (s.addAndFit subset).cohortRank = some rank ∧ (s.addAndFit subset).stagedSubsets[rank]? = some subset ∧
      (s.addAndFit subset).protectedSubsets = s.protectedSubsets ∧ (s.addAndFit subset).elmSize = extent ∧
      (s.addAndFit subset).elmMaxCount = count := by
    rw [addAndFit_eq hrank]
    exact ⟨hrank, hadded, rfl, hsize, hcount⟩
  have haligned : s.buf.size % extent = 0 → (s.addAndFit subset).buf.size % extent = 0 := by
    intro hzero
    rw [addAndFit_eq hrank, DataBuffer.grow_eq, hsize]
    exact max_aligned hzero (Nat.mul_mod_left _ _)
  unfold BuddyMember.unpackInto
  by_cases hempty : subset = ∅
  · rw [if_pos hempty]
    obtain ⟨hrank, hstaged, hprotected, hsize, hcount⟩ := hfields
    refine ⟨(s.addAndFit subset).buf, rfl, ⟨hroom, fun i hi => ?_⟩, hrank, hstaged, hprotected, hsize, hcount, haligned⟩
    subst hempty
    exact absurd hi (Finset.notMem_empty i)
  · have hne : (s.addAndFit subset).buf.size ≠ 0 := by
      intro hzero
      refine hempty (congrArg DataSubset.mk (Finset.eq_empty_of_forall_notMem fun i hi => ?_))
      have hle := hroom i hi
      have hone : 0 < (i + 1) * extent := Nat.mul_pos (Nat.succ_pos i) hpos
      omega
    have hall : (subset.elems.filter fun i => decide ((i + 1) * (s.addAndFit subset).elmSize ≤
        (s.addAndFit subset).buf.size)) = subset.elems := by
      refine List.filter_eq_self.mpr fun i hi => decide_eq_true ?_
      rw [hfields.2.2.2.1]
      exact hroom i (DataSubset.mem_elems.mp hi)
    rw [if_neg hempty, if_neg hne]
    dsimp only
    rw [hall, if_pos (List.length_map _)]
    obtain ⟨hrank, hstaged, hprotected, hsize, hcount⟩ := hfields
    refine ⟨_, rfl, ⟨fun i hi => ?_, fun i hi c hc => ?_⟩, hrank, hstaged, hprotected, hsize, hcount, fun hzero => ?_⟩
    · rw [unpackAt_size]
      exact hroom i hi
    · rw [hsize, unpackAt_map i hc, if_pos (DataSubset.mem_elems.mpr hi)]
    · rw [unpackAt_size]
      exact haligned hzero

end DataSnapshot

namespace BuddyMember

open DataMember (broadcastSubsets)

variable {n extent count : Nat} {r : CommitRecord n} {f k root : Fin n} {snaps : Fin n → IMRSnapshot}

theorem left_right (k : Fin n) : left (right k) = k := by
  have hk := k.isLt
  unfold left right
  ext
  dsimp only
  split <;> split at * <;> omega

theorem right_ne (hn : 2 ≤ n) (k : Fin n) : right k ≠ k := by
  have hk := k.isLt
  unfold right
  intro h
  have hval := congrArg Fin.val h
  dsimp only at hval
  split at hval <;> omega

theorem left_ne (hn : 2 ≤ n) (k : Fin n) : left k ≠ k := by
  have hk := k.isLt
  unfold left
  intro h
  have hval := congrArg Fin.val h
  dsimp only at hval
  split at hval <;> omega

theorem receive_all {count : Nat} {message : List (Nat → UInt8)} (stale : Nat → Nat → UInt8)
    (h : message.length = count) : receive count stale message = .ok message := by
  unfold receive
  rw [if_neg (by omega), h, Nat.sub_self]
  exact congrArg Except.ok (List.append_nil message)

/-- What is packed of a buffer that has the values of a subset. -/
theorem packData_stores {b : DataBuffer} {subset : DataSubset} {value : Nat → Nat → UInt8}
    (h : b.Stores extent subset value) : ∃ g : Nat → Nat → UInt8,
      subset.packData extent b = subset.elems.map g ∧ ∀ i ∈ subset.idxs, ∀ c < extent, g i c = value i c :=
  ⟨fun i c => b.bytes (i * extent + c), rfl, h.values⟩

theorem known_getD {s : IMRSnapshot} (h : s.protectedSubsets = List.ofFn r.protectedBy) (i : Fin n) :
    s.protectedSubsets.getD i ∅ = r.protectedBy i := by
  rw [h, List.getD_eq_getElem?_getD, List.getElem?_ofFn, dif_pos i.isLt]
  rfl

/-- A rank that is told the subsets of a record keeps it. -/
theorem broadcast_keeps (hroot : (snaps root).Keeps root extent count r) (h : (snaps k).Keeps k extent count r) :
    (broadcastSubsets root snaps k).Keeps k extent count r where
  sized := ⟨h.sized.elmSize, h.sized.elmMaxCount, h.sized.copySize, h.sized.copyMaxCount⟩
  cohortRank := rfl
  known := (DataSnapshot.resizeSubsets_length (hroot.known ▸ List.length_ofFn)).trans hroot.known
  data := h.data
  aligned := h.aligned
  copyRank := rfl
  copied := DataSnapshot.resizeSubsets_getElem? k.isLt h.copied
  copy := h.copy

/-- A rank with an unused snapshot gets what the record says from its two neighbours. -/
theorem rebuild_keeps (hn : 2 ≤ n) (hpos : 0 < extent) (hr : r.Below count) (hroot : root ≠ f)
    (h : ∀ k, k ≠ f → (snaps k).Keeps k extent count r) (hsized : (snaps f).Sized extent count)
    (hblank : (snaps f).stagedSubsets = []) (haligned : (snaps f).buf.size % extent = 0) (hunused : (snaps f).Unused) (stale : Nat → Nat → UInt8) :
    ∃ s, rebuild f stale (broadcastSubsets root snaps) = .ok s ∧ s.Keeps f extent count r := by
  have hkeeper := broadcast_keeps (h root hroot) (h (right f) (right_ne hn f))
  have hkept := broadcast_keeps (h root hroot) (h (left f) (left_ne hn f))
  have hknown : (broadcastSubsets root snaps f).protectedSubsets = List.ofFn r.protectedBy :=
    (DataSnapshot.resizeSubsets_length ((h root hroot).known ▸ List.length_ofFn)).trans (h root hroot).known
  -- the keeper's copy is of this rank, and the rank at the left has its own data
  have hcopied : (broadcastSubsets root snaps (right f)).partner.stagedSubset.getD ∅ = r.protectedBy f := by
    unfold DataSnapshot.stagedSubset
    rw [hkeeper.copyRank, Option.bind_some, hkeeper.copied, left_right]
    rfl
  have hleft : (broadcastSubsets root snaps (left f)).protectedSubset.getD ∅ = r.protectedBy (left f) := by
    unfold DataSnapshot.protectedSubset
    rw [hkept.cohortRank, Option.bind_some, ← List.getD_eq_getElem?_getD]
    exact known_getD hkept.known (left f)
  have hcopy := hkeeper.copy
  rw [left_right] at hcopy
  obtain ⟨g, hpack, hg⟩ := packData_stores hcopy
  obtain ⟨g', hpack', hg'⟩ := packData_stores hkept.data
  have hup : ∀ k, (r.protectedBy k).upTo count = r.protectedBy k := fun k => DataSubset.upTo_of_below (hr k)
  obtain ⟨buf, hunpack, hstores, hrank, _, hprotected, hsize, hmax, hfits⟩ :=
    (broadcastSubsets root snaps f).toDataSnapshot.addAndFit_unpack hpos rfl
      (DataSnapshot.resizeSubsets_of_empty f.isLt (by rw [hblank]; exact fun _ hx => absurd hx List.not_mem_nil))
      hsized.elmSize hsized.elmMaxCount (hr f) g
  obtain ⟨buf', hunpack', hstores', hrank', hstaged', _, hsize', hmax', _⟩ :=
    (broadcastSubsets root snaps f).partner.addAndFit_unpack hpos rfl
      (DataSnapshot.resizeSubsets_of_empty f.isLt hunused) hsized.copySize hsized.copyMaxCount (hr (left f)) g'
  have hcopied' : ((broadcastSubsets root snaps f).partner.addAndFit (r.protectedBy (left f))).stagedSubset.getD ∅ =
      r.protectedBy (left f) := by
    unfold DataSnapshot.stagedSubset
    rw [hrank', Option.bind_some, hstaged']
    rfl
  refine ⟨{ toDataSnapshot := { (broadcastSubsets root snaps f).toDataSnapshot.addAndFit (r.protectedBy f) with
      buf := buf }, partner := { (broadcastSubsets root snaps f).partner.addAndFit (r.protectedBy (left f)) with
      buf := buf' } }, ?_, ?_⟩
  · have hmaxCount : (broadcastSubsets root snaps f).elmMaxCount = count := hsized.elmMaxCount
    unfold rebuild
    dsimp only
    rw [known_getD hknown, known_getD hknown, hcopied, hleft, hcopied', hmaxCount, hup, hup, hkeeper.sized.elmSize,
      hkept.sized.elmSize, hpack, hpack', receive_all stale (List.length_map _), receive_all stale (List.length_map _)]
    exact Except.bind_eq_ok_iff.mpr ⟨_, rfl, Except.bind_eq_ok_iff.mpr ⟨_, hunpack, Except.bind_eq_ok_iff.mpr
      ⟨_, rfl, Except.bind_eq_ok_iff.mpr ⟨_, hunpack', rfl⟩⟩⟩⟩
  · exact ⟨⟨hsize, hmax, hsize', hmax'⟩, hrank, hprotected.trans hknown, hstores.congr hg, hfits haligned, hrank',
      hstaged', hstores'.congr hg'⟩

end BuddyMember

/-- A member of a rank is for elements of a size and for so many of them, its snapshots are so too, and those that it
has committed have what the records of their timestamps say. -/
structure DataMember.Guards {n : Nat} (m : DataMember) (k : Fin n) (extent count : Nat)
    (records : Int → CommitRecord n) : Prop where
  elmSize : m.elmSize = extent
  elmCount : m.elmCount = count
  kept : ∀ s ∈ m.commitSnapshots, s.Keeps k extent count (records s.timestamp)
  spare : ∀ s ∈ m.availSnapshots, s.Sized extent count

/-- No snapshot for reuse has been used before, as far as its copy tells. -/
def DataMember.Unused (m : DataMember) : Prop := ∀ s ∈ m.availSnapshots, s.Unused

section Guards

variable {n extent count : Nat} {k : Fin n} {s : IMRSnapshot} {r : CommitRecord n} {m : DataMember}
  {records : Int → CommitRecord n}

theorem IMRSnapshot.Keeps.setTimestamp (h : s.Keeps k extent count r) (ts : Int) :
    ({ s with timestamp := ts } : IMRSnapshot).Keeps k extent count r :=
  ⟨⟨h.sized.elmSize, h.sized.elmMaxCount, h.sized.copySize, h.sized.copyMaxCount⟩, h.cohortRank, h.known, h.data,
    h.aligned, h.copyRank, h.copied, h.copy⟩

theorem IMRSnapshot.Sized.reset (h : s.Sized extent count) : s.reset.Sized extent count :=
  ⟨h.elmSize, h.elmMaxCount, h.copySize, h.copyMaxCount⟩

namespace DataMember

theorem Guards.of_find? (h : m.Guards k extent count records) {ts : Int} (hs : m.commitSnapshots.find? ts = some s) :
    s.Keeps k extent count (records ts) := by
  obtain ⟨hmem, rfl⟩ := IndexedSet.find?_some hs
  exact h.kept s hmem

/-- A snapshot that keeps the record of a timestamp is put back under it. -/
theorem Guards.putBack (h : m.Guards k extent count records) {ts : Int} (hs : s.Keeps k extent count (records ts))
    (hts : (m.commitSnapshots.find? ts).isSome → s.timestamp = ts) :
    (m.putBack ts s).Guards k extent count records := by
  unfold DataMember.putBack
  split
  next x hx =>
    rw [hx] at hts
    refine ⟨h.elmSize, h.elmCount, fun y hy => ?_, h.spare⟩
    rcases IndexedSet.mem_put.mp hy with rfl | ⟨hy, _⟩
    · rw [hts rfl]
      exact hs
    · exact h.kept y hy
  next =>
    refine ⟨h.elmSize, h.elmCount, fun y hy => ?_, fun y hy => h.spare y (List.mem_of_mem_tail hy)⟩
    rcases IndexedSet.mem_of_mem_insert hy with rfl | hy
    · exact hs.setTimestamp ts
    · exact h.kept y hy

theorem Guards.resetUnfound (h : m.Guards k extent count records) (ts : Int) :
    (m.resetUnfound ts).Guards k extent count records := by
  unfold DataMember.resetUnfound
  split
  next => exact h
  next =>
    split
    next => exact h
    next x rest hx =>
      have hspare := h.spare
      rw [hx] at hspare
      obtain ⟨hfirst, hrest⟩ := List.forall_mem_cons.mp hspare
      exact ⟨h.elmSize, h.elmCount, h.kept, List.forall_mem_cons.mpr ⟨hfirst.reset, hrest⟩⟩

theorem Unused.putBack (h : m.Unused) (ts : Int) (s : IMRSnapshot) : (m.putBack ts s).Unused := by
  unfold DataMember.putBack
  split
  next => exact h
  next => exact fun x hx => h x (List.mem_of_mem_tail hx)

theorem Unused.resetUnfound (h : m.Unused) (ts : Int) : (m.resetUnfound ts).Unused := by
  unfold DataMember.resetUnfound
  split
  next => exact h
  next =>
    split
    next => exact h
    next x rest hx =>
      unfold DataMember.Unused at h
      rw [hx] at h
      obtain ⟨hfirst, hrest⟩ := List.forall_mem_cons.mp h
      exact List.forall_mem_cons.mpr ⟨hfirst, hrest⟩

/-- What takes part in the repair of a timestamp that was not found. -/
theorem repairSnapshot_spare {ts : Int} (hn : m.commitSnapshots.find? ts = none) (hs : m.repairSnapshot ts = some s) :
    ∃ x ∈ m.availSnapshots, s = x.reset := by
  unfold DataMember.repairSnapshot at hs
  rw [hn] at hs
  obtain ⟨x, hx, rfl⟩ := Option.map_eq_some_iff.mp hs
  exact ⟨x, List.mem_of_mem_head? hx, rfl⟩

theorem repairSnapshot_found {ts : Int} (hf : m.commitSnapshots.find? ts = some s) : m.repairSnapshot ts = some s := by
  unfold DataMember.repairSnapshot
  rw [hf]

end DataMember

variable {ms : Fin n → DataMember} {ts : Int}

/-- A rank is the only one to lack a timestamp. -/
def Alone (ms : Fin n → DataMember) (ts : Int) (k : Fin n) : Prop := ∀ l, ¬Holds ms l ts ↔ l = k

/-- The repair of a timestamp goes through if each rank has a snapshot for it, an unused one where it is the only rank
to lack the timestamp. What the ranks have then is what the records say. -/
theorem BuddyMember.repairTimestamp_guards (hn : 2 ≤ n) (hpos : 0 < extent) (hr : (records ts).Below count)
    (h : ∀ k, (ms k).Guards k extent count records) (hsnap : ∀ k, ((ms k).repairSnapshot ts).isSome)
    (hunused : ∀ k, Alone ms ts k → (ms k).Unused) (stale : Fin n → Nat → Nat → UInt8) :
    ∃ ms', repairTimestamp stale ts ms = .ok ms' ∧ ∀ k, (ms' k).Guards k extent count records := by
  choose snaps hsnaps using fun k => Option.isSome_iff_exists.mp (hsnap k)
  have hget : (fun k => ((ms k).repairSnapshot ts).get (hsnap k)) = snaps := by
    funext k
    simp only [hsnaps k, Option.get_some]
  have hfound : ∀ k, Holds ms k ts → (snaps k).Keeps k extent count (records ts) ∧ (snaps k).timestamp = ts := by
    intro k hk
    obtain ⟨s, hs⟩ := Option.isSome_iff_exists.mp hk
    cases (hsnaps k).symm.trans (DataMember.repairSnapshot_found hs)
    exact ⟨(h k).of_find? hs, (IndexedSet.find?_some hs).2⟩
  unfold repairTimestamp
  rw [dif_pos hsnap, hget]
  dsimp only
  split
  next f root hf hroot =>
    have hlost := DataMember.recovering_eq_some_iff.mp hf
    have hothers : ∀ k, k ≠ f → Holds ms k ts := fun k hk =>
      Bool.eq_true_of_not_eq_false fun hno => hk ((hlost k).mp hno)
    have hmissing : (ms f).commitSnapshots.find? ts = none := by
      have hno := (hlost f).mpr rfl
      rwa [Option.isSome_eq_false_iff, Option.isNone_iff_eq_none] at hno
    have hrootne : root ≠ f := by
      rintro rfl
      have hin := List.mem_of_getLast? hroot
      have hyes : ((ms root).commitSnapshots.find? ts).isSome = true := (List.mem_filter.mp hin).2
      exact absurd (hyes.symm.trans ((hlost root).mpr rfl)) (by decide)
    obtain ⟨x, hx, hsx⟩ := DataMember.repairSnapshot_spare hmissing (hsnaps f)
    have hsized := ((h f).spare x hx).reset
    have hblank : (snaps f).stagedSubsets = [] := by
      rw [hsx]
      rfl
    have haligned : (snaps f).buf.size % extent = 0 := by
      rw [hsx]
      exact Nat.zero_mod extent
    have hclean : (snaps f).Unused := by
      rw [hsx]
      refine hunused f (fun l => ?_) x hx
      exact (Bool.not_eq_true _).to_iff.trans (hlost l)
    rw [← hsx] at hsized
    obtain ⟨rebuilt, hrebuilt, hkeeps⟩ := rebuild_keeps hn hpos hr hrootne (fun k hk => (hfound k (hothers k hk)).1)
      hsized hblank haligned hclean (stale f)
    refine ⟨_, Except.bind_eq_ok_iff.mpr ⟨rebuilt, hrebuilt, rfl⟩, fun k => ?_⟩
    by_cases hk : k = f
    · subst hk
      rw [if_pos rfl]
      refine (h k).putBack hkeeps fun hsome => ?_
      rw [hmissing] at hsome
      cases hsome
    · rw [if_neg hk]
      have hheld := hfound k (hothers k hk)
      exact (h k).putBack (broadcast_keeps (hfound root (hothers root hrootne)).1 hheld.1) fun _ => hheld.2
  next => exact ⟨_, rfl, fun k => (h k).resetUnfound ts⟩

end Guards

end Fenix
