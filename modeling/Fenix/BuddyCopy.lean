import Fenix.UserMemberRun

namespace Fenix

/-- What a rank has staged and protected since its last commit, and what it has copied from the left rank. -/
structure Account where
  staged : DataSubset
  protectedBy : DataSubset
  value : Nat → Nat → UInt8
  copied : DataSubset
  copyValue : Nat → Nat → UInt8

namespace Account

def empty (value copyValue : Nat → Nat → UInt8) : Account := ⟨∅, ∅, value, ∅, copyValue⟩

/-- The elements of a member of `count` elements that a subset names are staged with the values given. -/
def stage (a : Account) (subset : Specifier) (count : Nat) (value : Nat → Nat → UInt8) : Account :=
  { a with staged := a.staged + subset.upTo count, value := fun i => if i ∈ subset then value i else a.value i }

/-- What is staged becomes protected, and what the left rank has staged is copied. -/
def store (a left : Account) : Account where
  staged := ∅
  protectedBy := a.protectedBy + a.staged
  value := a.value
  copied := a.copied + left.staged
  copyValue i := if i ∈ left.staged.idxs then left.value i else a.copyValue i

end Account

/-- A snapshot of a rank, for elements of a size and for so many of them, has what an account says. Its copy has
something left over besides. -/
structure IMRSnapshot.Holds (s : IMRSnapshot) (rank size extent count : Nat) (a : Account) (leftover : DataSubset) :
    Prop where
  own : s.Has rank extent a.staged a.protectedBy a.value
  ranks : s.stagedSubsets.length = size
  elmMaxCount : s.elmMaxCount = count
  below : ∀ i ∈ a.staged.idxs ∪ a.protectedBy.idxs, Below count i
  copy : ∃ value, s.partner.Has rank extent (leftover + a.copied) ∅ value ∧
    ∀ i ∈ a.copied.idxs, ∀ b < extent, value i b = a.copyValue i b
  copyMaxCount : s.partner.elmMaxCount = count

/-- A snapshot for reuse, or a new one. Its copy may have anything staged. -/
structure IMRSnapshot.Spare (s : IMRSnapshot) (rank extent count : Nat) : Prop where
  fresh : s.Fresh extent
  size : s.buf.size = 0
  elmMaxCount : s.elmMaxCount = count
  copy : s.partner.Fresh extent ∨ ∃ staged value, s.partner.Has rank extent staged ∅ value
  copyMaxCount : s.partner.elmMaxCount = count

section Unpack

variable {elmSize : Nat} {f : Nat → Nat → UInt8} {dst : DataBuffer}

/-- Elements go to their places and nowhere else. -/
theorem unpackAt_map {is : List Nat} (j : Nat) {b : Nat} (hb : b < elmSize) :
    (DataSubset.unpackAt elmSize is (is.map f) dst).bytes (j * elmSize + b) =
      if j ∈ is then f j b else dst.bytes (j * elmSize + b) := by
  induction is generalizing dst with
  | nil => rw [if_neg List.not_mem_nil]; rfl
  | cons i is ih =>
    change (DataSubset.unpackAt elmSize is (is.map f) (dst.write (i * elmSize) elmSize (f i))).bytes _ = _
    rw [ih]
    by_cases htail : j ∈ is
    · rw [if_pos htail, if_pos (List.mem_cons_of_mem i htail)]
    · rw [if_neg htail]
      change (if i * elmSize ≤ j * elmSize + b ∧ j * elmSize + b < i * elmSize + elmSize then
        f i (j * elmSize + b - i * elmSize) else dst.bytes (j * elmSize + b)) = _
      by_cases hij : i = j
      · subst hij
        rw [if_pos ((element_eq_iff hb).mpr rfl), if_pos List.mem_cons_self, Nat.add_sub_cancel_left]
      · rw [if_neg fun h => hij ((element_eq_iff hb).mp h), if_neg]
        rintro hin
        exact htail ((List.mem_cons.mp hin).resolve_left fun h => hij h.symm)

theorem unpackAt_size {is : List Nat} {es : List (Nat → UInt8)} :
    (DataSubset.unpackAt elmSize is es dst).size = dst.size := by
  induction is generalizing es dst with
  | nil => rfl
  | cons i is ih =>
    cases es with
    | nil => rfl
    | cons e es => exact ih

end Unpack

theorem DataSubset.add_assoc (s t u : DataSubset) : s + t + u = s + (t + u) :=
  congrArg DataSubset.mk (Finset.union_assoc _ _ _)

theorem DataSnapshot.addAndFit_length (s : DataSnapshot) (subset : DataSubset) :
    (s.addAndFit subset).stagedSubsets.length = s.stagedSubsets.length := by
  unfold addAndFit
  split
  next => rfl
  next => exact List.length_modify _ _ _

theorem DataSnapshot.addAndFit_elmMaxCount (s : DataSnapshot) (subset : DataSubset) :
    (s.addAndFit subset).elmMaxCount = s.elmMaxCount := by
  unfold addAndFit
  split <;> rfl

/-- The size that a buffer gets. -/
theorem DataSnapshot.addAndFit_size {s : DataSnapshot} {rank : Nat} {staged : DataSubset}
    (hrank : s.cohortRank = some rank) (hstaged : s.stagedSubsets[rank]? = some staged) (buf : DataBuffer)
    (subset : DataSubset) : (({ s with buf := buf } : DataSnapshot).addAndFit subset).buf.size =
      max buf.size ((if s.elmMaxCount = 0 then
        ((staged + subset).upTo s.elmMaxCount).maxCount else s.elmMaxCount) * s.elmSize) := by
  have hrank' : ({ s with buf := buf } : DataSnapshot).cohortRank = some rank := hrank
  rw [addAndFit_eq hrank', DataBuffer.grow_eq, List.getD_eq_getElem?_getD, List.getElem?_modify_eq, hstaged]
  rfl

/-- Room is made for elements that are added, in place or not. -/
theorem DataSnapshot.Has.addAndFit_room {s : DataSnapshot} {rank extent : Nat} {staged protectedBy subset : DataSubset}
    {value : Nat → Nat → UInt8} (h : s.Has rank extent staged protectedBy value)
    (hbelow : ∀ i ∈ subset.idxs, Below s.elmMaxCount i) :
    (s.addAndFit subset).Has rank extent (staged + subset) protectedBy fun i b => s.buf.bytes (i * extent + b) := by
  have hall : ∀ i ∈ (staged + subset).idxs, Below s.elmMaxCount i := fun i hi =>
    (DataSubset.mem_add.mp hi).elim (h.bounded i) (hbelow i)
  have hstaged : (s.stagedSubsets.modify rank fun x => (x + subset).upTo s.elmMaxCount)[rank]? =
      some (staged + subset) := by
    rw [List.getElem?_modify_eq, h.stagedSubset]
    exact congrArg some (DataSubset.upTo_of_below hall)
  rw [DataSnapshot.addAndFit_eq h.cohortRank, DataBuffer.grow_eq]
  refine ⟨h.cohortRank, hstaged, h.protectedSubset, h.elmSize, hall, fun i hi => ?_, fun i _ b _ => rfl⟩
  by_cases hold : i ∈ staged.idxs ∪ protectedBy.idxs
  · exact Nat.le_trans (h.room i hold) (Nat.le_max_left _ _)
  · have hin : i ∈ subset.idxs := by
      rw [Finset.mem_union, DataSubset.mem_add] at hi
      rw [Finset.mem_union] at hold
      tauto
    refine Nat.le_trans ?_ (Nat.le_max_right _ _)
    rw [h.elmSize]
    refine Nat.mul_le_mul_right extent ?_
    split
    next =>
      rw [List.getD_eq_getElem?_getD, hstaged]
      exact DataSubset.lt_maxCount (DataSubset.mem_add.mpr (Or.inr hin))
    next hne => exact (hbelow i hin).resolve_left hne

namespace IMRSnapshot

variable {s : IMRSnapshot} {rank size extent count : Nat} {a : Account} {leftover : DataSubset}

theorem Holds.reset_spare (h : s.Holds rank size extent count a leftover) : s.reset.Spare rank extent count := by
  obtain ⟨value, hcopy, _⟩ := h.copy
  exact ⟨reset_fresh h.own.elmSize, rfl, h.elmMaxCount, Or.inr ⟨_, value, hcopy⟩, h.copyMaxCount⟩

theorem create_spare (rank extent count : Nat) (junk partnerJunk : Nat → UInt8) :
    (create extent count junk partnerJunk).Spare rank extent count :=
  ⟨⟨rfl, rfl, rfl, rfl⟩, rfl, rfl, Or.inl ⟨rfl, rfl, rfl, rfl⟩, rfl⟩

/-- What the copy of a snapshot has staged. -/
def copied (s : IMRSnapshot) : DataSubset := s.partner.stagedSubset.getD ∅

theorem Holds.copied_eq (h : s.Holds rank size extent count a leftover) :
    s.partner.stagedSubset = some (leftover + a.copied) ∧ s.copied = leftover + a.copied := by
  obtain ⟨value, hcopy, _⟩ := h.copy
  have hstaged := UserMember.stagedSubset_eq hcopy
  exact ⟨hstaged, congrArg (Option.getD · ∅) hstaged⟩

/-- A snapshot that is staged in anew has nothing but what its copy has left over. -/
theorem Spare.initCohort (h : s.Spare rank extent count) (hrank : rank < size) (value copyValue : Nat → Nat → UInt8) :
    (s.initCohort rank size).Holds rank size extent count (.empty value copyValue) (s.initCohort rank size).copied ∧
      (s.initCohort rank size).buf.size = 0 := by
  have hown := h.fresh.initCohort hrank value
  have hinit : s.toDataSnapshot.initCohort rank size = s.toDataSnapshot.reinitCohort rank size := by
    unfold DataSnapshot.initCohort
    rw [h.fresh.cohortRank]
  have hcopy : ∃ staged value, (s.partner.initCohort rank size).Has rank extent staged ∅ value := by
    rcases h.copy with hfresh | ⟨staged, value, hhas⟩
    · exact ⟨∅, value, hfresh.initCohort hrank value⟩
    · refine ⟨staged, value, ?_⟩
      unfold DataSnapshot.initCohort
      rw [hhas.cohortRank]
      exact hhas
  have hmax : ∀ s : DataSnapshot, (s.initCohort rank size).elmMaxCount = s.elmMaxCount := fun s => by
    unfold DataSnapshot.initCohort
    split <;> rfl
  obtain ⟨staged, copyBytes, hhas⟩ := hcopy
  have hstaged : (s.initCohort rank size).copied = staged :=
    congrArg (Option.getD · ∅) (UserMember.stagedSubset_eq hhas)
  refine ⟨⟨hown, ?_, (hmax _).trans h.elmMaxCount, fun i hi => ?_, ⟨copyBytes, ?_, fun i hi => ?_⟩,
    (hmax _).trans h.copyMaxCount⟩, ?_⟩
  · change (s.toDataSnapshot.initCohort rank size).stagedSubsets.length = size
    rw [hinit]
    change (DataSnapshot.resizeSubsets s.stagedSubsets size).length = size
    unfold DataSnapshot.resizeSubsets
    rw [h.fresh.stagedSubsets, List.nil_append, List.length_take, List.length_replicate, Nat.min_self]
  · exact absurd hi (Finset.notMem_empty i)
  · rw [hstaged]
    have hnone : staged + (Account.empty value copyValue).copied = staged :=
      congrArg DataSubset.mk (Finset.union_empty _)
    rw [hnone]
    exact hhas
  · exact absurd hi (Finset.notMem_empty i)
  · change (s.toDataSnapshot.initCohort rank size).buf.size = 0
    rw [hinit]
    exact h.size

/-- The copy in a new snapshot has nothing. -/
theorem create_copied {junk partnerJunk : Nat → UInt8} (hrank : rank < size) :
    ((create extent count junk partnerJunk).initCohort rank size).copied = ∅ := by
  have hfresh : (create extent count junk partnerJunk).partner.Fresh extent := ⟨rfl, rfl, rfl, rfl⟩
  exact congrArg (Option.getD · ∅) (UserMember.stagedSubset_eq (hfresh.initCohort hrank fun _ _ => 0))

end IMRSnapshot

namespace DataMember

variable {m f : DataMember} {rank size extent count : Nat}

theorem trim_kept {R : IMRSnapshot → IMRSnapshot → Prop} (hdepth : f.depth = m.depth)
    (h : List.Forall₂ R m.commitSnapshots.entries f.commitSnapshots.entries) :
    List.Forall₂ R m.trim.commitSnapshots.entries f.trim.commitSnapshots.entries := by
  have hlen := h.length_eq
  rcases m.trim_cases with ⟨hle, hm⟩ | ⟨x, xs, hx, hlt, hm, _⟩ <;>
    rcases f.trim_cases with ⟨hle', hf⟩ | ⟨y, ys, hy, hlt', hf, _⟩
  · rw [hm, hf]
    exact h
  · omega
  · omega
  · rw [hx, hy] at h
    rw [hm, hf]
    exact (List.forall₂_cons.mp h).2

/-- Both give up the snapshot of a timestamp, if they have one. -/
theorem snapshotDelete_kept {R : IMRSnapshot → IMRSnapshot → Prop} (timestamp : Int)
    (hR : ∀ s t, R s t → t.timestamp = s.timestamp)
    (h : List.Forall₂ R m.commitSnapshots.entries f.commitSnapshots.entries) :
    List.Forall₂ R (m.snapshotDelete timestamp).commitSnapshots.entries
      (f.snapshotDelete timestamp).commitSnapshots.entries := by
  have hentries : ∀ m : DataMember, (m.snapshotDelete timestamp).commitSnapshots.entries =
      m.commitSnapshots.entries.filter fun s => decide (s.timestamp ≠ timestamp) := fun m => by
    exact congrArg IndexedSet.entries (m.pool.release_used IMRSnapshot.reset timestamp)
  rw [hentries, hentries]
  generalize m.commitSnapshots.entries = ss at h
  generalize f.commitSnapshots.entries = ts at h
  induction h with
  | nil => exact List.Forall₂.nil
  | @cons s t ss ts hst _ ih =>
    rw [List.filter_cons, List.filter_cons, hR s t hst]
    split
    next => exact List.Forall₂.cons hst ih
    next => exact ih

theorem snapshotDelete_spare (timestamp : Int) (hkept : ∀ s ∈ m.commitSnapshots, s.reset.Spare rank extent count)
    (havail : ∀ s ∈ m.availSnapshots, s.Spare rank extent count) :
    ∀ s ∈ (m.snapshotDelete timestamp).availSnapshots, s.Spare rank extent count :=
  (Pool.release_all (p := m.pool) IMRSnapshot.reset timestamp (fun _ hs => hs) havail hkept).2

theorem trim_spare (hkept : ∀ s ∈ m.commitSnapshots, s.reset.Spare rank extent count)
    (havail : ∀ s ∈ m.availSnapshots, s.Spare rank extent count) :
    ∀ s ∈ m.trim.availSnapshots, s.Spare rank extent count :=
  (Pool.trim_all (p := m.pool) IMRSnapshot.reset (m.depth + 1) (fun _ hs => hs) havail hkept).2

/-- The snapshot that is staged in next. -/
theorem restage_holds (hrank : rank < size) (hsize : m.elmSize = extent) (hcount : m.elmCount = count)
    (havail : ∀ s ∈ m.availSnapshots, s.Spare rank extent count) (junk partnerJunk : Nat → UInt8)
    (value copyValue : Nat → Nat → UInt8) :
    let m' := m.restage rank size junk partnerJunk
    m'.stageSnapshot.Holds rank size extent count (.empty value copyValue) m'.stageSnapshot.copied ∧
      m'.stageSnapshot.buf.size = 0 ∧ ∀ s ∈ m'.availSnapshots, s.Spare rank extent count := by
  subst hsize hcount
  obtain ⟨hnext, hrest⟩ := Pool.next_all (p := m.pool) havail
    (IMRSnapshot.create_spare rank m.elmSize m.elmCount junk partnerJunk)
  obtain ⟨hholds, hzero⟩ := hnext.initCohort hrank value copyValue
  exact ⟨hholds, hzero, hrest⟩

end DataMember

namespace BuddyMember

variable {n : Nat} {extent count : Nat} {snaps : Fin n → IMRSnapshot} {k : Fin n} {a b : Account}
  {leftover leftover' : DataSubset}

theorem getD_eq {xs : List DataSubset} {i : Nat} {x : DataSubset} (h : xs[i]? = some x) : xs.getD i ∅ = x := by
  rw [List.getD_eq_getElem?_getD, h]
  rfl

/-- What a rank receives is just what it awaits, if it knows what the left one has staged. -/
theorem copyStaged_eq {x : DataSubset} (hknown : (snaps k).stagedSubsets.getD (left k) ∅ = x)
    (hsent : (snaps (left k)).stagedSubsets.getD (left k) ∅ = x) : copyStaged k snaps = .ok { snaps k with
      partner := { (snaps k).partner.addAndFit x with
        buf := DataSubset.unpackAt (snaps k).elmSize x.elems (x.packData (snaps (left k)).elmSize (snaps (left k)).buf)
          ((snaps k).partner.addAndFit x).buf } } := by
  have hlength : ¬x.elems.length < (x.packData (snaps (left k)).elmSize (snaps (left k)).buf).length := by
    unfold DataSubset.packData
    rw [List.length_map]
    exact Nat.lt_irrefl _
  unfold copyStaged
  dsimp only
  rw [hknown, hsent, if_neg hlength]

/-- What the left rank has staged goes into the copy, which has room for it. -/
theorem iprotect_holds (h : (snaps k).Holds k n extent count a leftover)
    (hleft : (snaps (left k)).Holds (left k) n extent count b leftover')
    (hknown : (snaps k).stagedSubsets.getD (left k) ∅ = b.staged) :
    UserMember.CopyFits snaps k ∧ ∃ s, iprotect snaps k = .ok s ∧ s.Holds k n extent count (a.store b) leftover ∧
      s.buf = (snaps k).buf := by
  obtain ⟨value, hcopy, hvalues⟩ := h.copy
  have hbelow : ∀ i ∈ b.staged.idxs, Below (snaps k).partner.elmMaxCount i := fun i hi =>
    h.copyMaxCount ▸ hleft.below i (Finset.mem_union_left _ hi)
  have hroom := hcopy.addAndFit_room hbelow
  have hsent : (snaps (left k)).stagedSubsets.getD (left k) ∅ = b.staged := getD_eq hleft.own.stagedSubset
  refine ⟨fun i hi => ?_, ?_⟩
  · rw [hknown] at hi ⊢
    rw [h.own.elmSize]
    exact hroom.room i (Finset.mem_union_left _ (DataSubset.mem_add.mpr (Or.inr hi)))
  · unfold iprotect
    rw [copyStaged_eq hknown hsent]
    refine ⟨_, rfl, ?_, rfl⟩
    have hown := UserMember.markProtected_has h.own
    refine ⟨hown, ?_, h.elmMaxCount, fun i hi => ?_, ⟨fun i c => if i ∈ b.staged.idxs then
      (snaps (left k)).buf.bytes (i * extent + c) else (snaps k).partner.buf.bytes (i * extent + c), ?_, ?_⟩, ?_⟩
    · change ((snaps k).stagedSubsets.map fun _ => ∅).length = n
      rw [List.length_map, h.ranks]
    · refine h.below i ?_
      rcases Finset.mem_union.mp hi with hi | hi
      · exact absurd hi (Finset.notMem_empty i)
      · exact Finset.mem_union.mpr (DataSubset.mem_add.mp hi).symm
    · change DataSnapshot.Has { (snaps k).partner.addAndFit b.staged with buf := _ } _ _
        (leftover + (a.copied + b.staged)) _ _
      rw [← DataSubset.add_assoc]
      refine ⟨hroom.cohortRank, hroom.stagedSubset, hroom.protectedSubset, hroom.elmSize, hroom.bounded,
        fun i hi => ?_, fun i _ c hc => ?_⟩
      · change _ ≤ (DataSubset.unpackAt _ _ _ _).size
        rw [unpackAt_size]
        exact hroom.room i hi
      · change (DataSubset.unpackAt _ b.staged.elems (b.staged.elems.map _) _).bytes (i * extent + c) = _
        rw [h.own.elmSize, unpackAt_map i hc, hleft.own.elmSize]
        refine if_congr (Finset.mem_sort _) rfl ?_
        rw [DataSnapshot.addAndFit_eq hcopy.cohortRank, DataBuffer.grow_eq]
    · intro i hi c hc
      change (if i ∈ b.staged.idxs then _ else _) = (if i ∈ b.staged.idxs then b.value i else a.copyValue i) c
      by_cases hin : i ∈ b.staged.idxs
      · rw [if_pos hin, if_pos hin]
        exact hleft.own.values i (Finset.mem_union_left _ hin) c hc
      · rw [if_neg hin, if_neg hin]
        have hold : i ∈ a.copied.idxs := (DataSubset.mem_add.mp hi).resolve_right hin
        exact (hcopy.values i (Finset.mem_union_left _ (DataSubset.mem_add.mpr (Or.inr hold))) c hc).trans
          (hvalues i hold c hc)
    · exact (DataSnapshot.addAndFit_elmMaxCount _ _).trans h.copyMaxCount

end BuddyMember

namespace UserMember

variable {n : Nat} {extent count rank size : Nat} {a : Account} {leftover : DataSubset}

/-- Whatever a rank knows of what the others have staged, it has its own. -/
theorem known_holds {s known : IMRSnapshot} (h : s.Holds rank size extent count a leftover)
    (hdata : known.toDataSnapshot = { s.toDataSnapshot with stagedSubsets := known.stagedSubsets })
    (hpartner : known.partner = s.partner) (hlength : known.stagedSubsets.length = size)
    (hown : known.stagedSubsets[rank]? = some a.staged) : known.Holds rank size extent count a leftover := by
  refine ⟨?_, hlength, ?_, h.below, hpartner ▸ h.copy, hpartner ▸ h.copyMaxCount⟩
  · rw [hdata]
    exact ⟨h.own.cohortRank, hown, h.own.protectedSubset, h.own.elmSize, h.own.bounded, h.own.room, h.own.values⟩
  · rw [hdata]
    exact h.elmMaxCount

section Store

variable {snaps : Fin n → IMRSnapshot} {accounts : Fin n → Account} {leftovers : Fin n → DataSubset}

/-- A store protects what is staged on every rank and has it copied by the rank at the right. -/
theorem protect_holds (h : ∀ k, (snaps k).Holds k n extent count (accounts k) (leftovers k))
    (hknown : ∀ k, (snaps k).stagedSubsets.getD (BuddyMember.left k) ∅ = (accounts (BuddyMember.left k)).staged) :
    ∃ stored, protect (.imr .buddy) snaps = .ok stored ∧ ∀ k,
      (stored k).Holds k n extent count ((accounts k).store (accounts (BuddyMember.left k))) (leftovers k) ∧
        (stored k).buf = (snaps k).buf := by
  have hall := fun k => BuddyMember.iprotect_holds (h k) (h (BuddyMember.left k)) (hknown k)
  choose hfits stored hstored hholds using hall
  refine ⟨stored, ?_, hholds⟩
  unfold protect
  dsimp only
  rw [if_pos hfits]
  refine Except.sequence_eq_ok_iff.mpr fun k => ?_
  rw [hstored k]
  rfl

/-- The ranks tell each other what they have staged. -/
theorem exchange_holds (h : ∀ k, (snaps k).Holds k n extent count (accounts k) (leftovers k)) (k : Fin n) :
    (exchange snaps k).Holds k n extent count (accounts k) (leftovers k) ∧
      (exchange snaps k).stagedSubsets.getD (BuddyMember.left k) ∅ = (accounts (BuddyMember.left k)).staged := by
  have hentry : ∀ i : Fin n, (exchange snaps k).stagedSubsets[i.val]? = some (accounts i).staged := by
    intro i
    change (List.ofFn fun i => (snaps i).stagedSubset.getD ∅)[i.val]? = _
    rw [List.getElem?_ofFn, dif_pos i.isLt]
    exact congrArg some (congrArg (Option.getD · ∅) (stagedSubset_eq (h i).own))
  exact ⟨known_holds (h k) rfl rfl List.length_ofFn (hentry k), BuddyMember.getD_eq (hentry _)⟩

/-- A rank takes all others to have staged what it has, which the left one has. -/
theorem spread_holds (h : ∀ k, (snaps k).Holds k n extent count (accounts k) (leftovers k)) (k : Fin n)
    (hsame : (accounts k).staged = (accounts (BuddyMember.left k)).staged) :
    (spread (snaps k)).Holds k n extent count (accounts k) (leftovers k) ∧
      (spread (snaps k)).stagedSubsets.getD (BuddyMember.left k) ∅ = (accounts (BuddyMember.left k)).staged := by
  have hentry : ∀ i : Fin n, (spread (snaps k)).stagedSubsets[i.val]? = some (accounts k).staged := by
    intro i
    change ((snaps k).stagedSubsets.map fun _ => (snaps k).stagedSubset.getD ∅)[i.val]? = _
    rw [List.getElem?_map, List.getElem?_eq_getElem ((h k).ranks.symm ▸ i.isLt), stagedSubset_eq (h k).own]
    rfl
  refine ⟨known_holds (h k) rfl rfl ?_ (hentry k), (BuddyMember.getD_eq (hentry _)).trans hsame⟩
  exact List.length_map _ |>.trans (h k).ranks

end Store

section Stage

variable {m m' f : UserMember} {memory : Nat → UInt8} {subset : Specifier}

/-- A stage adds what the subset names to the account, and leaves the copy alone. -/
theorem stage_holds (hc : m.Counted) (hm : m.member.stageSnapshot.Holds rank size m.datatype.extent m.count a leftover)
    (h : m.stage memory subset = .ok m') : m'.member.stageSnapshot.Holds rank size m.datatype.extent m.count
      (a.stage subset m.count (m.element memory)) leftover := by
  have hwhole : m.Whole subset := fun i _ hb => hm.elmMaxCount.symm ▸ hb
  obtain ⟨staged, hhas, hmem⟩ := stage_has hc hwhole hm.own hm.below h
  obtain ⟨len, _, hreach, _, _, _, _, rfl⟩ := stage_cases h
  have hadded : ∀ i, i ∈ (subset.upTo m.count).idxs ↔ i ∈ subset ∧ Below m.count i := by
    intro i
    by_cases hzero : m.count = 0
    · cases subset with
      | bounded s => exact DataSubset.mem_upTo.trans (and_congr (decide_eq_true_iff (p := i ∈ s.idxs)).symm Iff.rfl)
      | unbounded p =>
        change m.userData.size = some len at hreach
        rw [hc.2, hzero] at hreach
        cases hreach
    · exact (Specifier.mem_upTo hzero).trans (and_congr_right fun _ => (or_iff_right hzero).symm)
  have hstaged : staged = a.staged + subset.upTo m.count := by
    cases staged
    refine congrArg DataSubset.mk (Finset.ext fun i => ?_)
    exact (hmem i).trans ((or_congr_right (hadded i).symm).trans DataSubset.mem_add.symm)
  rw [hstaged] at hhas
  refine ⟨hhas, ?_, ?_, fun i hi => ?_, hm.copy, hm.copyMaxCount⟩
  · exact (DataSnapshot.addAndFit_length _ _).trans hm.ranks
  · exact (DataSnapshot.addAndFit_elmMaxCount _ _).trans hm.elmMaxCount
  · rcases Finset.mem_union.mp hi with hi | hi
    · rcases DataSubset.mem_add.mp hi with hi | hi
      · exact hm.below i (Finset.mem_union_left _ hi)
      · exact ((hadded i).mp hi).2
    · exact hm.below i (Finset.mem_union_right _ hi)

/-- Whether a member can stage depends on its buffer and that of the application, not on the bytes there. -/
theorem stage_accepted (hdata : f.userData = m.userData) (htype : f.datatype = m.datatype)
    (helm : f.member.stageSnapshot.elmSize = m.member.stageSnapshot.elmSize)
    (hsize : f.member.stageSnapshot.buf.size = m.member.stageSnapshot.buf.size) (h : m.stage memory subset = .ok m') :
    ∃ f', f.stage memory subset = .ok f' := by
  unfold stage at h ⊢
  dsimp only at h ⊢
  rw [hdata, htype, helm]
  split at h
  next => cases h
  next len hlen =>
    have hgrow : (f.member.stageSnapshot.buf.grow len).size = (m.member.stageSnapshot.buf.grow len).size := by
      rw [DataBuffer.grow_eq, DataBuffer.grow_eq, hsize]
    rw [hgrow]
    split at h
    next hfit => exact ⟨_, if_pos hfit⟩
    next => cases h

/-- The size that the buffer has after a stage depends on no bytes either. -/
theorem stage_size {m₁ f₁ : UserMember} {b : Account} {leftover' : DataSubset}
    (hm : m.member.stageSnapshot.Holds rank size extent count a leftover)
    (hf : f.member.stageSnapshot.Holds rank size extent count b leftover') (hstaged : b.staged = a.staged)
    (hdata : f.userData = m.userData) (htype : f.datatype = m.datatype)
    (hsize : f.member.stageSnapshot.buf.size = m.member.stageSnapshot.buf.size) (h : m.stage memory subset = .ok m₁)
    (h' : f.stage memory subset = .ok f₁) : f₁.member.stageSnapshot.buf.size = m₁.member.stageSnapshot.buf.size := by
  obtain ⟨len, _, hreach, rfl, _, _, _, rfl⟩ := stage_cases h
  obtain ⟨len', _, hreach', rfl, _, _, _, rfl⟩ := stage_cases h'
  rw [hdata, hf.own.elmSize, ← hm.own.elmSize, hreach] at hreach'
  cases Option.some.inj hreach'
  rw [hsize, htype]
  refine (DataSnapshot.addAndFit_size hf.own.cohortRank hf.own.stagedSubset _ _).trans
    (Eq.trans ?_ (DataSnapshot.addAndFit_size hm.own.cohortRank hm.own.stagedSubset _ _).symm)
  dsimp only
  rw [hf.elmMaxCount, hm.elmMaxCount, hf.own.elmSize, hm.own.elmSize, hstaged]

end Stage

end UserMember

end Fenix
