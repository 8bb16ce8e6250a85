import Fenix.UserMemberRun

namespace Fenix

/-- Why `stage_inplace` is refused: with a text of its own, or as any operation of a member is. -/
inductive InplaceError where
  | message (text : String)
  | member (reason : MemberError)
  deriving DecidableEq

/-- A buffer of the application is taken over for so many bytes. What is past them is what the next allocation happens
to hold. -/
def DataBuffer.takeOwnership (buf junk : Nat → UInt8) (size : Nat) : DataBuffer :=
  ⟨size, fun x => if x < size then buf x else junk x⟩

def Specifier.isBounded : Specifier → Bool
  | .bounded _ => true
  | .unbounded _ => false

/-- The elements that are taken over from a buffer for a member of `count` elements, none if it is resizeable. -/
def Specifier.takenCount (s : Specifier) (count : Nat) : Nat :=
  match s with
  | .bounded s => min count s.maxCount
  | .unbounded _ => count

theorem Staging.named_single {i j : Nat} {value : Nat → Nat → UInt8}
    (h : (Staging.none.add (.bounded ⟨{j}⟩) value).named i) : i = j :=
  Finset.mem_singleton.mp (of_decide_eq_true (h.resolve_left id))

theorem byte_ne_succ (x : UInt8) : x ≠ x + 1 := by grind

namespace UserMember

/-- The buffer takes the place of the one staged in, and the elements that the subset names are staged. -/
def takeOver (m : UserMember) (buf junk : Nat → UInt8) (count : Nat) (subset : Specifier) : UserMember :=
  let snap := m.member.stageSnapshot
  let taken := { snap.toDataSnapshot with buf := .takeOwnership buf junk (count * snap.elmSize) }
  { m with member := { m.member with stageSnapshot := { snap with toDataSnapshot := taken.addAndFit (subset.upTo count) } } }

/-- `stage_inplace`, the prestaged subset being none. -/
def stageInplace (m : UserMember) (buf junk : Nat → UInt8) : Option Specifier → Except InplaceError UserMember
  | none => .error (.message "Cannot stage SUBSET_PRESTAGED")
  | some subset =>
    if m.userData.size = none ∧ ¬subset.isBounded then
      .error (.message "Cannot stage_inplace unbounded subset to FENIX_RESIZEABLE member")
    else do
      let count ← m.elmCount.mapError .member
      let _ ← (intProduct (subset.takenCount count) m.member.stageSnapshot.elmSize).mapError .member
      return m.takeOver buf junk (subset.takenCount count) subset

/-- The value of an element in a buffer that is handed over. -/
def handed (m : UserMember) (buf : Nat → UInt8) (i b : Nat) : UInt8 := buf (i * m.datatype.extent + b)

/-- A buffer can take the place of what was staged before: the member is bounded, the snapshot being staged is made
for the subset, and what was named before besides it is in the part that is taken over, with its values. -/
structure CanHandOver (m : UserMember) (buf : Nat → UInt8) (subset : Specifier) (r : Staging) : Prop where
  bounded : ∀ i ∈ subset, 0 < m.count
  whole : ∀ i ∈ subset, Below m.count i → Below m.member.stageSnapshot.elmMaxCount i ∨
    i ∈ (m.member.stageSnapshot.protectedSubset.getD ∅).idxs
  earlier : ∀ i, r.named i → Below m.count i → i ∉ subset →
    i < subset.takenCount m.count ∧ ∀ b < m.datatype.extent, m.handed buf i b = r.value i b

/-- The bytes up to each element that is handed over, or has been named before, can be loaded. -/
structure AllLoadable (m : UserMember) (S : DataSubset) (r : Staging) : Prop where
  handed : ∀ i ∈ S.idxs, m.datatype.Loadable (i + 1)
  earlier : ∀ i, r.named i → Below m.count i → m.datatype.Loadable (i + 1)

variable {m m' : UserMember} {buf junk : Nat → UInt8} {subset : Specifier} {rank count i : Nat} {timestamp : Int}
  {r : Staging} {committed : List (Int × Staging)} {staged protectedBy : DataSubset} {value : Nat → Nat → UInt8}

theorem lt_takenCount (hi : i ∈ subset) (hlt : i < count) : i < subset.takenCount count := by
  cases subset with
  | bounded s => exact Nat.lt_min.mpr ⟨hlt, DataSubset.lt_maxCount (of_decide_eq_true hi)⟩
  | unbounded p => exact hlt

theorem takenCount_le (subset : Specifier) (count : Nat) : subset.takenCount count ≤ count := by
  cases subset with
  | bounded s => exact Nat.min_le_left _ _
  | unbounded p => exact Nat.le_refl _

/-- Adding what is past the bound of a snapshot changes nothing. -/
theorem addAndFit_upTo (s : DataSnapshot) (subset : DataSubset) :
    s.addAndFit (subset.upTo s.elmMaxCount) = s.addAndFit subset := by
  have hadd : (fun x => (x + subset.upTo s.elmMaxCount).upTo s.elmMaxCount) =
      fun x : DataSubset => (x + subset).upTo s.elmMaxCount := by
    funext x
    have hidxs : ((x + subset.upTo s.elmMaxCount).upTo s.elmMaxCount).idxs = ((x + subset).upTo s.elmMaxCount).idxs := by
      ext j
      rw [DataSubset.mem_upTo, DataSubset.mem_upTo, DataSubset.mem_add, DataSubset.mem_add, DataSubset.mem_upTo]
      tauto
    exact congrArg DataSubset.mk hidxs
  unfold DataSnapshot.addAndFit
  rw [hadd]

theorem mem_taken (hpos : i ∈ subset → 0 < count) :
    i ∈ (subset.upTo (subset.takenCount count)).idxs ↔ i ∈ subset ∧ i < count := by
  constructor
  · intro hi
    have hin := Specifier.mem_of_mem_upTo hi
    refine ⟨hin, Nat.lt_of_lt_of_le ?_ (takenCount_le subset count)⟩
    cases subset with
    | bounded s =>
      have hmax := DataSubset.lt_maxCount (of_decide_eq_true hin)
      have hne : min count s.maxCount ≠ 0 := by have := hpos hin; omega
      exact (DataSubset.mem_upTo.mp hi).2.resolve_left hne
    | unbounded p => exact List.mem_range.mp (Finset.mem_filter.mp hi).1
  · rintro ⟨hi, hlt⟩
    have hin := lt_takenCount hi hlt
    cases subset with
    | bounded s => exact DataSubset.mem_upTo.mpr ⟨of_decide_eq_true hi, Or.inr hin⟩
    | unbounded p => exact (Specifier.mem_upTo (by omega)).mpr ⟨hi, hin⟩

theorem stageInplace_ok (hc : m.Counted) (h : m.stageInplace buf junk (some subset) = .ok m') :
    m' = m.takeOver buf junk (subset.takenCount m.count) subset := by
  unfold stageInplace at h
  dsimp only at h
  split at h
  next => cases h
  next =>
    rw [elmCount_ok hc] at h
    obtain ⟨count, hcount, h⟩ := Except.bind_eq_ok_iff.mp h
    cases Except.ok.inj hcount
    obtain ⟨_, _, h⟩ := Except.bind_eq_ok_iff.mp h
    exact (Except.ok.inj h).symm

/-- What the snapshot has after a buffer was handed over that can take the place of the one before. -/
theorem takeOver_has (junk : Nat → UInt8) (hk : m.CanHandOver buf subset r)
    (hhas : m.member.stageSnapshot.Has rank m.datatype.extent staged protectedBy r.value)
    (hnamed : ∀ i, i ∈ staged.idxs ∪ protectedBy.idxs ↔ r.named i ∧ Below m.count i) :
    ∃ staged', (m.takeOver buf junk (subset.takenCount m.count) subset).member.stageSnapshot.Has rank
        m.datatype.extent staged' protectedBy (r.add subset (m.handed buf)).value ∧
      ∀ i, i ∈ staged'.idxs ∪ protectedBy.idxs ↔ (r.add subset (m.handed buf)).named i ∧ Below m.count i := by
  set count := subset.takenCount m.count with hcount
  set limit := m.member.stageSnapshot.elmMaxCount with hlimit
  have hprotected : m.member.stageSnapshot.protectedSubset.getD ∅ = protectedBy := by
    rw [protectedSubset_eq hhas]
    rfl
  have hwhole := hprotected ▸ hk.whole
  have hlt : ∀ i ∈ subset, Below m.count i → i < m.count := fun i hi hb =>
    hb.resolve_left (Nat.ne_of_gt (hk.bounded i hi))
  -- whatever is staged or protected afterwards is in the part that was taken over, with the value it should have
  have htaken : ∀ i, r.named i ∧ Below m.count i ∨ i ∈ subset ∧ i < m.count →
      i < count ∧ ∀ b < m.datatype.extent, m.handed buf i b = (r.add subset (m.handed buf)).value i b := by
    intro i hi
    by_cases hin : i ∈ subset
    · have hilt : i < m.count := hi.elim (fun h => hlt i hin h.2) And.right
      exact ⟨lt_takenCount hin hilt, fun b _ => congrFun (if_pos hin).symm b⟩
    · obtain ⟨hroom, hvalue⟩ := hk.earlier i (hi.resolve_right fun h => hin h.1).1
        (hi.resolve_right fun h => hin h.1).2 hin
      exact ⟨hroom, fun b hb => (hvalue b hb).trans (congrFun (if_neg hin).symm b)⟩
  have hall : ∀ i ∈ staged.idxs ∪ protectedBy.idxs, i < count ∧
      ∀ b < m.datatype.extent, m.handed buf i b = (r.add subset (m.handed buf)).value i b := fun i hi =>
    htaken i (Or.inl ((hnamed i).mp hi))
  have hsubset : ∀ i ∈ ((subset.upTo count).upTo limit).idxs, (i ∈ subset ∧ i < m.count) ∧ Below limit i := fun i hi =>
    (DataSubset.mem_upTo.mp hi).imp_left (mem_taken (hk.bounded i)).mp
  have hroom : ∀ i < count, (i + 1) * m.datatype.extent ≤ count * m.datatype.extent := fun i hi =>
    Nat.mul_le_mul_right _ hi
  have hbytes : ∀ i < count, ∀ b < m.datatype.extent,
      (DataBuffer.takeOwnership buf junk (count * m.datatype.extent)).bytes (i * m.datatype.extent + b) =
        m.handed buf i b := fun i hi b hb => if_pos (by
    have hle := hroom i hi
    rw [Nat.add_mul, Nat.one_mul] at hle
    omega)
  have hnew : DataSnapshot.Has { m.member.stageSnapshot.toDataSnapshot with
      buf := .takeOwnership buf junk (count * m.datatype.extent) } rank m.datatype.extent staged protectedBy
      (r.add subset (m.handed buf)).value :=
    ⟨hhas.cohortRank, hhas.stagedSubset, hhas.protectedSubset, hhas.elmSize, hhas.bounded,
      fun i hi => hroom i (hall i hi).1,
      fun i hi b hb => (hbytes i (hall i hi).1 b hb).trans ((hall i hi).2 b hb)⟩
  have hbelow : ∀ i ∈ ((subset.upTo count).upTo limit).idxs, Below limit i := fun i hi => (hsubset i hi).2
  have hfit := hnew.addAndFit hbelow
    (fun i hi => hroom i (htaken i (Or.inr (hsubset i hi).1)).1)
    fun i hi b hb => (hbytes i (htaken i (Or.inr (hsubset i hi).1)).1 b hb).trans
      ((htaken i (Or.inr (hsubset i hi).1)).2 b hb)
  refine ⟨staged + (subset.upTo count).upTo limit, ?_, fun i => ?_⟩
  · rw [addAndFit_upTo { m.member.stageSnapshot.toDataSnapshot with
      buf := DataBuffer.takeOwnership buf junk (count * m.datatype.extent) }] at hfit
    change DataSnapshot.Has (DataSnapshot.addAndFit { m.member.stageSnapshot.toDataSnapshot with
      buf := .takeOwnership buf junk (count * m.member.stageSnapshot.elmSize) } _) _ _ _ _ _
    rw [hhas.elmSize]
    exact hfit
  · change _ ↔ (r.named i ∨ i ∈ subset) ∧ Below m.count i
    have hi := hnamed i
    rw [Finset.mem_union] at hi ⊢
    rw [DataSubset.mem_add, DataSubset.mem_upTo, mem_taken (hk.bounded i), or_and_right, ← hi]
    have hin : i ∈ subset ∧ Below m.count i ↔ i ∈ subset ∧ i < m.count :=
      and_congr_right fun h => ⟨hlt i h, Or.inr⟩
    have hw : i ∈ subset → i < m.count → Below limit i ∨ i ∈ protectedBy.idxs := fun h hl => hwhole i h (Or.inr hl)
    rw [hin]
    constructor
    · rintro ((hs | ⟨hnew, _⟩) | hp)
      · exact Or.inl (Or.inl hs)
      · exact Or.inr hnew
      · exact Or.inl (Or.inr hp)
    · rintro ((hs | hp) | hnew)
      · exact Or.inl (Or.inl hs)
      · exact Or.inr hp
      · exact (hw hnew.1 hnew.2).imp (fun hb => Or.inr ⟨hnew, hb⟩) id

/-- A buffer that can take the place of the one before hands over the elements that the subset names. -/
theorem takeOver_tracks (junk : Nat → UInt8) (h : m.Tracks rank timestamp r committed) (hk : m.CanHandOver buf subset r) :
    (m.takeOver buf junk (subset.takenCount m.count) subset).Tracks rank timestamp (r.add subset (m.handed buf))
      committed := by
  obtain ⟨staged, protectedBy, hhas, hnamed⟩ := h.staging
  obtain ⟨staged', hhas', hnamed'⟩ := takeOver_has junk hk hhas hnamed
  exact ⟨h.counted, ⟨staged', protectedBy, hhas', hnamed'⟩, h.avail, h.kept, h.ordered⟩

/-- The snapshot of a timestamp loads with the elements of a buffer that was handed over for a subset, and with what
was named before besides it as it was, unless it is not there. -/
def LoadsHanded (m : UserMember) (timestamp : Int) (buf : Nat → UInt8) (subset : Specifier) (r : Staging) : Prop :=
  ∀ (memory : Nat → UInt8) (target : Option Nat) (count : Nat), m.datatype.Loadable count → ∃ loaded,
    m.load memory target (some count) timestamp = .ok loaded ∧
    (∀ i ∈ subset, Below m.count i → i ∈ loaded.found.idxs ∧ (i < count → ∀ b < m.datatype.extent,
      loaded.memory (target.getD m.userData.data + (i * m.datatype.extent + b)) = m.handed buf i b)) ∧
    ∀ i, r.named i → i ∉ subset → i ∈ loaded.found.idxs → i < count → ∀ b < m.datatype.extent,
      loaded.memory (target.getD m.userData.data + (i * m.datatype.extent + b)) = r.value i b

theorem Restores.loadsHanded (h : m.Restores timestamp ((r.add subset (m.handed buf)).within m.count)) :
    m.LoadsHanded timestamp buf subset r := by
  intro memory target count hrange
  obtain ⟨loaded, hload, hfound, hvalues, _⟩ := h memory target count hrange
  refine ⟨loaded, hload, fun i hi hb => ?_, fun i hi hout hin hlt b hb => ?_⟩
  · have hnamed : ((r.add subset (m.handed buf)).within m.count).named i := ⟨Or.inr hi, hb⟩
    exact ⟨(hfound i).mpr hnamed, fun hlt b hb => (hvalues i hnamed hlt b hb).trans (congrFun (if_pos hi) b)⟩
  · exact (hvalues i ((hfound i).mp hin) hlt b hb).trans (congrFun (if_neg hout) b)

/-- What a load finds is a committed snapshot, and each byte is one of its buffer or was there before. -/
theorem load_bytes {memory : Nat → UInt8} {loaded : Loaded} (h : m.load memory (some 0) (some count) timestamp = .ok loaded) :
    ∃ s, m.member.findSnapshot timestamp = .ok s ∧ loaded.found = s.protectedSubset.getD ∅ ∧
      ∀ x, loaded.memory x = memory x ∨ loaded.memory x = s.buf.bytes x := by
  obtain ⟨_, _, h⟩ := Except.bind_eq_ok_iff.mp h
  obtain ⟨s, hs, h⟩ := Except.bind_eq_ok_iff.mp h
  obtain ⟨bytes, hbytes, h⟩ := Except.bind_eq_ok_iff.mp h
  cases Except.ok.inj h
  refine ⟨s, ?_, rfl, fun x => ?_⟩
  · cases hfind : m.member.findSnapshot timestamp with
    | error e =>
      rw [hfind] at hs
      cases hs
    | ok t =>
      rw [hfind] at hs
      exact congrArg Except.ok (Except.ok.inj hs)
  · unfold unload at hbytes
    dsimp only at hbytes
    split at hbytes
    next =>
      cases Except.ok.inj hbytes
      exact Or.inl rfl
    next =>
      split at hbytes
      next =>
        cases Except.ok.inj hbytes
        dsimp only [Option.getD_some]
        rw [if_pos (Nat.zero_le x), copyData_apply, Nat.zero_add, Nat.sub_zero]
        split
        next => exact Or.inr rfl
        next => exact Or.inl rfl
      next => cases hbytes

theorem AllLoadable.taken {S : DataSubset} (h : m.AllLoadable S r) (count : Nat) :
    (Specifier.bounded S).takenCount count * m.datatype.extent ≤ 2147483647 := by
  refine Nat.le_trans (Nat.mul_le_mul_right _ (Nat.min_le_right _ _)) ?_
  rcases S.idxs.eq_empty_or_nonempty with hempty | hne
  · unfold DataSubset.maxCount
    rw [hempty, Finset.sup_empty]
    exact Nat.le_trans (Nat.le_of_eq (Nat.zero_mul _)) (Nat.zero_le _)
  · obtain ⟨i, hi, heq⟩ := Finset.exists_mem_eq_sup S.idxs hne (· + 1)
    unfold DataSubset.maxCount
    rw [heq]
    exact (h.handed i hi).2

theorem stageInplace_bounded (hc : m.Counted) (S : DataSubset) (buf junk : Nat → UInt8)
    (hrange : (Specifier.bounded S).takenCount m.count * m.member.stageSnapshot.elmSize ≤ 2147483647) :
    m.stageInplace buf junk (some (.bounded S)) =
      .ok (m.takeOver buf junk ((Specifier.bounded S).takenCount m.count) (.bounded S)) := by
  unfold stageInplace
  dsimp only
  rw [if_neg (fun h => h.2 rfl), elmCount_ok hc]
  change ((intProduct _ _).mapError _ >>= fun _ => _) = _
  rw [intProduct_ok hrange]
  rfl

theorem takeOver_fits (hsize : m.member.stageSnapshot.elmSize = m.datatype.extent) :
    (m.takeOver buf junk count subset).member.stageSnapshot.buf.size % m.datatype.extent = 0 := by
  rw [← hsize]
  change (DataSnapshot.addAndFit _ _).buf.size % _ = 0
  unfold DataSnapshot.addAndFit
  split
  next => exact Nat.mul_mod_left _ _
  next =>
    dsimp only
    split <;> split <;> exact Nat.mul_mod_left _ _

/-- A member with nothing left to store is committed. -/
theorem commit_stored (rank size : Nat) (hc : m.Counted)
    (hempty : m.member.stageSnapshot.stagedSubset = some ∅) (timestamp : Int) (junk partnerJunk : Nat → UInt8) :
    ∃ m', m.commit rank size timestamp junk partnerJunk = .ok m' := by
  have hunstored : m.member.hasUnstoredData = false := decide_eq_false fun h => h hempty
  unfold commit DataMember.commit
  rw [hunstored, elmCount_ok hc]
  dsimp only
  rw [if_neg Bool.false_ne_true, if_pos hempty]
  exact ⟨_, rfl⟩

/-- What a local store makes of a snapshot that a buffer was handed over to, however much of it is there. -/
theorem stored_taken (hhas : m.member.stageSnapshot.Has rank m.datatype.extent staged protectedBy value)
    {s : IMRSnapshot} (hs : s = (spread (m.takeOver buf junk count subset).member.stageSnapshot).markProtected) :
    s.stagedSubset = some ∅ ∧ s.protectedSubset = some (protectedBy + (staged + subset.upTo count).upTo
      m.member.stageSnapshot.elmMaxCount) ∧ s.elmSize = m.datatype.extent ∧
      s.buf.bytes = (DataBuffer.takeOwnership buf junk (count * m.datatype.extent)).bytes := by
  rw [← hhas.elmSize]
  have htake : (m.takeOver buf junk count subset).member.stageSnapshot.toDataSnapshot = _ :=
    (DataSnapshot.addAndFit_eq (s := { m.member.stageSnapshot.toDataSnapshot with
      buf := .takeOwnership buf junk (count * m.member.stageSnapshot.elmSize) }) hhas.cohortRank (subset.upTo count))
  have hown := List.getElem?_modify_eq (fun x => (x + subset.upTo count).upTo m.member.stageSnapshot.elmMaxCount) rank
    m.member.stageSnapshot.stagedSubsets
  rw [hhas.stagedSubset] at hown
  generalize (m.takeOver buf junk count subset).member.stageSnapshot = t at hs htake
  have hrank : t.cohortRank = some rank := by rw [htake]; exact hhas.cohortRank
  have hstaged : t.stagedSubsets[rank]? = some ((staged + subset.upTo count).upTo m.member.stageSnapshot.elmMaxCount) := by
    rw [htake]
    exact hown
  have hprotected : t.protectedSubsets[rank]? = some protectedBy := by
    rw [htake]
    exact hhas.protectedSubset
  have hbytes : t.buf.bytes = (DataBuffer.takeOwnership buf junk (count * m.member.stageSnapshot.elmSize)).bytes := by
    rw [htake, DataBuffer.grow_eq]
  have hsubset : t.stagedSubset.getD ∅ = (staged + subset.upTo count).upTo m.member.stageSnapshot.elmMaxCount := by
    unfold DataSnapshot.stagedSubset
    rw [hrank, Option.bind_some, hstaged]
    rfl
  subst hs
  unfold DataSnapshot.stagedSubset DataSnapshot.protectedSubset
  change (t.cohortRank.bind fun rank => ((t.stagedSubsets.map _).map fun _ => ∅)[rank]?) = _ ∧
    (t.cohortRank.bind fun rank => (List.zipWith (· + ·) t.protectedSubsets (t.stagedSubsets.map _))[rank]?) = _ ∧
    t.elmSize = _ ∧ t.buf.bytes = _
  rw [hrank, Option.bind_some, Option.bind_some, List.getElem?_map, List.getElem?_zipWith, List.getElem?_map, hstaged,
    hprotected, hsubset]
  exact ⟨rfl, rfl, by rw [htake], hbytes⟩

end UserMember

namespace MemberRun

variable {n : Nat} {policy : DataPolicy} {timestart : Int} {depth : Nat} {c : MemberRun n} {k : Fin n}
  {buf : Nat → UInt8} {S staged protectedBy : DataSubset} {value : Nat → Nat → UInt8}

/-- The runs of sound actions and of buffers handed over that can take the place of what was staged before. -/
inductive InplaceReachable (policy : DataPolicy) (timestart : Int) (depth : Nat) : MemberRun n → Prop
  | create (data count : Fin n → Nat) (dtype : Fin n → Datatype) (junk : Fin n → Nat → Nat → UInt8)
      (hpos : ∀ k, 0 < (dtype k).extent) (hrange : ∀ k, (dtype k).Countable (count k)) :
      InplaceReachable policy timestart depth (start policy depth data count dtype junk)
  | step {c c' : MemberRun n} {a : MemberAction n} (hr : InplaceReachable policy timestart depth c)
      (hm : c.Sound a) (h : c.step policy timestart a = .ok c') : InplaceReachable policy timestart depth c'
  | inplace {c : MemberRun n} {m : UserMember} (k : Fin n) (buf junk : Nat → UInt8) (subset : Specifier)
      (hr : InplaceReachable policy timestart depth c) (hm : (c.members k).CanHandOver buf subset (c.staging k))
      (h : (c.members k).stageInplace buf junk (some subset) = .ok m) :
      InplaceReachable policy timestart depth { c.setMember k m with
        staging := Function.update c.staging k ((c.staging k).add subset ((c.members k).handed buf)) }

/-- A buffer is handed over for a subset, which is stored with any policy and committed: the elements of the subset
load with the values in the buffer, and what was staged before for the same snapshot with the values of then. -/
def HandsOver (c : MemberRun n) (timestart : Int) (k : Fin n) (buf : Nat → UInt8) (S : DataSubset) : Prop :=
  ∀ junk, ∃ m, (c.members k).stageInplace buf junk (some (.bounded S)) = .ok m ∧
    ∀ policy varying memory subsets ms, subsets k = none →
      UserMember.store policy varying (Function.update c.members k m) memory subsets = .ok ms →
      ∀ commitJunk partnerJunk m',
        (ms k).commit k n (nextTimestamp timestart (c.timestamps k)) commitJunk partnerJunk = .ok m' →
        m'.LoadsHanded (nextTimestamp timestart (c.timestamps k)) buf (.bounded S) (c.staging k)

theorem inplaceReachable_tracked (hstart : 0 ≤ timestart) (hr : InplaceReachable policy timestart depth c) :
    c.Tracked := by
  induction hr with
  | create data count dtype junk hpos _ =>
    exact fun k => ⟨Int.le_refl _, UserMember.create_tracks (junk k) (hpos k) k.isLt⟩
  | step hr hm h ih => exact step_tracked hstart ih hm h
  | inplace k buf junk subset hr hm h ih =>
    rename_i c m
    intro j
    refine ⟨(ih j).1, ?_⟩
    change UserMember.Tracks (Function.update c.members k m j) _ _ (Function.update c.staging k _ j) _
    by_cases hj : j = k
    · subst hj
      rw [Function.update_self, Function.update_self, UserMember.stageInplace_ok (ih j).2.counted h]
      exact UserMember.takeOver_tracks _ (ih j).2 hm
    · rw [Function.update_of_ne hj, Function.update_of_ne hj]
      exact (ih j).2

theorem handsOver_of_canHandOver (hstart : 0 ≤ timestart) (h : c.Tracked)
    (hrange : (c.members k).AllLoadable S (c.staging k))
    (hk : (c.members k).CanHandOver buf (.bounded S) (c.staging k)) : c.HandsOver timestart k buf S := by
  intro junk
  obtain ⟨hlo, htracks⟩ := h k
  obtain ⟨hlt, hpos⟩ := lt_nextTimestamp hstart hlo
  obtain ⟨_, _, hhas, _⟩ := htracks.staging
  have htaken := hrange.taken (c.members k).count
  rw [← hhas.elmSize] at htaken
  refine ⟨_, UserMember.stageInplace_bounded htracks.counted S buf junk htaken, ?_⟩
  intro policy varying memory subsets ms hnone hstore commitJunk partnerJunk m' hcommit
  set m := (c.members k).takeOver buf junk ((Specifier.bounded S).takenCount (c.members k).count) (.bounded S) with hm
  have hmtracks := UserMember.takeOver_tracks junk htracks hk
  rw [← hm] at hmtracks
  obtain ⟨_, _, hmhas, _⟩ := hmtracks.staging
  obtain ⟨mid, hmid, hstored⟩ := UserMember.store_cases hstore
  obtain ⟨s, hs, _, hfits, hprotect⟩ := hstored k
  have hmidk : mid k = m := by
    rcases hmid k with ⟨_, heq⟩ | ⟨t, hsome, _⟩
    · rw [heq, Function.update_self]
    · rw [hnone] at hsome
      cases hsome
  rw [hmidk] at hs hfits hprotect
  rw [hs] at hcommit
  have hstoredTracks := UserMember.protect_tracks hmtracks hprotect
  have hbuf := hfits (hmhas.elmSize ▸ UserMember.takeOver_fits hhas.elmSize)
  rw [hmhas.elmSize] at hbuf
  have hcommitted := UserMember.commit_tracks hstoredTracks k.isLt hlt hpos hbuf hcommit
  obtain ⟨_, _, _, rfl⟩ := UserMember.commit_ok hcommit
  exact (hcommitted.restores List.mem_cons_self).loadsHanded

/-- What a load gives after a local store and a commit, where both the memory before and the next allocation happen
to hold a byte throughout. -/
theorem HandsOver.loads (hstart : 0 ≤ timestart) (h : c.Tracked) (hrange : (c.members k).AllLoadable S (c.staging k))
    (hh : c.HandsOver timestart k buf S)
    (hhas : (c.members k).member.stageSnapshot.Has k (c.members k).datatype.extent staged protectedBy value)
    (fill : UInt8) (count : Nat) (hcount : (c.members k).datatype.Loadable count) : ∃ loaded : UserMember.Loaded,
      loaded.found = protectedBy + (staged + (Specifier.bounded S).upTo
        ((Specifier.bounded S).takenCount (c.members k).count)).upTo (c.members k).member.stageSnapshot.elmMaxCount ∧
      (∀ x, loaded.memory x ≠ fill → x < (Specifier.bounded S).takenCount (c.members k).count *
        (c.members k).datatype.extent ∧ loaded.memory x = buf x) ∧
      (∀ i ∈ S.idxs, Below (c.members k).count i → i ∈ loaded.found.idxs ∧ (i < count →
        ∀ b < (c.members k).datatype.extent, loaded.memory (i * (c.members k).datatype.extent + b) =
          (c.members k).handed buf i b)) ∧
      ∀ i, (c.staging k).named i → i ∉ S.idxs → i ∈ loaded.found.idxs → i < count →
        ∀ b < (c.members k).datatype.extent, loaded.memory (i * (c.members k).datatype.extent + b) =
          (c.staging k).value i b := by
  obtain ⟨hlo, htracks⟩ := h k
  obtain ⟨hlt, hpos⟩ := lt_nextTimestamp hstart hlo
  obtain ⟨m, hm, hh⟩ := hh fun _ => fill
  have htaken := hrange.taken (c.members k).count
  rw [← hhas.elmSize] at htaken
  cases Except.ok.inj ((UserMember.stageInplace_bounded htracks.counted S buf _ htaken).symm.trans hm)
  set m := (c.members k).takeOver buf (fun _ => fill) ((Specifier.bounded S).takenCount (c.members k).count) (.bounded S)
    with hmdef
  set s := (UserMember.spread m.member.stageSnapshot).markProtected with hs
  obtain ⟨hempty, hprotected, hsize, hbytes⟩ := UserMember.stored_taken hhas hs
  -- the local store and the commit are accepted
  have hstore : UserMember.store .localOnly false (Function.update c.members k m) (fun _ _ => 0) (fun _ => none) =
      .ok fun j => { Function.update c.members k m j with member := { (Function.update c.members k m j).member with
        stageSnapshot := (UserMember.spread (Function.update c.members k m j).member.stageSnapshot).markProtected } } := by
    have hstage : UserMember.stageAll (Function.update c.members k m) (fun _ _ => 0) (fun _ => none) = .ok _ :=
      Except.sequence_eq_ok_iff.mpr fun _ => rfl
    unfold UserMember.store
    rw [hstage]
    rfl
  have hload := hh .localOnly false _ _ _ rfl hstore (fun _ => 0) (fun _ => 0)
  dsimp only at hload
  rw [Function.update_self] at hload
  obtain ⟨m', hcommit⟩ := UserMember.commit_stored (m := { m with member := { m.member with stageSnapshot := s } })
    k n htracks.counted hempty (nextTimestamp timestart (c.timestamps k)) (fun _ => 0) fun _ => 0
  obtain ⟨loaded, hl, hsubset, hearlier⟩ := hload m' hcommit (fun _ => fill) (some 0) count (by
    obtain ⟨_, _, _, rfl⟩ := UserMember.commit_ok hcommit
    exact hcount)
  obtain ⟨t, hfind, hfound, hx⟩ := UserMember.load_bytes hl
  obtain ⟨_, member, hc, rfl⟩ := UserMember.commit_ok hcommit
  obtain ⟨holder, hlen⟩ := htracks.older
  obtain ⟨_, _, hentries, _⟩ := DataMember.commit_cases hc k.isLt
    (fun s hs => Int.lt_of_le_of_lt (holder s hs).1 hlt) hlen (rfl : _ = (c.members k).datatype.extent)
    (fun s hs => (holder s hs).2) hsize htracks.avail
  have hmem : ({ s with timestamp := nextTimestamp timestart (c.timestamps k) } : IMRSnapshot) ∈ member.commitSnapshots := by
    rw [IndexedSet.mem_def, ← List.mem_reverse, hentries, List.take_succ_cons]
    exact List.mem_cons_self
  have ht := (UserMember.findSnapshot_of_mem hmem hpos).symm.trans hfind
  cases Except.ok.inj ht
  refine ⟨loaded, ?_, fun x hne => ?_, fun i hi hb => ?_, fun i hi hout hin hlt b hb => ?_⟩
  · rw [hfound]
    exact congrArg (Option.getD · ∅) hprotected
  · have hbyte := (hx x).resolve_left hne
    change _ = s.buf.bytes x at hbyte
    rw [hbytes] at hbyte
    unfold DataBuffer.takeOwnership at hbyte
    dsimp only at hbyte
    split at hbyte
    next hin => exact ⟨hin, hbyte⟩
    next => exact absurd hbyte hne
  · obtain ⟨hin, hvalue⟩ := hsubset i (decide_eq_true hi) hb
    refine ⟨hin, fun hlt b hb => ?_⟩
    have := hvalue hlt b hb
    rw [Option.getD_some, Nat.zero_add] at this
    exact this
  · have := hearlier i hi (fun h => hout (of_decide_eq_true h)) hin hlt b hb
    rw [Option.getD_some, Nat.zero_add] at this
    exact this

theorem canHandOver_of_handsOver (hstart : 0 ≤ timestart) (h : c.Tracked)
    (hrange : (c.members k).AllLoadable S (c.staging k)) (hh : c.HandsOver timestart k buf S) :
    (c.members k).CanHandOver buf (.bounded S) (c.staging k) := by
  obtain ⟨staged, protectedBy, hhas, hnamed⟩ := (h k).2.staging
  have hpos := (h k).2.counted.1
  have hfound : ∀ i, i ∈ (protectedBy + (staged + (Specifier.bounded S).upTo ((Specifier.bounded S).takenCount
      (c.members k).count)).upTo (c.members k).member.stageSnapshot.elmMaxCount).idxs ↔ i ∈ protectedBy.idxs ∨
      (i ∈ staged.idxs ∨ i ∈ ((Specifier.bounded S).upTo ((Specifier.bounded S).takenCount (c.members k).count)).idxs) ∧
      Below (c.members k).member.stageSnapshot.elmMaxCount i := fun i => by
    rw [DataSubset.mem_add, DataSubset.mem_upTo, DataSubset.mem_add]
  have hin : ∀ {i}, i ∈ Specifier.bounded S → i ∈ S.idxs := fun h => of_decide_eq_true h
  refine ⟨fun i hi => ?_, fun i hi hb => ?_, fun i hi hb hout => ?_⟩
  · by_contra hzero
    have hcount : (c.members k).count = 0 := by omega
    obtain ⟨loaded, _, hbyte, hsubset, _⟩ := hh.loads hstart h hrange hhas ((c.members k).handed buf i 0 + 1) (i + 1)
      (hrange.handed i (hin hi))
    have hvalue := (hsubset i (hin hi) (Or.inl hcount)).2 (Nat.lt_succ_self i) 0 hpos
    have hroom := (hbyte _ (by rw [hvalue]; exact byte_ne_succ _)).1
    have hle := UserMember.takenCount_le (.bounded S) (c.members k).count
    have hnone : (Specifier.bounded S).takenCount (c.members k).count = 0 := by omega
    rw [hnone] at hroom
    omega
  · obtain ⟨loaded, hf, _, hsubset, _⟩ := hh.loads hstart h hrange hhas 0 0
      ⟨by decide, (Nat.zero_mul _).trans_le (Nat.zero_le _)⟩
    have hload := (hsubset i (hin hi) hb).1
    rw [hf, hfound] at hload
    have hp := UserMember.protectedSubset_eq hhas
    rw [hp]
    exact hload.symm.imp_left And.right
  · have hb' := hb
    have hload : i ∈ staged.idxs ∪ protectedBy.idxs := (hnamed i).mpr ⟨hi, hb⟩
    have hall : ∀ b < (c.members k).datatype.extent, i < (Specifier.bounded S).takenCount (c.members k).count ∧
        (c.members k).handed buf i b = (c.staging k).value i b := fun b hb => by
      obtain ⟨loaded, hf, hbyte, _, hearlier⟩ := hh.loads hstart h hrange hhas ((c.staging k).value i b + 1) (i + 1)
        (hrange.earlier i hi hb')
      have hvalue := hearlier i hi (fun h => hout (decide_eq_true h)) (by
        rw [hf, hfound]
        rcases Finset.mem_union.mp hload with hs | hp
        · exact Or.inr ⟨Or.inl hs, hhas.bounded i hs⟩
        · exact Or.inl hp) (Nat.lt_succ_self i) b hb
      obtain ⟨hroom, hbuf⟩ := hbyte _ (by rw [hvalue]; exact byte_ne_succ _)
      refine ⟨?_, hbuf.symm.trans hvalue⟩
      by_contra hge
      have := Nat.mul_le_mul_right (c.members k).datatype.extent (Nat.le_of_not_lt hge)
      omega
    exact ⟨(hall 0 hpos).1, fun b hb => (hall b hb).2⟩

/-- A buffer that is handed over loads as it should, with what was staged before it, just if it can take the place of
that. -/
theorem handsOver_iff (hstart : 0 ≤ timestart) (hr : InplaceReachable policy timestart depth c)
    (hrange : (c.members k).AllLoadable S (c.staging k)) :
    c.HandsOver timestart k buf S ↔ (c.members k).CanHandOver buf (.bounded S) (c.staging k) :=
  ⟨canHandOver_of_handsOver hstart (inplaceReachable_tracked hstart hr) hrange,
    handsOver_of_canHandOver hstart (inplaceReachable_tracked hstart hr) hrange⟩

/-- A new member of bytes. -/
def bytes (count : Nat) : MemberRun 1 :=
  start .localOnly 0 (fun _ => 0) (fun _ => count) (fun _ => ⟨1, 1⟩) fun _ _ _ => 0

theorem bytes_whole (count : Nat) (subset : Specifier) : ((bytes count).members 0).Whole subset := by
  have hcount : ((bytes count).members 0).count = count := UserMember.count_userBytes Nat.one_pos rfl
  intro i _ hb
  rw [hcount] at hb
  exact hb

theorem bytes_reachable {count : Nat} (h : count ≤ 2147483647) : InplaceReachable .localOnly 0 0 (bytes count) :=
  .create _ _ _ _ (fun _ => Nat.one_pos) fun _ => bytes_countable h

/-- The buffer has what was staged before in its place. -/
theorem handsOver_iff_kept : ∃ c : MemberRun 1, c.HandsOver 0 0 (fun _ => 7) ⟨{1, 2}⟩ := by
  have hstage := (@bytes_reachable 3 (by decide)).step (a := .stage 0 (fun _ => 7) (.bounded ⟨{0}⟩))
    (bytes_whole 3 _) rfl
  have hrange : ∀ i ∈ ({1, 2} : Finset Nat), (Datatype.mk 1 1).Loadable (i + 1) := fun i hi =>
    bytes_loadable (Nat.lt_of_le_of_lt (DataSubset.lt_maxCount hi) (by decide))
  refine ⟨_, (handsOver_iff (Int.le_refl 0) hstage ⟨hrange, fun i hi _ => ?_⟩).mpr ⟨fun i _ => by decide,
    fun i hi hb => Or.inl (bytes_whole 3 _ i hi hb), fun i hi _ hout => ?_⟩⟩
  · cases Staging.named_single hi
    exact bytes_loadable (by decide)
  · cases Staging.named_single hi
    exact ⟨by decide, fun b _ => rfl⟩

/-- What is handed over to a resizeable member is lost, as is what a bounded one has staged before. -/
theorem inplace_loses :
    (∃ c : MemberRun 1, InplaceReachable .localOnly 0 0 c ∧ ¬c.HandsOver 0 0 (fun _ => 7) ⟨{0}⟩) ∧
    ∃ c : MemberRun 1, InplaceReachable .localOnly 0 0 c ∧ 0 < (c.members 0).count ∧
      ¬c.HandsOver 0 0 (fun _ => 7) ⟨{0}⟩ := by
  have htracked {c : MemberRun 1} (hr : InplaceReachable .localOnly 0 0 c) : c.Tracked :=
    inplaceReachable_tracked (Int.le_refl 0) hr
  have hfirst : ∀ i ∈ ({0} : Finset Nat), (Datatype.mk 1 1).Loadable (i + 1) := fun i hi => by
    rw [Finset.mem_singleton.mp hi]
    exact bytes_loadable (by decide)
  constructor
  · have hnew := @bytes_reachable 0 (by decide)
    refine ⟨_, hnew, fun h => ?_⟩
    have hpos := (canHandOver_of_handsOver (Int.le_refl 0) (htracked hnew)
      ⟨hfirst, fun i hi => hi.elim⟩ h).bounded 0 (by decide)
    exact absurd hpos (by decide)
  · have hstage := (@bytes_reachable 2 (by decide)).step (a := .stage 0 (fun _ => 8) (.bounded ⟨{1}⟩))
      (bytes_whole 2 _) rfl
    refine ⟨_, hstage, by decide, fun h => ?_⟩
    have hroom := ((canHandOver_of_handsOver (Int.le_refl 0) (htracked hstage) ⟨hfirst, fun i hi _ => by
      cases Staging.named_single hi
      exact bytes_loadable (by decide)⟩ h).earlier 1 (Or.inr (by decide)) (Or.inr (by decide)) (by decide)).1
    exact absurd hroom (by decide)

end MemberRun

end Fenix
