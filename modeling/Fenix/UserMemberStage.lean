import Fenix.ParityProtect
import Fenix.UserMember

namespace Fenix

/-- An index of a member of `count` elements, of any if that is zero. -/
def Below (count i : Nat) : Prop := count = 0 ∨ i < count

section Copies

variable {elmSize : Nat} {src dst : Nat → UInt8}

/-- The bytes of an element are its own. -/
theorem element_eq_iff {i j b : Nat} (hb : b < elmSize) :
    (i * elmSize ≤ j * elmSize + b ∧ j * elmSize + b < i * elmSize + elmSize) ↔ i = j := by
  constructor
  · rintro ⟨hlo, hhi⟩
    rcases Nat.lt_trichotomy i j with h | h | h
    · have hmul := Nat.mul_le_mul_right elmSize (Nat.succ_le_of_lt h)
      rw [Nat.succ_mul] at hmul
      omega
    · exact h
    · have hmul := Nat.mul_le_mul_right elmSize (Nat.succ_le_of_lt h)
      rw [Nat.succ_mul] at hmul
      omega
  · rintro rfl
    omega

theorem foldl_element {is : List Nat} (x : Nat) : is.foldl (Serializer.element elmSize src) dst x =
    if ∃ i ∈ is, i * elmSize ≤ x ∧ x < i * elmSize + elmSize then src x else dst x := by
  induction is generalizing dst with
  | nil => simp
  | cons i is ih =>
    rw [List.foldl_cons, ih]
    unfold Serializer.element
    by_cases htail : ∃ j ∈ is, j * elmSize ≤ x ∧ x < j * elmSize + elmSize
    · obtain ⟨j, hj, hx⟩ := htail
      rw [if_pos ⟨j, hj, hx⟩, if_pos ⟨j, List.mem_cons_of_mem i hj, hx⟩]
    · rw [if_neg htail]
      simp only [List.exists_mem_cons_iff, htail, or_false]

theorem copyData_apply (s : DataSubset) (x : Nat) : Serializer.copyData s elmSize src dst x =
    if ∃ i ∈ s.idxs, i * elmSize ≤ x ∧ x < i * elmSize + elmSize then src x else dst x := by
  unfold Serializer.copyData DataSubset.elems
  rw [foldl_element]
  simp only [Finset.mem_sort]

/-- An element is copied if it is in the subset, else it is left as it was. -/
theorem copyData_element (s : DataSubset) (j : Nat) {b : Nat} (hb : b < elmSize) :
    Serializer.copyData s elmSize src dst (j * elmSize + b) =
      if j ∈ s.idxs then src (j * elmSize + b) else dst (j * elmSize + b) := by
  rw [copyData_apply]
  refine if_congr ?_ rfl rfl
  simp only [element_eq_iff hb, exists_eq_right]

end Copies

section Bounds

theorem DataSubset.mem_upTo {s : DataSubset} {n i : Nat} : i ∈ (s.upTo n).idxs ↔ i ∈ s.idxs ∧ Below n i := by
  unfold upTo Below
  split
  next h => simp [h]
  next h =>
    unfold bound
    rw [Finset.mem_filter]
    refine and_congr_right fun _ => ?_
    omega

theorem DataSubset.lt_maxCount {s : DataSubset} {i : Nat} (h : i ∈ s.idxs) : i < s.maxCount :=
  Nat.lt_of_succ_le (Finset.le_sup (f := fun i => i + 1) h)

theorem Specifier.mem_upTo {s : Specifier} {n i : Nat} (hn : n ≠ 0) :
    i ∈ (s.upTo n).idxs ↔ i ∈ s ∧ i < n := by
  cases s with
  | bounded s =>
    refine DataSubset.mem_upTo.trans (and_congr (by simp [Membership.mem, includes]) ?_)
    exact ⟨fun h => h.resolve_left hn, Or.inr⟩
  | unbounded p =>
    change i ∈ (Finset.range n).filter _ ↔ _
    rw [Finset.mem_filter, Finset.mem_range, and_comm]
    rfl

theorem Specifier.mem_of_mem_upTo {s : Specifier} {n i : Nat} (h : i ∈ (s.upTo n).idxs) : i ∈ s := by
  cases s with
  | bounded s => exact decide_eq_true (DataSubset.mem_upTo.mp h).1
  | unbounded p => exact (Finset.mem_filter.mp h).2

/-- What is reached of a member are the elements of the subset that it has. -/
theorem Specifier.reach_spec {s : Specifier} {extent count len i : Nat} (hpos : 0 < extent)
    (h : s.reach extent (UserMember.userBytes count extent) = some len) (hi : i ∈ s) :
    (i + 1) * extent ≤ len ↔ Below count i := by
  have hscale : ∀ n, (i + 1) * extent ≤ n * extent ↔ i < n := fun n =>
    (Nat.mul_le_mul_right_iff hpos).trans Nat.succ_le_iff
  unfold UserMember.userBytes at h
  cases s with
  | bounded s =>
    have hmax : i < s.maxCount := DataSubset.lt_maxCount (of_decide_eq_true hi)
    cases Option.some.inj h
    by_cases hc : count = 0
    · rw [if_pos hc]
      simp only [Option.elim_none, hscale]
      exact ⟨fun _ => Or.inl hc, fun _ => hmax⟩
    · rw [if_neg hc]
      simp only [Option.elim_some, Nat.le_min, hscale]
      exact ⟨fun h => Or.inr h.2, fun h => ⟨hmax, h.resolve_left hc⟩⟩
  | unbounded p =>
    change (if count = 0 then none else some (count * extent)) = some len at h
    split at h
    next => cases h
    next hc =>
      cases Option.some.inj h
      rw [hscale]
      exact ⟨Or.inr, fun h => h.resolve_left hc⟩

/-- Nothing is reached only of an empty subset. -/
theorem Specifier.reach_pos {s : Specifier} {extent count len i : Nat} (hpos : 0 < extent)
    (h : s.reach extent (UserMember.userBytes count extent) = some len) (hi : i ∈ s) : 0 < len := by
  unfold UserMember.userBytes at h
  have hone : ∀ n, n ≠ 0 → 0 < n * extent := fun n hn => Nat.mul_pos (Nat.pos_of_ne_zero hn) hpos
  cases s with
  | bounded s =>
    have hmax : i < s.maxCount := DataSubset.lt_maxCount (of_decide_eq_true hi)
    have hbytes := hone s.maxCount (by omega)
    cases Option.some.inj h
    split
    next => exact hbytes
    next hc => exact Nat.lt_min.mpr ⟨hbytes, hone count hc⟩
  | unbounded p =>
    change (if count = 0 then none else some (count * extent)) = some len at h
    split at h
    next => cases h
    next hc =>
      cases Option.some.inj h
      exact hone count hc

end Bounds

/-- A snapshot of a rank holds the values of what it lists as staged or protected. -/
structure DataSnapshot.Has (s : DataSnapshot) (rank extent : Nat) (staged protectedBy : DataSubset)
    (value : Nat → Nat → UInt8) : Prop where
  cohortRank : s.cohortRank = some rank
  stagedSubset : s.stagedSubsets[rank]? = some staged
  protectedSubset : s.protectedSubsets[rank]? = some protectedBy
  elmSize : s.elmSize = extent
  bounded : ∀ i ∈ staged.idxs, Below s.elmMaxCount i
  room : ∀ i ∈ staged.idxs ∪ protectedBy.idxs, (i + 1) * extent ≤ s.buf.size
  values : ∀ i ∈ staged.idxs ∪ protectedBy.idxs, ∀ b < extent, s.buf.bytes (i * extent + b) = value i b

theorem DataSubset.upTo_of_below {s : DataSubset} {n : Nat} (h : ∀ i ∈ s.idxs, Below n i) : s.upTo n = s := by
  have hidxs : (s.upTo n).idxs = s.idxs := by
    ext i
    rw [mem_upTo]
    exact ⟨And.left, fun hi => ⟨hi, h i hi⟩⟩
  cases s
  exact congrArg DataSubset.mk hidxs

theorem DataSubset.mem_add {s t : DataSubset} {i : Nat} : i ∈ (s + t).idxs ↔ i ∈ s.idxs ∨ i ∈ t.idxs :=
  Finset.mem_union

theorem DataSnapshot.addAndFit_eq {s : DataSnapshot} {rank : Nat} (hrank : s.cohortRank = some rank) (subset : DataSubset) :
    s.addAndFit subset = { s with
      stagedSubsets := s.stagedSubsets.modify rank fun x => (x + subset).upTo s.elmMaxCount
      buf := s.buf.grow ((if s.elmMaxCount = 0 then
        ((s.stagedSubsets.modify rank fun x => (x + subset).upTo s.elmMaxCount).getD rank ∅).maxCount
        else s.elmMaxCount) * s.elmSize) } := by
  unfold addAndFit
  rw [hrank]
  rfl

/-- Elements that are in place are added to the staged ones. -/
theorem DataSnapshot.Has.addAndFit {s : DataSnapshot} {rank extent : Nat} {staged protectedBy subset : DataSubset}
    {value : Nat → Nat → UInt8} (h : s.Has rank extent staged protectedBy value)
    (hbounded : ∀ i ∈ subset.idxs, Below s.elmMaxCount i)
    (hroom : ∀ i ∈ subset.idxs, (i + 1) * extent ≤ s.buf.size)
    (hvalues : ∀ i ∈ subset.idxs, ∀ b < extent, s.buf.bytes (i * extent + b) = value i b) :
    (s.addAndFit subset).Has rank extent (staged + subset) protectedBy value := by
  have hmem : ∀ i, i ∈ (staged + subset).idxs ∪ protectedBy.idxs →
      i ∈ staged.idxs ∪ protectedBy.idxs ∨ i ∈ subset.idxs := by
    intro i hi
    rw [Finset.mem_union, DataSubset.mem_add] at hi
    rw [Finset.mem_union]
    tauto
  have hall : ∀ i ∈ (staged + subset).idxs, Below s.elmMaxCount i := fun i hi =>
    (DataSubset.mem_add.mp hi).elim (h.bounded i) (hbounded i)
  rw [DataSnapshot.addAndFit_eq h.cohortRank, DataBuffer.grow_eq]
  refine ⟨h.cohortRank, ?_, h.protectedSubset, h.elmSize, hall, fun i hi => ?_, fun i hi => ?_⟩
  · rw [List.getElem?_modify_eq, h.stagedSubset]
    exact congrArg some (DataSubset.upTo_of_below hall)
  · exact Nat.le_trans ((hmem i hi).elim (h.room i) (hroom i)) (Nat.le_max_left _ _)
  · exact (hmem i hi).elim (h.values i) (hvalues i)

namespace UserMember

/-- The elements of the member, all that there are if it is resizeable. -/
def count (m : UserMember) : Nat := (m.userData.size.map (· / m.datatype.extent)).getD 0

/-- The value of an element in the buffer of the application. -/
def element (m : UserMember) (memory : Nat → UInt8) (i b : Nat) : UInt8 :=
  memory (m.userData.data + (i * m.datatype.extent + b))

/-- The snapshot being staged is made for all elements of the member that the subset names. -/
def Whole (m : UserMember) (subset : Specifier) : Prop :=
  ∀ i ∈ subset, Below m.count i → Below m.member.stageSnapshot.elmMaxCount i

/-- The buffer of the application is for a number of elements. -/
def Counted (m : UserMember) : Prop :=
  0 < m.datatype.extent ∧ m.userData.size = userBytes m.count m.datatype.extent

theorem count_userBytes {m : UserMember} {count : Nat} (hpos : 0 < m.datatype.extent)
    (h : m.userData.size = userBytes count m.datatype.extent) : m.count = count := by
  unfold UserMember.count
  rw [h]
  unfold userBytes
  split
  next hc => exact hc.symm
  next => exact Nat.mul_div_cancel count hpos

theorem elmCount_ok {m : UserMember} (hc : m.Counted) : m.elmCount = .ok m.count := by
  obtain ⟨hpos, hsize⟩ := hc
  unfold elmCount
  rw [hsize]
  unfold userBytes
  by_cases hcount : m.count = 0
  · rw [if_pos hcount, hcount]
  · rw [if_neg hcount]
    dsimp only
    rw [if_pos ⟨hpos, Nat.mul_mod_left _ _⟩, Nat.mul_div_cancel _ hpos]

section Stage

variable {m m' : UserMember} {memory : Nat → UInt8} {subset : Specifier} {rank : Nat}
  {staged protectedBy : DataSubset} {value : Nat → Nat → UInt8}

/-- What a stage does to the snapshot, as the size of the buffer and the values in it. -/
theorem stage_cases (h : m.stage memory subset = .ok m') :
    ∃ len size, subset.reach m.member.stageSnapshot.elmSize m.userData.size = some len ∧
      size = max m.member.stageSnapshot.buf.size len ∧ (∀ n ∈ m.userData.size, size ≤ n) ∧
      size % m.member.stageSnapshot.elmSize = 0 ∧ len % m.member.stageSnapshot.elmSize = 0 ∧
      m' = { m with member := { m.member with stageSnapshot := { m.member.stageSnapshot with
        toDataSnapshot := ({ m.member.stageSnapshot.toDataSnapshot with buf := ⟨size,
          Serializer.copyData (subset.upTo (len / m.member.stageSnapshot.elmSize)) m.member.stageSnapshot.elmSize
            (fun x => memory (m.userData.data + x)) m.member.stageSnapshot.buf.bytes⟩ } : DataSnapshot).addAndFit
          (subset.upTo (size / m.datatype.extent)) } } } := by
  unfold stage at h
  dsimp only at h
  split at h
  next => cases h
  next len hlen =>
    rw [DataBuffer.grow_eq] at h
    split at h
    next hfit =>
      obtain ⟨⟨_, hstage, hlens⟩, _, _, huser⟩ := hfit
      cases Except.ok.inj h
      refine ⟨len, _, hlen, rfl, huser, hstage, hlens len rfl, ?_⟩
      simp only [Serializer.elements, Option.elim_some, Nat.min_eq_right (Nat.le_max_right _ _)]
    next => cases h

/-- A stage adds the elements of the member that the subset names, with the values that they have in
the buffer of the application. -/
theorem stage_has (hc : m.Counted) (hw : m.Whole subset)
    (hhas : m.member.stageSnapshot.Has rank m.datatype.extent staged protectedBy value)
    (hbelow : ∀ i ∈ staged.idxs ∪ protectedBy.idxs, Below m.count i) (h : m.stage memory subset = .ok m') :
    ∃ staged', m'.member.stageSnapshot.Has rank m.datatype.extent staged' protectedBy
        (fun i => if i ∈ subset then m.element memory i else value i) ∧
      ∀ i, i ∈ staged'.idxs ↔ i ∈ staged.idxs ∨ i ∈ subset ∧ Below m.count i := by
  obtain ⟨len, size, hreach, hsize, huser, hfit, hlen, rfl⟩ := stage_cases h
  obtain ⟨hpos, hcount⟩ := hc
  rw [hhas.elmSize] at hreach hfit hlen
  rw [hcount] at hreach huser
  set extent := m.datatype.extent
  have hscale : ∀ i n, (i + 1) * extent ≤ n ↔ i < n / extent := fun i n => by
    rw [← Nat.succ_le_iff, Nat.le_div_iff_mul_le hpos]
  -- the elements that are added, and those that are copied
  have hsub : ∀ i ∈ subset, Below m.count i → i < len / extent := fun i hi hb =>
    (hscale i len).mp ((Specifier.reach_spec hpos hreach hi).mpr hb)
  have hadded : ∀ i, i ∈ (subset.upTo (size / extent)).idxs ↔ i ∈ subset ∧ Below m.count i := by
    intro i
    by_cases hi : i ∈ subset
    · have hlenpos := Specifier.reach_pos hpos hreach hi
      have hne : size / extent ≠ 0 := by
        have hdiv := Nat.div_add_mod size extent
        intro hz
        rw [hz, hfit] at hdiv
        omega
      rw [Specifier.mem_upTo hne, ← hscale]
      refine and_congr_right fun _ => ⟨fun hle => ?_, fun hb => ?_⟩
      · by_cases hz : m.count = 0
        · exact Or.inl hz
        · have hmax := huser (m.count * extent) (by simp [userBytes, hz])
          exact Or.inr (Nat.lt_of_mul_lt_mul_right (Nat.lt_of_lt_of_le
            (Nat.mul_lt_mul_of_pos_right (Nat.lt_succ_self i) hpos) (Nat.le_trans hle hmax)))
      · have hle := (Specifier.reach_spec hpos hreach hi).mpr hb
        omega
    · exact ⟨fun h => absurd (Specifier.mem_of_mem_upTo h) hi, fun h => absurd h.1 hi⟩
  have hthere : ∀ i ∈ subset, Below m.count i → i ∈ (subset.upTo (len / extent)).idxs := by
    intro i hi hb
    have hlt := hsub i hi hb
    exact (Specifier.mem_upTo (by omega)).mpr ⟨hi, hlt⟩
  have hvalue : ∀ i ∈ subset, Below m.count i → ∀ b < extent,
      Serializer.copyData (subset.upTo (len / extent)) extent (fun x => memory (m.userData.data + x))
        m.member.stageSnapshot.buf.bytes (i * extent + b) = m.element memory i b := by
    intro i hi hb b hlt
    rw [copyData_element _ _ hlt, if_pos (hthere i hi hb)]
    rfl
  rw [hhas.elmSize]
  refine ⟨staged + subset.upTo (size / extent), DataSnapshot.Has.addAndFit ⟨hhas.cohortRank, hhas.stagedSubset,
    hhas.protectedSubset, hhas.elmSize, hhas.bounded, fun i hi => ?_, fun i hi b hb => ?_⟩ (fun i hi => ?_)
    (fun i hi => ?_) (fun i hi b hb => ?_), fun i => ?_⟩
  · have hroom := hhas.room i hi
    change _ ≤ size
    omega
  · -- what the subset names is written anew, the rest is kept
    change Serializer.copyData _ _ _ _ _ = _
    by_cases hin : i ∈ subset
    · rw [if_pos hin, hvalue i hin (hbelow i hi) b hb]
    · rw [if_neg hin, copyData_element _ _ hb, if_neg fun h => hin (Specifier.mem_of_mem_upTo h)]
      exact hhas.values i hi b hb
  · obtain ⟨hin, hb⟩ := (hadded i).mp hi
    exact hw i hin hb
  · obtain ⟨hin, hb⟩ := (hadded i).mp hi
    have hle := (Specifier.reach_spec hpos hreach hin).mpr hb
    change _ ≤ size
    omega
  · obtain ⟨hin, hbel⟩ := (hadded i).mp hi
    change Serializer.copyData _ _ _ _ _ = _
    rw [if_pos hin, hvalue i hin hbel b hb]
  · rw [DataSubset.mem_add, hadded]

end Stage

section Store

variable {n : Nat} {policy : DataPolicy} {snaps snaps' : Fin n → IMRSnapshot} {k : Fin n} {extent : Nat}
  {staged protectedBy : DataSubset} {value : Nat → Nat → UInt8}

theorem markProtected_has {s : IMRSnapshot} {rank : Nat} (h : s.Has rank extent staged protectedBy value) :
    s.markProtected.Has rank extent ∅ (protectedBy + staged) value := by
  have hmem : ∀ i ∈ (∅ : DataSubset).idxs ∪ (protectedBy + staged).idxs, i ∈ staged.idxs ∪ protectedBy.idxs := by
    intro i hi
    rw [Finset.mem_union, DataSubset.mem_add] at hi
    rw [Finset.mem_union]
    exact (hi.resolve_left (Finset.notMem_empty i)).symm
  refine ⟨h.cohortRank, ?_, ?_, h.elmSize, fun i hi => absurd hi (Finset.notMem_empty i),
    fun i hi => h.room i (hmem i hi), fun i hi => h.values i (hmem i hi)⟩
  · exact List.getElem?_map.trans (congrArg (Option.map fun _ => ∅) h.stagedSubset)
  · refine List.getElem?_zipWith.trans ?_
    rw [h.protectedSubset, h.stagedSubset]

theorem has_grow {s : DataSnapshot} {rank size : Nat} (h : s.Has rank extent staged protectedBy value)
    (hsize : s.buf.size ≤ size) :
    ({ s with buf := ⟨size, s.buf.bytes⟩ } : DataSnapshot).Has rank extent staged protectedBy value :=
  ⟨h.cohortRank, h.stagedSubset, h.protectedSubset, h.elmSize, h.bounded,
    fun i hi => Nat.le_trans (h.room i hi) hsize, h.values⟩

/-- In the range of `int` the buffer is made as large as the data. -/
theorem fitData_of_intSized {s : IMRSnapshot} (h : IntSized s) :
    s.fitData = ⟨max s.buf.size (s.dataCount * s.elmSize), s.buf.bytes⟩ := by
  obtain ⟨hdata, hbuf⟩ := h
  unfold IMRSnapshot.fitData
  rw [IMRSnapshot.dataBytes_eq rfl hdata, IMRSnapshot.intSize, castInt_eq_iff.mpr hbuf,
    castSize_natCast (by omega)]
  split
  next hlt =>
    rw [Nat.max_eq_right (by omega)]
    rfl
  next hle => rw [Nat.max_eq_left (by omega)]

/-- Parity is taken of the data as it is. -/
theorem parity_protect {k : Fin n} (hsized : IntSized (snaps k)) (h : ParityMember.iprotect snaps = .ok snaps') :
    ∃ s : IMRSnapshot, snaps' k = s.markProtected ∧ s.toDataSnapshot = { (snaps k).toDataSnapshot with
      buf := ⟨max (snaps k).buf.size ((snaps k).dataCount * (snaps k).elmSize), (snaps k).buf.bytes⟩ } := by
  rw [ParityMember.iprotect_cases] at h
  split at h
  next =>
    cases Except.ok.inj h
    refine ⟨_, rfl, ?_⟩
    rw [ParityMember.reduceChunk_own]
    change { (snaps k).toDataSnapshot with buf := (snaps k).fitData } = _
    rw [fitData_of_intSized hsized]
  next => cases h

/-- Whatever the policy, a rank protects what it has staged, in its buffer or in a larger one of whole elements. -/
theorem protect_own (h : protect policy snaps = .ok snaps') (k : Fin n) :
    ∃ (s : IMRSnapshot) (size : Nat), snaps' k = s.markProtected ∧ (snaps k).buf.size ≤ size ∧
      (size = (snaps k).buf.size ∨ size % (snaps k).elmSize = 0) ∧ s.toDataSnapshot =
      { (snaps k).toDataSnapshot with buf := ⟨size, (snaps k).buf.bytes⟩ } := by
  unfold protect at h
  split at h
  next =>
    cases Except.ok.inj h
    exact ⟨snaps k, _, rfl, Nat.le_refl _, Or.inl rfl, rfl⟩
  next =>
    split at h
    next =>
      have hk := Except.sequence_eq_ok_iff.mp h k
      unfold BuddyMember.iprotect BuddyMember.copyStaged at hk
      dsimp only at hk
      split at hk
      next => cases hk
      next => exact ⟨_, _, (Except.ok.inj hk).symm, Nat.le_refl _, Or.inl rfl, rfl⟩
    next => cases h
  next =>
    split at h
    next hsized =>
      cases hp : ParityMember.iprotect snaps with
      | error e =>
        rw [hp] at h
        cases h
      | ok stored =>
        rw [hp] at h
        cases Except.ok.inj h
        obtain ⟨s, hs, hdata⟩ := parity_protect (hsized k) hp
        refine ⟨s, _, hs, Nat.le_max_left _ _, ?_, hdata⟩
        rcases Nat.le_total ((snaps k).dataCount * (snaps k).elmSize) (snaps k).buf.size with hle | hle
        · exact Or.inl (Nat.max_eq_left hle)
        · rw [Nat.max_eq_right hle]
          exact Or.inr (Nat.mul_mod_left _ _)
    next => cases h

theorem protect_has (h : protect policy snaps = .ok snaps')
    (hhas : (snaps k).Has k extent staged protectedBy value) :
    (snaps' k).Has k extent ∅ (protectedBy + staged) value := by
  obtain ⟨s, size, hs, hsize, _, hdata⟩ := protect_own h k
  rw [hs]
  refine markProtected_has ?_
  rw [hdata]
  exact has_grow hhas hsize

theorem protect_elmSize (h : protect policy snaps = .ok snaps') (k : Fin n) :
    (snaps' k).elmSize = (snaps k).elmSize := by
  obtain ⟨s, size, hs, _, _, hdata⟩ := protect_own h k
  rw [hs]
  change s.elmSize = _
  rw [hdata]

theorem protect_fits (h : protect policy snaps = .ok snaps') (k : Fin n)
    (hfits : (snaps k).buf.size % (snaps k).elmSize = 0) : (snaps' k).buf.size % (snaps k).elmSize = 0 := by
  obtain ⟨s, size, hs, _, hsize, hdata⟩ := protect_own h k
  rw [hs]
  change s.buf.size % _ = 0
  rw [hdata]
  exact hsize.elim (fun h => h.symm ▸ hfits) id

theorem stagedSubset_eq {s : DataSnapshot} {rank : Nat} (h : s.Has rank extent staged protectedBy value) :
    s.stagedSubset = some staged := by
  unfold DataSnapshot.stagedSubset
  rw [h.cohortRank]
  exact h.stagedSubset

theorem protectedSubset_eq {s : DataSnapshot} {rank : Nat} (h : s.Has rank extent staged protectedBy value) :
    s.protectedSubset = some protectedBy := by
  unfold DataSnapshot.protectedSubset
  rw [h.cohortRank]
  exact h.protectedSubset

theorem spread_has {s : IMRSnapshot} {rank : Nat} (h : s.Has rank extent staged protectedBy value) :
    (spread s).Has rank extent staged protectedBy value := by
  refine ⟨h.cohortRank, ?_, h.protectedSubset, h.elmSize, h.bounded, h.room, h.values⟩
  change (s.stagedSubsets.map fun _ => s.stagedSubset.getD ∅)[rank]? = _
  rw [List.getElem?_map, h.stagedSubset, stagedSubset_eq h]
  rfl

theorem exchange_has (snaps : Fin n → IMRSnapshot) (h : (snaps k).Has k extent staged protectedBy value) :
    (exchange snaps k).Has k extent staged protectedBy value := by
  refine ⟨h.cohortRank, ?_, h.protectedSubset, h.elmSize, h.bounded, h.room, h.values⟩
  change (List.ofFn fun i => (snaps i).stagedSubset.getD ∅)[k.val]? = _
  rw [List.getElem?_ofFn, dif_pos k.isLt]
  exact congrArg some (congrArg (Option.getD · ∅) (stagedSubset_eq h))

/-- A store stages on every rank and protects what is staged. -/
theorem store_cases {ms ms' : Fin n → UserMember} {memory : Fin n → Nat → UInt8} {varying : Bool}
    {subsets : Fin n → Option Specifier} (h : store policy varying ms memory subsets = .ok ms') :
    ∃ mid : Fin n → UserMember,
      (∀ k, (subsets k = none ∧ mid k = ms k) ∨ ∃ s, subsets k = some s ∧ (ms k).stage (memory k) s = .ok (mid k)) ∧
      ∀ k, ∃ s, ms' k = { mid k with member := { (mid k).member with stageSnapshot := s } } ∧
        s.elmSize = (mid k).member.stageSnapshot.elmSize ∧
        ((mid k).member.stageSnapshot.buf.size % (mid k).member.stageSnapshot.elmSize = 0 →
          s.buf.size % (mid k).member.stageSnapshot.elmSize = 0) ∧ ∀ extent staged protectedBy value,
          (mid k).member.stageSnapshot.Has k extent staged protectedBy value →
          s.Has k extent ∅ (protectedBy + staged) value := by
  obtain ⟨mid, hmid, h⟩ := Except.bind_eq_ok_iff.mp h
  obtain ⟨stored, hstored, h⟩ := Except.bind_eq_ok_iff.mp h
  cases Except.ok.inj h
  refine ⟨mid, fun k => ?_, fun k => ⟨stored k, rfl, ?_, ?_, fun extent staged protectedBy value hhas => ?_⟩⟩
  · have hk := Except.sequence_eq_ok_iff.mp hmid k
    split at hk
    next hn => exact Or.inl ⟨hn, (Except.ok.inj hk).symm⟩
    next s hs => exact Or.inr ⟨s, hs, hk⟩
  · rw [protect_elmSize hstored k]
    cases varying with
    | false => rfl
    | true => rfl
  · have hfits := protect_fits hstored k
    cases varying with
    | false => exact hfits
    | true => exact hfits
  · refine protect_has hstored ?_
    cases varying with
    | false => exact spread_has hhas
    | true => exact exchange_has (fun k => (mid k).member.stageSnapshot) hhas

end Store

end UserMember

end Fenix
