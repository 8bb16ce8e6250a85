import Fenix.GroupLedger
import Fenix.UserMemberStage

namespace Fenix

/-- What has been named to be staged since a commit, and the values it last had. -/
structure Staging where
  named : Nat → Prop
  value : Nat → Nat → UInt8

namespace Staging

def none : Staging := ⟨fun _ => False, fun _ _ => 0⟩

/-- The elements that the subset names are staged with the values given. -/
def add (r : Staging) (subset : Specifier) (value : Nat → Nat → UInt8) : Staging :=
  ⟨fun i => r.named i ∨ i ∈ subset, fun i => if i ∈ subset then value i else r.value i⟩

/-- What is left of it for a member of `count` elements. -/
def within (r : Staging) (count : Nat) : Staging := ⟨fun i => r.named i ∧ Below count i, r.value⟩

end Staging

/-- A committed snapshot protects just what was staged for it. -/
structure DataSnapshot.Keeps (s : DataSnapshot) (rank extent : Nat) (r : Staging) : Prop where
  has : ∃ protectedBy, s.Has rank extent ∅ protectedBy r.value ∧ ∀ i, i ∈ protectedBy.idxs ↔ r.named i
  fits : s.buf.size % extent = 0

/-- A snapshot for reuse, or a new one. -/
structure DataSnapshot.Fresh (s : DataSnapshot) (extent : Nat) : Prop where
  cohortRank : s.cohortRank = none
  stagedSubsets : s.stagedSubsets = []
  protectedSubsets : s.protectedSubsets = []
  elmSize : s.elmSize = extent

theorem DataSnapshot.Fresh.initCohort {s : DataSnapshot} {rank size extent : Nat} (h : s.Fresh extent)
    (hrank : rank < size) (value : Nat → Nat → UInt8) : (s.initCohort rank size).Has rank extent ∅ ∅ value := by
  have hempty : (resizeSubsets [] size)[rank]? = some ∅ := by
    unfold resizeSubsets
    rw [List.nil_append, List.take_of_length_le (by rw [List.length_replicate]), List.getElem?_replicate,
      if_pos hrank]
  unfold DataSnapshot.initCohort
  rw [h.cohortRank]
  refine ⟨rfl, ?_, ?_, h.elmSize, fun i hi => absurd hi (Finset.notMem_empty i),
    fun i hi => absurd hi (Finset.notMem_empty i), fun i hi => absurd hi (Finset.notMem_empty i)⟩
  · change (resizeSubsets s.stagedSubsets size)[rank]? = _
    rw [h.stagedSubsets, hempty]
  · change (resizeSubsets s.protectedSubsets size)[rank]? = _
    rw [h.protectedSubsets, hempty]

theorem IMRSnapshot.reset_fresh {s : IMRSnapshot} {extent : Nat} (h : s.elmSize = extent) :
    s.reset.Fresh extent := ⟨rfl, rfl, rfl, h⟩

namespace DataMember

variable {m m' : DataMember}

theorem trim_cases (m : DataMember) :
    m.commitSnapshots.entries.length ≤ m.depth + 1 ∧ m.trim = m ∨
    ∃ oldest rest, m.commitSnapshots.entries = oldest :: rest ∧ m.depth + 1 < m.commitSnapshots.entries.length ∧
      m.trim.commitSnapshots.entries = rest ∧ m.trim.availSnapshots = oldest.reset :: m.availSnapshots := by
  rcases m.pool.trim_cases IMRSnapshot.reset (m.depth + 1) with ⟨hle, h⟩ | ⟨oldest, rest, hm, hlt, _, hkept, hfree⟩
  · exact Or.inl ⟨hle, congrArg m.withPool h⟩
  · exact Or.inr ⟨oldest, rest, hm, hlt, hkept, hfree⟩

theorem restage_fresh {rank size extent : Nat} (hrank : rank < size) (hsize : m.elmSize = extent)
    (havail : ∀ s ∈ m.availSnapshots, s.Fresh extent) (junk partnerJunk : Nat → UInt8) :
    (∀ value, (m.restage rank size junk partnerJunk).stageSnapshot.Has rank extent ∅ ∅ value) ∧
      ∀ s ∈ (m.restage rank size junk partnerJunk).availSnapshots, s.Fresh extent := by
  have hfresh : (IMRSnapshot.create m.elmSize m.elmCount junk partnerJunk).Fresh extent := ⟨rfl, rfl, rfl, hsize⟩
  obtain ⟨hnext, hrest⟩ := Pool.next_all (p := m.pool) havail hfresh
  exact ⟨hnext.initCohort hrank, hrest⟩

/-- A commit keeps the newest snapshots, as many as the depth allows, and stages in a fresh one. -/
theorem commit_cases {rank size extent : Nat} {timestamp : Int} {junk partnerJunk : Nat → UInt8}
    (h : m.commit rank size timestamp junk partnerJunk = .ok m') (hrank : rank < size)
    (hnew : ∀ s ∈ m.commitSnapshots, s.timestamp < timestamp)
    (hlen : m.commitSnapshots.entries.length ≤ m.depth + 1) (hsize : m.elmSize = extent)
    (hcommitted : ∀ s ∈ m.commitSnapshots, s.elmSize = extent) (hstage : m.stageSnapshot.elmSize = extent)
    (havail : ∀ s ∈ m.availSnapshots, s.Fresh extent) :
    m.stageSnapshot.stagedSubset = some ∅ ∧ m'.depth = m.depth ∧
    m'.commitSnapshots.entries.reverse =
      ({ m.stageSnapshot with timestamp := timestamp } :: m.commitSnapshots.entries.reverse).take (m.depth + 1) ∧
    (∀ value, m'.stageSnapshot.Has rank extent ∅ ∅ value) ∧ ∀ s ∈ m'.availSnapshots, s.Fresh extent := by
  unfold commit at h
  split at h
  next hempty =>
    cases Except.ok.inj h
    set added : IMRSnapshot := { m.stageSnapshot with timestamp := timestamp }
    set committed : DataMember := { m with commitSnapshots := m.commitSnapshots.insert added }
    have hins : committed.commitSnapshots.entries = m.commitSnapshots.entries ++ [added] :=
      IndexedSet.entries_insert_last hnew
    have hlength := congrArg List.length hins
    rw [List.length_append, List.length_singleton] at hlength
    rw [restage_depth, restage_commitSnapshots]
    refine ⟨hempty, ?_⟩
    rcases committed.trim_cases with ⟨hle, htrim⟩ | ⟨oldest, rest, hold, hlt, hkept, hfree⟩
    · rw [htrim]
      refine ⟨rfl, ?_, restage_fresh (m := committed) hrank hsize havail junk partnerJunk⟩
      rw [hins, List.reverse_append, List.take_of_length_le]
      · rfl
      · change m.commitSnapshots.entries.reverse.length + 1 ≤ committed.depth + 1
        rw [List.length_reverse]
        omega
    · have hdepth : committed.trim.depth = m.depth := committed.trim_depth
      refine ⟨hdepth, ?_, restage_fresh (m := committed.trim) hrank hsize ?_ junk partnerJunk⟩
      · rw [hkept]
        have hrev : added :: m.commitSnapshots.entries.reverse = rest.reverse ++ [oldest] := by
          rw [← List.reverse_cons, ← hold, hins, List.reverse_append]
          rfl
        have hrest := congrArg List.length hold
        rw [List.length_cons] at hrest
        rw [hrev, List.take_append_of_le_length, List.take_of_length_le]
        · rw [List.length_reverse]
          omega
        · rw [List.length_reverse]
          change m.depth + 1 < _ at hlt
          omega
      · rw [hfree]
        intro s hs
        rcases List.mem_cons.mp hs with rfl | hs
        · refine IMRSnapshot.reset_fresh ?_
          have hmem : oldest ∈ committed.commitSnapshots := by
            rw [IndexedSet.mem_def, hold]
            exact List.mem_cons_self
          rcases IndexedSet.mem_of_mem_insert hmem with heq | hmem
          · rw [heq]
            exact hstage
          · exact hcommitted oldest hmem
        · exact havail s hs
  next => cases h

end DataMember

namespace UserMember

variable {m : UserMember} {timestamp : Int} {r : Staging}

/-- A load of the timestamp finds just the elements that were staged for it, writes the values that they
were last staged with, and nothing else. -/
def Restores (m : UserMember) (timestamp : Int) (r : Staging) : Prop :=
  ∀ (memory : Nat → UInt8) (target : Option Nat) (count : Nat), m.datatype.Loadable count → ∃ loaded,
    m.load memory target (some count) timestamp = .ok loaded ∧ (∀ i, i ∈ loaded.found.idxs ↔ r.named i) ∧
    (∀ i, r.named i → i < count → ∀ b < m.datatype.extent,
      loaded.memory (target.getD m.userData.data + (i * m.datatype.extent + b)) = r.value i b) ∧
    ∀ x, (∀ i, r.named i → i < count → ∀ b < m.datatype.extent,
      x ≠ target.getD m.userData.data + (i * m.datatype.extent + b)) → loaded.memory x = memory x

/-- The elements of a snapshot that the target is large enough for are written, at their places. -/
theorem unload_ok {s : DataSnapshot} {rank count data : Nat} {protectedBy : DataSubset}
    {value : Nat → Nat → UInt8} (hpos : 0 < m.datatype.extent) (hhas : s.Has rank m.datatype.extent ∅ protectedBy value)
    (hfits : s.buf.size % m.datatype.extent = 0) (memory : Nat → UInt8) :
    ∃ loaded, m.unload s protectedBy data (some count) memory = .ok loaded ∧
      (∀ i ∈ protectedBy.idxs, i < count → ∀ b < m.datatype.extent,
        loaded (data + (i * m.datatype.extent + b)) = value i b) ∧
      ∀ x, (∀ i ∈ protectedBy.idxs, i < count → ∀ b < m.datatype.extent,
        x ≠ data + (i * m.datatype.extent + b)) → loaded x = memory x := by
  by_cases hcount : count = 0
  · subst hcount
    exact ⟨memory, rfl, fun i _ hi => absurd hi (Nat.not_lt_zero i), fun x _ => rfl⟩
  set extent := m.datatype.extent with hextent
  have hser : Serializer.Fits s.elmSize s.buf.size (some (count * extent)) := by
    rw [hhas.elmSize]
    refine ⟨hpos, hfits, fun n hn => ?_⟩
    cases Option.some.inj hn
    exact Nat.mul_mod_left count extent
  set elements := Serializer.elements s.elmSize s.buf.size (some (count * extent)) with helements
  -- the elements that are copied are those below `count`
  have hcopied : ∀ i, i ∈ (protectedBy.upTo elements).idxs ↔ i ∈ protectedBy.idxs ∧ i < count := by
    intro i
    rw [DataSubset.mem_upTo]
    refine and_congr_right fun hi => ?_
    have hroom := hhas.room i (Finset.mem_union_right _ hi)
    have hlt : i < elements ↔ i < count := by
      rw [helements, hhas.elmSize]
      unfold Serializer.elements
      rw [← Nat.succ_le_iff, Nat.le_div_iff_mul_le hpos, Option.elim_some, Nat.le_min, Nat.mul_le_mul_right_iff hpos]
      exact ⟨And.right, fun h => ⟨hroom, h⟩⟩
    have hone : extent ≤ (i + 1) * extent := Nat.le_mul_of_pos_left extent (Nat.succ_pos i)
    have hcounts : extent ≤ count * extent := Nat.le_mul_of_pos_left extent (Nat.pos_of_ne_zero hcount)
    have hne : 0 < elements := by
      rw [helements, hhas.elmSize]
      exact Nat.div_pos (Nat.le_min.mpr ⟨Nat.le_trans hone hroom, hcounts⟩) hpos
    exact ⟨fun h => hlt.mp (h.resolve_left (by omega)), fun h => Or.inr (hlt.mpr h)⟩
  have hload : m.unload s protectedBy data (some count) memory = .ok fun y =>
      if data ≤ y then Serializer.copyData (protectedBy.upTo elements) s.elmSize s.buf.bytes
        (fun x => memory (data + x)) (y - data) else memory y := by
    unfold unload
    rw [if_neg fun h => hcount (Option.some.inj h)]
    exact if_pos hser
  refine ⟨_, hload, fun i hi hlt b hb => ?_, fun x hx => ?_⟩
  · rw [if_pos (Nat.le_add_right data _), Nat.add_sub_cancel_left, hhas.elmSize, copyData_element _ _ hb,
      if_pos ((hcopied i).mpr ⟨hi, hlt⟩)]
    exact hhas.values i (Finset.mem_union_right _ hi) b hb
  · split
    next hle =>
      rw [copyData_apply, if_neg, Nat.add_sub_cancel' hle]
      rintro ⟨i, hi, hlo, hhi⟩
      obtain ⟨hin, hlt⟩ := (hcopied i).mp hi
      rw [hhas.elmSize] at hlo hhi
      exact hx i hin hlt (x - data - i * extent) (by omega) (by omega)
    next => rfl

/-- A load is that of the snapshot found, the bytes asked for being within the range of `int`. -/
theorem load_of_unload {s : IMRSnapshot} {count : Nat} {target : Option Nat} {protectedBy : DataSubset}
    {memory bytes : Nat → UInt8} (hload : m.datatype.Loadable count)
    (hfind : m.member.findSnapshot timestamp = .ok s) (hsubset : s.protectedSubset.getD ∅ = protectedBy)
    (hbytes : m.unload s.toDataSnapshot protectedBy (target.getD m.userData.data) (some count) memory = .ok bytes) :
    m.load memory target (some count) timestamp =
      .ok ⟨bytes, protectedBy, decide (¬∀ i < count, i ∈ protectedBy.idxs)⟩ := by
  subst hsubset
  unfold load
  rw [Option.getD_some, intProduct_ok hload.2, Except.ok_bind, hfind]
  change (m.unload _ _ _ _ _ >>= fun loaded => _) = _
  rw [hbytes]
  rfl

theorem keeps_restores {s : IMRSnapshot} {rank : Nat} (hpos : 0 < m.datatype.extent)
    (hfind : m.member.findSnapshot timestamp = .ok s) (hkeeps : s.Keeps rank m.datatype.extent r) :
    m.Restores timestamp r := by
  intro memory target count hload
  obtain ⟨⟨protectedBy, hhas, hnamed⟩, hfits⟩ := hkeeps
  have hsubset : s.protectedSubset.getD ∅ = protectedBy := by
    rw [protectedSubset_eq hhas]
    rfl
  obtain ⟨loaded, hl, hvalues, hrest⟩ := unload_ok hpos hhas hfits memory
  simp only [← hnamed]
  exact ⟨_, load_of_unload hload hfind hsubset hl, fun i => Iff.rfl, hvalues, hrest⟩

end UserMember

end Fenix
