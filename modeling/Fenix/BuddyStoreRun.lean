import Fenix.BuddyRecovery
import Fenix.SnapshotReuseRun

namespace Fenix

open BuddyMember (left)

variable {n extent count : Nat} {snaps : Fin n → IMRSnapshot} {accounts : Fin n → Account}
  {leftovers : Fin n → DataSubset} {k : Fin n}

/-- What the ranks of a cohort stage in, and what they have staged and protected in it. Each rank knows what the others
have protected, and its copy is of what the left rank has protected, but for what that one has staged since. -/
structure Accounted (snaps : Fin n → IMRSnapshot) (extent count : Nat) (accounts : Fin n → Account)
    (leftovers : Fin n → DataSubset) : Prop where
  holds : ∀ k : Fin n, (snaps k).Holds k n extent count (accounts k) (leftovers k)
  aligned : ∀ k, (snaps k).buf.size % extent = 0
  known : ∀ k, (snaps k).protectedSubsets = List.ofFn fun i => (accounts i).protectedBy
  copied : ∀ k, (accounts k).copied = (accounts (left k)).protectedBy
  copyValue : ∀ k, ∀ i ∈ (accounts (left k)).protectedBy.idxs, i ∉ (accounts (left k)).staged.idxs →
    (accounts k).copyValue i = (accounts (left k)).value i

/-- What the accounts say has been committed, if nothing is staged. -/
def Account.record (accounts : Fin n → Account) : CommitRecord n where
  protectedBy k := (accounts k).protectedBy
  value k := (accounts k).value

/-- What a rank stages adds to its account: what is protected or copied stays, and so do the values of what is protected
and not staged. -/
structure Account.Extends (a a' : Account) : Prop where
  protectedBy : a'.protectedBy = a.protectedBy
  copied : a'.copied = a.copied
  copyValue : a'.copyValue = a.copyValue
  staged : a.staged.idxs ⊆ a'.staged.idxs
  value : ∀ i ∈ a.protectedBy.idxs, i ∉ a'.staged.idxs → a'.value i = a.value i

theorem Account.Extends.refl (a : Account) : a.Extends a :=
  ⟨rfl, rfl, rfl, Finset.Subset.refl _, fun _ _ _ => rfl⟩

theorem zipWith_ofFn {α β γ : Type} (op : α → β → γ) (f : Fin n → α) (g : Fin n → β) :
    List.zipWith op (List.ofFn f) (List.ofFn g) = List.ofFn fun i => op (f i) (g i) := by
  refine List.ext_getElem (by simp) fun i _ _ => ?_
  simp

namespace Accounted

/-- What the ranks stage leaves what they have protected, and their copies. -/
theorem stage (h : Accounted snaps extent count accounts leftovers) {staged : Fin n → IMRSnapshot}
    {accounts' : Fin n → Account} (hextends : ∀ k, (accounts k).Extends (accounts' k))
    (hholds : ∀ k : Fin n, (staged k).Holds k n extent count (accounts' k) (leftovers k))
    (haligned : ∀ k, (staged k).buf.size % extent = 0)
    (hknown : ∀ k, (staged k).protectedSubsets = (snaps k).protectedSubsets) :
    Accounted staged extent count accounts' leftovers := by
  refine ⟨hholds, haligned, fun k => ?_, fun k => ?_, fun k i hi hnot => ?_⟩
  · rw [hknown k, h.known k]
    exact congrArg List.ofFn (funext fun i => (hextends i).protectedBy.symm)
  · rw [(hextends k).copied, (hextends (left k)).protectedBy]
    exact h.copied k
  · rw [(hextends (left k)).protectedBy] at hi
    rw [(hextends k).copyValue, (hextends (left k)).value i hi hnot]
    exact h.copyValue k i hi fun hin => hnot ((hextends (left k)).staged hin)

/-- What is staged becomes protected on all ranks, each of which knows what the others had staged. -/
theorem store (h : Accounted snaps extent count accounts leftovers) {stored : Fin n → IMRSnapshot}
    (hholds : ∀ k : Fin n, (stored k).Holds k n extent count ((accounts k).store (accounts (left k))) (leftovers k))
    (haligned : ∀ k, (stored k).buf.size % extent = 0) (hknown : ∀ k, (stored k).protectedSubsets =
      List.zipWith (· + ·) (snaps k).protectedSubsets (List.ofFn fun i => (accounts i).staged)) :
    Accounted stored extent count (fun k => (accounts k).store (accounts (left k))) leftovers := by
  refine ⟨hholds, haligned, fun k => ?_, fun k => ?_, fun k i hi _ => ?_⟩
  · rw [hknown k, h.known k]
    exact zipWith_ofFn _ _ _
  · change (accounts k).copied + _ = (accounts (left k)).protectedBy + _
    rw [h.copied]
  · change (if i ∈ (accounts (left k)).staged.idxs then _ else _) = (accounts (left k)).value i
    split
    next => rfl
    next hnot => exact h.copyValue k i ((DataSubset.mem_add.mp hi).resolve_right hnot) hnot

/-- Snapshots with nothing staged keep what the accounts say, if the left ranks have protected again what was left over
in the copies. -/
theorem keeps (h : Accounted snaps extent count accounts leftovers) (hstored : ∀ k, (accounts k).staged = ∅)
    (hcovers : ∀ k, (leftovers k).idxs ⊆ (accounts (left k)).protectedBy.idxs) (k : Fin n) :
    (snaps k).Keeps k extent count (Account.record accounts) := by
  have hk := h.holds k
  obtain ⟨value, hcopy, hvalues⟩ := hk.copy
  have hcopied : leftovers k + (accounts k).copied = (accounts (left k)).protectedBy := by
    rw [h.copied k]
    exact congrArg DataSubset.mk (Finset.union_eq_right.mpr (hcovers k))
  rw [hcopied] at hcopy
  refine ⟨⟨hk.own.elmSize, hk.elmMaxCount, hcopy.elmSize, hk.copyMaxCount⟩, hk.own.cohortRank, h.known k, ?_,
    h.aligned k, hcopy.cohortRank, hcopy.stagedSubset, ?_⟩
  · exact ⟨fun i hi => hk.own.room i (Finset.mem_union_right _ hi),
      fun i hi => hk.own.values i (Finset.mem_union_right _ hi)⟩
  · refine ⟨fun i hi => hcopy.room i (Finset.mem_union_left _ hi), fun i hi c hc => ?_⟩
    have hunstaged : i ∉ (accounts (left k)).staged.idxs := by
      rw [hstored (left k)]
      exact Finset.notMem_empty i
    have hin : i ∈ (accounts k).copied.idxs := by
      rw [h.copied k]
      exact hi
    rw [hcopy.values i (Finset.mem_union_left _ hi) c hc, hvalues i hin c hc, h.copyValue k i hi hunstaged]
    rfl

theorem below (h : Accounted snaps extent count accounts leftovers) : (Account.record accounts).Below count :=
  fun k i hi => (h.holds k).below i (Finset.mem_union_right _ hi)

end Accounted

theorem DataSnapshot.addAndFit_protectedSubsets (s : DataSnapshot) (subset : DataSubset) :
    (s.addAndFit subset).protectedSubsets = s.protectedSubsets := by
  unfold DataSnapshot.addAndFit
  split <;> rfl

namespace UserMember

variable {m m' : UserMember} {memory : Nat → UInt8} {subset : Specifier} {rank size : Nat} {a : Account}
  {leftover : DataSubset}

theorem stage_upTo (hc : m.Counted) (h : m.stage memory subset = .ok m') {i : Nat} (hin : i ∈ subset)
    (hb : Below m.count i) : i ∈ (subset.upTo m.count).idxs := by
  obtain ⟨len, _, hreach, _⟩ := stage_cases h
  by_cases hzero : m.count = 0
  · cases subset with
    | bounded s => exact DataSubset.mem_upTo.mpr ⟨of_decide_eq_true hin, hb⟩
    | unbounded p =>
      change m.userData.size = some len at hreach
      rw [hc.2, hzero] at hreach
      cases hreach
  · exact (Specifier.mem_upTo hzero).mpr ⟨hin, hb.resolve_left hzero⟩

/-- What has been protected on a rank is not changed by what it stages. -/
theorem stage_extends (hc : m.Counted) (hm : m.member.stageSnapshot.Holds rank size m.datatype.extent m.count a leftover)
    (h : m.stage memory subset = .ok m') : a.Extends (a.stage subset m.count (m.element memory)) ∧
      m'.member.stageSnapshot.protectedSubsets = m.member.stageSnapshot.protectedSubsets := by
  refine ⟨⟨rfl, rfl, rfl, fun i hi => DataSubset.mem_add.mpr (Or.inl hi), fun i hi hnot => ?_⟩, ?_⟩
  · have hout : i ∉ subset := fun hin =>
      hnot (DataSubset.mem_add.mpr (Or.inr (stage_upTo hc h hin (hm.below i (Finset.mem_union_right _ hi)))))
    exact if_neg hout
  · obtain ⟨_, _, _, _, _, _, _, rfl⟩ := stage_cases h
    exact DataSnapshot.addAndFit_protectedSubsets _ _

/-- A stage leaves whole elements in the buffer. -/
theorem stage_aligned (hm : m.member.stageSnapshot.Holds rank size m.datatype.extent m.count a leftover)
    (h : m.stage memory subset = .ok m') : m'.member.stageSnapshot.buf.size % m.datatype.extent = 0 := by
  obtain ⟨_, _, _, _, _, hwhole, _, rfl⟩ := stage_cases h
  rw [hm.own.elmSize] at hwhole
  dsimp only
  rw [DataSnapshot.addAndFit_size hm.own.cohortRank hm.own.stagedSubset, hm.own.elmSize]
  exact max_aligned hwhole (Nat.mul_mod_left _ _)

/-- A member of so many elements of a datatype. -/
structure Shaped (m : UserMember) (count : Nat) (dtype : Datatype) : Prop where
  counted : m.Counted
  count_eq : m.count = count
  datatype : m.datatype = dtype

theorem Shaped.setStage {count : Nat} {dtype : Datatype} (h : m.Shaped count dtype) (s : IMRSnapshot) :
    ({ m with member := { m.member with stageSnapshot := s } } : UserMember).Shaped count dtype :=
  ⟨h.counted, h.count_eq, h.datatype⟩

/-- The account of a rank that is asked to stage in a store. -/
def accountAsked (m : UserMember) (count : Nat) (memory : Nat → UInt8) (subset : Option Specifier) (a : Account) :
    Account := subset.elim a fun s => a.stage s count (m.element memory)

theorem stageAsked_holds {count : Nat} {dtype : Datatype} {asked : Option Specifier} (hs : m.Shaped count dtype)
    (hm : m.member.stageSnapshot.Holds rank size dtype.extent count a leftover)
    (h : m.stageAsked memory asked = .ok m') :
    m'.Shaped count dtype ∧
      m'.member.stageSnapshot.Holds rank size dtype.extent count (m.accountAsked count memory asked a) leftover ∧
      a.Extends (m.accountAsked count memory asked a) ∧
      (m.member.stageSnapshot.buf.size % dtype.extent = 0 → m'.member.stageSnapshot.buf.size % dtype.extent = 0) ∧
      m'.member.stageSnapshot.protectedSubsets = m.member.stageSnapshot.protectedSubsets := by
  cases asked with
  | none =>
    cases Except.ok.inj h
    exact ⟨hs, hm, .refl a, id, rfl⟩
  | some subset =>
    rw [← hs.datatype, ← hs.count_eq] at hm
    obtain ⟨hextends, hprotected⟩ := stage_extends hs.counted hm h
    have hholds := stage_holds hs.counted hm h
    have haligned := stage_aligned hm h
    rw [hs.datatype] at haligned
    rw [hs.count_eq] at hextends
    rw [hs.count_eq, hs.datatype] at hholds
    obtain ⟨_, _, _, _, _, _, _, rfl⟩ := stage_cases h
    exact ⟨hs.setStage _, hholds, hextends, fun _ => haligned, hprotected⟩

end UserMember

/-- Ranks that stage what the one at the left does, all stage the same. -/
theorem BuddyMember.eq_of_eq_left {α : Type} {f : Fin n → α} (h : ∀ k, f k = f (left k)) (k l : Fin n) : f k = f l := by
  have hzero : ∀ (i : Nat) (hi : i < n), f ⟨i, hi⟩ = f ⟨0, by omega⟩ := by
    intro i
    induction i with
    | zero => exact fun _ => rfl
    | succ i ih =>
      intro hi
      have hleft : left ⟨i + 1, hi⟩ = ⟨i, by omega⟩ := by simp [left]
      rw [h ⟨i + 1, hi⟩, hleft]
      exact ih (by omega)
  exact (hzero k k.isLt).trans (hzero l l.isLt).symm

namespace UserMember

open BuddyMember (eq_of_eq_left)

/-- What a rank takes the others to have staged, in a store that protects that. -/
theorem protect_known {known stored : Fin n → IMRSnapshot} (h : protect (.imr .buddy) known = .ok stored) (k : Fin n) :
    (stored k).protectedSubsets = List.zipWith (· + ·) (known k).protectedSubsets (known k).stagedSubsets := by
  obtain ⟨s, _, hs, _, _, hdata⟩ := protect_own h k
  rw [hs]
  change List.zipWith (· + ·) s.toDataSnapshot.protectedSubsets s.toDataSnapshot.stagedSubsets = _
  rw [hdata]

/-- A store of ranks that tell each other what they have staged, or have all staged the same. -/
theorem store_accounted (varying : Bool) (h : Accounted snaps extent count accounts leftovers)
    (hsame : varying = false → ∀ k, (accounts k).staged = (accounts (left k)).staged) :
    ∃ stored, protect (.imr .buddy) (if varying then exchange snaps else fun k => spread (snaps k)) = .ok stored ∧
      Accounted stored extent count (fun k => (accounts k).store (accounts (left k))) leftovers := by
  obtain ⟨stored, hstored, hholds⟩ := store_known varying h.holds hsame
  refine ⟨stored, hstored, h.store (fun k => (hholds k).1) (fun k => (hholds k).2.symm ▸ h.aligned k) fun k => ?_⟩
  rw [protect_known hstored k]
  have hstaged : ∀ i, (snaps i).stagedSubset = some (accounts i).staged := fun i => stagedSubset_eq (h.holds i).own
  cases varying with
  | true =>
    change List.zipWith _ (snaps k).protectedSubsets (List.ofFn fun i => (snaps i).stagedSubset.getD ∅) = _
    simp only [hstaged, Option.getD_some]
  | false =>
    change List.zipWith _ (snaps k).protectedSubsets
      ((snaps k).stagedSubsets.map fun _ => (snaps k).stagedSubset.getD ∅) = _
    congr 1
    refine List.ext_getElem ?_ fun i hi _ => ?_
    · rw [List.length_map, (h.holds k).ranks, List.length_ofFn]
    · have hi : i < n := by
        rw [List.length_map, (h.holds k).ranks] at hi
        exact hi
      rw [List.getElem_map, List.getElem_ofFn, hstaged k]
      exact eq_of_eq_left (f := fun k => (accounts k).staged) (hsame rfl) k ⟨i, hi⟩

end UserMember

/-- The runs of a cohort that stages in members and stores them, with the account of what each rank has staged and
protected. In a store that is not of varying subsets, the ranks are to have staged the same. -/
inductive StoreRun (count : Nat) (start : Fin n → UserMember) : (Fin n → Account) → (Fin n → UserMember) → Prop
  | start : StoreRun count start (fun _ => .empty (fun _ _ => 0) fun _ _ => 0) start
  | stage {accounts : Fin n → Account} {ms : Fin n → UserMember} {m : UserMember} (k : Fin n) (memory : Nat → UInt8)
      (subset : Specifier) (hr : StoreRun count start accounts ms) (h : (ms k).stage memory subset = .ok m) :
      StoreRun count start (Function.update accounts k ((accounts k).stage subset count ((ms k).element memory)))
        (Function.update ms k m)
  | store {accounts asked : Fin n → Account} {ms ms' : Fin n → UserMember} (varying : Bool)
      (memory : Fin n → Nat → UInt8) (subsets : Fin n → Option Specifier) (hr : StoreRun count start accounts ms)
      (hasked : asked = fun k => (ms k).accountAsked count (memory k) (subsets k) (accounts k))
      (hsame : varying = false → ∀ k, (asked k).staged = (asked (left k)).staged)
      (h : UserMember.store (.imr .buddy) varying ms memory subsets = .ok ms') :
      StoreRun count start (fun k => (asked k).store (asked (left k))) ms'

/-- Members that stage in snapshots which have just been taken for that, whatever was left over in their copies. -/
structure Blank (start : Fin n → UserMember) (count : Nat) (dtype : Datatype) (leftovers : Fin n → DataSubset) :
    Prop where
  shaped : ∀ k, (start k).Shaped count dtype
  stage : ∀ k : Fin n, ∃ s : IMRSnapshot, s.Spare k dtype.extent count ∧
    (start k).member.stageSnapshot = s.initCohort k n ∧ (s.initCohort k n).copied = leftovers k

theorem Blank.accounted {start : Fin n → UserMember} {dtype : Datatype} (h : Blank start count dtype leftovers) :
    Accounted (fun k => (start k).member.stageSnapshot) dtype.extent count
      (fun _ => .empty (fun _ _ => 0) fun _ _ => 0) leftovers := by
  refine ⟨fun k => ?_, fun k => ?_, fun k => ?_, fun _ => rfl, fun _ i hi => absurd hi (Finset.notMem_empty i)⟩
  · obtain ⟨s, hspare, hstage, hcopied⟩ := h.stage k
    rw [hstage, ← hcopied]
    exact (hspare.initCohort k.isLt _ _).1
  · obtain ⟨s, hspare, hstage, _⟩ := h.stage k
    have hzero := (hspare.initCohort k.isLt (fun _ _ => 0) fun _ _ => 0).2
    rw [hstage, hzero]
    exact Nat.zero_mod dtype.extent
  · obtain ⟨s, hspare, hstage, _⟩ := h.stage k
    rw [hstage]
    change (s.toDataSnapshot.initCohort k n).protectedSubsets = _
    unfold DataSnapshot.initCohort
    rw [hspare.fresh.cohortRank]
    change DataSnapshot.resizeSubsets s.protectedSubsets n = _
    unfold DataSnapshot.resizeSubsets
    rw [hspare.fresh.protectedSubsets, List.nil_append]
    refine List.ext_getElem (by simp) fun i _ _ => ?_
    simp [Account.empty]

/-- Members that have just been created. -/
theorem Blank.create {depth : Nat} {data : Fin n → Nat} {dtype : Datatype} {junk : Fin n → Nat → Nat → UInt8}
    (hpos : 0 < dtype.extent) :
    Blank (fun k => .create (.imr .buddy) depth k n (data k) count dtype (junk k)) count dtype fun _ => ∅ := by
  refine ⟨fun k => ?_, fun k => ?_⟩
  · have hcount : (UserMember.create (.imr .buddy) depth k n (data k) count dtype (junk k)).count = count :=
      UserMember.count_userBytes hpos rfl
    exact ⟨⟨hpos, by rw [hcount]; rfl⟩, hcount, rfl⟩
  · exact ⟨_, IMRSnapshot.create_spare k dtype.extent count (junk k 0) (junk k 1), rfl,
      IMRSnapshot.create_copied k.isLt⟩

namespace StoreRun

variable {start ms : Fin n → UserMember} {dtype : Datatype}

/-- The accounts of a run are right, whatever is staged and stored in it. -/
theorem accounted (hstart : Blank start count dtype leftovers) (h : StoreRun count start accounts ms) :
    (∀ k, (ms k).Shaped count dtype) ∧
      Accounted (fun k => (ms k).member.stageSnapshot) dtype.extent count accounts leftovers := by
  induction h with
  | start => exact ⟨hstart.shaped, hstart.accounted⟩
  | @stage accounts ms m k memory subset _ hm ih =>
    obtain ⟨hshaped, hacc⟩ := ih
    have hasked : (ms k).stageAsked memory (some subset) = .ok m := hm
    obtain ⟨hs, hholds, hextends, haligned, hprotected⟩ := UserMember.stageAsked_holds (hshaped k) (hacc.holds k) hasked
    refine ⟨fun l => ?_, hacc.stage (fun l => ?_) (fun l => ?_) (fun l => ?_) fun l => ?_⟩
    · by_cases hl : l = k
      · subst hl
        rw [Function.update_self]
        exact hs
      · rw [Function.update_of_ne hl]
        exact hshaped l
    · by_cases hl : l = k
      · subst hl
        rw [Function.update_self]
        exact hextends
      · rw [Function.update_of_ne hl]
        exact .refl _
    · by_cases hl : l = k
      · subst hl
        rw [Function.update_self, Function.update_self]
        exact hholds
      · rw [Function.update_of_ne hl, Function.update_of_ne hl]
        exact hacc.holds l
    · by_cases hl : l = k
      · subst hl
        rw [Function.update_self]
        exact haligned (hacc.aligned l)
      · rw [Function.update_of_ne hl]
        exact hacc.aligned l
    · by_cases hl : l = k
      · subst hl
        rw [Function.update_self]
        exact hprotected
      · rw [Function.update_of_ne hl]
  | @store accounts asked ms ms' varying memory subsets _ hasked hsame h ih =>
    obtain ⟨hshaped, hacc⟩ := ih
    obtain ⟨mid, hmid, h⟩ := Except.bind_eq_ok_iff.mp h
    obtain ⟨stored, hstored, h⟩ := Except.bind_eq_ok_iff.mp h
    cases Except.ok.inj h
    have hone := fun k => UserMember.stageAsked_holds (hshaped k) (hacc.holds k)
      (UserMember.stageAll_eq_ok_iff.mp hmid k)
    have hstaged : Accounted (fun k => (mid k).member.stageSnapshot) dtype.extent count asked leftovers := by
      subst hasked
      exact hacc.stage (fun k => (hone k).2.2.1) (fun k => (hone k).2.1) (fun k => (hone k).2.2.2.1 (hacc.aligned k))
        fun k => (hone k).2.2.2.2
    obtain ⟨stored', hstored', hfinal⟩ := UserMember.store_accounted varying hstaged hsame
    cases hstored.symm.trans hstored'
    exact ⟨fun k => (hone k).1.setStage _, hfinal⟩

end StoreRun

/-- A member of the ranks of a cohort that has been staged in and stored, and what is to be committed of it. -/
structure StoredMember (n : Nat) where
  count : Nat
  dtype : Datatype
  start : Fin n → UserMember
  leftovers : Fin n → DataSubset
  accounts : Fin n → Account
  members : Fin n → UserMember
  blank : Blank start count dtype leftovers
  run : StoreRun count start accounts members
  stored : ∀ k, (accounts k).staged = ∅
  covers : ∀ k, (leftovers k).idxs ⊆ (accounts (left k)).protectedBy.idxs

namespace StoredMember

def record (x : StoredMember n) : CommitRecord n := Account.record x.accounts

theorem keeps (x : StoredMember n) (k : Fin n) :
    (x.members k).member.stageSnapshot.Keeps k x.dtype.extent x.count x.record :=
  (x.run.accounted x.blank).2.keeps x.stored x.covers k

theorem below (x : StoredMember n) : x.record.Below x.count := (x.run.accounted x.blank).2.below

theorem stagedSubset (x : StoredMember n) (k : Fin n) :
    (x.members k).member.stageSnapshot.stagedSubset = some ∅ := by
  rw [UserMember.stagedSubset_eq ((x.run.accounted x.blank).2.holds k).own, x.stored k]

end StoredMember

namespace GroupState

variable {g : GroupState} {depth : Nat} {strayed : Prop}

theorem member?_isSome_iff {id : Int} : (g.member? id).isSome ↔ ∃ m ∈ g.members, m.1 = id := by
  unfold member?
  rw [Option.isSome_map, List.find?_isSome]
  simp

/-- A commit of members that have stored all they staged. -/
theorem dataCommit_stored (h : g.Tracked (.imr .buddy) depth strayed)
    (hstored : ∀ m ∈ g.members, m.2.hasUnstoredData = false) (junk partnerJunk : Int → Nat → UInt8) :
    (g.dataCommit junk partnerJunk).timestamps = Ledger.addListed (depth + 1) g.nextTimestamp g.timestamps ∧
      (∀ id, (g.member? id).isSome → ((g.dataCommit junk partnerJunk).member? id).isSome) ∧
      ∀ id m, (g.dataCommit junk partnerJunk).member? id = some m →
        (m.commitSnapshots.find? g.nextTimestamp).isSome := by
  unfold dataCommit
  rcases g.bumpTimestamp.commit_cases junk partnerJunk with ⟨⟨m, hm, hu⟩, _⟩ | ⟨_, members, hms, heq⟩
  · rw [hstored m hm] at hu
    cases hu
  · rw [heq]
    dsimp only
    obtain ⟨hlisted, _⟩ := h.commit_ledger heq
    obtain ⟨hholds, _⟩ := h.ordered.holds_commit heq
    refine ⟨hlisted, fun id hid => ?_, fun id m hm => hholds.2 _ (member?_mem hm)⟩
    obtain ⟨m, hm, rfl⟩ := member?_isSome_iff.mp hid
    obtain ⟨m', hm', hmm⟩ := List.exists_right_of_forall₂ hms hm
    exact member?_isSome_iff.mpr ⟨m', hm', (commitMember_eq_ok hmm).1⟩

end GroupState

namespace UserMember

variable {m : UserMember} {rank : Fin n} {timestamp : Int} {r : CommitRecord n}

/-- What is loaded of a snapshot does not depend on what is staged in it. -/
theorem unload_stored {s : DataSnapshot} {data count : Nat} {protectedBy : DataSubset} {value : Nat → Nat → UInt8}
    (hpos : 0 < m.datatype.extent) (hsize : s.elmSize = m.datatype.extent)
    (hstores : s.buf.Stores m.datatype.extent protectedBy value) (hfits : s.buf.size % m.datatype.extent = 0)
    (memory : Nat → UInt8) :
    ∃ loaded, m.unload s protectedBy data (some count) memory = .ok loaded ∧
      (∀ i ∈ protectedBy.idxs, i < count → ∀ b < m.datatype.extent,
        loaded (data + (i * m.datatype.extent + b)) = value i b) ∧
      ∀ x, (∀ i ∈ protectedBy.idxs, i < count → ∀ b < m.datatype.extent,
        x ≠ data + (i * m.datatype.extent + b)) → loaded x = memory x := by
  have hhas : ({ s with cohortRank := some 0, stagedSubsets := [∅], protectedSubsets := [protectedBy] } :
      DataSnapshot).Has 0 m.datatype.extent ∅ protectedBy value := by
    refine ⟨rfl, rfl, rfl, hsize, fun i hi => absurd hi (Finset.notMem_empty i), fun i hi => ?_, fun i hi => ?_⟩
    · exact hstores.room i ((Finset.mem_union.mp hi).resolve_left (Finset.notMem_empty i))
    · exact hstores.values i ((Finset.mem_union.mp hi).resolve_left (Finset.notMem_empty i))
  exact unload_ok hpos hhas hfits memory

/-- A rank that has a snapshot loads what is recorded of it. -/
theorem restores_of_keeps {s : IMRSnapshot} (hpos : 0 < m.datatype.extent)
    (hfind : m.member.findSnapshot timestamp = .ok s) (hkeeps : s.Keeps rank m.datatype.extent count r) :
    m.Restores timestamp ⟨fun i => i ∈ (r.protectedBy rank).idxs, r.value rank⟩ := by
  intro memory target count hload
  have hsubset : s.protectedSubset.getD ∅ = r.protectedBy rank := by
    unfold DataSnapshot.protectedSubset
    rw [hkeeps.cohortRank, Option.bind_some, ← List.getD_eq_getElem?_getD]
    exact BuddyMember.known_getD hkeeps.known rank
  obtain ⟨loaded, hl, hvalues, hothers⟩ := unload_stored (m := m) hpos hkeeps.sized.elmSize hkeeps.data
    hkeeps.aligned memory
  exact ⟨_, load_of_unload hload hfind hsubset hl, fun i => Iff.rfl, hvalues, hothers⟩

end UserMember

/-- Each rank loads what it has stored of a member. -/
def GroupState.Loads (gs : Fin n → GroupState) (id ts : Int) (x : StoredMember n) : Prop :=
  ∀ k, ∃ m, (gs k).member? id = some m ∧ ∀ u : UserMember, u.member = m → u.datatype.extent = x.dtype.extent →
    u.Restores ts ⟨fun i => i ∈ (x.accounts k).protectedBy.idxs, (x.accounts k).value⟩

theorem GroupState.Restored.loads {gs : Fin n → GroupState} {log : CommitHistory n} {id ts : Int} {x : StoredMember n}
    (h : Restored gs log id ts) (hrecord : log.record id ts = x.record) (hsize : 0 < log.elmSize id)
    (hextent : log.elmSize id = x.dtype.extent) (hts : 0 ≤ ts) : Loads gs id ts x := by
  intro k
  obtain ⟨m, s, hm, hs, hkeeps⟩ := h k
  refine ⟨m, hm, fun u hu hu' => ?_⟩
  obtain ⟨hmem, rfl⟩ := IndexedSet.find?_some hs
  subst hu
  rw [hrecord, hextent, ← hu'] at hkeeps
  exact UserMember.restores_of_keeps (by omega) (UserMember.findSnapshot_of_mem hmem hts) hkeeps

namespace CommitHistory

open Classical in
/-- A history with what has been stored of members, for a timestamp that is to come. -/
noncomputable def withStored (log : CommitHistory n) (T : Int) (there : Int → Prop) (stored : Int → StoredMember n) :
    CommitHistory n where
  elmSize := log.elmSize
  elmCount := log.elmCount
  record id ts := if ts = T ∧ there id then (stored id).record else log.record id ts

end CommitHistory

namespace GroupRun

open GroupState (Restored)

variable {log : CommitHistory n} {timestart : Int} {depth : Nat} {c : GroupRun n}

/-- The commits of ranks, in some order. -/
def commitAll (junk partnerJunk : Fin n → Int → Nat → UInt8) (ks : List (Fin n)) (c : GroupRun n) : GroupRun n :=
  ks.foldl (fun c k => c.commit k (junk k) (partnerJunk k)) c

/-- What each member of a rank is to commit has been stored. -/
def Stages (c : GroupRun n) (stored : Int → StoredMember n) (log : CommitHistory n) : Prop :=
  ∀ k, ∀ m ∈ (c.groups k).members, m.2.stageSnapshot = ((stored m.1).members k).member.stageSnapshot ∧
    log.elmSize m.1 = (stored m.1).dtype.extent ∧ log.elmCount m.1 = (stored m.1).count

variable {stored : Int → StoredMember n} {T : Int}

theorem commitAll_conforming (h : Conforming timestart depth log c) {ks : List (Fin n)} (hnodup : ks.Nodup)
    (hcovered : ∀ k ∈ ks, (c.groups k).Covered k log) (junk partnerJunk : Fin n → Int → Nat → UInt8) :
    Conforming timestart depth log (commitAll junk partnerJunk ks c) ∧
      ∀ k, (commitAll junk partnerJunk ks c).groups k =
        if k ∈ ks then (c.groups k).dataCommit (junk k) (partnerJunk k) else c.groups k := by
  induction ks generalizing c with
  | nil => exact ⟨h, fun k => (if_neg List.not_mem_nil).symm⟩
  | cons first ks ih =>
    obtain ⟨hnotin, hnodup⟩ := List.nodup_cons.mp hnodup
    have hothers : ∀ k, k ≠ first → (c.commit first (junk first) (partnerJunk first)).groups k = c.groups k :=
      fun k hk => Function.update_of_ne hk _ _
    have hne : ∀ k ∈ ks, k ≠ first := fun k hk heq => hnotin (heq ▸ hk)
    obtain ⟨hconforming, hgroups⟩ := ih (h.commit first (junk first) (partnerJunk first)
      (hcovered first List.mem_cons_self)) hnodup fun k hk => by
        rw [hothers k (hne k hk)]
        exact hcovered k (List.mem_cons_of_mem _ hk)
    refine ⟨hconforming, fun k => (hgroups k).trans ?_⟩
    by_cases hk : k = first
    · subst hk
      rw [if_neg hnotin, if_pos List.mem_cons_self]
      exact commit_groups_self c k _ _
    · rw [hothers k hk]
      simp [hk]

/-- The members that ranks have staged in and stored are committed as the history with what has been stored says. -/
theorem stored_covered (h : Conforming timestart depth log c) (hstages : c.Stages stored log)
    (hT : ∀ k, (c.groups k).nextTimestamp = T) :
    ∃ log', Conforming timestart depth log' c ∧ (∀ k, (c.groups k).Covered k log') ∧
      ∀ id, (∃ k, ((c.groups k).member? id).isSome) →
        log'.record id T = (stored id).record ∧ log'.elmSize id = (stored id).dtype.extent := by
  have hthere : ∀ {k : Fin n} {m : Int × DataMember}, m ∈ (c.groups k).members →
      ∃ k, ((c.groups k).member? m.1).isSome :=
    fun {k} {m} hm => ⟨k, GroupState.member?_isSome_iff.mpr ⟨m, hm, rfl⟩⟩
  refine ⟨log.withStored T (fun id => ∃ k, ((c.groups k).member? id).isSome) stored, ?_, ?_, fun id hid => ?_⟩
  · refine h.revise ⟨h.sound.elmSize_pos, fun id ts => ?_⟩ fun k m hm => ⟨rfl, rfl, fun s hs => ?_⟩
    · unfold CommitHistory.withStored
      dsimp only
      split
      next hin =>
        obtain ⟨k, hk⟩ := hin.2
        obtain ⟨m, hm, rfl⟩ := GroupState.member?_isSome_iff.mp hk
        rw [(hstages k m hm).2.2]
        exact (stored m.1).below
      next => exact h.sound.below id ts
    · refine if_neg fun hin => ?_
      obtain ⟨hlo, hle⟩ := (h.reachable.tracked.2 k).ordered.member_le m hm s hs
      have hlt := GroupState.lt_nextTimestamp hlo hle
      rw [hT k, hin.1] at hlt
      exact Int.lt_irrefl _ hlt
  · intro k _ m hm
    obtain ⟨hstage, hsize, hcount⟩ := hstages k m hm
    have hrecord : (log.withStored T (fun id => ∃ k, ((c.groups k).member? id).isSome) stored).record m.1
        (c.groups k).nextTimestamp = (stored m.1).record := if_pos ⟨hT k, hthere hm⟩
    rw [hrecord, hstage]
    change IMRSnapshot.Keeps _ k (log.elmSize m.1) (log.elmCount m.1) _
    rw [hsize, hcount]
    exact (stored m.1).keeps k
  · obtain ⟨k, hk⟩ := hid
    obtain ⟨m, hm, rfl⟩ := GroupState.member?_isSome_iff.mp hk
    exact ⟨if_pos ⟨rfl, k, hk⟩, (hstages k m hm).2.1⟩

/-- Two ranks that have stored an element of one byte. -/
def pairStored : StoredMember 2 where
  count := 1
  dtype := ⟨1, 1⟩
  start := ReuseRun.first.members
  leftovers _ := ∅
  accounts k := Account.store
    ((ReuseRun.first.members k).accountAsked 1 (fun _ => 7) (some ReuseRun.element) (.empty (fun _ _ => 0) fun _ _ => 0))
    ((ReuseRun.first.members (left k)).accountAsked 1 (fun _ => 7) (some ReuseRun.element)
      (.empty (fun _ _ => 0) fun _ _ => 0))
  members := ReuseRun.storedFirst
  blank := .create Nat.one_pos
  run := .store true (fun _ _ => 7) (fun _ => some ReuseRun.element) .start rfl nofun ReuseRun.store_first
  stored _ := rfl
  covers _ i hi := absurd hi (Finset.notMem_empty i)

/-- They have a group of one member, and have not committed it yet. -/
def pairRun : GroupRun 2 where
  groups k := { fresh 0 0 k with members := [(7, { DataMember.create (.imr .buddy) 0 k 2 1 1 fun _ _ => 0 with
    stageSnapshot := (ReuseRun.storedFirst k).member.stageSnapshot })] }
  committed _ := []
  strayed := False

theorem pairRun_conforming : Conforming 0 0 pairHistory pairRun := by
  have hstart : Conforming 0 0 pairHistory ⟨fresh 0 0, fun _ => [], False⟩ :=
    .start pairHistory_sound (Int.le_refl 0)
  have hcreated := (hstart.create 0 7 (fun _ _ => 0) rfl).create 1 7 (fun _ _ => 0) rfl
  have hstaged := (hcreated.stage 0 7 (ReuseRun.storedFirst 0).member.stageSnapshot).stage 1 7
    (ReuseRun.storedFirst 1).member.stageSnapshot
  refine (congrArg (Conforming 0 0 pairHistory) ?_).mp hstaged
  unfold pairRun set
  congr 1
  funext k
  match k with
  | 0 => rfl
  | 1 => rfl

end GroupRun

end Fenix
