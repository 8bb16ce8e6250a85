import Fenix.StoreAgreement
import Fenix.SubsetExchange
import Mathlib.Algebra.Order.BigOperators.Group.List

namespace Fenix

namespace DataRegion

theorem object_length (r : DataRegion) : r.object.length = 32 := by
  unfold object
  simp only [List.length_append, length_leBytes]

theorem readWord_reads {v : Nat} (h : v ≤ sizeMax) : readWord.Reads (leBytes 8 v) v := by
  intro rest
  have hlen := length_leBytes 8 v
  unfold readWord
  rw [if_pos (by rw [List.length_append]; omega), List.take_left' hlen, List.drop_left' hlen,
    leValue_leBytes (Nat.lt_succ_of_le h)]

/-- A region is read back from its bytes. -/
theorem readObject_reads {r : DataRegion} (h : r.InSize) : readObject.Reads r.object r := by
  obtain ⟨hstop, hreps, hstride⟩ := h
  refine Reader.reads_bind (readWord_reads (r.block.trans hstop)) (Reader.reads_bind (readWord_reads hstop)
    (Reader.reads_bind (readWord_reads hreps) (Reader.reads_bind_last (readWord_reads hstride) ?_)))
  rw [dif_pos ⟨r.block, r.shape⟩]
  exact Reader.reads_pure r

end DataRegion

namespace RegionSubset

theorem flatMap_object_length (rs : List DataRegion) : (rs.flatMap DataRegion.object).length = 32 * rs.length := by
  induction rs with
  | nil => rfl
  | cons r rs ih =>
    rw [List.flatMap_cons, List.length_append, ih, DataRegion.object_length, List.length_cons]
    omega

theorem serialize_length (s : RegionSubset) : s.serialize.length = 32 * s.entries.length := flatMap_object_length s.entries

theorem deserialize_objects {rs : List DataRegion} (h : ∀ r ∈ rs, r.InSize) :
    deserialize (rs.flatMap DataRegion.object) = .ok (OrdSet.ofList rs) := by
  have hlen := flatMap_object_length rs
  unfold deserialize
  rw [if_pos (by omega), hlen, Nat.mul_div_cancel_left _ (by decide)]
  have hread : (DataRegion.readObject.count rs.length).Reads (rs.flatMap DataRegion.object) rs :=
    Reader.reads_count fun r hr => DataRegion.readObject_reads (h r hr)
  have hall := hread []
  rw [List.append_nil] at hall
  rw [hall]
  rfl

/-- The regions of a subset that are sent: where their bytes are more than an `int` can count only some of
them are. -/
def kept (s : RegionSubset) : List DataRegion := s.entries.take ((castInt s.serialize.length).toNat / 32)

/-- The bytes of a subset that are sent. -/
def segment (s : RegionSubset) : List UInt8 := s.kept.flatMap DataRegion.object

theorem segment_length (s : RegionSubset) : s.segment.length = 32 * s.kept.length := flatMap_object_length s.kept

theorem kept_sorted (s : RegionSubset) : s.kept.Pairwise (· < ·) := s.sorted.sublist (List.take_sublist _ _)

/-- Unless their number comes out negative the bytes that are sent are those of whole regions. -/
theorem castInt_serialize {s : RegionSubset} (h : 0 ≤ castInt s.serialize.length) :
    castInt s.serialize.length = s.segment.length := by
  rw [segment_length]
  unfold kept
  rw [List.length_take]
  rw [serialize_length] at h ⊢
  unfold castInt at h ⊢
  dsimp only at h ⊢
  split at h
  next hlt =>
    rw [if_pos hlt]
    omega
  next hlt =>
    rw [if_neg hlt]
    omega

theorem kept_of_le {s : RegionSubset} (h : 32 * s.entries.length ≤ 2147483647) : s.kept = s.entries := by
  unfold kept
  rw [serialize_length, castInt_eq_iff.mpr h]
  apply List.take_of_length_le
  omega

/-- A subset of which all regions are kept has no more bytes than an `int` can count. -/
theorem length_of_kept {s : RegionSubset} (h : OrdSet.ofList s.kept = s) : s.kept = s.entries := by
  have hentries := congrArg OrdSet.entries h
  rwa [OrdSet.entries_ofList s.kept_sorted] at hentries

theorem deserialize_segment {s : RegionSubset} (h : ∀ r ∈ s, r.InSize) :
    deserialize s.segment = .ok (OrdSet.ofList s.kept) :=
  deserialize_objects fun r hr => h r (List.mem_of_mem_take hr)

theorem serialize_eq (s : RegionSubset) : ∃ rest, s.serialize = s.segment ++ rest := by
  refine ⟨(s.entries.drop ((castInt s.serialize.length).toNat / 32)).flatMap DataRegion.object, ?_⟩
  unfold segment kept
  rw [← List.flatMap_append, List.take_append_drop]
  rfl

end RegionSubset

namespace SubsetExchange

open RegionSubset

section Copy

variable {pre seg post : List UInt8} {offset size : Int}

theorem copyFrom_append (hoffset : offset = pre.length) (hsize : size = seg.length) :
    copyFrom (pre ++ (seg ++ post)) offset size = .ok seg := by
  subst hoffset hsize
  unfold copyFrom
  rw [if_pos (by simp only [List.length_append]; omega), Int.toNat_natCast, Int.toNat_natCast, List.drop_left,
    List.take_left]

theorem copyFrom_ok {buf bytes : List UInt8} (h : copyFrom buf offset size = .ok bytes) : 0 ≤ size := by
  unfold copyFrom at h
  split at h
  next hb => exact hb.2.1
  next => cases h

/-- Bytes that replace others. -/
theorem copyTo_append {old : List UInt8} (hoffset : offset = pre.length) (hlen : old.length = seg.length) :
    copyTo (pre ++ (old ++ post)) offset seg = .ok (pre ++ (seg ++ post)) := by
  subst hoffset
  unfold copyTo
  rw [if_pos (by simp only [List.length_append]; omega), Int.toNat_natCast, List.take_left, ← hlen,
    ← List.drop_drop, List.drop_left, List.drop_left, List.append_assoc]

theorem copyFrom_serialize {s : RegionSubset} (h : 0 ≤ castInt s.serialize.length) :
    copyFrom s.serialize 0 (castInt s.serialize.length) = .ok s.segment := by
  have hsize := castInt_serialize h
  obtain ⟨rest, hrest⟩ := s.serialize_eq
  have hcopy : copyFrom ([] ++ (s.segment ++ rest)) 0 s.segment.length = .ok s.segment := copyFrom_append rfl rfl
  rw [List.nil_append] at hcopy
  rw [hsize, hrest, hcopy]

end Copy

section Exchange

/-- Where segments that are put one behind another start. -/
def offsets : Nat → List (List UInt8) → List Int
  | _, [] => []
  | t, seg :: segs => t :: offsets (t + seg.length) segs

def sizes (segs : List (List UInt8)) : List Int := segs.map fun seg => (seg.length : Int)

theorem displacements_eq {segs : List (List UInt8)} {t : Nat} (h : t + segs.flatten.length ≤ 2147483647) :
    displacements (sizes segs) t = .ok (offsets t segs, (t + segs.flatten.length : Nat)) := by
  induction segs generalizing t with
  | nil => rfl
  | cons seg segs ih =>
    rw [List.flatten_cons, List.length_append] at h ⊢
    have hnext : toInt ExchangeError.overflow ((t : Int) + seg.length) = .ok ((t + seg.length : Nat) : Int) :=
      toInt_ok (by unfold intMax; omega) (by unfold intMax; omega)
    unfold sizes at ih ⊢
    rw [List.map_cons, displacements, hnext, Except.ok_bind, ih (by omega), Except.ok_bind, Nat.add_assoc]
    rfl

/-- The sum of the sizes that is computed for a buffer is an `int`. -/
theorem length_of_displacements {segs : List (List UInt8)} {t : Nat} {r : List Int × Int} (ht : t ≤ 2147483647)
    (h : displacements (sizes segs) t = .ok r) : t + segs.flatten.length ≤ 2147483647 := by
  induction segs generalizing t r with
  | nil =>
    rw [List.flatten_nil, List.length_nil]
    omega
  | cons seg segs ih =>
    unfold sizes at ih h
    rw [List.map_cons, displacements] at h
    obtain ⟨next, hnext, h⟩ := Except.bind_eq_ok_iff.mp h
    obtain ⟨hval, hle⟩ := toInt_eq_ok hnext
    obtain ⟨r', hrest, _⟩ := Except.bind_eq_ok_iff.mp h
    subst hval
    rw [← Int.natCast_add] at hrest
    unfold intMax at hle
    have hlen := ih (by omega) hrest
    rw [List.flatten_cons, List.length_append]
    omega

/-- The bytes of all ranks fill a buffer one behind another. -/
theorem allgatherv_eq {sends segs : List (List UInt8)}
    (hsends : List.Forall₂ (fun send seg => copyFrom send 0 (seg.length : Nat) = .ok seg) sends segs)
    (done rest : List UInt8) (hrest : rest.length = segs.flatten.length) :
    allgatherv sends (sizes segs) (offsets done.length segs) (done ++ rest) = .ok (done ++ segs.flatten) := by
  induction hsends generalizing done rest with
  | nil =>
    rw [List.length_eq_zero_iff.mp (hrest.trans rfl)]
    rfl
  | @cons send seg sends segs hseg hsends ih =>
    rw [List.flatten_cons, List.length_append] at hrest
    have hsplit : rest = rest.take seg.length ++ rest.drop seg.length := (List.take_append_drop _ _).symm
    have hold : (rest.take seg.length).length = seg.length := by
      rw [List.length_take]
      omega
    have hdrop : (rest.drop seg.length).length = segs.flatten.length := by
      rw [List.length_drop]
      omega
    rw [hsplit]
    generalize rest.take seg.length = old at hold
    generalize rest.drop seg.length = others at hdrop
    unfold sizes at ih ⊢
    rw [List.map_cons, offsets, allgatherv, if_neg (by omega), hseg, Except.ok_bind, copyTo_append rfl hold,
      Except.ok_bind, List.flatten_cons]
    have hih := ih (done ++ seg) others hdrop
    rw [List.length_append, List.append_assoc, List.append_assoc] at hih
    exact hih

theorem nonneg_of_allgatherv {sends : List (List UInt8)} {counts displs : List Int} {buf out : List UInt8}
    (hsends : sends.length = counts.length) (hdispls : displs.length = counts.length)
    (h : allgatherv sends counts displs buf = .ok out) : ∀ size ∈ counts, 0 ≤ size := by
  induction counts generalizing sends displs buf with
  | nil => exact fun size hmem => absurd hmem List.not_mem_nil
  | cons c counts ih =>
    cases sends with
    | nil => cases hsends
    | cons send sends =>
      cases displs with
      | nil => cases hdispls
      | cons displ displs =>
        rw [allgatherv] at h
        split at h
        next => cases h
        next hc =>
          obtain ⟨bytes, _, h⟩ := Except.bind_eq_ok_iff.mp h
          obtain ⟨buf', _, h⟩ := Except.bind_eq_ok_iff.mp h
          intro size hmem
          cases List.mem_cons.mp hmem with
          | inl heq => omega
          | inr hmem => exact ih (Nat.succ.inj hsends) (Nat.succ.inj hdispls) h size hmem

theorem length_displs {counts : List Int} {t : Int} {r : List Int × Int} (h : displacements counts t = .ok r) :
    r.1.length = counts.length := by
  induction counts generalizing t r with
  | nil =>
    cases Except.ok.inj h
    rfl
  | cons c counts ih =>
    obtain ⟨next, _, h⟩ := Except.bind_eq_ok_iff.mp h
    obtain ⟨r', hrest, h⟩ := Except.bind_eq_ok_iff.mp h
    cases Except.ok.inj h
    exact congrArg (· + 1) (ih hrest)

/-- A buffer is taken apart where the segments meet. -/
theorem takeApart_eq {segs : List (List UInt8)} (done : List UInt8) :
    takeApart (done ++ segs.flatten) (sizes segs) (offsets done.length segs) = segs.mapM deserialize := by
  induction segs generalizing done with
  | nil => rfl
  | cons seg segs ih =>
    unfold sizes at ih ⊢
    rw [List.map_cons, offsets, takeApart, List.flatten_cons, copyFrom_append rfl rfl, Except.ok_bind, List.mapM_cons]
    have hih := ih (done ++ seg)
    rw [List.length_append, List.append_assoc] at hih
    rw [hih]

variable {n : Nat} {subsets : Fin n → List RegionSubset}

/-- Every rank has each rank's own subset at that rank's position, whatever the memory had in it. -/
def Exchanges (subsets : Fin n → List RegionSubset) : Prop :=
  ∀ memory, exchangeSubsets memory subsets = .ok fun _ => List.ofFn (own subsets)

def segments (subsets : Fin n → List RegionSubset) : List (List UInt8) := List.ofFn fun k => (own subsets k).segment

theorem map_ofFn {α β : Type} (f : Fin n → α) (g : α → β) : (List.ofFn f).map g = List.ofFn fun k => g (f k) :=
  List.map_ofFn

theorem forall₂_ofFn {α β : Type} {R : α → β → Prop} {f : Fin n → α} {g : Fin n → β} (h : ∀ k, R (f k) (g k)) :
    List.Forall₂ R (List.ofFn f) (List.ofFn g) := by
  rw [List.forall₂_iff_get]
  refine ⟨by rw [List.length_ofFn, List.length_ofFn], fun i hi hi' => ?_⟩
  simp only [List.get_ofFn]
  exact h _

theorem length_segments (subsets : Fin n → List RegionSubset) :
    (segments subsets).flatten.length = (List.ofFn fun k => 32 * (own subsets k).kept.length).sum := by
  unfold segments
  rw [List.length_flatten, map_ofFn]
  simp only [segment_length]

/-- The sizes that the ranks tell each other are those of the bytes that they send. -/
theorem sizes_segments (hcount : ∀ k, 0 ≤ castInt (own subsets k).serialize.length) :
    ((List.ofFn fun k => (own subsets k).serialize).map fun send => castInt send.length) = sizes (segments subsets) := by
  unfold sizes segments
  rw [map_ofFn, map_ofFn]
  simp only [castInt_serialize (hcount _)]

theorem exchangeSubsets_eq (hlen : ∀ k, (subsets k).length = n)
    (hcount : ∀ k, 0 ≤ castInt (own subsets k).serialize.length)
    (htotal : (segments subsets).flatten.length ≤ 2147483647) (hsize : ∀ k, ∀ r ∈ own subsets k, r.InSize)
    (memory : Fin n → Nat → UInt8) :
    exchangeSubsets memory subsets = .ok fun _ => List.ofFn fun k => OrdSet.ofList (own subsets k).kept := by
  have hdispls : displacements (sizes (segments subsets)) 0 =
      .ok (offsets 0 (segments subsets), ((segments subsets).flatten.length : Nat)) := by
    have hall : displacements (sizes (segments subsets)) (0 : Nat) =
        .ok (offsets 0 (segments subsets), (0 + (segments subsets).flatten.length : Nat)) := displacements_eq (by omega)
    rwa [Nat.zero_add] at hall
  have hsends : List.Forall₂ (fun send seg => copyFrom send 0 ((seg : List UInt8).length : Nat) = .ok seg)
      (List.ofFn fun k => (own subsets k).serialize) (segments subsets) := by
    refine forall₂_ofFn fun k => ?_
    have hcopy := copyFrom_serialize (hcount k)
    rwa [castInt_serialize (hcount k)] at hcopy
  unfold exchangeSubsets
  rw [if_pos hlen]
  simp only [sizes_segments hcount, hdispls, Except.ok_bind]
  refine Except.sequence_eq_ok_iff.mpr fun k => ?_
  have hfresh : resizeBytes (memory k) [] (castSize ((segments subsets).flatten.length : Nat)) =
      .ok ((List.range' 0 (segments subsets).flatten.length).map (memory k)) := by
    unfold resizeBytes ptrdiffMax
    rw [castSize_natCast (by omega), if_pos (by omega), List.take_nil, List.nil_append, List.length_nil, Nat.sub_zero]
  have hgather := allgatherv_eq hsends [] ((List.range' 0 (segments subsets).flatten.length).map (memory k)) (by
    rw [List.length_map, List.length_range'])
  rw [List.nil_append, List.length_nil, List.nil_append] at hgather
  have hapart : takeApart ([] ++ (segments subsets).flatten) (sizes (segments subsets)) (offsets 0 (segments subsets)) =
      (segments subsets).mapM deserialize := takeApart_eq []
  rw [List.nil_append] at hapart
  have hparts : (segments subsets).mapM deserialize = .ok (List.ofFn fun k => OrdSet.ofList (own subsets k).kept) := by
    rw [List.mapM_eq_ok_iff]
    exact forall₂_ofFn fun k => deserialize_segment (hsize k)
  rw [hfresh, Except.ok_bind, hgather, Except.ok_bind, hapart, hparts]

/-- An exchange that comes to an end has counted its bytes right, or only some of them. -/
theorem counts_of_exchangeSubsets (hn : 0 < n) {memory : Fin n → Nat → UInt8} {result : Fin n → List RegionSubset}
    (h : exchangeSubsets memory subsets = .ok result) :
    (∀ k, 0 ≤ castInt (own subsets k).serialize.length) ∧ (segments subsets).flatten.length ≤ 2147483647 := by
  unfold exchangeSubsets at h
  split at h
  next =>
    obtain ⟨⟨displs, total⟩, hdispls, h⟩ := Except.bind_eq_ok_iff.mp h
    have hall := Except.sequence_eq_ok_iff.mp h ⟨0, hn⟩
    obtain ⟨fresh, _, hall⟩ := Except.bind_eq_ok_iff.mp hall
    obtain ⟨recvBuf, hgather, _⟩ := Except.bind_eq_ok_iff.mp hall
    have hnonneg := nonneg_of_allgatherv (by rw [List.length_map]) (length_displs hdispls) hgather
    have hcount : ∀ k, 0 ≤ castInt (own subsets k).serialize.length := fun k =>
      hnonneg _ (List.mem_map.mpr ⟨_, List.mem_ofFn.mpr ⟨k, rfl⟩, rfl⟩)
    rw [sizes_segments hcount] at hdispls
    have hlen := length_of_displacements (t := 0) (by decide) hdispls
    exact ⟨hcount, by omega⟩
  next => cases h

/-- The exchange works exactly if all bytes can be counted by an `int`. -/
theorem exchanges_iff (hlen : ∀ k, (subsets k).length = n) (hsize : ∀ k, ∀ r ∈ own subsets k, r.InSize) :
    Exchanges subsets ↔ RegionSubset.exchangedBytes (own subsets) ≤ 2147483647 := by
  constructor
  · intro h
    by_cases hn : 0 < n
    · obtain ⟨hcount, htotal⟩ := counts_of_exchangeSubsets hn (h fun _ _ => 0)
      have heq := Except.ok.inj ((exchangeSubsets_eq hlen hcount htotal hsize fun _ _ => 0).symm.trans (h fun _ _ => 0))
      have hsame := List.ofFn_injective (congrFun heq ⟨0, hn⟩)
      rw [length_segments] at htotal
      unfold RegionSubset.exchangedBytes
      simp only [← length_of_kept (congrFun hsame _)]
      exact htotal
    · have hzero : n = 0 := by omega
      subst hzero
      exact Nat.zero_le _
  · intro hle memory
    have hone : ∀ k, 32 * (own subsets k).entries.length ≤ 2147483647 := fun k => by
      refine Nat.le_trans (List.le_sum_of_mem (List.mem_ofFn.mpr ⟨k, rfl⟩)) hle
    have hcount : ∀ k, 0 ≤ castInt (own subsets k).serialize.length := fun k => by
      rw [serialize_length, castInt_eq_iff.mpr (hone k)]
      exact Int.natCast_nonneg _
    have htotal : (segments subsets).flatten.length ≤ 2147483647 := by
      rw [length_segments]
      simp only [kept_of_le (hone _)]
      exact hle
    rw [exchangeSubsets_eq hlen hcount htotal hsize memory]
    congr 1
    funext _
    congr 1
    funext k
    rw [kept_of_le (hone k)]
    exact OrdSet.ext (OrdSet.entries_ofList (own subsets k).sorted)

end Exchange

section Broadcast

theorem length_intBytes (x : Int) : (intBytes x).length = 4 := length_leBytes 4 _

theorem addSize_eq {t n : Nat} (h : t + n ≤ 2147483647) : addSize t n = ((t + n : Nat) : Int) := by
  unfold addSize
  rw [← Int.natCast_add, castSize_natCast (by omega), castInt_eq_iff.mpr h]

theorem addSize_neg {t : Nat} (ht : t ≤ 2147483647) (h : 2147483647 < t + 4) : addSize t 4 < 0 := by
  unfold addSize
  have hsum : (t : Int) + (4 : Nat) = ((t + 4 : Nat) : Int) := by omega
  rw [hsum, castSize_natCast (by omega)]
  unfold castInt
  dsimp only
  split <;> omega

/-- An `int` is read back from its bytes. -/
theorem readInt_append {pre post : List UInt8} {offset : Int} {x : Nat} (hoffset : offset = pre.length)
    (hx : x ≤ 2147483647) : readInt (pre ++ (intBytes x ++ post)) offset = .ok (x : Int) := by
  unfold readInt
  rw [copyFrom_append hoffset (by rw [length_intBytes]; rfl), Except.ok_bind]
  have hmod : ((x : Int) % 4294967296).toNat = x := by omega
  have hvalue : leValue (intBytes x) = x := by
    unfold intBytes
    rw [hmod]
    apply leValue_leBytes
    omega
  rw [hvalue, castInt_eq_iff.mpr hx]
  rfl

/-- A segment behind its size. -/
def frame (seg : List UInt8) : List UInt8 := intBytes seg.length ++ seg

theorem length_frame (seg : List UInt8) : (frame seg).length = 4 + seg.length := by
  unfold frame
  rw [List.length_append, length_intBytes]

theorem resizeBytes_grow {memory : Nat → UInt8} {buf : List UInt8} {n : Nat} (h : buf.length + n ≤ ptrdiffMax) :
    ∃ new, new.length = n ∧ resizeBytes memory buf (buf.length + n) = .ok (buf ++ new) := by
  refine ⟨(List.range' buf.length n).map memory, by rw [List.length_map, List.length_range'], ?_⟩
  unfold resizeBytes
  rw [if_pos h, List.take_of_length_le (Nat.le_add_right _ _), Nat.add_sub_cancel_left]

/-- The first bytes of a subset are packed behind the others, as long as all bytes can be counted by an `int`. -/
theorem packSubset_eq {seg others buf : List UInt8} (hfit : buf.length + (frame seg).length ≤ 2147483647)
    (memory : Nat → UInt8) : packSubset memory (seg ++ others) seg.length buf buf.length =
      .ok (buf ++ frame seg, ((buf ++ frame seg).length : Nat)) := by
  rw [length_frame] at hfit
  obtain ⟨new, hnew, hresize⟩ : ∃ new, new.length = 4 + seg.length ∧
      resizeBytes memory buf (buf.length + (4 + seg.length)) = .ok (buf ++ new) := by
    apply resizeBytes_grow
    unfold ptrdiffMax
    omega
  have hroom : castSize ((buf.length : Int) + 4 + seg.length) = buf.length + (4 + seg.length) := by
    have hcast := castSize_natCast (n := buf.length + (4 + seg.length)) (by omega)
    rw [← hcast]
    congr 1
    omega
  have hadd : addSize buf.length 4 = ((buf.length + 4 : Nat) : Int) := addSize_eq (by omega)
  have hhead : (new.take 4).length = (intBytes seg.length).length := by
    rw [List.length_take, length_intBytes]
    omega
  have htail : (new.drop 4).length = seg.length := by
    rw [List.length_drop]
    omega
  have hput : copyTo (buf ++ (new.take 4 ++ new.drop 4)) buf.length (intBytes seg.length) =
      .ok (buf ++ (intBytes seg.length ++ new.drop 4)) := copyTo_append rfl hhead
  rw [List.take_append_drop] at hput
  have hcopy : copyFrom ([] ++ (seg ++ others)) 0 seg.length = .ok seg := copyFrom_append rfl rfl
  rw [List.nil_append] at hcopy
  have hput' : copyTo (buf ++ (intBytes seg.length ++ new.drop 4)) (buf.length + 4 : Nat) seg = .ok (buf ++ frame seg) := by
    have happ : copyTo ((buf ++ intBytes seg.length) ++ (new.drop 4 ++ [])) (buf.length + 4 : Nat) seg =
        .ok ((buf ++ intBytes seg.length) ++ (seg ++ [])) :=
      copyTo_append (by rw [List.length_append, length_intBytes]) htail
    rw [List.append_nil, List.append_nil, List.append_assoc, List.append_assoc] at happ
    exact happ
  have htotal : toInt ExchangeError.overflow (((buf.length + 4 : Nat) : Int) + seg.length) =
      .ok ((buf ++ frame seg).length : Nat) := by
    rw [toInt_ok (by unfold intMax; omega) (by unfold intMax; omega), List.length_append, length_frame, ← Nat.add_assoc]
    rfl
  unfold packSubset
  rw [hroom, hresize, Except.ok_bind, hput, Except.ok_bind, hcopy, hadd, Except.ok_bind, hput', Except.ok_bind, htotal]
  rfl

theorem bounds_of_packSubset {memory : Nat → UInt8} {bytes buf : List UInt8} {size : Int} {t : Nat}
    {r : List UInt8 × Int} (ht : t ≤ 2147483647) (h : packSubset memory bytes size buf t = .ok r) :
    0 ≤ size ∧ t + 4 + size ≤ 2147483647 := by
  unfold packSubset at h
  obtain ⟨_, _, h⟩ := Except.bind_eq_ok_iff.mp h
  obtain ⟨_, _, h⟩ := Except.bind_eq_ok_iff.mp h
  obtain ⟨packed, hcopy, h⟩ := Except.bind_eq_ok_iff.mp h
  obtain ⟨_, hput, h⟩ := Except.bind_eq_ok_iff.mp h
  obtain ⟨total, htotal, _⟩ := Except.bind_eq_ok_iff.mp h
  have hsize := copyFrom_ok hcopy
  have hoffset : 0 ≤ addSize t 4 := by
    unfold copyTo at hput
    split at hput
    next hb => exact hb.1
    next => cases hput
  have hnarrow : t + 4 ≤ 2147483647 := by
    by_contra hwide
    have hneg := addSize_neg ht (by omega)
    omega
  obtain ⟨_, hle⟩ := toInt_eq_ok htotal
  have hadd : addSize t 4 = ((t + 4 : Nat) : Int) := addSize_eq hnarrow
  rw [hadd] at hle
  unfold intMax at hle
  exact ⟨hsize, by omega⟩

/-- What the root packs: each subset behind its size. -/
def frames (xs : List RegionSubset) : List UInt8 := xs.flatMap fun s => frame s.segment

theorem length_frames (xs : List RegionSubset) :
    (frames xs).length = (xs.map fun s => 4 + 32 * s.kept.length).sum := by
  induction xs with
  | nil => rfl
  | cons s xs ih =>
    unfold frames at ih ⊢
    rw [List.flatMap_cons, List.length_append, ih, length_frame, segment_length, List.map_cons, List.sum_cons]

theorem packSubsets_eq {xs : List RegionSubset} (hcount : ∀ s ∈ xs, 0 ≤ castInt s.serialize.length) {buf : List UInt8}
    (hfit : buf.length + (frames xs).length ≤ 2147483647) (memory : Nat → UInt8) :
    packSubsets memory xs buf buf.length = .ok (buf ++ frames xs, ((buf ++ frames xs).length : Nat)) := by
  induction xs generalizing buf with
  | nil =>
    unfold frames
    rw [List.flatMap_nil, List.append_nil]
    rfl
  | cons s xs ih =>
    have hs := hcount s List.mem_cons_self
    have hcons : frames (s :: xs) = frame s.segment ++ frames xs := List.flatMap_cons
    obtain ⟨others, hothers⟩ := s.serialize_eq
    rw [hcons, List.length_append] at hfit
    rw [packSubsets, castInt_serialize hs, hothers, packSubset_eq (by omega), Except.ok_bind, hcons, ← List.append_assoc]
    exact ih (fun x hx => hcount x (List.mem_cons_of_mem _ hx)) (by rw [List.length_append]; omega)

/-- A list that is packed has had its bytes counted right, or only some of them. -/
theorem counts_of_packSubsets {xs : List RegionSubset} {buf : List UInt8} (hbuf : buf.length ≤ 2147483647)
    {memory : Nat → UInt8} {r : List UInt8 × Int} (h : packSubsets memory xs buf buf.length = .ok r) :
    (∀ s ∈ xs, 0 ≤ castInt s.serialize.length) ∧ buf.length + (frames xs).length ≤ 2147483647 := by
  induction xs generalizing buf r with
  | nil => exact ⟨fun s hs => absurd hs List.not_mem_nil, hbuf⟩
  | cons s xs ih =>
    have hcons : frames (s :: xs) = frame s.segment ++ frames xs := List.flatMap_cons
    rw [packSubsets] at h
    obtain ⟨packed, hpacked, h⟩ := Except.bind_eq_ok_iff.mp h
    obtain ⟨hs, hbound⟩ := bounds_of_packSubset hbuf hpacked
    obtain ⟨others, hothers⟩ := s.serialize_eq
    rw [castInt_serialize hs] at hbound hpacked
    have hfit : buf.length + (frame s.segment).length ≤ 2147483647 := by
      rw [length_frame]
      omega
    rw [hothers, packSubset_eq hfit] at hpacked
    cases Except.ok.inj hpacked
    obtain ⟨hrest, htotal⟩ := ih (by rw [List.length_append]; exact hfit) h
    rw [List.length_append] at htotal
    rw [hcons, List.length_append, ← Nat.add_assoc]
    exact ⟨List.forall_mem_cons.mpr ⟨hs, hrest⟩, htotal⟩

/-- The subsets are unpacked where they were packed, into the places of a list of their number. -/
theorem unpackSubsets_eq {xs : List RegionSubset} (hsize : ∀ s ∈ xs, ∀ r ∈ s, r.InSize) (pre : List UInt8)
    (hfit : pre.length + (frames xs).length ≤ 2147483647) {i : Nat} {output : List RegionSubset}
    (hlen : output.length = i + xs.length) :
    unpackSubsets (pre ++ frames xs) xs.length i pre.length output =
      .ok (output.take i ++ xs.map fun s => OrdSet.ofList s.kept) := by
  induction xs generalizing pre i output with
  | nil =>
    rw [List.map_nil, List.append_nil, List.take_of_length_le (by rw [hlen]; exact Nat.le_refl _)]
    rfl
  | cons s xs ih =>
    have hcons : frames (s :: xs) = frame s.segment ++ frames xs := List.flatMap_cons
    rw [List.length_cons] at hlen ⊢
    rw [hcons, List.length_append, length_frame] at hfit
    have hread : readInt (pre ++ (intBytes s.segment.length ++ (s.segment ++ frames xs))) pre.length =
        .ok (s.segment.length : Int) := readInt_append rfl (by omega)
    have hadd : addSize pre.length 4 = ((pre.length + 4 : Nat) : Int) := addSize_eq (by omega)
    have hcopy : copyFrom ((pre ++ intBytes s.segment.length) ++ (s.segment ++ frames xs)) (pre.length + 4 : Nat)
        s.segment.length = .ok s.segment := copyFrom_append (by rw [List.length_append, length_intBytes]) rfl
    rw [List.append_assoc] at hcopy
    have hnext : toInt ExchangeError.overflow (((pre.length + 4 : Nat) : Int) + s.segment.length) =
        .ok ((pre ++ frame s.segment).length : Nat) := by
      rw [toInt_ok (by unfold intMax; omega) (by unfold intMax; omega), List.length_append, length_frame, ← Nat.add_assoc]
      rfl
    have hframes : pre ++ frames (s :: xs) = pre ++ (intBytes s.segment.length ++ (s.segment ++ frames xs)) := by
      rw [hcons]
      unfold frame
      rw [List.append_assoc]
    have hframes' : pre ++ (intBytes s.segment.length ++ (s.segment ++ frames xs)) =
        (pre ++ frame s.segment) ++ frames xs := by
      unfold frame
      rw [List.append_assoc, List.append_assoc]
    have hset : (output.set i (OrdSet.ofList s.kept)).take (i + 1) = output.take i ++ [OrdSet.ofList s.kept] := by
      have hi : i < (output.set i (OrdSet.ofList s.kept)).length := by
        rw [List.length_set]
        omega
      rw [List.take_succ_eq_append_getElem hi, List.getElem_set_self, List.take_set_of_le (Nat.le_refl i)]
    rw [unpackSubsets, hframes, hread, Except.ok_bind, if_neg (by omega), hadd, hcopy, Except.ok_bind, hnext,
      Except.ok_bind, deserialize_segment (hsize s List.mem_cons_self), Except.ok_bind, hframes',
      ih (fun x hx => hsize x (List.mem_cons_of_mem _ hx)) (pre ++ frame s.segment)
        (by rw [List.length_append, length_frame]; omega) (by rw [List.length_set]; omega), hset, List.map_cons,
      List.append_assoc]
    rfl

variable {n : Nat} {ι : Type} [DecidableEq ι] {root : Fin n} {input output : ι} {lists : Fin n → ι → List RegionSubset}

/-- The bytes that are broadcast: the number of subsets, and each behind its size. -/
def broadcastBytes (xs : List RegionSubset) : Nat := 4 + (xs.map fun s => 4 + 32 * s.entries.length).sum

/-- Every rank has the root's list of subsets in its own one, and all other lists are left alone. -/
def Broadcasts (root : Fin n) (input output : ι) (lists : Fin n → ι → List RegionSubset) : Prop :=
  ∀ memory, broadcastSubsets memory root input output lists =
    .ok fun k => Function.update (lists k) output (lists root input)

theorem length_resizeSubsets (xs : List RegionSubset) (count : Nat) : (resizeSubsets xs count).length = count := by
  unfold resizeSubsets
  rw [List.length_append, List.length_take, List.length_replicate]
  omega

theorem length_le_frames (xs : List RegionSubset) : xs.length ≤ (frames xs).length := by
  rw [length_frames]
  induction xs with
  | nil => exact Nat.le_refl 0
  | cons s xs ih =>
    rw [List.map_cons, List.sum_cons, List.length_cons]
    omega

theorem broadcastSubsets_eq (hcount : ∀ s ∈ lists root input, 0 ≤ castInt s.serialize.length)
    (htotal : 4 + (frames (lists root input)).length ≤ 2147483647)
    (hsize : ∀ s ∈ lists root input, ∀ r ∈ s, r.InSize) (memory : Nat → UInt8) :
    broadcastSubsets memory root input output lists = .ok fun k =>
      Function.update (lists k) output ((lists root input).map fun s => OrdSet.ofList s.kept) := by
  unfold broadcastSubsets
  generalize lists root input = xs at hcount htotal hsize
  have hnumber := length_le_frames xs
  have hcast : castInt xs.length = xs.length := castInt_eq_iff.mpr (by omega)
  have hlen : (intBytes (xs.length : Nat)).length = 4 := length_intBytes _
  have hbuf : (intBytes (xs.length : Nat)).length + (frames xs).length ≤ 2147483647 := by
    rw [hlen]
    exact htotal
  have hpack := packSubsets_eq hcount hbuf memory
  have hall : (intBytes (xs.length : Nat) ++ frames xs).length = 4 + (frames xs).length := by
    rw [List.length_append, hlen]
  rw [hlen] at hpack
  have hmessage : copyFrom ([] ++ ((intBytes (xs.length : Nat) ++ frames xs) ++ [])) 0
      (intBytes (xs.length : Nat) ++ frames xs).length = .ok (intBytes (xs.length : Nat) ++ frames xs) :=
    copyFrom_append rfl rfl
  rw [List.nil_append, List.append_nil] at hmessage
  have hread : readInt ([] ++ (intBytes (xs.length : Nat) ++ frames xs)) 0 = .ok (xs.length : Int) :=
    readInt_append rfl (by omega)
  rw [List.nil_append] at hread
  simp only [hcast]
  change (packSubsets memory xs (intBytes (xs.length : Nat)) (4 : Nat) >>= _) = _
  rw [hpack, Except.ok_bind]
  simp only
  rw [if_neg (by omega), hmessage, Except.ok_bind]
  refine Except.sequence_eq_ok_iff.mpr fun k => ?_
  simp only [ite_self]
  rw [hread, Except.ok_bind, if_neg (by omega), Int.toNat_natCast]
  have hroom : (resizeSubsets (lists k output) xs.length).length = 0 + xs.length := by
    rw [length_resizeSubsets, Nat.zero_add]
  have hunpack := unpackSubsets_eq hsize (intBytes (xs.length : Nat)) hbuf hroom
  rw [hlen, List.take_zero, List.nil_append] at hunpack
  change (unpackSubsets _ _ 0 (4 : Nat) _ >>= _) = _
  rw [hunpack, Except.ok_bind]
  rfl

/-- The broadcast works exactly if all bytes can be counted by an `int`. -/
theorem broadcasts_iff (hsize : ∀ s ∈ lists root input, ∀ r ∈ s, r.InSize) :
    Broadcasts root input output lists ↔ broadcastBytes (lists root input) ≤ 2147483647 := by
  constructor
  · intro h
    have hrun := h fun _ => 0
    have hcounts : (∀ s ∈ lists root input, 0 ≤ castInt s.serialize.length) ∧
        4 + (frames (lists root input)).length ≤ 2147483647 := by
      unfold broadcastSubsets at hrun
      obtain ⟨packed, hpacked, _⟩ := Except.bind_eq_ok_iff.mp hrun
      have hlen : (intBytes (castInt (lists root input).length)).length = 4 := length_intBytes _
      have hfour : (4 : Int) = (intBytes (castInt (lists root input).length)).length := by
        rw [hlen]
        rfl
      rw [hfour] at hpacked
      have hcounts := counts_of_packSubsets (by rw [hlen]; decide) hpacked
      rwa [hlen] at hcounts
    have heq := Except.ok.inj ((broadcastSubsets_eq hcounts.1 hcounts.2 hsize fun _ => 0).symm.trans hrun)
    have hroot := congrFun (congrFun heq root) output
    rw [Function.update_self, Function.update_self] at hroot
    have hkept : ∀ s ∈ lists root input, s.kept = s.entries := fun s hs =>
      length_of_kept (List.map_inj_left.mp (hroot.trans (List.map_id _).symm) s hs)
    have htotal := hcounts.2
    rw [length_frames] at htotal
    unfold broadcastBytes
    rwa [List.map_congr_left (g := fun s => 4 + 32 * s.kept.length) fun s hs => by rw [hkept s hs]]
  · intro hle memory
    unfold broadcastBytes at hle
    have hone : ∀ s ∈ lists root input, 32 * s.entries.length ≤ 2147483647 := fun s hs => by
      have hmem : 4 + 32 * s.entries.length ≤ ((lists root input).map fun s => 4 + 32 * s.entries.length).sum :=
        List.le_sum_of_mem (List.mem_map.mpr ⟨s, hs, rfl⟩)
      omega
    have hcount : ∀ s ∈ lists root input, 0 ≤ castInt s.serialize.length := fun s hs => by
      rw [serialize_length, castInt_eq_iff.mpr (hone s hs)]
      exact Int.natCast_nonneg _
    have htotal : 4 + (frames (lists root input)).length ≤ 2147483647 := by
      rw [length_frames]
      rwa [List.map_congr_left (g := fun s => 4 + 32 * s.entries.length) fun s hs => by rw [kept_of_le (hone s hs)]]
    rw [broadcastSubsets_eq hcount htotal hsize memory]
    have hsame : ((lists root input).map fun s => OrdSet.ofList s.kept) = lists root input := by
      refine (List.map_inj_left.mpr fun s hs => ?_).trans (List.map_id _)
      rw [kept_of_le (hone s hs)]
      exact OrdSet.ext (OrdSet.entries_ofList s.sorted)
    rw [hsame]

end Broadcast

/-- Both collectives leave on every rank what they are to, exactly if the bytes that they exchange can be
counted by an `int`. -/
theorem framing_iff {n : Nat} {ι : Type} [DecidableEq ι] {subsets : Fin n → List RegionSubset} {root : Fin n}
    {input output : ι} {lists : Fin n → ι → List RegionSubset} (hlen : ∀ k, (subsets k).length = n)
    (hown : ∀ k, ∀ r ∈ own subsets k, r.InSize) (hlist : ∀ s ∈ lists root input, ∀ r ∈ s, r.InSize) :
    (Exchanges subsets ↔ RegionSubset.exchangedBytes (own subsets) ≤ 2147483647) ∧
      (Broadcasts root input output lists ↔ broadcastBytes (lists root input) ≤ 2147483647) :=
  ⟨exchanges_iff hlen hown, broadcasts_iff hlist⟩

/-- Blocks of one index each, with gaps between them. -/
def evens (count : Nat) : RegionSubset where
  entries := (List.range count).map fun i => DataRegion.interval (2 * i) (2 * i) (Nat.le_refl _)
  sorted := by
    rw [List.pairwise_map]
    refine List.pairwise_lt_range.imp fun {i j} hlt => ?_
    have hstart : 2 * i < 2 * j := by omega
    exact Prod.Lex.toLex_lt_toLex.mpr (Or.inl hstart)

theorem evens_inSize {count : Nat} (h : count ≤ 67108864) : ∀ r ∈ evens count, r.InSize := by
  intro r hr
  obtain ⟨i, hi, rfl⟩ := List.mem_map.mp hr
  have hlt := List.mem_range.mp hi
  have hstop : 2 * i ≤ sizeMax := by
    unfold sizeMax
    omega
  exact ⟨hstop, Nat.zero_le _, Nat.le_refl _⟩

/-- The first of two ranks contributes blocks, the other one nothing. -/
def oneSided (count : Nat) (k : Fin 2) : List RegionSubset :=
  [if k.val = 0 then evens count else ∅, ∅]

theorem own_oneSided (count : Nat) (k : Fin 2) : own (oneSided count) k = if k.val = 0 then evens count else ∅ := by
  match k with
  | 0 => rfl
  | 1 => rfl

theorem oneSided_inSize {count : Nat} (h : count ≤ 67108864) (k : Fin 2) : ∀ r ∈ own (oneSided count) k, r.InSize := by
  rw [own_oneSided]
  split
  next => exact evens_inSize h
  next => exact fun r hr => absurd hr (OrdSet.not_mem_empty r)

theorem framing_iff_three :
    (Exchanges (oneSided 3) ↔ RegionSubset.exchangedBytes (own (oneSided 3)) ≤ 2147483647) ∧
    (Broadcasts (0 : Fin 2) () () (fun k _ => oneSided 3 k) ↔ broadcastBytes (oneSided 3 0) ≤ 2147483647) :=
  framing_iff (fun _ => rfl) (oneSided_inSize (by decide)) fun s hs => by
    cases List.mem_cons.mp hs with
    | inl heq => exact heq ▸ evens_inSize (by decide)
    | inr hmem =>
      cases List.mem_singleton.mp hmem
      exact fun r hr => absurd hr (OrdSet.not_mem_empty r)

/-- Of 2 ^ 26 regions the bytes are one more than an `int` can count. -/
theorem exchange_overflow : ¬ ∀ subsets : Fin 2 → List RegionSubset, (∀ k, (subsets k).length = 2) →
    (∀ k, ∀ r ∈ own subsets k, r.InSize) → Exchanges subsets := by
  intro h
  have hlen : ∀ k, (oneSided 67108864 k).length = 2 := fun _ => rfl
  have hsize := oneSided_inSize (Nat.le_refl 67108864)
  have hle := (exchanges_iff hlen hsize).mp (h (oneSided 67108864) hlen hsize)
  have hevens : (evens 67108864).entries.length = 67108864 := by
    unfold evens
    rw [List.length_map, List.length_range]
  have hbytes : RegionSubset.exchangedBytes (own (oneSided 67108864)) = 2147483648 := by
    unfold RegionSubset.exchangedBytes
    simp only [own_oneSided, List.ofFn_succ, List.ofFn_zero, List.sum_cons, List.sum_nil, Fin.val_zero, Fin.val_succ,
      if_true, Nat.add_eq_zero_iff, one_ne_zero, and_false, if_false, hevens]
    rfl
  omega

end SubsetExchange

namespace BuddySnapshot

variable {n : Nat} {snaps known : Fin n → BuddySnapshot n}

theorem own_ofFn (snaps : Fin n → BuddySnapshot n) (k : Fin n) :
    SubsetExchange.own (fun k => List.ofFn (snaps k).stagedSubsets) k = (snaps k).stagedSubsets k := by
  unfold SubsetExchange.own
  rw [List.getD_eq_getElem?_getD, List.getElem?_ofFn, dif_pos k.isLt]
  rfl

/-- The ranks know of each other's subsets what the bytes tell them. -/
theorem exchangeSubsets_bytes (hsize : ∀ k, ∀ r ∈ (snaps k).stagedSubsets k, r.InSize)
    (h : exchangeSubsets snaps = .ok known) (memory : Fin n → Nat → UInt8) :
    SubsetExchange.exchangeSubsets memory (fun k => List.ofFn (snaps k).stagedSubsets) =
      .ok fun k => List.ofFn (known k).stagedSubsets := by
  obtain ⟨hbytes, rfl⟩ := exchangeSubsets_iff.mp h
  have hown : SubsetExchange.own (fun k => List.ofFn (snaps k).stagedSubsets) = fun k => (snaps k).stagedSubsets k :=
    funext (own_ofFn snaps)
  have hexchange : SubsetExchange.Exchanges fun k => List.ofFn (snaps k).stagedSubsets := by
    refine (SubsetExchange.exchanges_iff (fun _ => List.length_ofFn) ?_).mpr (by rwa [hown])
    simpa only [own_ofFn] using hsize
  rw [hexchange memory]
  congr 1
  funext k
  exact congrArg List.ofFn (funext fun i => own_ofFn snaps i)

end BuddySnapshot

end Fenix
