import Fenix.RegionIndices
import Fenix.UserMemberStage

namespace Fenix

/-- Why a store fails on a rank. -/
inductive StoreError where
  | transfer (reason : TransferError)
  | truncated
  | overrun
  deriving DecidableEq

/-- The bytes of the regions that the ranks contribute to an exchange. -/
def RegionSubset.exchangedBytes {n : Nat} (contributed : Fin n → RegionSubset) : Nat :=
  (List.ofFn fun k => 32 * (contributed k).entries.length).sum

/-- The snapshot that a rank of a cohort stages in, with what it knows that the others have staged and protected, and
its copy of the snapshot of the rank at the left. -/
structure BuddySnapshot (n : Nat) where
  buf : DataBuffer
  elmSize : Nat
  elmMaxCount : Nat
  stagedSubsets : Fin n → RegionSubset := fun _ => ∅
  protectedSubsets : Fin n → RegionSubset := fun _ => ∅
  partner : RegionSnapshot

/-- The value of an element in a buffer, by the offsets of its bytes. -/
def DataBuffer.elementAt (b : DataBuffer) (elmSize i : Nat) : Nat → UInt8 :=
  fun offset => b.bytes (i * elmSize + offset)

/-- An element of a message is loaded from a buffer. -/
def loadElement (elmSize : Nat) (buf : DataBuffer) (place : Int) : Except StoreError (Nat → UInt8) :=
  if 0 ≤ place ∧ (place.toNat + 1) * elmSize ≤ buf.size then .ok (buf.elementAt elmSize place.toNat)
  else .error .overrun

/-- An element of a message is put in a buffer: the bytes that the datatype carries, the others being left alone. -/
def storeElement (carries : Nat → Bool) (elmSize : Nat) (buf : DataBuffer) (e : Int × (Nat → UInt8)) :
    Except StoreError DataBuffer :=
  if 0 ≤ e.1 ∧ (e.1.toNat + 1) * elmSize ≤ buf.size then
    .ok { buf with bytes := fun x =>
      if x / elmSize = e.1.toNat ∧ carries (x % elmSize) = true then e.2 (x % elmSize) else buf.bytes x }
  else .error .overrun

/-- The message of the elements of a datatype. -/
def sendElements (elmSize : Nat) (buf : DataBuffer) (type : Indexed) : Except StoreError (List (Nat → UInt8)) :=
  type.places.mapM (loadElement elmSize buf)

/-- A message is received into the elements of a datatype, of which it may leave some over. -/
def recvElements (carries : Nat → Bool) (elmSize : Nat) (type : Indexed) (message : List (Nat → UInt8))
    (buf : DataBuffer) : Except StoreError DataBuffer :=
  if type.places.length < message.length then .error .truncated
  else (type.places.zip message).foldlM (storeElement carries elmSize) buf

section Message

variable {elmSize : Nat} {buf : DataBuffer} {type : Indexed} {places : List Nat}
  {message : List (Nat → UInt8)}

theorem sendElements_ok (hplaces : type.places = places.map Nat.cast)
    (hroom : ∀ x ∈ places, (x + 1) * elmSize ≤ buf.size) :
    sendElements elmSize buf type = .ok (places.map (buf.elementAt elmSize)) := by
  unfold sendElements
  rw [hplaces, List.mapM_ok_map (g := fun place : Int => buf.elementAt elmSize place.toNat) fun place hp => ?_,
    List.map_map]
  · rfl
  · obtain ⟨x, hx, rfl⟩ := List.mem_map.mp hp
    exact if_pos ⟨Int.natCast_nonneg x, hroom x hx⟩

theorem storeElement_spec (carries : Nat → Bool) {x : Nat} (value : Nat → UInt8) (helm : 0 < elmSize)
    (hroom : (x + 1) * elmSize ≤ buf.size) :
    ∃ out, storeElement carries elmSize buf (x, value) = .ok out ∧ out.size = buf.size ∧
      ∀ y, ∀ b < elmSize, out.elementAt elmSize y b =
        if y = x ∧ carries b = true then value b else buf.elementAt elmSize y b := by
  refine ⟨_, if_pos ⟨Int.natCast_nonneg x, hroom⟩, rfl, fun y b hb => ?_⟩
  have hdiv : (y * elmSize + b) / elmSize = y := by
    rw [Nat.mul_comm, Nat.mul_add_div helm, Nat.div_eq_of_lt hb, Nat.add_zero]
  have hmod : (y * elmSize + b) % elmSize = b := by
    rw [Nat.mul_comm, Nat.mul_add_mod, Nat.mod_eq_of_lt hb]
  change (if (y * elmSize + b) / elmSize = x ∧ carries ((y * elmSize + b) % elmSize) = true then
    value ((y * elmSize + b) % elmSize) else buf.bytes (y * elmSize + b)) = _
  rw [hdiv, hmod]
  rfl

/-- Elements that go to different places, one after the other. -/
theorem foldlM_storeElement (carries : Nat → Bool) {l : List (Nat × (Nat → UInt8))} (helm : 0 < elmSize)
    (hnodup : (l.map Prod.fst).Nodup) (hroom : ∀ e ∈ l, (e.1 + 1) * elmSize ≤ buf.size) :
    ∃ out, (l.map fun e => ((e.1 : Int), e.2)).foldlM (storeElement carries elmSize) buf = .ok out ∧
      out.size = buf.size ∧
      (∀ e ∈ l, ∀ b < elmSize, out.elementAt elmSize e.1 b =
        if carries b = true then e.2 b else buf.elementAt elmSize e.1 b) ∧
      ∀ y ∉ l.map Prod.fst, ∀ b < elmSize, out.elementAt elmSize y b = buf.elementAt elmSize y b := by
  induction l generalizing buf with
  | nil => exact ⟨buf, rfl, rfl, fun e he => absurd he List.not_mem_nil, fun _ _ _ _ => rfl⟩
  | cons e l ih =>
    obtain ⟨hfresh, hnodup⟩ := List.nodup_cons.mp hnodup
    obtain ⟨he, hl⟩ := List.forall_mem_cons.mp hroom
    obtain ⟨mid, hmid, hsize, hbytes⟩ := storeElement_spec carries e.2 helm he
    obtain ⟨out, hout, hosize, hin, hother⟩ := ih hnodup fun e he => hsize.symm ▸ hl e he
    rw [List.map_cons, List.foldlM_cons, hmid]
    refine ⟨out, hout, hosize.trans hsize, fun f hf b hb => ?_, fun y hy b hb => ?_⟩
    · rcases List.mem_cons.mp hf with rfl | hf
      · rw [hother f.1 hfresh b hb, hbytes f.1 b hb, if_congr (and_iff_right rfl) rfl rfl]
      · have hne : f.1 ≠ e.1 := fun h => hfresh (h ▸ List.mem_map_of_mem hf)
        have hkept := (hbytes f.1 b hb).trans (if_neg fun h => hne h.1)
        rw [hin f hf b hb, hkept]
    · rw [List.map_cons, List.mem_cons, not_or] at hy
      rw [hother y hy.2 b hb, hbytes y b hb, if_neg fun h => hy.1 h.1]

/-- The elements of a message are put where the datatype has them, and nowhere else. -/
theorem recvElements_spec (carries : Nat → Bool) (helm : 0 < elmSize) (hplaces : type.places = places.map Nat.cast)
    (hnodup : places.Nodup) (hlen : message.length = places.length)
    (hroom : ∀ x ∈ places, (x + 1) * elmSize ≤ buf.size) :
    ∃ out, recvElements carries elmSize type message buf = .ok out ∧ out.size = buf.size ∧
      (∀ e ∈ places.zip message, ∀ b < elmSize, out.elementAt elmSize e.1 b =
        if carries b = true then e.2 b else buf.elementAt elmSize e.1 b) ∧
      ∀ y ∉ places, ∀ b < elmSize, out.elementAt elmSize y b = buf.elementAt elmSize y b := by
  have hfst : (places.zip message).map Prod.fst = places := List.map_fst_zip hlen.ge
  obtain ⟨out, hout, hsize, hin, hother⟩ := foldlM_storeElement carries (l := places.zip message) helm
    (by rwa [hfst]) fun e he => hroom e.1 (hfst ▸ List.mem_map_of_mem he)
  unfold recvElements
  rw [hplaces, List.length_map, if_neg (by omega), List.zip_map_left]
  rw [hfst] at hother
  exact ⟨out, hout, hsize, hin, hother⟩

end Message

namespace RegionSnapshot

variable {s : RegionSnapshot} {subset : RegionSubset} {elmSize count : Nat}

/-- What is staged in a snapshot of so many elements of a size is well-formed, and within the range of `int`. -/
structure Fitted (s : RegionSnapshot) (elmSize count : Nat) : Prop where
  size_eq : s.elmSize = elmSize
  count_eq : s.elmMaxCount = count
  wellFormed : s.stagedSubset.WellFormed
  narrow : s.stagedSubset.Inside elmSize 2147483647
  below : ∀ x, s.stagedSubset.Mem x → Below count x

theorem empty_fitted {s : RegionSnapshot} {size max : Nat} (h : s.stagedSubset = ∅) (hsize : s.elmSize = size)
    (hmax : s.elmMaxCount = max) : s.Fitted size max := by
  have hnone : ∀ x, ¬s.stagedSubset.Mem x := h ▸ RegionSubset.not_mem_empty
  exact ⟨hsize, hmax, h ▸ RegionSubset.wellFormed_empty, fun x hx => absurd hx (hnone x),
    fun x hx => absurd hx (hnone x)⟩

theorem limit_inside {S : RegionSubset} (hS : S.WellFormed) (helm : 0 < s.elmSize)
    (hcount : s.elmMaxCount * s.elmSize ≤ 2147483647) :
    ∃ T, s.limit S = .ok T ∧ T.WellFormed ∧ ∀ x, T.Mem x ↔ S.Mem x ∧ Below s.elmMaxCount x := by
  by_cases hzero : s.elmMaxCount = 0
  · exact ⟨S, if_pos hzero, hS, fun x => (and_iff_left (Or.inl hzero)).symm⟩
  · have hle := Nat.le_mul_of_pos_right s.elmMaxCount helm
    obtain ⟨T, hT, hwf, hmem⟩ := limit_spec (s := s) hS (Nat.pos_of_ne_zero hzero) (hle.trans hcount)
    exact ⟨T, hT, hwf, fun x => (hmem x).trans (and_congr_right fun _ => (or_iff_right hzero).symm)⟩

/-- What a snapshot is to have room for reaches past all of its elements, within the range of `int`. -/
theorem newCount_spec {T : RegionSubset} (hT : T.WellFormed) (helm : 0 < s.elmSize)
    (hcount : s.elmMaxCount * s.elmSize ≤ 2147483647) (hin : T.Inside s.elmSize 2147483647)
    (hbelow : ∀ x, T.Mem x → Below s.elmMaxCount x) :
    ∃ m : Nat, s.newCount T = m ∧ m * s.elmSize ≤ 2147483647 ∧ ∀ x, T.Mem x → x < m := by
  by_cases hzero : s.elmMaxCount = 0
  · have hnew : s.newCount T = castInt T.maxCount := if_pos hzero
    by_cases hempty : T.isEmpty = true
    · have hmax : T.maxCount = 0 := by
        unfold RegionSubset.maxCount RegionSubset.stop
        rw [if_pos hempty]
        rfl
      refine ⟨0, ?_, by omega, fun x hx => absurd hx (RegionSubset.isEmpty_iff_mem.mp hempty x)⟩
      rw [hnew, hmax]
      rfl
    · have hstop := hT.stop_mem hempty
      have hlt := hin.lt helm hstop
      have hmax : T.maxCount = T.stop + 1 := Nat.mod_eq_of_lt (by unfold sizeMax; omega)
      refine ⟨T.stop + 1, ?_, hin _ hstop, fun x hx => Nat.lt_succ_of_le (hT.le_stop hx)⟩
      rw [hnew, hmax]
      exact castInt_eq_iff.mpr (by omega)
  · exact ⟨s.elmMaxCount, if_neg hzero, hcount, fun x hx => (hbelow x hx).resolve_left hzero⟩

theorem fit_ok {m : Nat} (hm : m ≤ 2147483647) : ∃ buf, s.fit m = .ok { s with buf := buf } ∧
    buf.bytes = s.buf.bytes ∧ m ≤ buf.size := by
  unfold fit
  rw [castSize_natCast (by omega), if_neg (show ¬(m : Int) < 0 by omega)]
  split
  next => exact ⟨_, rfl, rfl, Nat.le_refl m⟩
  next hle => exact ⟨s.buf, rfl, rfl, Nat.le_of_not_lt hle⟩

/-- A subset is added to what is staged, and the buffer has room for all of it. -/
theorem addAndFit_fitted (hs : s.Fitted elmSize count) (helm : 0 < elmSize) (hcount : count * elmSize ≤ 2147483647)
    (hsubset : subset.WellFormed) (hin : subset.Inside elmSize 2147483647) :
    ∃ s', s.addAndFit subset = .ok s' ∧ s'.Fitted elmSize count ∧ s'.buf.bytes = s.buf.bytes ∧
      (∀ x, s'.stagedSubset.Mem x ↔ s.stagedSubset.Mem x ∨ subset.Mem x ∧ Below count x) ∧
      s'.stagedSubset.Inside elmSize s'.buf.size := by
  obtain ⟨rfl, rfl, hwf, hnarrow, hbelow⟩ := hs
  obtain ⟨sum, hsum, hsumwf, hsummem⟩ := RegionSubset.add_inside hwf hsubset hnarrow helm
  obtain ⟨T, hT, hTwf, hTmem⟩ := limit_inside hsumwf helm hcount
  have hmem : ∀ x, T.Mem x ↔ s.stagedSubset.Mem x ∨ subset.Mem x ∧ Below s.elmMaxCount x := fun x => by
    rw [hTmem, hsummem, or_and_right, and_iff_left_of_imp (hbelow x)]
  have hTin : T.Inside s.elmSize 2147483647 := fun x hx =>
    ((hmem x).mp hx).elim (hnarrow x) fun h => hin x h.1
  have hTbelow : ∀ x, T.Mem x → Below s.elmMaxCount x := fun x hx => ((hTmem x).mp hx).2
  obtain ⟨m, hnew, hbytes, hreach⟩ := newCount_spec hTwf helm hcount hTin hTbelow
  obtain ⟨buf, hfit, hsame, hroom⟩ := fit_ok (s := { s with stagedSubset := T }) hbytes
  have hstaged : 0 < s.stagedSubset.maxCount ∨ s.stagedSubset.isEmpty = true := by
    by_cases hempty : s.stagedSubset.isEmpty = true
    · exact Or.inr hempty
    · have hlt := hnarrow.lt helm (hwf.stop_mem hempty)
      refine Or.inl ?_
      unfold RegionSubset.maxCount sizeWrap
      rw [Nat.mod_eq_of_lt (by unfold sizeMax; omega)]
      exact Nat.succ_pos _
  have hsome : s.newCount T ≠ 0 ∨ T.isEmpty = true := by
    by_cases hempty : T.isEmpty = true
    · exact Or.inr hempty
    · have hpos := hreach _ (hTwf.stop_mem hempty)
      exact Or.inl (by omega)
  unfold addAndFit
  rw [if_pos hstaged, hsum]
  refine ⟨{ s with stagedSubset := T, buf := buf }, ?_, ⟨rfl, rfl, hTwf, hTin, hTbelow⟩, hsame, hmem, fun x hx => ?_⟩
  · change ((s.limit sum).mapError TransferError.abort >>= _) = _
    rw [hT]
    change (if s.newCount T ≠ 0 ∨ T.isEmpty = true then _ else _) = _
    rw [if_pos hsome, hnew, ← Int.natCast_mul, toInt_ok (by unfold intMax; omega) (by unfold intMax; omega)]
    exact hfit
  · exact (Nat.mul_le_mul_right s.elmSize (hreach x hx)).trans hroom

end RegionSnapshot

namespace BuddySnapshot

variable {n : Nat}

/-- What a rank has of its own data. -/
def own (s : BuddySnapshot n) (k : Fin n) : RegionSnapshot where
  buf := s.buf
  elmSize := s.elmSize
  elmMaxCount := s.elmMaxCount
  stagedSubset := s.stagedSubsets k
  protectedSubset := s.protectedSubsets k

/-- `add_and_fit` of what a rank stages, the stage having left `written` in the buffer. -/
def stage (s : BuddySnapshot n) (k : Fin n) (written : DataBuffer) (subset : RegionSubset) :
    Except TransferError (BuddySnapshot n) := do
  let staged ← { s.own k with buf := written }.addAndFit subset
  return { s with buf := staged.buf, stagedSubsets := Function.update s.stagedSubsets k staged.stagedSubset }

/-- What is staged becomes protected. -/
def protect (s : BuddySnapshot n) : Except Abort (BuddySnapshot n) := do
  let sums ← Except.sequence fun i => (s.protectedSubsets i).add (s.stagedSubsets i)
  return { s with protectedSubsets := sums, stagedSubsets := fun _ => ∅ }

/-- A store takes all ranks to have staged what this one has. -/
def spread (s : BuddySnapshot n) (k : Fin n) : BuddySnapshot n := { s with stagedSubsets := fun _ => s.stagedSubsets k }

/-- `exchange_subsets`: the ranks tell each other the regions they have staged, counting the bytes as `int`. -/
def exchangeSubsets (snaps : Fin n → BuddySnapshot n) : Except StoreError (Fin n → BuddySnapshot n) := do
  let _ ← toInt (.transfer .overflow) (RegionSubset.exchangedBytes fun i => (snaps i).stagedSubsets i : Int)
  return fun k => { snaps k with stagedSubsets := fun i => OrdSet.ofList ((snaps i).stagedSubsets i).entries }

/-- `iprotect` of a rank, all taking part: each sends what it has staged to the right. -/
def iprotect (carries : Nat → Bool) (snaps : Fin n → BuddySnapshot n) (k : Fin n) :
    Except StoreError (BuddySnapshot n) := do
  let s := snaps k
  let sent := snaps (BuddyMember.left k)
  let subset := s.stagedSubsets (BuddyMember.left k)
  let partner ← (s.partner.addAndFit subset).mapError .transfer
  let sendType ← (sent.stagedSubsets (BuddyMember.left k)).toDatatype.mapError fun e => .transfer (.abort e)
  let recvType ← subset.toDatatype.mapError fun e => .transfer (.abort e)
  let message ← sendElements sent.elmSize sent.buf sendType
  let buf ← recvElements carries s.elmSize recvType message partner.buf
  (protect { s with partner := { partner with buf := buf } }).mapError fun e => .transfer (.abort e)

/-- `store` on all ranks of a cohort, after each has staged its subset or if that is the prestaged one. -/
def store (carries : Nat → Bool) (snaps : Fin n → BuddySnapshot n) : Except StoreError (Fin n → BuddySnapshot n) :=
  Except.sequence fun k => iprotect carries (fun i => (snaps i).spread i) k

/-- `storev` on all ranks of a cohort. -/
def storev (carries : Nat → Bool) (snaps : Fin n → BuddySnapshot n) : Except StoreError (Fin n → BuddySnapshot n) := do
  let known ← exchangeSubsets snaps
  Except.sequence fun k => iprotect carries known k

end BuddySnapshot

end Fenix
