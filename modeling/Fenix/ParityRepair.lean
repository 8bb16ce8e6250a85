import Fenix.ParityProtect
import Fenix.ParityRebuild

namespace Fenix.ParityMember

open DataMember (broadcastSubsets)

variable {n dataBytes : Nat} {snaps : Fin n → IMRSnapshot} {protectedBy : List DataSubset} {elmSize : Nat}
  {f : Fin n}

/-- Rank `f` has its data up to `dataBytes` and its parity back, the other ranks kept theirs. -/
structure Restores (before after : Fin n → IMRSnapshot) (f : Fin n) (dataBytes : Nat) : Prop where
  data : ∀ x < dataBytes, (after f).buf.bytes x = (before f).buf.bytes x
  size : dataBytes ≤ (after f).buf.size
  paritySize : (after f).partner.buf.size = (before f).partner.buf.size
  parity : ∀ b < (before f).partner.buf.size, (after f).partner.buf.bytes b = (before f).partner.buf.bytes b
  others : ∀ k, k ≠ f → (after k).buf = (before k).buf ∧ (after k).partner.buf = (before k).partner.buf

/-- The committed snapshots of a cohort, all of them protected and with no more bytes than an `int` counts. -/
structure Committed (snaps : Fin n → IMRSnapshot) (protectedBy : List DataSubset) (elmSize : Nat) : Prop where
  agree : Agree snaps (List.replicate n ∅) protectedBy elmSize
  inRange : cohortBytes (List.replicate n ∅) protectedBy elmSize ≤ 2147483647
  encoded : Encoded snaps (cohortBytes (List.replicate n ∅) protectedBy elmSize)

section Prepare

/-- Rank `f` has a reset snapshot instead of its own one. -/
def lose (f : Fin n) (s : IMRSnapshot) (snaps : Fin n → IMRSnapshot) : Fin n → IMRSnapshot :=
  Function.update snaps f s.reset

variable {sender : Fin n} {s : IMRSnapshot}

theorem lose_own : lose f s snaps f = s.reset := Function.update_self f _ _

theorem lose_other {k : Fin n} (h : k ≠ f) : lose f s snaps k = snaps k := Function.update_of_ne h _ _

/-- Hearing of the subsets brings the rank to recover to where the others are. -/
theorem broadcast_agree (h : Agree snaps (List.replicate n ∅) protectedBy elmSize) (hs : sender ≠ f)
    (he : s.elmSize = elmSize) : Agree (broadcastSubsets sender (lose f s snaps))
      (List.replicate n ∅) protectedBy elmSize := by
  refine ⟨fun k => ?_, fun k => ?_, fun k => ?_, List.length_replicate, h.protectedLength⟩
  · change DataSnapshot.resizeSubsets (lose f s snaps k).stagedSubsets n = _
    by_cases hk : k = f
    · rw [hk, lose_own]
      exact List.take_of_length_le (Nat.le_of_eq List.length_replicate)
    · rw [lose_other hk, h.stagedSubsets, DataSnapshot.resizeSubsets_length List.length_replicate]
  · change DataSnapshot.resizeSubsets (lose f s snaps sender).protectedSubsets n = _
    rw [lose_other hs, h.protectedSubsets, DataSnapshot.resizeSubsets_length h.protectedLength]
  · change (lose f s snaps k).elmSize = elmSize
    by_cases hk : k = f
    · rw [hk, lose_own]
      exact he
    · rw [lose_other hk]
      exact h.elmSize k

theorem prepareRepair_other {k : Fin n} (hk : k ≠ f) : prepareRepair f sender (lose f s snaps) k =
    (broadcastSubsets sender (lose f s snaps) k).prepareForParity k := if_neg hk

theorem prepareRepair_lost : prepareRepair f sender (lose f s snaps) f =
    ((broadcastSubsets sender (lose f s snaps) f).prepareForParity f).zeroData.zeroParity := if_pos rfl

theorem prepareRepair_agree (h : Agree snaps (List.replicate n ∅) protectedBy elmSize) (hs : sender ≠ f)
    (he : s.elmSize = elmSize) : Agree (prepareRepair f sender (lose f s snaps))
      (List.replicate n ∅) protectedBy elmSize := by
  have hb := broadcast_agree h hs he
  refine ⟨fun k => ?_, fun k => ?_, fun k => ?_, hb.stagedLength, hb.protectedLength⟩
  all_goals by_cases hk : k = f
  · rw [hk, prepareRepair_lost]
    exact hb.stagedSubsets f
  · rw [prepareRepair_other hk]
    exact hb.stagedSubsets k
  · rw [hk, prepareRepair_lost]
    exact hb.protectedSubsets f
  · rw [prepareRepair_other hk]
    exact hb.protectedSubsets k
  · rw [hk, prepareRepair_lost]
    exact hb.elmSize f
  · rw [prepareRepair_other hk]
    exact hb.elmSize k

/-- The ranks that were not lost start with the data and parity they have. -/
theorem prepareRepair_kept (h : Committed snaps protectedBy elmSize) (hs : sender ≠ f)
    (he : s.elmSize = elmSize) {k : Fin n} (hk : k ≠ f) :
    (prepareRepair f sender (lose f s snaps) k).buf = (snaps k).buf ∧
      (prepareRepair f sender (lose f s snaps) k).partner.buf = (snaps k).partner.buf := by
  have hb := broadcast_agree h.agree hs he
  have hbuf : (broadcastSubsets sender (lose f s snaps) k).buf = (snaps k).buf := by
    change (lose f s snaps k).buf = _
    rw [lose_other hk]
  have hpartner : (broadcastSubsets sender (lose f s snaps) k).partner.buf = (snaps k).partner.buf := by
    change (lose f s snaps k).partner.buf = _
    rw [lose_other hk]
  rw [prepareRepair_other hk]
  constructor
  · rw [IMRSnapshot.prepareForParity_of_le, hbuf]
    rw [dataBytes_eq hb h.inRange, IMRSnapshot.intSize_congr hbuf]
    exact h.encoded.fits k
  · change (broadcastSubsets sender (lose f s snaps) k).partner.buf.resize
      ((broadcastSubsets sender (lose f s snaps) k).parityBytes k) = _
    rw [hpartner, parityBytes_eq hb h.inRange, ← h.encoded.paritySize k]
    rfl

/-- The rank that was lost starts with room for data and parity, and zeros in it. -/
theorem prepareRepair_zero (h : Committed snaps protectedBy elmSize) (hs : sender ≠ f)
    (he : s.elmSize = elmSize) :
    let p := prepareRepair f sender (lose f s snaps) f
    p.buf.size = cohortBytes (List.replicate n ∅) protectedBy elmSize ∧
      (∀ x < p.buf.size, p.buf.bytes x = 0) ∧ p.partner.buf.size = (snaps f).partner.buf.size ∧
      ∀ b < p.partner.buf.size, p.partner.buf.bytes b = 0 := by
  have hb := broadcast_agree h.agree hs he
  have hsize : ((broadcastSubsets sender (lose f s snaps) f).prepareForParity f).buf.size =
      cohortBytes (List.replicate n ∅) protectedBy elmSize := by
    have hempty : (broadcastSubsets sender (lose f s snaps) f).buf.size = 0 := by
      change (lose f s snaps f).buf.size = 0
      rw [lose_own]
      rfl
    have hbytes := dataBytes_eq hb h.inRange f
    have hint : (broadcastSubsets sender (lose f s snaps) f).intSize = 0 := by
      unfold IMRSnapshot.intSize
      rw [hempty]
      rfl
    unfold IMRSnapshot.prepareForParity IMRSnapshot.fitData
    dsimp only
    rw [hbytes, hint]
    split
    next => rw [DataBuffer.size_resize, castSize_natCast (by have := h.inRange; omega)]
    next hle =>
      rw [hempty]
      omega
  intro p
  have hp : p = ((broadcastSubsets sender (lose f s snaps) f).prepareForParity f).zeroData.zeroParity :=
    prepareRepair_lost
  rw [hp]
  refine ⟨hsize, fun x hx => DataBuffer.bytes_zero hx, ?_, fun b hlt => DataBuffer.bytes_zero hlt⟩
  change (broadcastSubsets sender (lose f s snaps) f).parityBytes f = _
  rw [parityBytes_eq hb h.inRange, h.encoded.paritySize]

end Prepare

section Recover

/-- The reduction of chunk `i` as the rank to recover sees it, what the others have staying as it is. -/
def recoverChunk (f : Fin n) (snaps : Fin n → IMRSnapshot) (s : IMRSnapshot) (i : Fin n) : IMRSnapshot :=
  s.write (s.parityBytes i)
    (fun b => ParityCode.combine HXor.hXor 0 (Function.update
      (fun k => (snaps k).read ((snaps k).input k i) b) f (s.read (s.input f i) b))) (s.input f i)

theorem reduceChunk_recover (i : Fin n) (s : IMRSnapshot) :
    reduceChunk f i (Function.update snaps f s) = Function.update snaps f (recoverChunk f snaps s i) := by
  unfold reduceChunk recoverChunk
  rw [Function.update_idem, Function.update_self]
  have hsame : ∀ b, (fun k => (Function.update snaps f s k).read ((Function.update snaps f s k).input k i) b) =
      Function.update (fun k => (snaps k).read ((snaps k).input k i) b) f (s.read (s.input f i) b) := by
    intro b
    funext k
    by_cases hk : k = f
    · rw [hk, Function.update_self, Function.update_self]
    · rw [Function.update_of_ne hk, Function.update_of_ne hk]
  simp only [hsame]

/-- All reductions change the snapshot of the rank to recover only. -/
theorem reduceLost_eq (l : List (Fin n)) (s : IMRSnapshot) :
    l.foldl (fun snaps i => reduceChunk f i snaps) (Function.update snaps f s) =
      Function.update snaps f (l.foldl (recoverChunk f snaps) s) := by
  induction l generalizing s with
  | nil => rfl
  | cons i l ih => rw [List.foldl_cons, reduceChunk_recover, ih, List.foldl_cons]

/-- The snapshot to recover when the first `i` chunks have been reduced. -/
structure Recovered (lens : Nat → Nat) (size newSize : Nat) (f : Fin n) (lost : IMRSnapshot) (i : Nat)
    (s : IMRSnapshot) : Prop where
  lengths : s.parityBytes = lens
  bufSize : s.buf.size = newSize
  dataSize : s.dataSize = newSize
  data : ∀ x < newSize, s.buf.bytes x = rebuilt lens size newSize f lost.buf.bytes i x
  paritySize : s.partner.buf.size = lens f
  parity : ∀ b < lens f, s.partner.buf.bytes b = if f < i then lost.partner.buf.bytes b else 0

variable {others : Fin n → IMRSnapshot} {s : IMRSnapshot}

/-- What the rank to recover receives for byte `b` of chunk `i`: its lost data there, or its lost parity,
and what it had in that place. -/
theorem recover_byte (h : Encoded snaps dataBytes)
    (hread : ∀ k, k ≠ f → ∀ i : Fin n, ∀ b, (others k).read ((others k).input k i) b =
      (snaps k).read ((snaps k).input k i) b) (i : Fin n) {b : Nat}
    (hb : b < parityBytes dataBytes (n - 1) i) (old : UInt8) :
    ParityCode.combine HXor.hXor 0
      (Function.update (fun k => (others k).read ((others k).input k i) b) f old) =
      (snaps f).read ((snaps f).input f i) b ^^^ old := by
  have hself : ∀ a : UInt8, a ^^^ a = 0 := fun _ => UInt8.xor_self
  have hown : contribution snaps i b i = 0 := if_pos rfl
  have hpar := h.parity i b hb
  by_cases hi : i = f
  · subst hi
    have hsame : Function.update (fun k => (others k).read ((others k).input k i) b) i old =
        Function.update (contribution snaps i b) i old := by
      funext k
      by_cases hk : k = i
      · rw [hk, Function.update_self, Function.update_self]
      · rw [Function.update_of_ne hk, Function.update_of_ne hk, hread k hk, read_input,
          if_neg (Ne.symm hk)]
        exact (if_neg (Ne.symm hk)).symm
    rw [hsame, ParityCode.combine_parity hself hown, read_input, if_pos rfl, hpar]
  · have hsame : Function.update (fun k => (others k).read ((others k).input k i) b) f old =
        Function.update (Function.update (contribution snaps i b) i
          (ParityCode.combine HXor.hXor 0 (contribution snaps i b))) f old := by
      funext k
      by_cases hk : k = f
      · rw [hk, Function.update_self, Function.update_self]
      · rw [Function.update_of_ne hk, Function.update_of_ne hk, hread k hk, read_input]
        by_cases hki : i = k
        · rw [if_pos hki, ← hki, Function.update_self, hpar]
        · rw [if_neg hki, Function.update_of_ne (Ne.symm hki)]
          exact (if_neg hki).symm
    rw [hsame, ParityCode.combine_lost hself hown (Ne.symm hi), read_input, if_neg hi]
    exact congrArg (· ^^^ old) (if_neg hi)

theorem recovered_step (h : Encoded snaps dataBytes)
    (hread : ∀ k, k ≠ f → ∀ i : Fin n, ∀ b, (others k).read ((others k).input k i) b =
      (snaps k).read ((snaps k).input k i) b) (i : Fin n)
    (hr : Recovered (parityBytes dataBytes (n - 1)) (snaps f).dataSize dataBytes f (snaps f) i s) :
    Recovered (parityBytes dataBytes (n - 1)) (snaps f).dataSize dataBytes f (snaps f) (i + 1)
      (recoverChunk f others s i) := by
  have hlen : s.parityBytes i = parityBytes dataBytes (n - 1) i := congrFun hr.lengths i
  have hlens : (snaps f).parityBytes = parityBytes dataBytes (n - 1) := funext (h.parityBytes f)
  unfold recoverChunk
  by_cases hi : i = f
  · subst hi
    rw [input_own]
    refine ⟨hr.lengths, hr.bufSize, hr.dataSize, fun x hx => ?_, hr.paritySize, fun b hb => ?_⟩
    · change s.buf.bytes x = _
      rw [hr.data x hx]
      exact (if_neg fun hc => hc.1 rfl).symm
    · change (if 0 ≤ b ∧ b < 0 + s.parityBytes i then _ else _) = _
      rw [hlen, if_pos ⟨Nat.zero_le b, by omega⟩, Nat.sub_zero, if_pos (Nat.lt_succ_self _),
        recover_byte h hread i hb, read_input, if_pos rfl]
      change _ ^^^ s.partner.buf.bytes b = _
      rw [hr.parity b hb, if_neg (Nat.lt_irrefl _), UInt8.xor_zero]
  · have hi' : i.val ≠ f.val := fun he => hi (Fin.ext he)
    have hinput : s.input f i = .data (chunkStart (parityBytes dataBytes (n - 1)) dataBytes f i) := by
      unfold IMRSnapshot.input
      rw [if_neg hi', hr.lengths, hr.dataSize]
    rw [hinput]
    refine ⟨hr.lengths, hr.bufSize, hr.dataSize, fun x hx => ?_, hr.paritySize, fun b hb => ?_⟩
    · generalize hst : chunkStart (parityBytes dataBytes (n - 1)) dataBytes f i = start
      change (if start ≤ x ∧ x < start + s.parityBytes i then _ else s.buf.bytes x) =
        if i.val ≠ f.val ∧ _ then _ else _
      rw [hst, hlen]
      by_cases hin : start ≤ x ∧ x < start + parityBytes dataBytes (n - 1) i
      · rw [if_pos hin, if_pos ⟨hi', hin⟩, recover_byte h hread i (by omega), read_input, if_neg hi, hlens]
        change _ ^^^ s.buf.bytes (start + (x - start)) = _
        rw [Nat.add_sub_cancel' hin.1, hr.data x hx]
      · rw [if_neg hin, if_neg fun hc => hin hc.2]
        exact hr.data x hx
    · change s.partner.buf.bytes b = _
      rw [hr.parity b hb]
      exact if_congr (by omega) rfl rfl

theorem recovered_take (h : Encoded snaps dataBytes)
    (hread : ∀ k, k ≠ f → ∀ i : Fin n, ∀ b, (others k).read ((others k).input k i) b =
      (snaps k).read ((snaps k).input k i) b)
    (hr : Recovered (parityBytes dataBytes (n - 1)) (snaps f).dataSize dataBytes f (snaps f) 0 s)
    {i : Nat} (hi : i ≤ n) :
    Recovered (parityBytes dataBytes (n - 1)) (snaps f).dataSize dataBytes f (snaps f) i
      (((List.finRange n).take i).foldl (recoverChunk f others) s) := by
  induction i with
  | zero => exact hr
  | succ i ih =>
    have hlt : i < (List.finRange n).length := by
      rw [List.length_finRange]
      exact hi
    rw [List.take_succ_eq_append_getElem hlt, List.foldl_append]
    have hstep := recovered_step h hread ⟨i, hi⟩ (ih (Nat.le_of_succ_le hi))
    simpa using hstep

end Recover

section Rebuild

variable {after : Fin n → IMRSnapshot} {s : IMRSnapshot}

/-- What no write changes is kept by the reductions. -/
theorem reduceChunks_keeps {α : Type} {f : IMRSnapshot → α}
    (hwrite : ∀ (s : IMRSnapshot) (len : Nat) (g : Nat → UInt8) (i : ParityInput), f (s.write len g i) = f s)
    (root : Fin n → Fin n) (snaps : Fin n → IMRSnapshot) (k : Fin n) :
    f (reduceChunks root snaps k) = f (snaps k) := by
  have hstep : ∀ (root i : Fin n) (snaps : Fin n → IMRSnapshot), f (reduceChunk root i snaps k) = f (snaps k) := by
    intro root i snaps
    unfold reduceChunk
    by_cases hk : k = root
    · rw [hk, Function.update_self, hwrite]
    · rw [Function.update_of_ne hk]
  have hfold : ∀ (l : List (Fin n)) (snaps : Fin n → IMRSnapshot),
      f (l.foldl (fun snaps i => reduceChunk (root i) i snaps) snaps k) = f (snaps k) := by
    intro l
    induction l with
    | nil => exact fun _ => rfl
    | cons i l ih => exact fun snaps => (ih _).trans (hstep (root i) i snaps)
  exact hfold _ snaps

theorem write_timestamp (s : IMRSnapshot) (len : Nat) (g : Nat → UInt8) (i : ParityInput) :
    (s.write len g i).timestamp = s.timestamp := by
  cases i with
  | parity => rfl
  | data start => rfl

theorem write_elmSize (s : IMRSnapshot) (len : Nat) (g : Nat → UInt8) (i : ParityInput) :
    (s.write len g i).elmSize = s.elmSize := by
  cases i with
  | parity => rfl
  | data start => rfl

theorem prepareRepair_fields (f sender : Fin n) (snaps : Fin n → IMRSnapshot) (k : Fin n) :
    (prepareRepair f sender snaps k).timestamp = (snaps k).timestamp ∧
      (prepareRepair f sender snaps k).elmSize = (snaps k).elmSize := by
  unfold prepareRepair
  by_cases hk : k = f
  · rw [if_pos hk]
    exact ⟨rfl, rfl⟩
  · rw [if_neg hk]
    exact ⟨rfl, rfl⟩

theorem write_size (s : IMRSnapshot) (len : Nat) (g : Nat → UInt8) (i : ParityInput) :
    (s.write len g i).buf.size = s.buf.size := by
  cases i with
  | parity => rfl
  | data start => rfl

/-- What a rebuilding leaves comes of the reductions. -/
theorem rebuild_cases (h : rebuild f snaps = .ok after) :
    ∃ sender : Fin n, sender ≠ f ∧ after = reduceChunks (fun _ => f) (prepareRepair f sender snaps) := by
  unfold rebuild at h
  by_cases hs : (if f.val = 0 then 1 else 0) < n
  · rw [dif_pos hs] at h
    refine ⟨⟨_, hs⟩, fun heq => ?_, ?_⟩
    · have hval := congrArg Fin.val heq
      dsimp only at hval
      split at hval <;> omega
    · generalize (⟨_, hs⟩ : Fin n) = sender at h ⊢
      dsimp only at h
      split at h
      next => exact (Except.ok.inj h).symm
      next => cases h
  · rw [dif_neg hs] at h
    cases h

theorem rebuild_fields (h : rebuild f snaps = .ok after) (k : Fin n) :
    (after k).timestamp = (snaps k).timestamp ∧ (after k).elmSize = (snaps k).elmSize := by
  obtain ⟨sender, _, rfl⟩ := rebuild_cases h
  obtain ⟨hts, hsize⟩ := prepareRepair_fields f sender snaps k
  exact ⟨(reduceChunks_keeps (f := fun s => s.timestamp) write_timestamp _ _ k).trans hts,
    (reduceChunks_keeps (f := fun s => s.elmSize) write_elmSize _ _ k).trans hsize⟩

/-- A rebuilt rank has no more bytes than an `int` counts. -/
theorem rebuild_size (h : rebuild f (lose f s snaps) = .ok after) : (after f).buf.size ≤ 2147483647 := by
  obtain ⟨sender, _, rfl⟩ := rebuild_cases h
  rw [reduceChunks_keeps (f := fun s => s.buf.size) write_size, prepareRepair_lost]
  have hempty : (broadcastSubsets sender (lose f s snaps) f).buf.size = 0 := by
    change (lose f s snaps f).buf.size = 0
    rw [lose_own]
    rfl
  have hle := (broadcastSubsets sender (lose f s snaps) f).dataBytes_le
  change (broadcastSubsets sender (lose f s snaps) f).fitData.size ≤ 2147483647
  unfold IMRSnapshot.fitData
  split
  next hlt =>
    rw [IMRSnapshot.intSize, hempty] at hlt
    have hpos : (0 : Int) < (broadcastSubsets sender (lose f s snaps) f).dataBytes := hlt
    rw [DataBuffer.size_resize]
    unfold castSize
    omega
  next => omega

/-- The ranks that were not lost contribute as in the protection. -/
theorem read_prepareRepair (h : Committed snaps protectedBy elmSize) {sender : Fin n} (hs : sender ≠ f)
    (he : s.elmSize = elmSize) (k : Fin n) (hk : k ≠ f) (i : Fin n) (b : Nat) :
    (prepareRepair f sender (lose f s snaps) k).read
      ((prepareRepair f sender (lose f s snaps) k).input k i) b = (snaps k).read ((snaps k).input k i) b := by
  obtain ⟨hbuf, hpartner⟩ := prepareRepair_kept h hs he hk
  rw [read_input, read_input, hbuf, hpartner, IMRSnapshot.dataSize_congr hbuf, parityBytes_eq h.agree h.inRange,
    parityBytes_eq (prepareRepair_agree h.agree hs he) h.inRange]

/-- Rebuilding a lost rank goes through, with as many bytes as it has lost, and restores it exactly when its data is
rebuildable. -/
theorem rebuild_restores (hn : 3 ≤ n) (h : Committed snaps protectedBy elmSize) (f : Fin n)
    (he : s.elmSize = elmSize) : ∃ after, rebuild f (lose f s snaps) = .ok after ∧
      (after f).buf.size = cohortBytes (List.replicate n ∅) protectedBy elmSize ∧ (Restores snaps after f (cohortBytes (List.replicate n ∅) protectedBy elmSize) ↔
        Rebuildable (cohortBytes (List.replicate n ∅) protectedBy elmSize) (n - 1) f
          (snaps f).dataSize (snaps f).buf.bytes) := by
  have hsender : (if f.val = 0 then 1 else 0) < n := by
    split <;> omega
  generalize hs : (⟨_, hsender⟩ : Fin n) = sender
  have hne : sender ≠ f := by
    rintro rfl
    have hval := congrArg Fin.val hs
    simp only at hval
    split at hval <;> omega
  have hag := prepareRepair_agree h.agree hne he
  obtain ⟨hsize, hzero, hpsize, hpzero⟩ := prepareRepair_zero h hne he
  generalize hp : prepareRepair f sender (lose f s snaps) = others at hag hsize hzero hpsize hpzero
  generalize hd : cohortBytes (List.replicate n ∅) protectedBy elmSize = dataBytes at hsize ⊢
  have henc : Encoded snaps dataBytes := hd ▸ h.encoded
  have hkept : ∀ k, k ≠ f → (others k).buf = (snaps k).buf ∧ (others k).partner.buf = (snaps k).partner.buf :=
    fun k hk => hp ▸ prepareRepair_kept h hne he hk
  have hread : ∀ k, k ≠ f → ∀ i : Fin n, ∀ b, (others k).read ((others k).input k i) b =
      (snaps k).read ((snaps k).input k i) b :=
    fun k hk i b => hp ▸ read_prepareRepair h hne he k hk i b
  have hconf : Conforms others := by
    refine conforms_of_fits (by omega) hag h.inRange fun k => ?_
    rw [hd]
    by_cases hk : k = f
    · rw [hk, IMRSnapshot.intSize, hsize, castInt_eq_iff.mpr (hd ▸ h.inRange)]
    · rw [IMRSnapshot.intSize_congr (hkept k hk).1]
      exact henc.fits k
  have hrec : Recovered (parityBytes dataBytes (n - 1)) (snaps f).dataSize dataBytes f (snaps f) n
      ((List.finRange n).foldl (recoverChunk f others) (others f)) := by
    have hstart : Recovered (parityBytes dataBytes (n - 1)) (snaps f).dataSize dataBytes f (snaps f) 0
        (others f) := by
      refine ⟨?_, hsize, ?_, fun x hx => hzero x (by omega), ?_, fun b hb => ?_⟩
      · rw [parityBytes_eq hag h.inRange, hd]
      · rw [IMRSnapshot.dataSize_of_le (by rw [hsize]; exact hd ▸ h.inRange), hsize]
      · rw [hpsize, henc.paritySize]
      · rw [if_neg (Nat.not_lt_zero _)]
        refine hpzero b ?_
        rw [hpsize, henc.paritySize]
        exact hb
    have htake := recovered_take henc hread hstart (Nat.le_refl n)
    rwa [List.take_of_length_le (by rw [List.length_finRange])] at htake
  have halloc := allocates (by omega) (broadcast_agree h.agree hne he) h.inRange
  refine ⟨Function.update others f ((List.finRange n).foldl (recoverChunk f others) (others f)), ?_, ?_, ?_⟩
  · unfold rebuild
    rw [dif_pos hsender]
    simp only [hs, hp]
    rw [if_pos ⟨halloc, hconf⟩]
    congr 1
    have hself : (List.finRange n).foldl (fun snaps i => reduceChunk f i snaps)
        (Function.update others f (others f)) = _ := reduceLost_eq _ _
    rw [Function.update_eq_self] at hself
    exact hself
  · rw [Function.update_self]
    exact hrec.bufSize
  · have hlen : n - 1 + 1 = n := by omega
    rw [← rebuilt_iff (by omega) (by omega) (henc.fits_dataSize f), hlen]
    constructor
    · intro hres x hx
      rw [← hrec.data x hx, ← hres.data x hx, Function.update_self]
    · intro hall
      refine ⟨fun x hx => ?_, ?_, ?_, fun b hb => ?_, fun k hk => ?_⟩
      · rw [Function.update_self, hrec.data x hx, hall x hx]
      · rw [Function.update_self, hrec.bufSize]
      · rw [Function.update_self, hrec.paritySize, henc.paritySize]
      · rw [henc.paritySize] at hb
        rw [Function.update_self, hrec.parity b hb, if_pos f.isLt]
      · rw [Function.update_of_ne hk]
        exact hkept k hk

end Rebuild

end Fenix.ParityMember
