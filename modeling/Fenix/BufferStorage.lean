import Fenix.DataSnapshot
import Mathlib.Logic.Function.Basic

namespace Fenix

/-- The memory behind a buffer: the bytes of its allocation, those that nothing has been written to being
unknown, and the part that is used. -/
structure BufferStorage where
  buf : List (Option UInt8) := []
  userSize : Nat := 0
  allocSize : Nat := 0
  mmapBuffer : Bool := false
  deriving DecidableEq

namespace BufferStorage

def malloc (n : Nat) : List (Option UInt8) := List.replicate n none

/-- The first bytes are kept, as many as both allocations have. -/
def realloc (buf : List (Option UInt8)) (n : Nat) : List (Option UInt8) := buf.take n ++ malloc (n - buf.length)

def memcpy (dst src : List (Option UInt8)) (n : Nat) : List (Option UInt8) := src.take n ++ dst.drop n

/-- The memory is given back in the way that it was got, and nothing is left. -/
def freeBuf (_ : BufferStorage) : BufferStorage := {}

/-- New memory is taken over, and the size is cut down to it. -/
def install (b : BufferStorage) (newBuf : List (Option UInt8)) (newSize : Nat) : BufferStorage :=
  { b with
    buf := newBuf
    allocSize := newSize
    userSize := if newSize < b.userSize then newSize else b.userSize }

def reallocBuf (b : BufferStorage) (newSize : Nat) : BufferStorage :=
  if newSize = 0 then b.freeBuf
  else if b.mmapBuffer then
    let copySize := if b.userSize < newSize then b.userSize else newSize
    b.freeBuf.install (memcpy (malloc newSize) b.buf copySize) newSize
  else if b.userSize = 0 then b.freeBuf.install (malloc newSize) newSize
  else b.install (realloc b.buf newSize) newSize

def resize (b : BufferStorage) (newSize : Nat) : BufferStorage :=
  { if b.allocSize ≤ newSize then b.reallocBuf newSize else b with userSize := newSize }

def shrinkToFit (b : BufferStorage) : BufferStorage :=
  if b.userSize < b.allocSize then b.reallocBuf b.userSize else b

def clear (b : BufferStorage) : BufferStorage := b.resize 0

/-- Old data is discarded if reallocation is needed. -/
def reset (b : BufferStorage) (newSize : Nat) : BufferStorage := (b.resize 0).resize newSize

def reserve (b : BufferStorage) (newSize : Nat) : BufferStorage := (b.resize newSize).resize b.userSize

def takeOwnership (b : BufferStorage) (newBuf : List UInt8) : BufferStorage :=
  { b.freeBuf with buf := newBuf.map some, userSize := newBuf.length, allocSize := newBuf.length }

def takeOwnershipMmapped (b : BufferStorage) (newBuf : List UInt8) : BufferStorage :=
  { b.takeOwnership newBuf with mmapBuffer := true }

/-- A byte that the user of the buffer writes through `data`. -/
def write (b : BufferStorage) (i : Nat) (byte : UInt8) : BufferStorage := { b with buf := b.buf.set i (some byte) }

/-- The bytes in use. -/
def contents (b : BufferStorage) : List (Option UInt8) := b.buf.take b.userSize

/-- The allocation is as long as the buffer has it, and what is used lies within. -/
structure WellFormed (b : BufferStorage) : Prop where
  length_buf : b.buf.length = b.allocSize
  used_le : b.userSize ≤ b.allocSize

variable {b : BufferStorage} {k n : Nat}

theorem wellFormed_empty : WellFormed {} := ⟨rfl, Nat.le_refl 0⟩

theorem WellFormed.length_contents (h : b.WellFormed) : b.contents.length = b.userSize := by
  rw [contents, List.length_take, h.length_buf]
  exact Nat.min_eq_left h.used_le

theorem take_contents (hk : k ≤ b.userSize) : b.contents.take k = b.buf.take k := by
  rw [contents, List.take_take, Nat.min_eq_left hk]

@[simp] theorem length_malloc (n : Nat) : (malloc n).length = n := List.length_replicate

theorem length_memcpy {dst src : List (Option UInt8)} (hs : n ≤ src.length) (hd : n ≤ dst.length) :
    (memcpy dst src n).length = dst.length := by
  rw [memcpy, List.length_append, List.length_take, List.length_drop]
  omega

theorem take_memcpy {dst src : List (Option UInt8)} (hs : n ≤ src.length) (hk : k ≤ n) :
    (memcpy dst src n).take k = src.take k := by
  rw [memcpy, List.take_append_of_le_length (by rw [List.length_take]; omega), List.take_take, Nat.min_eq_left hk]

theorem length_realloc (buf : List (Option UInt8)) (n : Nat) : (realloc buf n).length = n := by
  rw [realloc, List.length_append, List.length_take, length_malloc]
  omega

theorem take_realloc {buf : List (Option UInt8)} (hk : k ≤ n) (hb : k ≤ buf.length) :
    (realloc buf n).take k = buf.take k := by
  rw [realloc, List.take_append_of_le_length (by rw [List.length_take]; omega), List.take_take, Nat.min_eq_left hk]

/-- A reallocation makes memory of the new size and keeps what both sizes have in use. Mapped memory is
exchanged for new, of which nothing is in use. -/
theorem reallocBuf_spec (h : b.WellFormed) (n : Nat) :
    (b.reallocBuf n).buf.length = n ∧ (b.reallocBuf n).allocSize = n ∧
      (b.reallocBuf n).userSize = (if b.mmapBuffer = true then 0 else min b.userSize n) ∧
      ∀ k ≤ min b.userSize n, (b.reallocBuf n).buf.take k = b.buf.take k := by
  obtain ⟨hlen, hle⟩ := h
  have hcut : ∀ m : Nat, (if n < m then n else m) = min m n := fun m => by split <;> omega
  unfold reallocBuf
  split
  next hz =>
    subst hz
    refine ⟨rfl, rfl, ?_, fun k hk => ?_⟩
    · rw [Nat.min_zero, ite_self]
      rfl
    · obtain rfl : k = 0 := by omega
      rfl
  next hz =>
    split
    next hm =>
      have hcopy : (if b.userSize < n then b.userSize else n) = min b.userSize n := by split <;> omega
      dsimp only
      rw [hcopy]
      refine ⟨?_, rfl, by simp [install, freeBuf], fun k hk => take_memcpy (by omega) hk⟩
      refine (length_memcpy ?_ ?_).trans (length_malloc n)
      · omega
      · rw [length_malloc]
        omega
    next hm =>
      split
      next hu =>
        refine ⟨length_malloc n, rfl, ?_, fun k hk => ?_⟩
        · simp [install, freeBuf, hu]
        · obtain rfl : k = 0 := by omega
          rfl
      next hu =>
        exact ⟨length_realloc b.buf n, rfl, hcut b.userSize, fun k hk => take_realloc (by omega) (by omega)⟩

theorem WellFormed.reallocBuf (h : b.WellFormed) (n : Nat) : (b.reallocBuf n).WellFormed := by
  obtain ⟨hlen, halloc, huser, _⟩ := reallocBuf_spec h n
  refine ⟨hlen.trans halloc.symm, ?_⟩
  rw [huser, halloc]
  split <;> omega

/-- A resize sets the size and keeps what both sizes have in use. -/
theorem resize_spec (h : b.WellFormed) (n : Nat) : (b.resize n).WellFormed ∧ (b.resize n).userSize = n ∧
    (b.resize n).buf.take (min b.userSize n) = b.buf.take (min b.userSize n) := by
  unfold resize
  split
  next hgrow =>
    obtain ⟨hlen, halloc, _, hkeep⟩ := reallocBuf_spec h n
    exact ⟨⟨hlen.trans halloc.symm, Nat.le_of_eq halloc.symm⟩, rfl, hkeep _ (Nat.le_refl _)⟩
  next hfits => exact ⟨⟨h.length_buf, by dsimp only; omega⟩, rfl, rfl⟩

theorem shrinkToFit_spec (h : b.WellFormed) : b.shrinkToFit.WellFormed ∧
    b.shrinkToFit.userSize =
      (if b.mmapBuffer = true ∧ b.userSize < b.allocSize then 0 else b.userSize) ∧
    b.shrinkToFit.buf.take b.userSize = b.buf.take b.userSize := by
  unfold shrinkToFit
  split
  next hlt =>
    obtain ⟨_, _, huser, hkeep⟩ := reallocBuf_spec h b.userSize
    refine ⟨h.reallocBuf _, ?_, hkeep _ (by omega)⟩
    rw [huser, Nat.min_self]
    exact if_congr (iff_self_and.mpr fun _ => hlt) rfl rfl
  next hge => exact ⟨h, (if_neg fun hn => hge hn.2).symm, rfl⟩

theorem WellFormed.resize (h : b.WellFormed) (n : Nat) : (b.resize n).WellFormed := (resize_spec h n).1

/-- A reserve keeps the size, and what the buffer has in use up to the size that is reserved. -/
theorem reserve_spec (h : b.WellFormed) (n : Nat) : (b.reserve n).WellFormed ∧
    (b.reserve n).userSize = b.userSize ∧
    (b.reserve n).buf.take (min b.userSize n) = b.buf.take (min b.userSize n) := by
  obtain ⟨hmid, hmidSize, hmidKeep⟩ := resize_spec h n
  obtain ⟨hend, hendSize, hendKeep⟩ := resize_spec hmid b.userSize
  refine ⟨hend, hendSize, ?_⟩
  rw [hmidSize, Nat.min_comm] at hendKeep
  exact hendKeep.trans hmidKeep

/-- The memory that a reserve exchanges for new while some of what is in use does not count as such: it
is cut down to the size reserved and full, so that going back to the old size reallocates. -/
def Exchanged (b : BufferStorage) (n : Nat) : Prop :=
  n < b.userSize ∧ b.userSize = b.allocSize ∧ (b.mmapBuffer = true ∨ n = 0)

instance (b : BufferStorage) (n : Nat) : Decidable (b.Exchanged n) := inferInstanceAs (Decidable (_ ∧ _ ∧ _))

theorem reserve_exchanged (h : b.WellFormed) (hx : b.Exchanged n) :
    (b.reserve n).buf = b.buf.take n ++ malloc (b.userSize - n) := by
  obtain ⟨hlt, hfull, hnew⟩ := hx
  have hlen := h.length_buf
  have hcut : b.resize n = { b with userSize := n } := by
    unfold BufferStorage.resize
    rw [if_neg (by omega)]
  unfold reserve
  rw [hcut]
  unfold BufferStorage.resize BufferStorage.reallocBuf
  dsimp only
  rw [if_pos (by omega), if_neg (by omega)]
  have hdrop : (malloc b.userSize).drop n = malloc (b.userSize - n) := List.drop_replicate
  split
  next =>
    change memcpy (malloc b.userSize) b.buf n = _
    rw [memcpy, hdrop]
  next hm =>
    obtain rfl : n = 0 := hnew.resolve_left hm
    rfl

theorem reserve_kept (h : b.WellFormed) (hx : ¬b.Exchanged n) : (b.reserve n).contents = b.contents := by
  have hlen := h.length_buf
  have hused := h.used_le
  obtain ⟨_, hsize, hkeep⟩ := reserve_spec h n
  by_cases hlt : n < b.userSize
  · have hcut : b.resize n = { b with userSize := n } := by
      unfold BufferStorage.resize
      rw [if_neg (by omega)]
    have hbuf : (b.reserve n).buf.take b.userSize = b.buf.take b.userSize := by
      unfold reserve
      rw [hcut]
      unfold BufferStorage.resize
      dsimp only
      split
      next hfull =>
        have hheap : ¬b.mmapBuffer = true ∧ n ≠ 0 := not_or.mp fun hnew => hx ⟨hlt, by omega, hnew⟩
        unfold BufferStorage.reallocBuf
        dsimp only
        rw [if_neg (by omega), if_neg hheap.1, if_neg hheap.2]
        exact take_realloc (Nat.le_refl _) (by omega)
      next => rfl
    rw [contents, hsize, hbuf, contents]
  · rw [Nat.min_eq_left (by omega)] at hkeep
    rw [contents, hsize, hkeep, contents]

/-- A reserve keeps all that is in use exactly when no byte that has been written is exchanged. -/
theorem reserve_contents_iff (h : b.WellFormed) (n : Nat) : (b.reserve n).contents = b.contents ↔
    ¬(b.Exchanged n ∧ ∃ byte, some byte ∈ b.contents.drop n) := by
  by_cases hx : b.Exchanged n
  · obtain ⟨hlt, hfull, _⟩ := id hx
    have hlen := h.length_contents
    have hnew : (b.reserve n).contents = b.contents.take n ++ malloc (b.userSize - n) := by
      rw [contents, (reserve_spec h n).2.1, reserve_exchanged h hx, take_contents (by omega)]
      refine List.take_of_length_le ?_
      rw [List.length_append, List.length_take, length_malloc]
      omega
    have hold : b.contents = b.contents.take n ++ b.contents.drop n := (List.take_append_drop n _).symm
    rw [hnew]
    constructor
    · rintro heq ⟨_, byte, hbyte⟩
      rw [hold, List.take_append_drop] at heq
      have hdrop := List.append_cancel_left (heq.trans hold)
      rw [← hdrop] at hbyte
      cases List.eq_of_mem_replicate hbyte
    · intro hnone
      have hdrop : malloc (b.userSize - n) = b.contents.drop n := by
        refine (List.eq_replicate_iff.mpr ⟨by rw [List.length_drop, hlen], fun byte hbyte => ?_⟩).symm
        cases byte with
        | none => rfl
        | some byte => exact absurd ⟨hx, byte, hbyte⟩ hnone
      rw [hdrop, ← hold]
  · exact ⟨fun _ hb => hx hb.1, fun _ => reserve_kept h hx⟩

theorem shrinkToFit_contents_iff (h : b.WellFormed) :
    (b.shrinkToFit.contents = b.contents ↔ ¬(b.mmapBuffer = true ∧ 0 < b.userSize ∧ b.userSize < b.allocSize)) := by
  obtain ⟨hend, hsize, hkeep⟩ := shrinkToFit_spec h
  by_cases hlost : b.mmapBuffer = true ∧ b.userSize < b.allocSize
  · rw [if_pos hlost] at hsize
    have hnil : b.shrinkToFit.contents = [] := by
      rw [contents, hsize]
      rfl
    have hlen := h.length_contents
    rw [hnil]
    constructor
    · intro heq
      rw [← heq] at hlen
      exact fun hused => absurd hused.2.1 (by rw [← hlen]; exact Nat.lt_irrefl 0)
    · intro hused
      have hz : b.userSize = 0 := by
        by_contra hpos
        exact hused ⟨hlost.1, Nat.pos_of_ne_zero hpos, hlost.2⟩
      exact (List.length_eq_zero_iff.mp (hlen.trans hz)).symm
  · rw [if_neg hlost] at hsize
    refine ⟨fun _ hused => hlost ⟨hused.1, hused.2.2⟩, fun _ => ?_⟩
    rw [contents, hsize, hkeep, contents]

end BufferStorage

/-- What is done to one buffer. -/
inductive BufferOp where
  | resize (n : Nat)
  | reserve (n : Nat)
  | reset (n : Nat)
  | clear
  | shrinkToFit
  | takeOwnership (newBuf : List UInt8)
  | takeOwnershipMmapped (newBuf : List UInt8)
  | write (i : Nat) (byte : UInt8)

/-- What is done to several: an operation on one, or a move between two. -/
inductive BufferCall (ι : Type) where
  | on (x : ι) (op : BufferOp)
  | move (dst src : ι)

namespace BufferStorage

def perform (b : BufferStorage) : BufferOp → BufferStorage
  | .resize n => b.resize n
  | .reserve n => b.reserve n
  | .reset n => b.reset n
  | .clear => b.clear
  | .shrinkToFit => b.shrinkToFit
  | .takeOwnership newBuf => b.takeOwnership newBuf
  | .takeOwnershipMmapped newBuf => b.takeOwnershipMmapped newBuf
  | .write i byte => if i < b.userSize then b.write i byte else b

/-- What an operation of an array of bytes makes of it. A resize or reserve keeps as many bytes as `keep`
says for the old and the new size. -/
def ArrayStep (keep : Nat → Nat → Nat) (xs ys : List (Option UInt8)) : BufferOp → Prop
  | .resize n => ys.length = n ∧ ys.take (min xs.length n) = xs.take (min xs.length n)
  | .reserve n => ys.length = xs.length ∧ ys.take (keep xs.length n) = xs.take (keep xs.length n)
  | .reset n => ys.length = n
  | .clear => ys = []
  | .shrinkToFit => ys = xs
  | .takeOwnership newBuf => ys = newBuf.map some
  | .takeOwnershipMmapped newBuf => ys = newBuf.map some
  | .write i byte => ys = xs.set i (some byte)

/-- A shrink that takes the size of a mapped buffer along. -/
def LosesSize (b : BufferStorage) : BufferOp → Prop
  | .shrinkToFit => b.mmapBuffer = true ∧ 0 < b.userSize ∧ b.userSize < b.allocSize
  | _ => False

/-- A reserve that exchanges bytes which have been written. -/
def LosesBytes (b : BufferStorage) : BufferOp → Prop
  | .reserve n => b.Exchanged n ∧ ∃ byte, some byte ∈ b.contents.drop n
  | _ => False

variable {b : BufferStorage} {op : BufferOp}

theorem contents_of_size {b : BufferStorage} (h : b.userSize = 0) : b.contents = [] := by
  rw [contents, h]
  rfl

theorem takeOwnership_spec (b : BufferStorage) (newBuf : List UInt8) : (b.takeOwnership newBuf).WellFormed ∧
    (b.takeOwnership newBuf).contents = newBuf.map some :=
  ⟨⟨List.length_map _, Nat.le_refl _⟩, List.take_of_length_le (Nat.le_of_eq (List.length_map _))⟩

theorem WellFormed.perform (h : b.WellFormed) (op : BufferOp) : (b.perform op).WellFormed := by
  cases op with
  | resize n => exact h.resize n
  | reserve n => exact (reserve_spec h n).1
  | reset n => exact (h.resize 0).resize n
  | clear => exact h.resize 0
  | shrinkToFit => exact (shrinkToFit_spec h).1
  | takeOwnership newBuf => exact (b.takeOwnership_spec newBuf).1
  | takeOwnershipMmapped newBuf =>
    obtain ⟨hlen, hle⟩ := (b.takeOwnership_spec newBuf).1
    exact ⟨hlen, hle⟩
  | write i byte =>
    change (if _ then _ else _ : BufferStorage).WellFormed
    split
    next => exact ⟨List.length_set.trans h.length_buf, h.used_le⟩
    next => exact h

/-- The operations that are neither a shrink nor a reserve are those of an array. -/
theorem perform_step (h : b.WellFormed) (keep : Nat → Nat → Nat) (hshrink : op ≠ .shrinkToFit)
    (hreserve : ∀ n, op ≠ .reserve n) : ArrayStep keep b.contents (b.perform op).contents op := by
  have hlen := h.length_contents
  cases op with
  | resize n =>
    obtain ⟨hend, hsize, hkeep⟩ := resize_spec h n
    refine ⟨hend.length_contents.trans hsize, ?_⟩
    have hfits : min b.userSize n ≤ (b.resize n).userSize := hsize ▸ Nat.min_le_right _ _
    rw [hlen, take_contents (Nat.min_le_left _ _)]
    exact (take_contents hfits).trans hkeep
  | reserve n => exact absurd rfl (hreserve n)
  | reset n => exact ((h.resize 0).resize n).length_contents.trans (resize_spec (h.resize 0) n).2.1
  | clear => exact contents_of_size (resize_spec h 0).2.1
  | shrinkToFit => exact absurd rfl hshrink
  | takeOwnership newBuf => exact (b.takeOwnership_spec newBuf).2
  | takeOwnershipMmapped newBuf => exact (b.takeOwnership_spec newBuf).2
  | write i byte =>
    change (if _ then _ else _ : BufferStorage).contents = _
    split
    next => exact List.take_set
    next hout => rw [List.set_eq_of_length_le (by omega)]

/-- An operation on a buffer is that of an array of bytes, but for the shrink that loses the size and, where
a reserve is to keep all bytes, the one that loses some. -/
theorem perform_iff (h : b.WellFormed) (op : BufferOp) :
    (ArrayStep min b.contents (b.perform op).contents op ↔ ¬b.LosesSize op) ∧
      (ArrayStep (fun old _ => old) b.contents (b.perform op).contents op ↔ ¬b.LosesSize op ∧ ¬b.LosesBytes op) := by
  have hlen := h.length_contents
  by_cases hshrink : op = .shrinkToFit
  · subst hshrink
    have hiff : b.shrinkToFit.contents = b.contents ↔ ¬b.LosesSize .shrinkToFit := shrinkToFit_contents_iff h
    exact ⟨hiff, hiff.trans (iff_self_and.mpr fun _ hb => hb)⟩
  · by_cases hreserve : ∃ n, op = .reserve n
    · obtain ⟨n, rfl⟩ := hreserve
      obtain ⟨hend, hsize, hkeep⟩ := reserve_spec h n
      have hsame : (b.reserve n).contents.length = b.contents.length :=
        (hend.length_contents.trans hsize).trans hlen.symm
      constructor
      · refine iff_of_true ⟨hsame, ?_⟩ fun hb => hb
        have hfits : min b.userSize n ≤ (b.reserve n).userSize := hsize ▸ Nat.min_le_left _ _
        rw [hlen, take_contents (Nat.min_le_left _ _)]
        exact (take_contents hfits).trans hkeep
      · have htake : (b.reserve n).contents.take b.contents.length = (b.reserve n).contents :=
          List.take_of_length_le (Nat.le_of_eq hsame)
        have hiff := reserve_contents_iff h n
        constructor
        · rintro ⟨_, heq⟩
          change (b.reserve n).contents.take b.contents.length = b.contents.take b.contents.length at heq
          rw [htake, List.take_length] at heq
          exact ⟨fun hb => hb, hiff.mp heq⟩
        · rintro ⟨_, hkept⟩
          refine ⟨hsame, ?_⟩
          change (b.reserve n).contents.take b.contents.length = b.contents.take b.contents.length
          rw [htake, List.take_length]
          exact hiff.mpr hkept
    · have hstep : ∀ keep, ArrayStep keep b.contents (b.perform op).contents op := fun keep =>
        perform_step h keep hshrink fun n hn => hreserve ⟨n, hn⟩
      have hsize : ¬b.LosesSize op := by
        cases op with
        | shrinkToFit => exact absurd rfl hshrink
        | _ => exact fun hb => hb
      have hbytes : ¬b.LosesBytes op := by
        cases op with
        | reserve n => exact absurd ⟨n, rfl⟩ hreserve
        | _ => exact fun hb => hb
      exact ⟨iff_of_true (hstep min) hsize, iff_of_true (hstep _) ⟨hsize, hbytes⟩⟩

section Runs

variable {ι : Type} [DecidableEq ι] {buffers : ι → BufferStorage} {keep : Nat → Nat → Nat}

/-- A move frees what the target had and leaves the source empty, unless they are the same. -/
def call (buffers : ι → BufferStorage) : BufferCall ι → ι → BufferStorage
  | .on x op => Function.update buffers x ((buffers x).perform op)
  | .move dst src =>
    if dst = src then buffers else Function.update (Function.update buffers dst (buffers src)) src {}

/-- What a call makes of the arrays of bytes that the buffers stand for. -/
def CallStep (keep : Nat → Nat → Nat) (before after : ι → List (Option UInt8)) : BufferCall ι → Prop
  | .on x op => ArrayStep keep (before x) (after x) op ∧ ∀ y, y ≠ x → after y = before y
  | .move dst src =>
    after dst = before src ∧ (dst ≠ src → after src = []) ∧ ∀ y, y ≠ dst → y ≠ src → after y = before y

/-- Buffers behave as arrays of bytes through a sequence of calls: each size is that of the array and
lies within the allocation, and each call is one on the arrays. -/
def Behaves (keep : Nat → Nat → Nat) : List (BufferCall ι) → (ι → BufferStorage) → Prop
  | [], buffers => ∀ x, (buffers x).userSize = (buffers x).contents.length ∧ (buffers x).userSize ≤ (buffers x).allocSize
  | c :: calls, buffers =>
    (∀ x, (buffers x).userSize = (buffers x).contents.length ∧ (buffers x).userSize ≤ (buffers x).allocSize) ∧
      CallStep keep (fun x => (buffers x).contents) (fun x => (call buffers c x).contents) c ∧
        Behaves keep calls (call buffers c)

/-- Every operation of a sequence of calls meets a condition on the buffer that it is done to. -/
def Meets (condition : BufferStorage → BufferOp → Prop) : List (BufferCall ι) → (ι → BufferStorage) → Prop
  | [], _ => True
  | .on x op :: calls, buffers => condition (buffers x) op ∧ Meets condition calls (call buffers (.on x op))
  | .move dst src :: calls, buffers => Meets condition calls (call buffers (.move dst src))

theorem call_wellFormed (h : ∀ x, (buffers x).WellFormed) (c : BufferCall ι) (x : ι) :
    (call buffers c x).WellFormed := by
  cases c with
  | on y op =>
    change (Function.update buffers y _ x).WellFormed
    by_cases hx : x = y
    · subst hx
      rw [Function.update_self]
      exact (h x).perform op
    · rw [Function.update_of_ne hx]
      exact h x
  | move dst src =>
    change ((if _ then _ else _ : ι → BufferStorage) x).WellFormed
    split
    next => exact h x
    next =>
      by_cases hs : x = src
      · subst hs
        rw [Function.update_self]
        exact wellFormed_empty
      · rw [Function.update_of_ne hs]
        by_cases hd : x = dst
        · subst hd
          rw [Function.update_self]
          exact h src
        · rw [Function.update_of_ne hd]
          exact h x

theorem callStep_on_iff (x : ι) (op : BufferOp) :
    CallStep keep (fun y => (buffers y).contents) (fun y => (call buffers (.on x op) y).contents) (.on x op) ↔
      ArrayStep keep (buffers x).contents ((buffers x).perform op).contents op := by
  have hself : call buffers (.on x op) x = (buffers x).perform op := Function.update_self x _ _
  change ArrayStep keep _ (call buffers (.on x op) x).contents op ∧ _ ↔ _
  rw [hself]
  refine and_iff_left fun y hy => ?_
  exact congrArg contents (Function.update_of_ne hy _ _)

theorem callStep_move (dst src : ι) :
    CallStep keep (fun y => (buffers y).contents) (fun y => (call buffers (.move dst src) y).contents)
      (.move dst src) := by
  by_cases hsame : dst = src
  · have hcall : call buffers (.move dst src) = buffers := if_pos hsame
    rw [hcall]
    exact ⟨by rw [hsame], fun hne => absurd hsame hne, fun _ _ _ => rfl⟩
  · have hcall : call buffers (.move dst src) =
        Function.update (Function.update buffers dst (buffers src)) src {} := if_neg hsame
    rw [hcall]
    refine ⟨?_, fun _ => ?_, fun y hd hs => ?_⟩
    · dsimp only
      rw [Function.update_of_ne hsame, Function.update_self]
    · dsimp only
      rw [Function.update_self]
      rfl
    · dsimp only
      rw [Function.update_of_ne hs, Function.update_of_ne hd]

/-- Behaviour through a whole sequence, from what one operation does. -/
theorem behaves_iff_of {condition : BufferStorage → BufferOp → Prop}
    (hop : ∀ {b : BufferStorage}, b.WellFormed → ∀ op,
      (ArrayStep keep b.contents (b.perform op).contents op ↔ condition b op))
    (calls : List (BufferCall ι)) (h : ∀ x, (buffers x).WellFormed) :
    Behaves keep calls buffers ↔ Meets condition calls buffers := by
  have hsizes : ∀ {buffers : ι → BufferStorage}, (∀ x, (buffers x).WellFormed) → ∀ x,
      (buffers x).userSize = (buffers x).contents.length ∧ (buffers x).userSize ≤ (buffers x).allocSize :=
    fun h x => ⟨(h x).length_contents.symm, (h x).used_le⟩
  induction calls generalizing buffers with
  | nil => exact iff_of_true (hsizes h) trivial
  | cons c calls ih =>
    have hrest := ih (call_wellFormed h c)
    cases c with
    | on x op =>
      have hstep := (callStep_on_iff x op).trans (hop (h x) op)
      exact (and_iff_right (hsizes h)).trans (and_congr hstep hrest)
    | move dst src => exact (and_iff_right (hsizes h)).trans ((and_iff_right (callStep_move dst src)).trans hrest)

/-- Buffers that start empty behave as arrays of bytes exactly when no shrink takes the size of a mapped
buffer along and, if a reserve is to keep all bytes and not those up to its argument, no reserve exchanges
bytes that have been written. -/
theorem behaves_iff (calls : List (BufferCall ι)) :
    (Behaves min calls (fun _ => {}) ↔ Meets (fun b op => ¬b.LosesSize op) calls fun _ => {}) ∧
      (Behaves (fun old _ => old) calls (fun _ => {}) ↔
        Meets (fun b op => ¬b.LosesSize op ∧ ¬b.LosesBytes op) calls fun _ => {}) :=
  ⟨behaves_iff_of (fun h op => (perform_iff h op).1) calls fun _ => wellFormed_empty,
    behaves_iff_of (fun h op => (perform_iff h op).2) calls fun _ => wellFormed_empty⟩

/-- A mapped buffer of three bytes is cut down to two and shrunk: its size is then zero. A buffer of two
bytes loses them when no bytes are reserved. -/
theorem shrink_loses_size :
    (¬Behaves min [.on () (.takeOwnershipMmapped [1, 2, 3]), .on () (.resize 2), .on () .shrinkToFit] fun _ => {}) ∧
      (((((({} : BufferStorage).takeOwnershipMmapped [1, 2, 3]).resize 2).shrinkToFit).userSize = 0) ∧
      ((({} : BufferStorage).takeOwnership [1, 2]).reserve 0).contents = [none, none]) := by
  refine ⟨fun h => ?_, by decide, by decide⟩
  have hmet := ((behaves_iff_of (fun h op => (perform_iff h op).1) _ fun _ => wellFormed_empty).mp h).2.2.1
  exact hmet ⟨by decide, by decide, by decide⟩

end Runs

section Abstraction

variable {d : DataBuffer} {i : Nat} {byte : UInt8}

/-- The buffer without its allocation: of the same size, and with every byte that has been written. -/
structure Stands (b : BufferStorage) (d : DataBuffer) : Prop where
  size_eq : d.size = b.userSize
  bytes_eq : ∀ (i : Nat) (byte : UInt8), b.buf[i]? = some (some byte) → d.bytes i = byte

theorem not_mem_malloc {n : Nat} (h : (malloc n)[i]? = some (some byte)) : False := by
  cases List.eq_of_mem_replicate (List.mem_of_getElem? h)

/-- Memory that is exchanged for new has no bytes but those of the old. -/
theorem reallocBuf_bytes {n : Nat} (h : (b.reallocBuf n).buf[i]? = some (some byte)) :
    b.buf[i]? = some (some byte) := by
  have hprefix : ∀ {k m : Nat}, (b.buf.take k ++ malloc m)[i]? = some (some byte) → b.buf[i]? = some (some byte) := by
    intro k m h
    rcases Nat.lt_or_ge i (b.buf.take k).length with hi | hi
    · rw [List.getElem?_append_left hi, List.getElem?_take_of_lt (by rw [List.length_take] at hi; omega)] at h
      exact h
    · rw [List.getElem?_append_right hi] at h
      exact absurd h not_mem_malloc
  unfold reallocBuf at h
  split at h
  next => cases h
  next =>
    split at h
    next =>
      change (memcpy _ _ _)[i]? = _ at h
      rw [memcpy, malloc, List.drop_replicate] at h
      exact hprefix h
    next =>
      split at h
      next => exact absurd h not_mem_malloc
      next => exact hprefix h

/-- The abstract resize is what a resize of the storage comes to. -/
theorem Stands.resize (h : b.Stands d) (n : Nat) : (b.resize n).Stands (d.resize n) := by
  refine ⟨rfl, fun i byte hi => h.bytes_eq i byte ?_⟩
  unfold BufferStorage.resize at hi
  split at hi
  next => exact reallocBuf_bytes hi
  next => exact hi

theorem Stands.write (h : b.Stands d) (i : Nat) (byte : UInt8) :
    (b.write i byte).Stands (d.write i 1 fun _ => byte) := by
  refine ⟨h.size_eq, fun j other hj => ?_⟩
  change (b.buf.set i (some byte))[j]? = _ at hj
  change (if i ≤ j ∧ j < i + 1 then byte else d.bytes j) = other
  by_cases hij : i = j
  · subst hij
    rw [if_pos ⟨Nat.le_refl _, Nat.lt_succ_self _⟩]
    rw [List.getElem?_set_self'] at hj
    obtain ⟨_, _, hj⟩ := Option.map_eq_some_iff.mp hj
    exact Option.some.inj hj
  · rw [List.getElem?_set_ne hij] at hj
    rw [if_neg (by omega)]
    exact h.bytes_eq j other hj

/-- The operations of the buffer without its allocation. -/
def abstractly (d : DataBuffer) : BufferOp → DataBuffer
  | .resize n => d.resize n
  | .reserve _ => d
  | .reset n => d.clear.resize n
  | .clear => d.clear
  | .shrinkToFit => d
  | .takeOwnership newBuf => ⟨newBuf.length, fun i => newBuf.getD i 0⟩
  | .takeOwnershipMmapped newBuf => ⟨newBuf.length, fun i => newBuf.getD i 0⟩
  | .write i byte => if i < d.size then d.write i 1 fun _ => byte else d

theorem Stands.shrinkToFit (h : b.Stands d) (hb : b.WellFormed) (hkeep : ¬b.LosesSize .shrinkToFit) :
    b.shrinkToFit.Stands d := by
  unfold BufferStorage.shrinkToFit
  split
  next hlt =>
    obtain ⟨_, _, hsize, _⟩ := reallocBuf_spec hb b.userSize
    refine ⟨?_, fun i byte hi => h.bytes_eq i byte (reallocBuf_bytes hi)⟩
    rw [hsize, h.size_eq, Nat.min_self]
    split
    next hmapped =>
      have hzero : ¬0 < b.userSize := fun hpos => hkeep ⟨hmapped, hpos, hlt⟩
      omega
    next => rfl
  next => exact h

theorem Stands.takeOwnership (b : BufferStorage) (newBuf : List UInt8) :
    (b.takeOwnership newBuf).Stands ⟨newBuf.length, fun i => newBuf.getD i 0⟩ := by
  refine ⟨rfl, fun i byte hi => ?_⟩
  obtain ⟨x, hx, hbyte⟩ := Option.map_eq_some_iff.mp (List.getElem?_map.symm.trans hi)
  cases Option.some.inj hbyte
  exact List.getD_eq_getElem?_getD.trans (congrArg (Option.getD · 0) hx)

theorem Stands.perform (h : b.Stands d) (hb : b.WellFormed) (op : BufferOp) (hkeep : ¬b.LosesSize op) :
    (b.perform op).Stands (abstractly d op) := by
  cases op with
  | resize n => exact h.resize n
  | reserve n =>
    obtain ⟨_, hbytes⟩ := (h.resize n).resize b.userSize
    exact ⟨h.size_eq, hbytes⟩
  | reset n => exact (h.resize 0).resize n
  | clear => exact h.resize 0
  | shrinkToFit => exact h.shrinkToFit hb hkeep
  | takeOwnership newBuf => exact Stands.takeOwnership b newBuf
  | takeOwnershipMmapped newBuf =>
    obtain ⟨hsize, hbytes⟩ := Stands.takeOwnership b newBuf
    exact ⟨hsize, hbytes⟩
  | write i byte =>
    change (if i < b.userSize then b.write i byte else b).Stands
      (if i < d.size then d.write i 1 fun _ => byte else d)
    rw [h.size_eq]
    split
    next => exact h.write i byte
    next => exact h

/-- The buffer without its allocation follows the storage through any operations, as long as no shrink takes the
size of mapped memory along. -/
theorem Stands.run (h : b.Stands d) (hb : b.WellFormed) (ops : List BufferOp)
    (hkeep : ∀ done op, done ++ [op] <+: ops → ¬(done.foldl BufferStorage.perform b).LosesSize op) :
    (ops.foldl BufferStorage.perform b).Stands (ops.foldl abstractly d) := by
  induction ops generalizing b d with
  | nil => exact h
  | cons op ops ih =>
    have hop : ¬b.LosesSize op := hkeep [] op (List.prefix_append [op] ops)
    exact ih (h.perform hb op hop) (hb.perform op) fun done next hpre =>
      hkeep (op :: done) next (List.cons_prefix_cons.mpr ⟨rfl, hpre⟩)

end Abstraction

end BufferStorage

end Fenix
