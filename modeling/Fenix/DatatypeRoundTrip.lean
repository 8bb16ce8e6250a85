import Fenix.MPIDatatype
import Mathlib.Algebra.Group.Nat.Defs

namespace Fenix

variable {accepts : MPIDatatype → Bool} {type : MPIDatatype} {buffer bytes : List UInt8}

theorem length_leBytes (k v : Nat) : (leBytes k v).length = k := by
  induction k generalizing v with
  | zero => rfl
  | succ k ih => exact congrArg (· + 1) (ih (v / 256))

theorem leValue_leBytes {k v : Nat} (h : v < 256 ^ k) : leValue (leBytes k v) = v := by
  induction k generalizing v with
  | zero =>
    rw [Nat.pow_zero, Nat.lt_one_iff] at h
    exact h.symm
  | succ k ih =>
    have hdiv : v / 256 < 256 ^ k := Nat.div_lt_of_lt_mul (by rwa [Nat.mul_comm, ← Nat.pow_succ])
    change (UInt8.ofNat v).toNat + 256 * leValue (leBytes k (v / 256)) = v
    rw [ih hdiv, UInt8.toNat_ofNat']
    omega

theorem writeArray_eq {α : Type} (write : α → List UInt8) (buffer : List UInt8) (values : List α) :
    writeArray write buffer values = buffer ++ values.flatMap write := by
  unfold writeArray
  induction values generalizing buffer with
  | nil => exact (List.append_nil buffer).symm
  | cons v values ih => rw [List.foldl_cons, ih, List.flatMap_cons, List.append_assoc]

namespace ByteReader

variable {n : Nat}

theorem parses_readVal {k v : Nat} (h : v < 256 ^ k) :
    (readVal k).Parses n (leBytes k v) v .unexpectedEnd := by
  constructor
  · intro rest _
    have hlen : (leBytes k v ++ rest).length = k + rest.length := by rw [List.length_append, length_leBytes]
    have hcheck : checkEnd k (leBytes k v ++ rest) = .ok ((), leBytes k v ++ rest) := if_neg (by omega)
    have hcopy : memcpy k (leBytes k v ++ rest) = .ok (leBytes k v, rest) := by
      unfold memcpy
      rw [if_pos (by omega), List.take_left' (length_leBytes k v), List.drop_left' (length_leBytes k v)]
    change Reader.bind (checkEnd k) _ _ = _
    rw [Reader.bind, hcheck]
    change Reader.bind (memcpy k) _ _ = _
    rw [Reader.bind, hcopy]
    change Except.ok (leValue (leBytes k v), rest) = _
    rw [leValue_leBytes h]
  · intro ts _ hts hne
    have hlt : ts.length < k := by
      have hle := hts.length_le
      have hlen := length_leBytes k v
      have hneq : ts.length ≠ (leBytes k v).length := fun heq => hne (hts.eq_of_length heq)
      omega
    have hcheck : checkEnd k ts = .error .unexpectedEnd := if_pos hlt
    change Reader.bind (checkEnd k) _ _ = _
    rw [Reader.bind, hcheck]

theorem parses_readByte (b : UInt8) : readByte.Parses n [b] b .unexpectedEnd := by
  have hb : leBytes 1 b.toNat = [b] := congrArg (· :: []) (UInt8.ofNat_toNat)
  have hval : (readVal 1).Parses n [b] b.toNat .unexpectedEnd := hb ▸ parses_readVal b.toNat_lt
  refine Reader.parses_bind_last hval ?_
  rw [UInt8.ofNat_toNat]
  exact Reader.parses_pure n b _

theorem parses_readInt32 (x : Int32) : readInt32.Parses n (writeInt32 x) x .unexpectedEnd := by
  refine Reader.parses_bind_last (parses_readVal x.toBitVec.isLt) ?_
  rw [BitVec.ofNat_toNat, BitVec.setWidth_eq]
  exact Reader.parses_pure n x _

theorem parses_readInt64 (x : Int64) : readInt64.Parses n (writeInt64 x) x .unexpectedEnd := by
  refine Reader.parses_bind_last (parses_readVal x.toBitVec.isLt) ?_
  rw [BitVec.ofNat_toNat, BitVec.setWidth_eq]
  exact Reader.parses_pure n x _

theorem parses_readVector {α : Type} {read : ByteReader α} {write : α → List UInt8} {count : Int32} {xs : List α}
    (hread : ∀ x, read.Parses n (write x) x .unexpectedEnd) (hlen : (xs.length : Int) = count.toInt) :
    (readVector read count).Parses n (xs.flatMap write) xs .unexpectedEnd := by
  unfold readVector
  rw [if_neg (by omega), show count.toInt.toNat = xs.length by omega]
  exact Reader.parses_count fun x _ => hread x

end ByteReader

namespace MPIDatatype

open Reader ByteReader

variable {read : ByteReader MPIDatatype} {n : Nat} {old : MPIDatatype} {enc : List UInt8}

/-- The datatypes built from the mapped ones by calls that the library accepts, where an array has as many
elements as the call says. -/
inductive Built (accepts : MPIDatatype → Bool) : MPIDatatype → Prop
  | builtin {type : NamedType} (htype : type ∈ builtinMappings.map Prod.fst) : Built accepts (named type)
  | dup {old : MPIDatatype} (hold : Built accepts old) (h : accepts (dup old) = true) : Built accepts (dup old)
  | contiguous {count : Int32} {old : MPIDatatype} (hold : Built accepts old)
      (h : accepts (contiguous count old) = true) : Built accepts (contiguous count old)
  | vector {count blocklength stride : Int32} {old : MPIDatatype} (hold : Built accepts old)
      (h : accepts (vector count blocklength stride old) = true) : Built accepts (vector count blocklength stride old)
  | hvector {count blocklength : Int32} {stride : Int64} {old : MPIDatatype} (hold : Built accepts old)
      (h : accepts (hvector count blocklength stride old) = true) :
      Built accepts (hvector count blocklength stride old)
  | indexed {count : Int32} {blocklengths displacements : List Int32} {old : MPIDatatype}
      (hblocks : (blocklengths.length : Int) = count.toInt) (hdispls : (displacements.length : Int) = count.toInt)
      (hold : Built accepts old) (h : accepts (indexed count blocklengths displacements old) = true) :
      Built accepts (indexed count blocklengths displacements old)
  | hindexed {count : Int32} {blocklengths : List Int32} {displacements : List Int64} {old : MPIDatatype}
      (hblocks : (blocklengths.length : Int) = count.toInt) (hdispls : (displacements.length : Int) = count.toInt)
      (hold : Built accepts old) (h : accepts (hindexed count blocklengths displacements old) = true) :
      Built accepts (hindexed count blocklengths displacements old)
  | indexedBlock {count blocklength : Int32} {displacements : List Int32} {old : MPIDatatype}
      (hdispls : (displacements.length : Int) = count.toInt) (hold : Built accepts old)
      (h : accepts (indexedBlock count blocklength displacements old) = true) :
      Built accepts (indexedBlock count blocklength displacements old)
  | hindexedBlock {count blocklength : Int32} {displacements : List Int64} {old : MPIDatatype}
      (hdispls : (displacements.length : Int) = count.toInt) (hold : Built accepts old)
      (h : accepts (hindexedBlock count blocklength displacements old) = true) :
      Built accepts (hindexedBlock count blocklength displacements old)
  | struct {count : Int32} {blocklengths : List Int32} {displacements : List Int64} {types : List MPIDatatype}
      (hblocks : (blocklengths.length : Int) = count.toInt) (hdispls : (displacements.length : Int) = count.toInt)
      (hcount : (types.length : Int) = count.toInt) (htypes : ∀ type ∈ types, Built accepts type)
      (h : accepts (struct count blocklengths displacements types) = true) :
      Built accepts (struct count blocklengths displacements types)
  | subarray {ndims order : Int32} {sizes subsizes starts : List Int32} {old : MPIDatatype}
      (hsizes : (sizes.length : Int) = ndims.toInt) (hsubsizes : (subsizes.length : Int) = ndims.toInt)
      (hstarts : (starts.length : Int) = ndims.toInt) (hold : Built accepts old)
      (h : accepts (subarray ndims sizes subsizes starts order old) = true) :
      Built accepts (subarray ndims sizes subsizes starts order old)
  | darray {size rank ndims order : Int32} {gsizes distribs dargs psizes : List Int32} {old : MPIDatatype}
      (hgsizes : (gsizes.length : Int) = ndims.toInt) (hdistribs : (distribs.length : Int) = ndims.toInt)
      (hdargs : (dargs.length : Int) = ndims.toInt) (hpsizes : (psizes.length : Int) = ndims.toInt)
      (hold : Built accepts old)
      (h : accepts (darray size rank ndims gsizes distribs dargs psizes order old) = true) :
      Built accepts (darray size rank ndims gsizes distribs dargs psizes order old)
  | resized {lb extent : Int64} {old : MPIDatatype} (hold : Built accepts old)
      (h : accepts (resized old lb extent) = true) : Built accepts (resized old lb extent)

theorem parses_create (h : accepts type = true) :
    (Reader.lift (create accepts type) : ByteReader MPIDatatype).Parses n [] type .unexpectedEnd :=
  parses_lift n _ (if_pos h)

/-- The last part of every encoding but that of a struct is the type that was built on. -/
theorem parses_child {build : MPIDatatype → MPIDatatype} (hold : read.Parses n enc old .unexpectedEnd)
    (h : accepts (build old) = true) :
    (read >>= fun child => Reader.lift (create accepts (build child))).Parses n enc (build old) .unexpectedEnd :=
  parses_bind_last hold (parses_create h)

/-- What a datatype is written as. -/
def encoding (type : MPIDatatype) : List UInt8 := (type.serializeRecursive []).toOption.getD []

/-- The datatype is appended to any buffer as its encoding, and read back from that. -/
def Codes (accepts : MPIDatatype → Bool) (type : MPIDatatype) : Prop :=
  (∀ buffer, type.serializeRecursive buffer = .ok (buffer ++ type.encoding)) ∧
    ∀ depth, (deserializeRecursive accepts depth).Parses depth type.encoding type .unexpectedEnd

theorem codes_of (hwrite : ∀ buffer, type.serializeRecursive buffer = .ok (buffer ++ bytes))
    (hread : ∀ depth, (deserializeRecursive accepts depth).Parses depth bytes type .unexpectedEnd) :
    Codes accepts type := by
  have henc : type.encoding = bytes := by
    unfold encoding
    rw [hwrite]
    rfl
  rw [← henc] at hwrite hread
  exact ⟨hwrite, hread⟩

/-- A call takes a byte off the stream before it makes another, so the depth is never more than the stream
is long. -/
theorem codes_derived (byte : UInt8) (hnull : byte ≠ TypeCombiner.datatypeNull) (hbyte : ¬byte < 0x40)
    (hwrite : ∀ buffer, type.serializeRecursive buffer = .ok (buffer ++ ([byte] ++ enc)))
    (hread : ∀ depth, (deserializeDerived accepts (deserializeRecursive accepts depth) byte).Parses depth enc type
      .unexpectedEnd) : Codes accepts type := by
  refine codes_of hwrite fun depth => ?_
  cases depth with
  | zero => exact parses_zero _ _ _ _
  | succ depth =>
    refine parses_bind (Nat.add_comm depth 1).le (parses_readByte byte) ?_
    rw [if_neg hnull, if_neg hbyte]
    exact hread depth

theorem codes_builtin {type : NamedType} (htype : type ∈ builtinMappings.map Prod.fst) :
    Codes accepts (named type) := by
  have hmapped : ∀ mapping ∈ builtinMappings, builtinToCombiner mapping.1 = .ok mapping.2 ∧
      combinerToBuiltin mapping.2 = .ok mapping.1 ∧ mapping.2 ≠ TypeCombiner.datatypeNull ∧ mapping.2 < 0x40 := by
    decide
  obtain ⟨mapping, hmem, rfl⟩ := List.mem_map.mp htype
  obtain ⟨hto, hfrom, hnull, hbyte⟩ := hmapped mapping hmem
  have hwrite (buffer : List UInt8) : (named mapping.1).serializeRecursive buffer = .ok (buffer ++ [mapping.2]) := by
    change (do let combiner ← builtinToCombiner mapping.1; return buffer ++ [combiner]) = _
    rw [hto]
    rfl
  refine codes_of hwrite fun depth => ?_
  cases depth with
  | zero => exact parses_zero _ _ _ _
  | succ depth =>
    refine parses_bind_last (parses_readByte mapping.2) ?_
    rw [if_neg hnull, if_pos hbyte, hfrom]
    exact parses_lift _ _ rfl

theorem codes_dup (hold : Codes accepts old) (h : accepts (dup old) = true) : Codes accepts (dup old) := by
  refine codes_derived TypeCombiner.dup (by decide) (by decide) (fun buffer => ?_)
    fun depth => parses_child (hold.2 depth) h
  change old.serializeRecursive (buffer ++ [TypeCombiner.dup]) = _
  rw [hold.1, List.append_assoc]

theorem codes_contiguous {count : Int32} (hold : Codes accepts old) (h : accepts (contiguous count old) = true) :
    Codes accepts (contiguous count old) := by
  refine codes_derived TypeCombiner.contiguous (by decide) (by decide) (fun buffer => ?_)
    fun depth => parses_seq (parses_readInt32 count) (parses_child (hold.2 depth) h)
  change old.serializeRecursive (writeArray writeInt32 (buffer ++ [TypeCombiner.contiguous]) [count]) = _
  simp only [writeArray_eq, hold.1, List.flatMap_cons, List.flatMap_nil, List.append_assoc, List.nil_append]

theorem codes_vector {count blocklength stride : Int32} (hold : Codes accepts old)
    (h : accepts (vector count blocklength stride old) = true) :
    Codes accepts (vector count blocklength stride old) := by
  refine codes_derived TypeCombiner.vector (by decide) (by decide) (fun buffer => ?_)
    fun depth => parses_seq (parses_readInt32 count) (parses_seq (parses_readInt32 blocklength)
      (parses_seq (parses_readInt32 stride) (parses_child (hold.2 depth) h)))
  change old.serializeRecursive
    (writeArray writeInt32 (buffer ++ [TypeCombiner.vector]) [count, blocklength, stride]) = _
  simp only [writeArray_eq, hold.1, List.flatMap_cons, List.flatMap_nil, List.append_assoc, List.nil_append]

theorem codes_hvector {count blocklength : Int32} {stride : Int64} (hold : Codes accepts old)
    (h : accepts (hvector count blocklength stride old) = true) :
    Codes accepts (hvector count blocklength stride old) := by
  refine codes_derived TypeCombiner.hvector (by decide) (by decide) (fun buffer => ?_)
    fun depth => parses_seq (parses_readInt32 count) (parses_seq (parses_readInt32 blocklength)
      (parses_seq (parses_readInt64 stride) (parses_child (hold.2 depth) h)))
  change old.serializeRecursive (writeArray writeInt64
    (writeArray writeInt32 (buffer ++ [TypeCombiner.hvector]) [count, blocklength]) [stride]) = _
  simp only [writeArray_eq, hold.1, List.flatMap_cons, List.flatMap_nil, List.append_assoc, List.nil_append]

theorem codes_indexed {count : Int32} {blocklengths displacements : List Int32}
    (hblocks : (blocklengths.length : Int) = count.toInt) (hdispls : (displacements.length : Int) = count.toInt)
    (hold : Codes accepts old) (h : accepts (indexed count blocklengths displacements old) = true) :
    Codes accepts (indexed count blocklengths displacements old) := by
  refine codes_derived TypeCombiner.indexed (by decide) (by decide) (fun buffer => ?_)
    fun depth => parses_seq (parses_readInt32 count) (parses_seq (parses_readVector parses_readInt32 hblocks)
      (parses_seq (parses_readVector parses_readInt32 hdispls) (parses_child (hold.2 depth) h)))
  change old.serializeRecursive
    (writeArray writeInt32 (buffer ++ [TypeCombiner.indexed]) ([count] ++ (blocklengths ++ displacements))) = _
  simp only [writeArray_eq, hold.1, List.flatMap_append, List.flatMap_cons, List.flatMap_nil, List.append_assoc,
    List.nil_append]

theorem codes_hindexed {count : Int32} {blocklengths : List Int32} {displacements : List Int64}
    (hblocks : (blocklengths.length : Int) = count.toInt) (hdispls : (displacements.length : Int) = count.toInt)
    (hold : Codes accepts old) (h : accepts (hindexed count blocklengths displacements old) = true) :
    Codes accepts (hindexed count blocklengths displacements old) := by
  refine codes_derived TypeCombiner.hindexed (by decide) (by decide) (fun buffer => ?_)
    fun depth => parses_seq (parses_readInt32 count) (parses_seq (parses_readVector parses_readInt32 hblocks)
      (parses_seq (parses_readVector parses_readInt64 hdispls) (parses_child (hold.2 depth) h)))
  change old.serializeRecursive (writeArray writeInt64
    (writeArray writeInt32 (buffer ++ [TypeCombiner.hindexed]) ([count] ++ blocklengths)) displacements) = _
  simp only [writeArray_eq, hold.1, List.flatMap_append, List.flatMap_cons, List.flatMap_nil, List.append_assoc,
    List.nil_append]

theorem codes_indexedBlock {count blocklength : Int32} {displacements : List Int32}
    (hdispls : (displacements.length : Int) = count.toInt) (hold : Codes accepts old)
    (h : accepts (indexedBlock count blocklength displacements old) = true) :
    Codes accepts (indexedBlock count blocklength displacements old) := by
  refine codes_derived TypeCombiner.indexedBlock (by decide) (by decide) (fun buffer => ?_)
    fun depth => parses_seq (parses_readInt32 count) (parses_seq (parses_readInt32 blocklength)
      (parses_seq (parses_readVector parses_readInt32 hdispls) (parses_child (hold.2 depth) h)))
  change old.serializeRecursive
    (writeArray writeInt32 (buffer ++ [TypeCombiner.indexedBlock]) ([count, blocklength] ++ displacements)) = _
  simp only [writeArray_eq, hold.1, List.flatMap_append, List.flatMap_cons, List.flatMap_nil, List.append_assoc,
    List.nil_append]

theorem codes_hindexedBlock {count blocklength : Int32} {displacements : List Int64}
    (hdispls : (displacements.length : Int) = count.toInt) (hold : Codes accepts old)
    (h : accepts (hindexedBlock count blocklength displacements old) = true) :
    Codes accepts (hindexedBlock count blocklength displacements old) := by
  refine codes_derived TypeCombiner.hindexedBlock (by decide) (by decide) (fun buffer => ?_)
    fun depth => parses_seq (parses_readInt32 count) (parses_seq (parses_readInt32 blocklength)
      (parses_seq (parses_readVector parses_readInt64 hdispls) (parses_child (hold.2 depth) h)))
  change old.serializeRecursive (writeArray writeInt64
    (writeArray writeInt32 (buffer ++ [TypeCombiner.hindexedBlock]) [count, blocklength]) displacements) = _
  simp only [writeArray_eq, hold.1, List.flatMap_cons, List.flatMap_nil, List.append_assoc, List.nil_append]

theorem serializeAll_eq {types : List MPIDatatype} (htypes : ∀ type ∈ types, Codes accepts type)
    (buffer : List UInt8) : serializeAll types buffer = .ok (buffer ++ types.flatMap encoding) := by
  induction types generalizing buffer with
  | nil => exact congrArg Except.ok (List.append_nil buffer).symm
  | cons type types ih =>
    change (type.serializeRecursive buffer >>= serializeAll types) = _
    rw [(htypes type List.mem_cons_self).1, Except.ok_bind, ih fun t ht => htypes t (List.mem_cons_of_mem _ ht),
      List.flatMap_cons, List.append_assoc]

theorem codes_struct {count : Int32} {blocklengths : List Int32} {displacements : List Int64}
    {types : List MPIDatatype} (hblocks : (blocklengths.length : Int) = count.toInt)
    (hdispls : (displacements.length : Int) = count.toInt) (hcount : (types.length : Int) = count.toInt)
    (htypes : ∀ type ∈ types, Codes accepts type)
    (h : accepts (struct count blocklengths displacements types) = true) :
    Codes accepts (struct count blocklengths displacements types) := by
  have hlen : count.toInt.toNat = types.length := by omega
  have hchildren (depth : Nat) : ((deserializeRecursive accepts depth).count count.toInt.toNat).Parses depth
      (types.flatMap encoding) types .unexpectedEnd := by
    rw [hlen]
    exact parses_count fun type ht => (htypes type ht).2 depth
  refine codes_derived TypeCombiner.struct (by decide) (by decide) (fun buffer => ?_)
    fun depth => parses_seq (parses_readInt32 count) (parses_seq (parses_readVector parses_readInt32 hblocks)
      (parses_seq (parses_readVector parses_readInt64 hdispls)
        (parses_bind_last (hchildren depth) (parses_create h))))
  change serializeAll types (writeArray writeInt64
    (writeArray writeInt32 (buffer ++ [TypeCombiner.struct]) ([count] ++ blocklengths)) displacements) = _
  simp only [writeArray_eq, serializeAll_eq htypes, List.flatMap_append, List.flatMap_cons, List.flatMap_nil,
    List.append_assoc, List.nil_append]

theorem codes_subarray {ndims order : Int32} {sizes subsizes starts : List Int32}
    (hsizes : (sizes.length : Int) = ndims.toInt) (hsubsizes : (subsizes.length : Int) = ndims.toInt)
    (hstarts : (starts.length : Int) = ndims.toInt) (hold : Codes accepts old)
    (h : accepts (subarray ndims sizes subsizes starts order old) = true) :
    Codes accepts (subarray ndims sizes subsizes starts order old) := by
  refine codes_derived TypeCombiner.subarray (by decide) (by decide) (fun buffer => ?_)
    fun depth => parses_seq (parses_readInt32 ndims) (parses_seq (parses_readVector parses_readInt32 hsizes)
      (parses_seq (parses_readVector parses_readInt32 hsubsizes)
        (parses_seq (parses_readVector parses_readInt32 hstarts)
          (parses_seq (parses_readInt32 order) (parses_child (hold.2 depth) h)))))
  change old.serializeRecursive (writeArray writeInt32 (buffer ++ [TypeCombiner.subarray])
    ([ndims] ++ (sizes ++ (subsizes ++ (starts ++ [order]))))) = _
  simp only [writeArray_eq, hold.1, List.flatMap_append, List.flatMap_cons, List.flatMap_nil, List.append_assoc,
    List.nil_append]

theorem codes_darray {size rank ndims order : Int32} {gsizes distribs dargs psizes : List Int32}
    (hgsizes : (gsizes.length : Int) = ndims.toInt) (hdistribs : (distribs.length : Int) = ndims.toInt)
    (hdargs : (dargs.length : Int) = ndims.toInt) (hpsizes : (psizes.length : Int) = ndims.toInt)
    (hold : Codes accepts old) (h : accepts (darray size rank ndims gsizes distribs dargs psizes order old) = true) :
    Codes accepts (darray size rank ndims gsizes distribs dargs psizes order old) := by
  refine codes_derived TypeCombiner.darray (by decide) (by decide) (fun buffer => ?_)
    fun depth => parses_seq (parses_readInt32 size) (parses_seq (parses_readInt32 rank)
      (parses_seq (parses_readInt32 ndims) (parses_seq (parses_readVector parses_readInt32 hgsizes)
        (parses_seq (parses_readVector parses_readInt32 hdistribs)
          (parses_seq (parses_readVector parses_readInt32 hdargs)
            (parses_seq (parses_readVector parses_readInt32 hpsizes)
              (parses_seq (parses_readInt32 order) (parses_child (hold.2 depth) h))))))))
  change old.serializeRecursive (writeArray writeInt32 (buffer ++ [TypeCombiner.darray])
    ([size, rank, ndims] ++ (gsizes ++ (distribs ++ (dargs ++ (psizes ++ [order])))))) = _
  simp only [writeArray_eq, hold.1, List.flatMap_append, List.flatMap_cons, List.flatMap_nil, List.append_assoc,
    List.nil_append]

theorem codes_resized {lb extent : Int64} (hold : Codes accepts old) (h : accepts (resized old lb extent) = true) :
    Codes accepts (resized old lb extent) := by
  refine codes_derived TypeCombiner.resized (by decide) (by decide) (fun buffer => ?_)
    fun depth => parses_seq (parses_readInt64 lb) (parses_seq (parses_readInt64 extent)
      (parses_child (hold.2 depth) h))
  change old.serializeRecursive (writeArray writeInt64 (buffer ++ [TypeCombiner.resized]) [lb, extent]) = _
  simp only [writeArray_eq, hold.1, List.flatMap_cons, List.flatMap_nil, List.append_assoc, List.nil_append]

theorem Built.codes (htype : Built accepts type) : Codes accepts type := by
  induction htype with
  | builtin htype => exact codes_builtin htype
  | dup _ h ih => exact codes_dup ih h
  | contiguous _ h ih => exact codes_contiguous ih h
  | vector _ h ih => exact codes_vector ih h
  | hvector _ h ih => exact codes_hvector ih h
  | indexed hblocks hdispls _ h ih => exact codes_indexed hblocks hdispls ih h
  | hindexed hblocks hdispls _ h ih => exact codes_hindexed hblocks hdispls ih h
  | indexedBlock hdispls _ h ih => exact codes_indexedBlock hdispls ih h
  | hindexedBlock hdispls _ h ih => exact codes_hindexedBlock hdispls ih h
  | struct hblocks hdispls hcount _ h ih => exact codes_struct hblocks hdispls hcount ih h
  | subarray hsizes hsubsizes hstarts _ h ih => exact codes_subarray hsizes hsubsizes hstarts ih h
  | darray hgsizes hdistribs hdargs hpsizes _ h ih => exact codes_darray hgsizes hdistribs hdargs hpsizes ih h
  | resized _ h ih => exact codes_resized ih h

/-- What is written of a datatype is read back from in front of any other bytes, and what breaks off within it is
refused where it ends. -/
theorem serialize_roundTrip (htype : Built accepts type) :
    ∃ bytes, type.serializeRecursive [] = .ok bytes ∧
      (∀ rest, deserialize accepts (bytes ++ rest) = .ok (type, rest)) ∧
      ∀ part, part <+: bytes → part ≠ bytes → deserialize accepts part = .error .unexpectedEnd := by
  obtain ⟨hwrite, hread⟩ := htype.codes
  exact ⟨type.encoding, hwrite [], fun rest => (hread _).1 rest (Nat.lt_succ_self _),
    fun part => (hread _).2 part (Nat.lt_succ_self _)⟩

example : (vector 2 1 (-3) (named .double)).serializeRecursive [] =
    .ok [0x42, 2, 0, 0, 0, 1, 0, 0, 0, 0xFD, 0xFF, 0xFF, 0xFF, 0x0C] := rfl

theorem serialize_roundTrip_nested :
    ∃ bytes, (struct 2 [1, 4] [0, 16]
        [vector 2 1 3 (named .int), resized (dup (named .double)) 0 16]).serializeRecursive [] = .ok bytes ∧
      (∀ rest, deserialize (fun _ => true) (bytes ++ rest) =
        .ok (struct 2 [1, 4] [0, 16] [vector 2 1 3 (named .int), resized (dup (named .double)) 0 16], rest)) ∧
      ∀ part, part <+: bytes → part ≠ bytes → deserialize (fun _ => true) part = .error .unexpectedEnd := by
  have hint : Built (fun _ => true) (named .int) := Built.builtin (by decide)
  have hdouble : Built (fun _ => true) (named .double) := Built.builtin (by decide)
  have htypes : ∀ type ∈ [vector 2 1 3 (named .int), resized (dup (named .double)) 0 16],
      Built (fun _ => true) type := by
    intro type ht
    rcases List.mem_pair.mp ht with rfl | rfl
    · exact Built.vector hint rfl
    · exact Built.resized (Built.dup hdouble rfl) rfl
  exact serialize_roundTrip (Built.struct rfl rfl rfl htypes rfl)

end MPIDatatype

end Fenix
