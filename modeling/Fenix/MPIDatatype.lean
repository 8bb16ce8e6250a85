import Fenix.Reader

namespace Fenix

/-- The datatypes that MPI names. `unmapped` are those without an entry in `builtinMappings`. -/
inductive NamedType where
  | char
  | short
  | int
  | long
  | longLong
  | signedChar
  | unsignedChar
  | unsignedShort
  | unsigned
  | unsignedLong
  | unsignedLongLong
  | float
  | double
  | longDouble
  | byte
  | packed
  | wchar
  | cBool
  | int8T
  | int16T
  | int32T
  | int64T
  | uint8T
  | uint16T
  | uint32T
  | uint64T
  | aint
  | count
  | offset
  | floatInt
  | doubleInt
  | longInt
  | shortInt
  | twoInt
  | longDoubleInt
  | unmapped (handle : Nat)
  deriving DecidableEq, Repr

/-- What a datatype was built by. -/
inductive MPICombiner where
  | dup
  | contiguous
  | vector
  | hvector
  | indexed
  | hindexed
  | indexedBlock
  | hindexedBlock
  | struct
  | subarray
  | darray
  | resized
  | other (combiner : Nat)
  deriving DecidableEq, Repr

/-- A datatype, with what `MPI_Type_get_envelope` and `MPI_Type_get_contents` tell of it. -/
inductive MPIDatatype where
  | null
  | named (type : NamedType)
  | derived (combiner : MPICombiner) (integers : List Int32) (addresses : List Int64) (datatypes : List MPIDatatype)

/-- Why a datatype is not written or read. A load from beyond the end of the bytes is undefined, and a recursion
is only as deep as its stack. -/
inductive DatatypeError where
  | unexpectedEnd
  | intern
  | lengthError
  | overrun
  | stackOverflow
  deriving DecidableEq, Repr

namespace TypeCombiner

@[match_pattern] abbrev dup : UInt8 := 0x40
@[match_pattern] abbrev contiguous : UInt8 := 0x41
@[match_pattern] abbrev vector : UInt8 := 0x42
@[match_pattern] abbrev hvector : UInt8 := 0x43
@[match_pattern] abbrev indexed : UInt8 := 0x44
@[match_pattern] abbrev hindexed : UInt8 := 0x45
@[match_pattern] abbrev indexedBlock : UInt8 := 0x46
@[match_pattern] abbrev hindexedBlock : UInt8 := 0x47
@[match_pattern] abbrev struct : UInt8 := 0x48
@[match_pattern] abbrev subarray : UInt8 := 0x49
@[match_pattern] abbrev darray : UInt8 := 0x4A
@[match_pattern] abbrev resized : UInt8 := 0x4B
@[match_pattern] abbrev datatypeNull : UInt8 := 0xFF

end TypeCombiner

/-- The named types with the bytes that stand for them, all below those of the combiners. -/
def builtinMappings : List (NamedType × UInt8) :=
  [(.char, 0x00), (.short, 0x01), (.int, 0x02), (.long, 0x03), (.longLong, 0x04), (.signedChar, 0x05),
    (.unsignedChar, 0x06), (.unsignedShort, 0x07), (.unsigned, 0x08), (.unsignedLong, 0x09),
    (.unsignedLongLong, 0x0A), (.float, 0x0B), (.double, 0x0C), (.longDouble, 0x0D), (.byte, 0x0E),
    (.packed, 0x0F), (.wchar, 0x10), (.cBool, 0x11), (.int8T, 0x12), (.int16T, 0x13), (.int32T, 0x14),
    (.int64T, 0x15), (.uint8T, 0x16), (.uint16T, 0x17), (.uint32T, 0x18), (.uint64T, 0x19), (.aint, 0x1A),
    (.count, 0x1B), (.offset, 0x1C), (.floatInt, 0x1D), (.doubleInt, 0x1E), (.longInt, 0x1F),
    (.shortInt, 0x20), (.twoInt, 0x21), (.longDoubleInt, 0x22)]

def builtinToCombiner (type : NamedType) : Except DatatypeError UInt8 :=
  match builtinMappings.find? fun mapping => mapping.1 = type with
  | some mapping => .ok mapping.2
  | none => .error .intern

def combinerToBuiltin (combiner : UInt8) : Except DatatypeError NamedType :=
  match builtinMappings.find? fun mapping => mapping.2 = combiner with
  | some mapping => .ok mapping.1
  | none => .error .intern

def mpiCombinerToEnum : MPICombiner → Except DatatypeError UInt8
  | .dup => .ok TypeCombiner.dup
  | .contiguous => .ok TypeCombiner.contiguous
  | .vector => .ok TypeCombiner.vector
  | .hvector => .ok TypeCombiner.hvector
  | .indexed => .ok TypeCombiner.indexed
  | .hindexed => .ok TypeCombiner.hindexed
  | .indexedBlock => .ok TypeCombiner.indexedBlock
  | .hindexedBlock => .ok TypeCombiner.hindexedBlock
  | .struct => .ok TypeCombiner.struct
  | .subarray => .ok TypeCombiner.subarray
  | .darray => .ok TypeCombiner.darray
  | .resized => .ok TypeCombiner.resized
  | .other _ => .error .intern

/-- The bytes of an integer in memory, the lowest first. -/
def leBytes : Nat → Nat → List UInt8
  | 0, _ => []
  | k + 1, v => UInt8.ofNat v :: leBytes k (v / 256)

def leValue (bytes : List UInt8) : Nat := bytes.foldr (fun b v => b.toNat + 256 * v) 0

def writeInt32 (value : Int32) : List UInt8 := leBytes 4 value.toBitVec.toNat

def writeInt64 (value : Int64) : List UInt8 := leBytes 8 value.toBitVec.toNat

def writeArray {α : Type} (write : α → List UInt8) (buffer : List UInt8) (values : List α) : List UInt8 :=
  values.foldl (fun buffer v => buffer ++ write v) buffer

namespace MPIDatatype

mutual

def serializeRecursive : MPIDatatype → List UInt8 → Except DatatypeError (List UInt8)
  | null, buffer => .ok (buffer ++ [TypeCombiner.datatypeNull])
  | named type, buffer => do
    let combiner ← builtinToCombiner type
    return buffer ++ [combiner]
  | derived combiner integers addresses datatypes, buffer => do
    let byte ← mpiCombinerToEnum combiner
    let buffer := buffer ++ [byte]
    match combiner with
    | .dup => serializeFirst datatypes buffer
    | .contiguous | .vector | .indexed | .indexedBlock | .subarray | .darray =>
      serializeFirst datatypes (writeArray writeInt32 buffer integers)
    | .hvector | .hindexed | .hindexedBlock =>
      serializeFirst datatypes (writeArray writeInt64 (writeArray writeInt32 buffer integers) addresses)
    | .struct => serializeAll datatypes (writeArray writeInt64 (writeArray writeInt32 buffer integers) addresses)
    | .resized => serializeFirst datatypes (writeArray writeInt64 buffer addresses)
    | .other _ => .error .intern

def serializeFirst : List MPIDatatype → List UInt8 → Except DatatypeError (List UInt8)
  | [], _ => .error .overrun
  | type :: _, buffer => serializeRecursive type buffer

def serializeAll : List MPIDatatype → List UInt8 → Except DatatypeError (List UInt8)
  | [], buffer => .ok buffer
  | type :: types, buffer => do
    let buffer ← serializeRecursive type buffer
    serializeAll types buffer

end

end MPIDatatype

/-- What is left of the bytes from `ptr` to `end`. -/
abbrev ByteReader := Reader UInt8 DatatypeError

namespace ByteReader

/-- A load of `n` bytes, whether or not they are there. -/
def memcpy (n : Nat) : ByteReader (List UInt8) := fun bytes =>
  if n ≤ bytes.length then .ok (bytes.take n, bytes.drop n) else .error .overrun

def checkEnd (n : Nat) : ByteReader Unit := fun bytes =>
  if bytes.length < n then .error .unexpectedEnd else .ok ((), bytes)

def readVal (n : Nat) : ByteReader Nat := do
  checkEnd n
  let bytes ← memcpy n
  Reader.pure (leValue bytes)

def readByte : ByteReader UInt8 := do
  let value ← readVal 1
  Reader.pure (UInt8.ofNat value)

def readInt32 : ByteReader Int32 := do
  let value ← readVal 4
  Reader.pure (Int32.ofBitVec (BitVec.ofNat 32 value))

def readInt64 : ByteReader Int64 := do
  let value ← readVal 8
  Reader.pure (Int64.ofBitVec (BitVec.ofNat 64 value))

/-- No vector has a negative number of elements. -/
def readVector {α : Type} (read : ByteReader α) (count : Int32) : ByteReader (List α) :=
  if count.toInt < 0 then Reader.fail .lengthError else read.count count.toInt.toNat

end ByteReader

namespace MPIDatatype

/-- The library builds a datatype, or refuses the arguments. -/
def create (accepts : MPIDatatype → Bool) (type : MPIDatatype) : Except DatatypeError MPIDatatype :=
  if accepts type = true then .ok type else .error .intern

/-! The contents of a datatype are the arguments that it was built with: first the integers, then the addresses,
then the datatypes, each in the order of the arguments. -/

def dup (oldtype : MPIDatatype) : MPIDatatype := derived .dup [] [] [oldtype]

def contiguous (count : Int32) (oldtype : MPIDatatype) : MPIDatatype := derived .contiguous [count] [] [oldtype]

def vector (count blocklength stride : Int32) (oldtype : MPIDatatype) : MPIDatatype :=
  derived .vector [count, blocklength, stride] [] [oldtype]

def hvector (count blocklength : Int32) (stride : Int64) (oldtype : MPIDatatype) : MPIDatatype :=
  derived .hvector [count, blocklength] [stride] [oldtype]

def indexed (count : Int32) (blocklengths displacements : List Int32) (oldtype : MPIDatatype) : MPIDatatype :=
  derived .indexed ([count] ++ (blocklengths ++ displacements)) [] [oldtype]

def hindexed (count : Int32) (blocklengths : List Int32) (displacements : List Int64) (oldtype : MPIDatatype) :
    MPIDatatype :=
  derived .hindexed ([count] ++ blocklengths) displacements [oldtype]

def indexedBlock (count blocklength : Int32) (displacements : List Int32) (oldtype : MPIDatatype) : MPIDatatype :=
  derived .indexedBlock ([count, blocklength] ++ displacements) [] [oldtype]

def hindexedBlock (count blocklength : Int32) (displacements : List Int64) (oldtype : MPIDatatype) : MPIDatatype :=
  derived .hindexedBlock [count, blocklength] displacements [oldtype]

def struct (count : Int32) (blocklengths : List Int32) (displacements : List Int64) (types : List MPIDatatype) :
    MPIDatatype :=
  derived .struct ([count] ++ blocklengths) displacements types

def subarray (ndims : Int32) (sizes subsizes starts : List Int32) (order : Int32) (oldtype : MPIDatatype) :
    MPIDatatype :=
  derived .subarray ([ndims] ++ (sizes ++ (subsizes ++ (starts ++ [order])))) [] [oldtype]

def darray (size rank ndims : Int32) (gsizes distribs dargs psizes : List Int32) (order : Int32)
    (oldtype : MPIDatatype) : MPIDatatype :=
  derived .darray ([size, rank, ndims] ++ (gsizes ++ (distribs ++ (dargs ++ (psizes ++ [order]))))) [] [oldtype]

def resized (oldtype : MPIDatatype) (lb extent : Int64) : MPIDatatype := derived .resized [] [lb, extent] [oldtype]

open ByteReader in
/-- The derived datatype of a combiner, if `deserialize` reads those it is built from. -/
def deserializeDerived (accepts : MPIDatatype → Bool) (deserialize : ByteReader MPIDatatype) (combiner : UInt8) :
    ByteReader MPIDatatype :=
  match combiner with
  | TypeCombiner.dup => do
    let child ← deserialize
    Reader.lift (create accepts (dup child))
  | TypeCombiner.contiguous => do
    let count ← readInt32
    let child ← deserialize
    Reader.lift (create accepts (contiguous count child))
  | TypeCombiner.vector => do
    let count ← readInt32
    let blocklength ← readInt32
    let stride ← readInt32
    let child ← deserialize
    Reader.lift (create accepts (vector count blocklength stride child))
  | TypeCombiner.hvector => do
    let count ← readInt32
    let blocklength ← readInt32
    let stride ← readInt64
    let child ← deserialize
    Reader.lift (create accepts (hvector count blocklength stride child))
  | TypeCombiner.indexed => do
    let count ← readInt32
    let blocklengths ← readVector readInt32 count
    let displacements ← readVector readInt32 count
    let child ← deserialize
    Reader.lift (create accepts (indexed count blocklengths displacements child))
  | TypeCombiner.hindexed => do
    let count ← readInt32
    let blocklengths ← readVector readInt32 count
    let displacements ← readVector readInt64 count
    let child ← deserialize
    Reader.lift (create accepts (hindexed count blocklengths displacements child))
  | TypeCombiner.indexedBlock => do
    let count ← readInt32
    let blocklength ← readInt32
    let displacements ← readVector readInt32 count
    let child ← deserialize
    Reader.lift (create accepts (indexedBlock count blocklength displacements child))
  | TypeCombiner.hindexedBlock => do
    let count ← readInt32
    let blocklength ← readInt32
    let displacements ← readVector readInt64 count
    let child ← deserialize
    Reader.lift (create accepts (hindexedBlock count blocklength displacements child))
  | TypeCombiner.struct => do
    let count ← readInt32
    let blocklengths ← readVector readInt32 count
    let displacements ← readVector readInt64 count
    let children ← deserialize.count count.toInt.toNat
    Reader.lift (create accepts (struct count blocklengths displacements children))
  | TypeCombiner.subarray => do
    let ndims ← readInt32
    let sizes ← readVector readInt32 ndims
    let subsizes ← readVector readInt32 ndims
    let starts ← readVector readInt32 ndims
    let order ← readInt32
    let child ← deserialize
    Reader.lift (create accepts (subarray ndims sizes subsizes starts order child))
  | TypeCombiner.darray => do
    let size ← readInt32
    let rank ← readInt32
    let ndims ← readInt32
    let gsizes ← readVector readInt32 ndims
    let distribs ← readVector readInt32 ndims
    let dargs ← readVector readInt32 ndims
    let psizes ← readVector readInt32 ndims
    let order ← readInt32
    let child ← deserialize
    Reader.lift (create accepts (darray size rank ndims gsizes distribs dargs psizes order child))
  | TypeCombiner.resized => do
    let lb ← readInt64
    let extent ← readInt64
    let child ← deserialize
    Reader.lift (create accepts (resized child lb extent))
  | _ => Reader.fail .intern

/-- Nothing limits the recursion but the stack. -/
def deserializeRecursive (accepts : MPIDatatype → Bool) : Nat → ByteReader MPIDatatype
  | 0 => Reader.fail .stackOverflow
  | depth + 1 => do
    let combiner ← ByteReader.readByte
    if combiner = TypeCombiner.datatypeNull then Reader.pure null
    else if combiner < 0x40 then Reader.lift ((combinerToBuiltin combiner).map named)
    else deserializeDerived accepts (deserializeRecursive accepts depth) combiner

/-- Every call takes a byte before it makes another, so the calls are never deeper than the bytes are many. -/
def deserialize (accepts : MPIDatatype → Bool) : ByteReader MPIDatatype := fun bytes =>
  deserializeRecursive accepts (bytes.length + 1) bytes

end MPIDatatype

end Fenix
