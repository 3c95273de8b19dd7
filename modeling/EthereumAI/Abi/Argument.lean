import Mathlib
import EthereumAI.Common.Types

/-! # Contract ABI arguments (`accounts/abi`)

`Arguments.Pack` encodes Go values by their ABI types (`Type.pack`, `packElement`,
`packNum`), and `Arguments.UnpackValues` reads them back (`toGoType`,
`forEachUnpack`, `lengthPrefixPointsTo`, `readInteger`).

A Go value is modelled by its contents: an integer (of a Go integer type or a
`*big.Int`), a bool, the bytes of a byte slice, byte array or string, or the
elements of a slice or array. `typeCheck` is the check that the value is of the Go
type `NewType` gives the ABI type, which Go's static types and `typeCheck` make
together.
-/

namespace EthereumAI.Abi

/-- `reflect.Kind`, for the Go types of ABI values. -/
inductive Kind
  | Bool | Int8 | Int16 | Int32 | Int64 | Uint8 | Uint16 | Uint32 | Uint64 | Array | Slice | String | Ptr
deriving DecidableEq, Repr

/-- `Type`, as `NewType` parses it: the enumerator `T` with the size and the element type. -/
inductive AbiType
  | IntTy (size : ℕ)
  | UintTy (size : ℕ)
  | BoolTy
  | StringTy
  | SliceTy (elem : AbiType)
  | ArrayTy (size : ℕ) (elem : AbiType)
  | AddressTy
  | FixedBytesTy (size : ℕ)
  | BytesTy
  | FunctionTy
deriving DecidableEq, Repr

/-- `Argument`; its `Name` is not used by packing. -/
structure Argument where
  type : AbiType
  Indexed : Bool
deriving DecidableEq, Repr

/-- A Go value. -/
inductive Value
  | num (x : ℤ)
  | bool (b : Bool)
  | bytes (b : Bytes)
  | list (vs : List Value)
deriving Repr

/-- The errors of packing and unpacking, with the numbers their messages print. -/
inductive AbiError
  /-- `argument count mismatch: %d for %d` -/
  | argumentCountMismatch (got want : ℕ)
  /-- `abi: cannot use %v as type %v as argument` -/
  | typeErr
  /-- `panic("abi: fatal error")` in `packElement` -/
  | fatal
  /-- `abi: cannot marshal in to go type: length insufficient %d require %d` -/
  | lengthInsufficient (len require : ℕ)
  /-- `abi: cannot marshal in to go array: offset %d would go over slice boundary (len=%d)` -/
  | arrayOverBoundary (len offset : ℕ)
  /-- `abi: cannot marshal in to go slice: offset %v would go over slice boundary (len=%v)` -/
  | sliceOverBoundary (offsetEnd len : ℕ)
  /-- `abi offset larger than int64: %v` -/
  | offsetTooLarge (offsetEnd : ℕ)
  /-- `abi length larger than int64: %v` -/
  | lengthTooLarge (totalSize : ℕ)
  /-- `errBadBool` -/
  | errBadBool
  /-- `abi: got improperly encoded function type, got %v` -/
  | badFunctionType
deriving DecidableEq, Repr

/-! ## Types -/

/-- `reflectIntKindAndType`: Go's sized integers, and `*big.Int` for every other size. -/
def reflectIntKindAndType (unsigned : Bool) (size : ℕ) : Kind :=
  match size with
  | 8 => if unsigned then .Uint8 else .Int8
  | 16 => if unsigned then .Uint16 else .Int16
  | 32 => if unsigned then .Uint32 else .Int32
  | 64 => if unsigned then .Uint64 else .Int64
  | _ => .Ptr

namespace AbiType

/-- `Type.Kind`. -/
def Kind : AbiType → Abi.Kind
  | IntTy size => reflectIntKindAndType false size
  | UintTy size => reflectIntKindAndType true size
  | BoolTy => .Bool
  | StringTy => .String
  | SliceTy _ => .Slice
  | ArrayTy _ _ => .Array
  | AddressTy => .Array
  | FixedBytesTy _ => .Array
  | BytesTy => .Slice
  | FunctionTy => .Array

/-- `requiresLengthPrefix`. -/
def requiresLengthPrefix : AbiType → Bool
  | StringTy | BytesTy | SliceTy _ => true
  | _ => false

/-- The number of elements nested arrays hold in all; `1` for any other type. -/
def fullSize : AbiType → ℕ
  | ArrayTy size elem => size * elem.fullSize
  | _ => 1

end AbiType

/-- `getArraySize` of an array type. -/
def getArraySize (arr : AbiType) : ℕ := arr.fullSize

/-- `getFullElemSize`. -/
def getFullElemSize (elem : AbiType) : ℕ := 32 * elem.fullSize

/-- The integers of a Go integer kind; a `*big.Int` can be any integer. -/
def kindHolds : Kind → ℤ → Bool
  | .Uint8, x => 0 ≤ x && x < 2 ^ 8
  | .Uint16, x => 0 ≤ x && x < 2 ^ 16
  | .Uint32, x => 0 ≤ x && x < 2 ^ 32
  | .Uint64, x => 0 ≤ x && x < 2 ^ 64
  | .Int8, x => -2 ^ 7 ≤ x && x < 2 ^ 7
  | .Int16, x => -2 ^ 15 ≤ x && x < 2 ^ 15
  | .Int32, x => -2 ^ 31 ≤ x && x < 2 ^ 31
  | .Int64, x => -2 ^ 63 ≤ x && x < 2 ^ 63
  | .Ptr, _ => true
  | _, _ => false

/-- `typeCheck`: the value is of the Go type of the ABI type. -/
def typeCheck : AbiType → Value → Bool
  | .SliceTy elem, .list vs => vs.all (typeCheck elem)
  | .ArrayTy size elem, .list vs => vs.length == size && vs.all (typeCheck elem)
  | t@(.IntTy _), .num x | t@(.UintTy _), .num x => kindHolds t.Kind x
  | .BoolTy, .bool _ => true
  | .StringTy, .bytes _ | .BytesTy, .bytes _ => true
  | .AddressTy, .bytes b => b.length == 20
  | .FixedBytesTy size, .bytes b => b.length == size
  | .FunctionTy, .bytes b => b.length == 24
  | _, _ => false

/-! ## Packing -/

/-- `math.PaddedBigBytes` of a number below `2^(8n)`: its `n` bytes, big-endian. -/
def PaddedBigBytes (x : ℕ) : ℕ → Bytes
  | 0 => []
  | n + 1 => PaddedBigBytes (x / 256) n ++ [(x % 256).toUInt8]

/-- `abi.U256`: the low 256 bits of an integer, in two's complement (`math.U256`), as a word. -/
def U256 (x : ℤ) : Bytes := PaddedBigBytes (x % 2 ^ 256).toNat 32

/-- `packNum`. -/
def packNum (x : ℤ) : Bytes := U256 x

/-- `common.RightPadBytes`. -/
def RightPadBytes (slice : Bytes) (l : ℕ) : Bytes :=
  if l ≤ slice.length then slice else slice ++ List.replicate (l - slice.length) 0

/-- `common.LeftPadBytes`. -/
def LeftPadBytes (slice : Bytes) (l : ℕ) : Bytes :=
  if l ≤ slice.length then slice else List.replicate (l - slice.length) 0 ++ slice

/-- `packBytesSlice`: the length `l`, then the bytes padded to whole words of `l` bytes. -/
def packBytesSlice (bytes : Bytes) (l : ℕ) : Bytes :=
  packNum l ++ RightPadBytes bytes ((l + 31) / 32 * 32)

/-- `packElement`. -/
def packElement : AbiType → Value → Except AbiError Bytes
  | .IntTy _, .num x | .UintTy _, .num x => .ok (packNum x)
  | .StringTy, .bytes b => .ok (packBytesSlice b b.length)
  | .AddressTy, .bytes b => .ok (LeftPadBytes b 32)
  | .BoolTy, .bool b => .ok (PaddedBigBytes (if b then 1 else 0) 32)
  | .BytesTy, .bytes b => .ok (packBytesSlice b b.length)
  | .FixedBytesTy _, .bytes b | .FunctionTy, .bytes b => .ok (RightPadBytes b 32)
  | _, _ => .error .fatal

/-- `Type.pack`: the elements of a slice or an array one after another, a slice with its
length in front. -/
def AbiType.pack (t : AbiType) (v : Value) : Except AbiError Bytes :=
  if !typeCheck t v then .error .typeErr else
  match t, v with
  | .SliceTy elem, .list vs => do
    let packed ← vs.mapM elem.pack
    pure (packBytesSlice packed.flatten vs.length)
  | .ArrayTy _ elem, .list vs => do
    let packed ← vs.mapM elem.pack
    pure packed.flatten
  | t, v => packElement t v

/-- The head `Pack` reserves for an argument: `32 * Size` bytes for an array, whatever its
element type, and one word for any other. -/
def headSize (t : AbiType) : ℕ :=
  match t with
  | .ArrayTy size _ => 32 * size
  | _ => 32

/-- The loop of `Pack`: the head so far and the dynamic contents appended after it. -/
def packArgs (inputOffset : ℕ) : List (Argument × Value) → Bytes → Bytes → Except AbiError Bytes
  | [], ret, variableInput => .ok (ret ++ variableInput)
  | (input, a) :: args, ret, variableInput => do
    let packed ← input.type.pack a
    if input.type.requiresLengthPrefix then
      packArgs inputOffset args (ret ++ packNum (inputOffset + variableInput.length)) (variableInput ++ packed)
    else packArgs inputOffset args (ret ++ packed) variableInput

/-- `Arguments.Pack`. -/
def Pack (arguments : List Argument) (args : List Value) : Except AbiError Bytes :=
  if args.length ≠ arguments.length then .error (.argumentCountMismatch args.length arguments.length) else
  let inputOffset := (arguments.map fun arg => headSize arg.type).sum
  packArgs inputOffset (arguments.zip args) [] []

/-! ## Unpacking -/

/-- A big-endian number (`new(big.Int).SetBytes`, `binary.BigEndian.Uint*`). -/
def readUint (b : Bytes) : ℕ := b.foldl (fun acc x => acc * 256 + x.toNat) 0

/-- A number of `bits` bits read in two's complement, as Go's conversions to `int8` ..
`int64` read it. -/
def toSigned (bits n : ℕ) : ℤ := if n < 2 ^ (bits - 1) then n else (n : ℤ) - 2 ^ bits

/-- `readInteger`: the last bytes of the word for Go's sized integers, signed for the signed
ones; the whole word, unsigned, for a `*big.Int`. -/
def readInteger (kind : Kind) (b : Bytes) : ℤ :=
  match kind with
  | .Uint8 => readUint (b.drop (b.length - 1))
  | .Uint16 => readUint (b.drop (b.length - 2))
  | .Uint32 => readUint (b.drop (b.length - 4))
  | .Uint64 => readUint (b.drop (b.length - 8))
  | .Int8 => toSigned 8 (readUint (b.drop (b.length - 1)))
  | .Int16 => toSigned 16 (readUint (b.drop (b.length - 2)))
  | .Int32 => toSigned 32 (readUint (b.drop (b.length - 4)))
  | .Int64 => toSigned 64 (readUint (b.drop (b.length - 8)))
  | _ => readUint b

/-- `readBool`. -/
def readBool (word : Bytes) : Except AbiError Bool :=
  if (word.take 31).any (· ≠ 0) then .error .errBadBool
  else match word.getD 31 0 with
    | 0 => .ok false
    | 1 => .ok true
    | _ => .error .errBadBool

/-- `readFunctionType`. -/
def readFunctionType (word : Bytes) : Except AbiError Bytes :=
  if readUint ((word.drop 24).take 8) ≠ 0 then .error .badFunctionType else .ok (word.take 24)

/-- `lengthPrefixPointsTo`: the start and the length of dynamic contents whose offset is
the word at `index`. -/
def lengthPrefixPointsTo (index : ℕ) (output : Bytes) : Except AbiError (ℕ × ℕ) :=
  let offsetEnd := readUint ((output.drop index).take 32) + 32
  if offsetEnd > output.length then .error (.sliceOverBoundary offsetEnd output.length)
  else if offsetEnd ≥ 2 ^ 63 then .error (.offsetTooLarge offsetEnd)
  else
    let length := readUint ((output.drop (offsetEnd - 32)).take 32)
    let totalSize := offsetEnd + length
    if totalSize ≥ 2 ^ 63 then .error (.lengthTooLarge totalSize)
    else if totalSize > output.length then .error (.lengthInsufficient output.length totalSize)
    else .ok (offsetEnd, length)

/-- `forEachUnpack`, with the element decoder at a position. -/
def forEachUnpack (unpackElem : ℕ → Except AbiError Value) (output : Bytes) (start size elemSize : ℕ) :
    Except AbiError Value :=
  if start + 32 * size > output.length then .error (.arrayOverBoundary output.length (start + 32 * size))
  else .list <$> (List.range size).mapM fun j => unpackElem (start + j * elemSize)

/-- `toGoType`: the value of type `t` whose head word is at `index`. -/
def toGoType (output : Bytes) (index : ℕ) (t : AbiType) : Except AbiError Value :=
  if index + 32 > output.length then .error (.lengthInsufficient output.length (index + 32)) else
  let returnOutput := (output.drop index).take 32
  match t with
  | .SliceTy elem => do
    let (begin, size) ← lengthPrefixPointsTo index output
    forEachUnpack (fun i => toGoType output i elem) output begin size 32
  | .ArrayTy size elem => forEachUnpack (fun i => toGoType output i elem) output index size (getFullElemSize elem)
  | .StringTy | .BytesTy => do
    let (begin, size) ← lengthPrefixPointsTo index output
    pure (.bytes ((output.drop begin).take size))
  | t@(.IntTy _) | t@(.UintTy _) => .ok (.num (readInteger t.Kind returnOutput))
  | .BoolTy => .bool <$> readBool returnOutput
  | .AddressTy => .ok (.bytes (returnOutput.drop 12))
  | .FixedBytesTy size => .ok (.bytes (returnOutput.take size))
  | .FunctionTy => .bytes <$> readFunctionType returnOutput

/-- The loop of `UnpackValues`: argument `index` is read at word `index + virtualArgs`,
an array of arrays counting every nested element. -/
def unpackArgs (data : Bytes) : List Argument → ℕ → ℕ → Except AbiError (List Value)
  | [], _, _ => .ok []
  | arg :: args, index, virtualArgs => do
    let marshalledValue ← toGoType data ((index + virtualArgs) * 32) arg.type
    let virtualArgs := match arg.type with
      | .ArrayTy _ _ => virtualArgs + getArraySize arg.type - 1
      | _ => virtualArgs
    let rest ← unpackArgs data args (index + 1) virtualArgs
    pure (marshalledValue :: rest)

/-- `Arguments.UnpackValues`. -/
def UnpackValues (arguments : List Argument) (data : Bytes) : Except AbiError (List Value) :=
  unpackArgs data (arguments.filter fun arg => !arg.Indexed) 0 0

set_option maxRecDepth 8000 in
/-- Two arguments lists whose values do not come back from `Pack` then `UnpackValues`.
An `int256` is a `*big.Int`: `-1` is packed as the word `2^256 - 1` and read back
unsigned. A `uint256[2][2]` before a `bytes` takes four words of the head, but `Pack`
reserves two for it, so the offset of the bytes is `96` where the head ends at `160`;
`UnpackValues` then reads the length at byte `96`, inside the array, and returns four
bytes of the offset word. -/
theorem Pack_UnpackValues_diverge :
    (Pack [⟨.IntTy 256, false⟩] [.num (-1)] >>= UnpackValues [⟨.IntTy 256, false⟩]) =
      .ok [.num (2 ^ 256 - 1)] ∧
    (Pack [⟨.ArrayTy 2 (.ArrayTy 2 (.UintTy 256)), false⟩, ⟨.BytesTy, false⟩]
        [.list [.list [.num 1, .num 2], .list [.num 3, .num 4]], .bytes [0xaa]] >>=
      UnpackValues [⟨.ArrayTy 2 (.ArrayTy 2 (.UintTy 256)), false⟩, ⟨.BytesTy, false⟩]) =
      .ok [.list [.list [.num 1, .num 2], .list [.num 3, .num 4]], .bytes [0, 0, 0, 0]] := by
  constructor <;> rfl

end EthereumAI.Abi
