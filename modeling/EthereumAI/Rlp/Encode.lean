import EthereumAI.Common.Types

/-! # RLP encoding (`rlp/encode.go`)

The encoder writes all string data into one buffer and defers the list headers:
`list` records where a list starts and the size of the headers closed so far,
`listEnd` computes the size of the list's content once it is written, and
`toBytes` interleaves the headers with the string data.

A Go type is described by `Ty`, by the case of `makeWriter` and `makeDecoder` it
falls in, and a Go value by `Val`. Slices, arrays and structs are all `Val.list`;
nil and empty slices are not told apart, as no writer tells them apart.
-/

namespace EthereumAI.Rlp

/-! ## Integers and headers -/

/-- The `k` low bytes of `i`, most significant first. -/
def bigEndianBytes (i k : ℕ) : Bytes :=
  (List.range k).reverse.map fun j => (i / 256 ^ j % 256).toUInt8

/-- `putint`: `i` big-endian in the least number of bytes, at least one. -/
def putint (i : ℕ) : Bytes :=
  if i < 2 ^ 8 then bigEndianBytes i 1
  else if i < 2 ^ 16 then bigEndianBytes i 2
  else if i < 2 ^ 24 then bigEndianBytes i 3
  else if i < 2 ^ 32 then bigEndianBytes i 4
  else if i < 2 ^ 40 then bigEndianBytes i 5
  else if i < 2 ^ 48 then bigEndianBytes i 6
  else if i < 2 ^ 56 then bigEndianBytes i 7
  else bigEndianBytes i 8

/-- The loop of `intsize`: shift right by a byte until nothing is left. A
`uint64` is empty after eight shifts, which bounds the loop. -/
def intsizeLoop : ℕ → ℕ → ℕ → ℕ
  | 0, size, _ => size
  | fuel + 1, size, i => if i / 256 = 0 then size else intsizeLoop fuel (size + 1) (i / 256)

/-- `intsize`: the number of bytes `putint` writes. -/
def intsize (i : ℕ) : ℕ := intsizeLoop 8 1 i

/-- `headsize`: the size of a string or list header for content of `size` bytes. -/
def headsize (size : ℕ) : ℕ := if size < 56 then 1 else 1 + intsize size

/-- `puthead`: a header with the short tag below 56 bytes of content, else the
long tag followed by the size. -/
def puthead (smalltag largetag : UInt8) (size : ℕ) : Bytes :=
  if size < 56 then [smalltag + size.toUInt8]
  else
    let sizesize := putint size
    (largetag + sizesize.length.toUInt8) :: sizesize

/-- `big.Int.Bytes` of a natural number: big-endian without leading zeros, empty
for zero. The first argument bounds the recursion; `n` bytes always suffice. -/
def bigBytesAux : ℕ → ℕ → Bytes
  | 0, _ => []
  | fuel + 1, n => if n = 0 then [] else bigBytesAux fuel (n / 256) ++ [(n % 256).toUInt8]

def bigBytes (n : ℕ) : Bytes := bigBytesAux n n

/-! ## The buffer -/

structure listhead where
  /-- index of this header in the string data -/
  offset : ℕ
  /-- size of the encoded content, list headers included -/
  size : ℕ

/-- `listhead.encode`. -/
def listhead.encode (head : listhead) : Bytes := puthead 0xC0 0xF7 head.size

structure encbuf where
  /-- string data, everything except the list headers -/
  str : Bytes
  lheads : List listhead
  /-- sum of the sizes of the list headers closed so far -/
  lhsize : ℕ

namespace encbuf

variable (w : encbuf)

/-- A buffer after `reset`. -/
def empty : encbuf := ⟨[], [], 0⟩

/-- `Write`: append to the string data. -/
def Write (b : Bytes) : encbuf := { w with str := w.str ++ b }

def size : ℕ := w.str.length + w.lhsize

def encodeStringHeader (size : ℕ) : encbuf :=
  if size < 56 then w.Write [0x80 + size.toUInt8]
  else
    let sizesize := putint size
    w.Write ((0xB7 + sizesize.length.toUInt8) :: sizesize)

/-- `encodeString`: a single byte below `0x80` is its own encoding. -/
def encodeString (b : Bytes) : encbuf :=
  if b.length = 1 ∧ b.headD 0 ≤ 0x7F then w.Write [b.headD 0]
  else (w.encodeStringHeader b.length).Write b

/-- `list`: open a list header here; the pointer Go returns is its index. -/
def list : ℕ × encbuf :=
  (w.lheads.length, { w with lheads := w.lheads ++ [⟨w.str.length, w.lhsize⟩] })

/-- `listEnd`: the header's `size` held the header size at `list`; it becomes the
size of everything written since. -/
def listEnd (lh : ℕ) : encbuf :=
  match w.lheads[lh]? with
  | none => w
  | some head =>
    let size := w.size - head.offset - head.size
    { w with lheads := w.lheads.set lh ⟨head.offset, size⟩,
             lhsize := w.lhsize + (if size < 56 then 1 else 1 + intsize size) }

/-- `toBytes`: the string data with each header put back at its offset. -/
def toBytes : Bytes :=
  let (out, strpos) := w.lheads.foldl
    (fun (acc : Bytes × ℕ) head =>
      (acc.1 ++ (w.str.drop acc.2).take (head.offset - acc.2) ++ head.encode, head.offset))
    ([], 0)
  out ++ w.str.drop strpos

/-- One header of `toWriter`'s loop: the writes so far and `strpos`, then the string
data before the header when there is some, and the header. -/
def toWriterStep (acc : List Bytes × ℕ) (head : listhead) : List Bytes × ℕ :=
  let (out, strpos) := acc
  -- write string data before header
  let (out, strpos) := if head.offset - strpos > 0 then
      let data := (w.str.drop strpos).take (head.offset - strpos)
      (out ++ [data], strpos + data.length)
    else (out, strpos)
  (out ++ [head.encode], strpos)

/-- `toWriter`: the writes it makes, in order, to a writer that takes each of them
whole. Such a writer returns no error; on the first error the writes stop. -/
def toWriter : List Bytes :=
  let (out, strpos) := w.lheads.foldl w.toWriterStep ([], 0)
  -- write string data after the last list header
  if strpos < w.str.length then out ++ [w.str.drop strpos] else out

end encbuf

/-- `encReader`; `buf` is `none` once the reader is at EOF, `piece` is `none` for a
nil piece. -/
structure encReader where
  buf : Option encbuf
  /-- index of list header that we're reading -/
  lhpos : ℕ
  /-- current position in string buffer -/
  strpos : ℕ
  /-- next piece to be read -/
  piece : Option Bytes

namespace encReader

/-- `next`: the next piece to be read, `none` at EOF. -/
def next (r : encReader) : Option Bytes × encReader :=
  match r.buf with
  | none => (none, r)
  | some buf =>
    match r.piece with
    | some piece => (some piece, r)
    | none =>
      match buf.lheads[r.lhpos]? with
      | some head =>
        -- we're before the last list header
        let sizebefore := head.offset - r.strpos
        if sizebefore > 0 then
          ((buf.str.drop r.strpos).take sizebefore, { r with strpos := r.strpos + sizebefore })
        else (head.encode, { r with lhpos := r.lhpos + 1 })
      | none =>
        -- string data at the end, after all list headers
        if r.strpos < buf.str.length then (buf.str.drop r.strpos, { r with strpos := buf.str.length })
        else (none, r)

/-- The loop of `Read`: copy pieces into the `room` bytes left in the buffer until one
does not fit or the data ends. `copied` is what was copied so far; the result is the
data read, whether it is EOF, and the reader. `fuel` bounds the turns. -/
def readLoop : ℕ → encReader → Bytes → ℕ → Option (Bytes × Bool × encReader)
  | 0, _, _, _ => none
  | fuel + 1, r, copied, room =>
    match r.next with
    | (none, r) => some (copied, true, { r with buf := none, piece := none })
    | (some piece, r) =>
      let nn := min room piece.length
      if nn < piece.length then
        -- piece didn't fit, see you next time
        some (copied ++ piece.take nn, false, { r with piece := some (piece.drop nn) })
      else readLoop fuel { r with piece := none } (copied ++ piece) (room - nn)

/-- `Read` into a buffer of `n` bytes. Each turn of the loop takes a piece, and a
buffer has a piece of string data before each list header, the header, and the string
data after the last one: that many turns, and one to find EOF, bound the loop. -/
def Read (r : encReader) (n : ℕ) : Option (Bytes × Bool × encReader) :=
  readLoop (2 * ((r.buf.map fun buf => buf.lheads.length).getD 0) + 3) r [] n

end encReader

/-! ## Types and values -/

/-- Struct tags: `rlp:"nil"` and `rlp:"tail"` (fields tagged `rlp:"-"` are left
out of the struct's fields, as `structFields` leaves them out). -/
structure Tags where
  nilOK : Bool := false
  tail : Bool := false

/-- The serialisable Go types. `uint 8` is `byte`, so `slice (uint 8)` is
`[]byte` and `array n (uint 8)` is `[n]byte`; `*big.Int` is `ptr bigInt`; a
struct lists its exported fields that are not ignored, with their names and tags. -/
inductive Ty where
  | uint (bits : ℕ)
  | bool
  | string
  | bigInt
  | slice (elem : Ty)
  | array (len : ℕ) (elem : Ty)
  | struct (fields : List (String × Tags × Ty))
  | ptr (elem : Ty)
  | iface

/-- Go values: a string by its bytes, byte slices and byte arrays by their
contents, slices, arrays and structs by their elements, and a non-nil interface
with its dynamic type. -/
inductive Val where
  | uint (n : ℕ)
  | bool (b : Bool)
  | bigInt (i : ℤ)
  | str (s : Bytes)
  | bytes (b : Bytes)
  | list (vs : List Val)
  | nil
  | ptr (v : Val)
  | iface (ty : Ty) (v : Val)

/-- `parseStructTag` rejects a `tail` tag but on a last field of slice type. -/
def tailTagError : List (String × Tags × Ty) → Option String
  | [] => none
  | [(name, tags, ty)] =>
    match ty with
    | .slice _ => none
    | _ => if tags.tail then some ("rlp: invalid struct tag \"tail\" for " ++ name ++
        " (field type is not slice)") else none
  | (name, tags, _) :: fields =>
    if tags.tail then some ("rlp: invalid struct tag \"tail\" for " ++ name ++ " (must be on last field)")
    else tailTagError fields

mutual
/-- The error `cachedTypeInfo` returns for a type: the first struct tag that
`parseStructTag` rejects, in any type the type is built from. -/
def Ty.typeError : Ty → Option String
  | .slice elem => elem.typeError
  | .array _ elem => elem.typeError
  | .ptr elem => elem.typeError
  | .struct fields => (tailTagError fields).or (Ty.fieldsTypeError fields)
  | _ => none

def Ty.fieldsTypeError : List (String × Tags × Ty) → Option String
  | [] => none
  | (_, _, ty) :: fields => ty.typeError.or (Ty.fieldsTypeError fields)
end

/-! ## Writers -/

/-- `writeUint`. -/
def writeUint (i : ℕ) (w : encbuf) : encbuf :=
  if i = 0 then w.Write [0x80]
  else if i < 128 then w.Write [i.toUInt8]
  else
    let s := putint i
    w.Write ((0x80 + s.length.toUInt8) :: s)

/-- `writeBool`. -/
def writeBool (b : Bool) (w : encbuf) : encbuf := w.Write [if b then 0x01 else 0x80]

/-- `writeString`. -/
def writeString (s : Bytes) (w : encbuf) : encbuf :=
  if s.length = 1 ∧ s.headD 0 ≤ 0x7f then w.Write [s.headD 0]
  else (w.encodeStringHeader s.length).Write s

/-- `writeBigInt`. -/
def writeBigInt (i : ℤ) (w : encbuf) : Except String encbuf :=
  if i < 0 then .error "rlp: cannot encode negative *big.Int"
  else if i = 0 then .ok (w.Write [0x80])
  else .ok (w.encodeString (bigBytes i.toNat))

mutual
/-- The writer of the zero value of a type, as the nil-pointer writer runs it. -/
def writeZero : Ty → Tags → encbuf → Except String encbuf
  | .iface, _, w => .ok (w.Write [0xC0])
  | .ptr .bigInt, _, w => .ok (w.Write [0x80])
  | .bigInt, _, w => writeBigInt 0 w
  | .uint _, _, w => .ok (writeUint 0 w)
  | .bool, _, w => .ok (writeBool false w)
  | .string, _, w => .ok (writeString [] w)
  | .slice (.uint 8), _, w => .ok (w.encodeString [])
  | .array n (.uint 8), _, w => .ok (w.encodeString (List.replicate n 0))
  | .slice _, tags, w =>
    if tags.tail then .ok w
    else
      let (lh, w) := w.list
      .ok (w.listEnd lh)
  | .array n elem, _, w => do
    let (lh, w) := w.list
    let w ← (List.replicate n ()).foldlM (fun w _ => writeZero elem {} w) w
    pure (w.listEnd lh)
  | .struct fields, _, w => do
    let (lh, w) := w.list
    let w ← writeZeroFields fields w
    pure (w.listEnd lh)
  -- the nil pointer: `nilfunc` of `makePtrWriter`, by the kind of the element
  | .ptr elem, _, w =>
    match elem with
    | .array _ (.uint 8) => .ok (w.Write [0x80])
    | .struct _ | .array _ _ =>
      let (lh, w) := w.list
      .ok (w.listEnd lh)
    | _ => writeZero elem {} w

def writeZeroFields : List (String × Tags × Ty) → encbuf → Except String encbuf
  | [], w => .ok w
  | (_, tags, ty) :: fields, w => do
    let w ← writeZero ty tags w
    writeZeroFields fields w
end

mutual
/-- The writer `makeWriter` returns for a type, applied to a value of it. The
cases are in the order of `makeWriter`: `*big.Int` before other pointers. -/
def write : Ty → Tags → Val → encbuf → Except String encbuf
  | .iface, _, .nil, w => .ok (w.Write [0xC0])
  | .iface, _, .iface ty v, w => write ty {} v w
  | .ptr .bigInt, _, .nil, w => .ok (w.Write [0x80])
  | .ptr .bigInt, _, .ptr (.bigInt i), w => writeBigInt i w
  | .bigInt, _, .bigInt i, w => writeBigInt i w
  | .uint _, _, .uint i, w => .ok (writeUint i w)
  | .bool, _, .bool b, w => .ok (writeBool b w)
  | .string, _, .str s, w => .ok (writeString s w)
  | .slice (.uint 8), _, .bytes b, w => .ok (w.encodeString b)
  | .array _ (.uint 8), _, .bytes b, w => .ok (w.encodeString b)
  -- `makeSliceWriter`, for slices and arrays alike; a `tail` slice has no header
  | .slice elem, tags, .list vs, w =>
    if tags.tail then writeElems elem vs w
    else do
      let (lh, w) := w.list
      let w ← writeElems elem vs w
      pure (w.listEnd lh)
  | .array _ elem, _, .list vs, w => do
    let (lh, w) := w.list
    let w ← writeElems elem vs w
    pure (w.listEnd lh)
  | .struct fields, _, .list vs, w => do
    let (lh, w) := w.list
    let w ← writeFields fields vs w
    pure (w.listEnd lh)
  | .ptr elem, _, .nil, w => writeZero (.ptr elem) {} w
  | .ptr elem, _, .ptr v, w => write elem {} v w
  | _, _, _, _ => .error "rlp: value does not have its type"

def writeElems (elem : Ty) : List Val → encbuf → Except String encbuf
  | [], w => .ok w
  | v :: vs, w => do
    let w ← write elem {} v w
    writeElems elem vs w

def writeFields : List (String × Tags × Ty) → List Val → encbuf → Except String encbuf
  | [], [], w => .ok w
  | (_, tags, ty) :: fields, v :: vs, w => do
    let w ← write ty tags v w
    writeFields fields vs w
  | _, _, _ => .error "rlp: value does not have its type"
end

/-- `EncodeToBytes`: the writer of the value's type into an empty buffer. -/
def EncodeToBytes (ty : Ty) (v : Val) : Except String Bytes :=
  match ty.typeError with
  | some err => .error err
  | none => (write ty {} v encbuf.empty).map encbuf.toBytes

/-- `Encode` to a writer that is not an `encbuf`: the writes `toWriter` makes. -/
def Encode (ty : Ty) (v : Val) : Except String (List Bytes) :=
  match ty.typeError with
  | some err => .error err
  | none => (write ty {} v encbuf.empty).map encbuf.toWriter

/-- `EncodeToReader`: the size of the encoding and a reader of it. -/
def EncodeToReader (ty : Ty) (v : Val) : Except String (ℕ × encReader) :=
  match ty.typeError with
  | some err => .error err
  | none => (write ty {} v encbuf.empty).map fun w => (w.size, ⟨some w, 0, 0, none⟩)

end EthereumAI.Rlp
