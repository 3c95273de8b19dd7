import EthereumAI.Lib.StateExcept
import EthereumAI.Rlp.Encode

/-! # The RLP decoding stream (`rlp/decode.go`)

`Stream` reads RLP piecewise from a byte reader. `Kind` reads the header of the
next value once and caches it (`kind`, `size`, `byteval` and a sticky
`kinderr`) until a read rearms it; `List` pushes the extent of a list on the
stack, and every read is charged to the innermost list and to the input limit.

A `Stream` method returns `(value, error)` in Go and leaves its effect on the
stream either way, so it is an `ExceptT` over the state of the stream.
-/

namespace EthereumAI.Rlp

/-- `Kind`. -/
inductive Kind where
  | Byte
  | String
  | List
  deriving DecidableEq, Repr

/-- Where a decoder stepped into a value when it failed: `[i]`, `.Name`, and the
target type `Decode` adds. -/
inductive Ctx where
  | index (i : ℕ)
  | field (name : String)
  | target (typ : Ty)

/-- The errors of the stream and of the decoders. -/
inductive Err where
  | EOL
  | ErrExpectedString
  | ErrExpectedList
  | ErrCanonInt
  | ErrCanonSize
  | ErrElemTooLarge
  | ErrValueTooLarge
  | ErrMoreThanOneValue
  | errNotInList
  | errNotAtEOL
  | errUintOverflow
  /-- `io.EOF` -/
  | EOF
  /-- `io.ErrUnexpectedEOF` -/
  | ErrUnexpectedEOF
  | decodeError (msg : String) (typ : Ty) (ctx : List Ctx)
  /-- `rlp: invalid boolean value: %d` -/
  | invalidBool (num : ℕ)
  /-- the error of `cachedTypeInfo` -/
  | typeError (msg : String)

/-- `wrapStreamError`: the stream errors a decoder reports as a `decodeError`
for its type. -/
def wrapStreamError (typ : Ty) : Err → Err
  | .ErrCanonInt => .decodeError "non-canonical integer (leading zero bytes)" typ []
  | .ErrCanonSize => .decodeError "non-canonical size information" typ []
  | .ErrExpectedList => .decodeError "expected input list" typ []
  | .ErrExpectedString => .decodeError "expected input string or byte" typ []
  | .errUintOverflow => .decodeError "input string too long" typ []
  | .errNotAtEOL => .decodeError "input list has too many elements" typ []
  | err => err

/-- `addErrorContext`. -/
def addErrorContext (ctx : Ctx) : Err → Err
  | .decodeError msg typ ctxs => .decodeError msg typ (ctxs ++ [ctx])
  | err => err

structure listpos where
  pos : ℕ
  size : ℕ

structure Stream where
  /-- what the reader has not yet returned -/
  r : Bytes
  /-- number of bytes remaining to be read from `r` -/
  remaining : ℕ
  limited : Bool
  /-- kind of value ahead; `none` is Go's `-1`: the next `Kind` reads a header -/
  kind : Option Kind
  /-- size of value ahead -/
  size : ℕ
  /-- value of single byte in type tag -/
  byteval : UInt8
  /-- error from last `readKind` -/
  kinderr : Option Err
  /-- the open lists, innermost first -/
  stack : List listpos

/-- A method of `Stream`. -/
abbrev StreamM := ExceptT Err (StateM Stream)

namespace Stream

/-- `NewStream(bytes.NewReader(b), len(b))` as `DecodeBytes` makes it: the limit
is the length of the input (also when it is empty, read off the reader). -/
def New (b : Bytes) : Stream := ⟨b, b.length, true, none, 0, 0, none, []⟩

/-- `willRead`: rearm `Kind`, charge `n` bytes to the innermost list, then to the
input limit. -/
def willRead (n : ℕ) : StreamM Unit := do
  modify fun s => { s with kind := none }
  let s ← get
  match s.stack with
  | tos :: rest =>
    -- check list overflow
    if n > tos.size - tos.pos then throw .ErrElemTooLarge
    set { s with stack := ⟨tos.pos + n, tos.size⟩ :: rest }
  | [] => pure ()
  let s ← get
  if s.limited then
    if n > s.remaining then throw .ErrValueTooLarge
    set { s with remaining := s.remaining - n }

/-- `readByte`; the reader's `io.EOF` becomes `io.ErrUnexpectedEOF`. -/
def readByte : StreamM UInt8 := do
  willRead 1
  let s ← get
  match s.r with
  | [] => throw .ErrUnexpectedEOF
  | b :: r =>
    set { s with r := r }
    pure b

/-- `readFull` of a buffer of `n` bytes. -/
def readFull (n : ℕ) : StreamM Bytes := do
  willRead n
  let s ← get
  if n ≤ s.r.length then
    set { s with r := s.r.drop n }
    pure (s.r.take n)
  else
    set { s with r := [] }
    throw .ErrUnexpectedEOF

/-- `binary.BigEndian.Uint64` of the bytes read. -/
def bigEndian (b : Bytes) : ℕ := b.foldl (fun acc x => acc * 256 + x.toNat) 0

/-- `readUint`: a size or an integer of `size` bytes; two bytes or more must not
start with a zero. -/
def readUint (size : ℕ) : StreamM ℕ :=
  match size with
  | 0 => do
    modify fun s => { s with kind := none }
    pure 0
  | 1 => do
    let b ← readByte
    pure b.toNat
  | size => do
    let buf ← readFull size
    if buf.headD 0 = 0 then throw .ErrCanonSize
    pure (bigEndian buf)

/-- The long header of a string or list: `lensize` bytes of size, at least 56. -/
def readLongSize (lensize : ℕ) : StateM Stream (ℕ × Option Err) := do
  match ← (readUint lensize).run with
  | .ok size => pure (size, if size < 56 then some .ErrCanonSize else none)
  | .error err => pure (0, some err)

/-- `readKind`: read a header. It returns its kind and size together with an
error, which `Kind` keeps. -/
def readKind : StateM Stream (Rlp.Kind × ℕ × Option Err) := do
  match ← readByte.run with
  | .error err =>
    let s ← get
    -- at toplevel, the end of the input is `io.EOF`
    let err := if s.stack.isEmpty then
        match err with
        | .ErrUnexpectedEOF | .ErrValueTooLarge => .EOF
        | err => err
      else err
    pure (.Byte, 0, some err)
  | .ok b =>
    modify fun s => { s with byteval := 0 }
    if b < 0x80 then
      modify fun s => { s with byteval := b }
      pure (.Byte, 0, none)
    else if b < 0xB8 then pure (.String, (b - 0x80).toNat, none)
    else if b < 0xC0 then do
      let (size, err) ← readLongSize (b - 0xB7).toNat
      pure (.String, size, err)
    else if b < 0xF8 then pure (.List, (b - 0xC0).toNat, none)
    else do
      let (size, err) ← readLongSize (b - 0xF7).toNat
      pure (.List, size, err)

/-- `Kind`: the kind and size of the next value. The first call reads the
header and checks the size against the innermost list or the input limit; later
calls return what it cached, the error included, until a read rearms it. -/
def Kind : StreamM (Rlp.Kind × ℕ) := do
  let s ← get
  match s.kind with
  | some kind =>
    match s.kinderr with
    | some err => throw err
    | none => pure (kind, s.size)
  | none =>
    modify fun s => { s with kinderr := none }
    -- don't read further at the end of the innermost list
    match s.stack with
    | tos :: _ => if tos.pos = tos.size then throw .EOL
    | [] => pure ()
    let (kind, size, kinderr) ← readKind
    modify fun s => { s with kind := some kind, size := size, kinderr := kinderr }
    let s ← get
    if kinderr.isNone then
      match s.stack with
      | [] =>
        if s.limited ∧ size > s.remaining then
          modify fun s => { s with kinderr := some .ErrValueTooLarge }
      | tos :: _ =>
        if size > tos.size - tos.pos then
          modify fun s => { s with kinderr := some .ErrElemTooLarge }
    let s ← get
    match s.kinderr with
    | some err => throw err
    | none => pure (kind, size)

/-- `Bytes`: an RLP string; a one-byte string below `0x80` is not canonical. -/
def Bytes : StreamM EthereumAI.Bytes := do
  let (kind, size) ← Kind
  match kind with
  | .Byte =>
    modify fun s => { s with kind := none }
    pure [(← get).byteval]
  | .String =>
    let b ← readFull size
    if size = 1 ∧ b.headD 0 < 128 then throw .ErrCanonSize
    pure b
  | .List => throw .ErrExpectedString

/-- `Raw`: the next value with its header. The header read is gone, so a new one
is put in front of the content; Go makes room for it with `headsize`, the length
of the header `puthead` writes for a `uint64` size. -/
def Raw : StreamM EthereumAI.Bytes := do
  let (kind, size) ← Kind
  match kind with
  | .Byte =>
    modify fun s => { s with kind := none }
    pure [(← get).byteval]
  | kind =>
    let content ← readFull size
    if kind = .String then pure (puthead 0x80 0xB7 size ++ content)
    else pure (puthead 0xC0 0xF7 size ++ content)

/-- `uint`: an RLP string of at most `maxbits / 8` bytes as an integer. A zero
single byte is not canonical, and that error does not rearm `Kind`. -/
def uint (maxbits : ℕ) : StreamM ℕ := do
  let (kind, size) ← Kind
  match kind with
  | .Byte =>
    let s ← get
    if s.byteval = 0 then throw .ErrCanonInt
    modify fun s => { s with kind := none }
    pure s.byteval.toNat
  | .String =>
    if size > maxbits / 8 then throw .errUintOverflow
    let v ← tryCatch (readUint size) fun err =>
      -- adjust the error, as no size is being read
      throw (match err with
        | .ErrCanonSize => .ErrCanonInt
        | err => err)
    if size > 0 ∧ v < 128 then throw .ErrCanonSize
    pure v
  | .List => throw .ErrExpectedString

/-- `Uint`. -/
def Uint : StreamM ℕ := uint 64

/-- `Bool`. -/
def Bool : StreamM Bool := do
  let num ← uint 8
  match num with
  | 0 => pure false
  | 1 => pure true
  | num => throw (.invalidBool num)

/-- `List`: enter a list, pushing its extent on the stack. -/
def List : StreamM ℕ := do
  let (kind, size) ← Kind
  if kind ≠ .List then throw .ErrExpectedList
  modify fun s => { s with stack := ⟨0, size⟩ :: s.stack, kind := none, size := 0 }
  pure size

/-- `ListEnd`: leave a list read to its end, charging its size to the list
around it. -/
def ListEnd : StreamM Unit := do
  let s ← get
  match s.stack with
  | [] => throw .errNotInList
  | tos :: rest =>
    if tos.pos ≠ tos.size then throw .errNotAtEOL
    let rest := match rest with
      | [] => []
      | up :: rest => ⟨up.pos + tos.size, up.size⟩ :: rest
    set { s with stack := rest, kind := none, size := 0 }

/-! ## Streams at top level

`DecodeBytes` and `Raw` read from a stream at top level, limited to the length of
its input: such a stream reads what it is asked for as long as the bytes are there. -/

/-- No list is open and the limit is what the reader has not returned. -/
structure AtTop (s : Stream) : Prop where
  stack : s.stack = []
  limited : s.limited = true
  remaining : s.remaining = s.r.length

theorem New_atTop (b : EthereumAI.Bytes) : (New b).AtTop := ⟨rfl, rfl, rfl⟩

end Stream

end EthereumAI.Rlp
