import EthereumAI.Lib.Fuel
import EthereumAI.Rlp.Stream

/-! # RLP decoders (`rlp/decode.go`)

The decoder `makeDecoder` returns for a type, run on a `Stream` into a fresh
value of the type. A loop over list elements ends at `EOL`, which the stream
returns only once the list is read to its end; a decoder that reads nothing
would loop for ever. So the decoders take `fuel`, spent by every call and every
turn of a loop, and return `none` when it runs out: `DecodeBytes` returns a
result iff it does so for some fuel, and then for every larger fuel.
-/

namespace EthereumAI.Rlp

open Lib FuelM

/-- A decoder: a `Stream` method that may also run out of fuel. -/
abbrev DecodeM := FuelM Err Stream

/-- A `Stream` method inside a decoder. -/
def stream {α : Type} (x : StreamM α) : DecodeM α := ExceptT.mk fun s => some (x.run.run s)

/-- A `Stream` method whose error the decoder of `typ` passes through
`wrapStreamError`. -/
def wrapped {α : Type} (typ : Ty) (x : StreamM α) : DecodeM α :=
  tryCatch (stream x) fun err => throw (wrapStreamError typ err)

/-! ## Decoders of strings -/

/-- `decodeUint`. -/
def decodeUint (typ : Ty) (bits : ℕ) : DecodeM Val := do
  let num ← wrapped typ (Stream.uint bits)
  pure (.uint num)

/-- `decodeBool`. -/
def decodeBool (typ : Ty) : DecodeM Val := do
  let b ← wrapped typ Stream.Bool
  pure (.bool b)

/-- `decodeString`. -/
def decodeString (typ : Ty) : DecodeM Val := do
  let b ← wrapped typ Stream.Bytes
  pure (.str b)

/-- `decodeBigInt` into a `*big.Int`: no leading zero byte. `decodeBigIntNoPtr`
runs it on the address of a `big.Int`, so its errors name `*big.Int` too. -/
def decodeBigInt : DecodeM ℤ := do
  let b ← wrapped (.ptr .bigInt) Stream.Bytes
  if b.length > 0 ∧ b.headD 0 = 0 then throw (wrapStreamError (.ptr .bigInt) .ErrCanonInt)
  pure (Stream.bigEndian b)

/-- `decodeByteSlice`. -/
def decodeByteSlice (typ : Ty) : DecodeM Val := do
  let b ← wrapped typ Stream.Bytes
  pure (.bytes b)

/-- `decodeByteArray` into `[vlen]byte`. A single byte is read with `Uint`, whose
error is ignored. -/
def decodeByteArray (typ : Ty) (vlen : ℕ) : DecodeM Val := do
  let (kind, size) ← stream Stream.Kind
  match kind with
  | .Byte =>
    if vlen = 0 then throw (.decodeError "input string too long" typ [])
    if vlen > 1 then throw (.decodeError "input string too short" typ [])
    let bv ← tryCatch (stream Stream.Uint) fun _ => pure 0
    pure (.bytes [bv.toUInt8])
  | .String =>
    if vlen < size then throw (.decodeError "input string too long" typ [])
    if vlen > size then throw (.decodeError "input string too short" typ [])
    let slice ← stream (Stream.readFull vlen)
    -- reject cases where single byte encoding should have been used
    if size = 1 ∧ slice.headD 0 < 128 then throw (wrapStreamError typ .ErrCanonSize)
    pure (.bytes slice)
  | .List => throw (wrapStreamError typ .ErrExpectedString)

/-- An element of a list: `none` at `EOL`, other errors in the context of the
element's index. -/
def elemOrEOL (dec : DecodeM Val) (i : ℕ) : DecodeM (Option Val) :=
  tryCatch (some <$> dec) fun err =>
    match err with
    | .EOL => pure none
    | err => throw (addErrorContext (.index i) err)

/-- The first field decoder error of a struct: `EOL` means too few elements. -/
def fieldError (typ : Ty) (name : String) : Err → Err
  | .EOL => .decodeError "too few elements" typ []
  | err => addErrorContext (.field name) err

/-! ## The decoder of every type -/

mutual
/-- The decoder `makeDecoder` returns for a type with its tags, in the order of
its cases. -/
def decode : ℕ → Ty → Tags → DecodeM Val
  | 0, _, _ => exhausted
  | fuel + 1, ty, tags =>
    match ty with
    | .ptr .bigInt => do
      let i ← decodeBigInt
      pure (.ptr (.bigInt i))
    | .bigInt => do
      let i ← decodeBigInt
      pure (.bigInt i)
    | .uint bits => decodeUint ty bits
    | .bool => decodeBool ty
    | .string => decodeString ty
    -- `makeListDecoder`
    | .array vlen (.uint 8) => decodeByteArray ty vlen
    | .slice (.uint 8) => decodeByteSlice ty
    | .array vlen elem => decodeListArray fuel ty vlen elem
    | .slice elem =>
      if tags.tail then do
        -- the struct decoder already entered the list
        let vs ← decodeSliceElems fuel elem 0
        pure (.list vs)
      else decodeListSlice fuel ty elem
    | .struct fields => decodeStruct fuel ty fields
    | .ptr elem =>
      if tags.nilOK then decodeOptionalPtr fuel ty elem
      else do
        let v ← decode fuel elem {}
        pure (.ptr v)
    | .iface => decodeInterface fuel
termination_by structural fuel => fuel

/-- `decodeSliceElems`: elements until `EOL`. -/
def decodeSliceElems : ℕ → Ty → ℕ → DecodeM (List Val)
  | 0, _, _ => exhausted
  | fuel + 1, elem, i => do
    match ← elemOrEOL (decode fuel elem {}) i with
    | none => pure []
    | some v => do
      let vs ← decodeSliceElems fuel elem (i + 1)
      pure (v :: vs)
termination_by structural fuel => fuel

/-- `decodeListSlice`. Its `ListEnd` errors are not wrapped. -/
def decodeListSlice : ℕ → Ty → Ty → DecodeM Val
  | 0, _, _ => exhausted
  | fuel + 1, typ, elem => do
    let size ← wrapped typ Stream.List
    if size = 0 then
      stream Stream.ListEnd
      pure (.list [])
    else
      let vs ← decodeSliceElems fuel elem 0
      stream Stream.ListEnd
      pure (.list vs)
termination_by structural fuel => fuel

/-- The loop of `decodeListArray`: at most `k` more elements, stopping at `EOL`. -/
def decodeArrayElems : ℕ → Ty → ℕ → ℕ → DecodeM (List Val)
  | 0, _, _, _ => exhausted
  | _ + 1, _, _, 0 => pure []
  | fuel + 1, elem, i, k + 1 => do
    match ← elemOrEOL (decode fuel elem {}) i with
    | none => pure []
    | some v => do
      let vs ← decodeArrayElems fuel elem (i + 1) k
      pure (v :: vs)
termination_by structural fuel => fuel

/-- `decodeListArray`: exactly `vlen` elements. -/
def decodeListArray : ℕ → Ty → ℕ → Ty → DecodeM Val
  | 0, _, _, _ => exhausted
  | fuel + 1, typ, vlen, elem => do
    let _ ← wrapped typ Stream.List
    let vs ← decodeArrayElems fuel elem 0 vlen
    if vs.length < vlen then throw (.decodeError "input list has too few elements" typ [])
    wrapped typ Stream.ListEnd
    pure (.list vs)
termination_by structural fuel => fuel

/-- The fields of `makeStructDecoder`, each with its tags. -/
def decodeFields : ℕ → Ty → List (String × Tags × Ty) → DecodeM (List Val)
  | 0, _, _ => exhausted
  | _ + 1, _, [] => pure []
  | fuel + 1, typ, (name, tags, ty) :: fields => do
    let v ← tryCatch (decode fuel ty tags) fun err => throw (fieldError typ name err)
    let vs ← decodeFields fuel typ fields
    pure (v :: vs)
termination_by structural fuel => fuel

/-- `makeStructDecoder`. -/
def decodeStruct : ℕ → Ty → List (String × Tags × Ty) → DecodeM Val
  | 0, _, _ => exhausted
  | fuel + 1, typ, fields => do
    let _ ← wrapped typ Stream.List
    let vs ← decodeFields fuel typ fields
    wrapped typ Stream.ListEnd
    pure (.list vs)
termination_by structural fuel => fuel

/-- `makeOptionalPtrDecoder`: an empty string or list is the nil pointer; `Kind`
is rearmed so that the input moves on. -/
def decodeOptionalPtr : ℕ → Ty → Ty → DecodeM Val
  | 0, _, _ => exhausted
  | fuel + 1, _, elem => do
    let (kind, size) ← tryCatch (stream Stream.Kind) fun err => do
      stream (modify fun s => { s with kind := none })
      throw err
    if size = 0 ∧ kind ≠ .Byte then
      stream (modify fun s => { s with kind := none })
      pure .nil
    else
      let v ← decode fuel elem {}
      pure (.ptr v)
termination_by structural fuel => fuel

/-- `decodeInterface` into an `interface{}`: a list as `[]interface{}`, a string
as `[]byte`. -/
def decodeInterface : ℕ → DecodeM Val
  | 0 => exhausted
  | fuel + 1 => do
    let (kind, _) ← stream Stream.Kind
    if kind = .List then
      let v ← decodeListSlice fuel (.slice .iface) .iface
      pure (.iface (.slice .iface) v)
    else
      let b ← stream Stream.Bytes
      pure (.iface (.slice (.uint 8)) (.bytes b))
termination_by structural fuel => fuel
end

/-- `Stream.Decode` into a fresh value of type `ty`: the error of a failed
element also names the target type. -/
def Decode (fuel : ℕ) (ty : Ty) : DecodeM Val :=
  match ty.typeError with
  | some msg => throw (.typeError msg)
  | none => tryCatch (decode fuel ty {}) fun err =>
    throw (match err with
      | .decodeError msg typ (c :: ctx) => .decodeError msg typ (c :: ctx ++ [.target ty])
      | err => err)

/-- `DecodeBytes`: exactly one value and no trailing data; `none` when the
decoders do not return within `fuel`. -/
def DecodeBytes (fuel : ℕ) (b : Bytes) (ty : Ty) : Option (Except Err Val) :=
  ((Decode fuel ty).run.run (Stream.New b)).map fun (res, s) =>
    match res with
    | .error err => .error err
    | .ok v => if s.r.length > 0 then .error .ErrMoreThanOneValue else .ok v

/-! ## Steps of a decoder -/

theorem runFrom_stream {α : Type} (x : StreamM α) (s : Stream) :
    (stream x).runFrom s = some (StateExcept.runFrom x s) := rfl

theorem wrapped_ok {α : Type} {typ : Ty} {x : StreamM α} {s t : Stream} {a : α}
    (h : StateExcept.runFrom x s = (.ok a, t)) : (wrapped typ x).runFrom s = some (.ok a, t) :=
  runFrom_tryCatch_ok (by rw [runFrom_stream, h])

/-! ## More fuel returns the same -/

/-- Every decoder at `fuel` is approximated by itself at `fuel + 1`. -/
structure DecodersApprox (fuel : ℕ) : Prop where
  dec : ∀ ty tags, Approx (decode fuel ty tags) (decode (fuel + 1) ty tags)
  sliceElems : ∀ elem i, Approx (decodeSliceElems fuel elem i) (decodeSliceElems (fuel + 1) elem i)
  listSlice : ∀ typ elem, Approx (decodeListSlice fuel typ elem) (decodeListSlice (fuel + 1) typ elem)
  arrayElems : ∀ elem i k,
    Approx (decodeArrayElems fuel elem i k) (decodeArrayElems (fuel + 1) elem i k)
  listArray : ∀ typ vlen elem,
    Approx (decodeListArray fuel typ vlen elem) (decodeListArray (fuel + 1) typ vlen elem)
  structFields : ∀ typ fields, Approx (decodeFields fuel typ fields) (decodeFields (fuel + 1) typ fields)
  struct : ∀ typ fields, Approx (decodeStruct fuel typ fields) (decodeStruct (fuel + 1) typ fields)
  optionalPtr : ∀ typ elem,
    Approx (decodeOptionalPtr fuel typ elem) (decodeOptionalPtr (fuel + 1) typ elem)
  iface : Approx (decodeInterface fuel) (decodeInterface (fuel + 1))

theorem elemOrEOL_approx {dec dec' : DecodeM Val} (h : Approx dec dec') (i : ℕ) :
    Approx (elemOrEOL dec i) (elemOrEOL dec' i) :=
  Approx.tryCatch (Approx.map _ h) fun _ => Approx.refl _

theorem decodersApprox_zero : DecodersApprox 0 :=
  ⟨fun _ _ => exhausted_approx _, fun _ _ => exhausted_approx _, fun _ _ => exhausted_approx _,
    fun _ _ _ => exhausted_approx _, fun _ _ _ => exhausted_approx _, fun _ _ => exhausted_approx _,
    fun _ _ => exhausted_approx _, fun _ _ => exhausted_approx _, exhausted_approx _⟩

section Step

variable {fuel : ℕ} (ih : DecodersApprox fuel)
include ih

theorem decode_step (ty : Ty) (tags : Tags) :
    Approx (decode (fuel + 1) ty tags) (decode (fuel + 1 + 1) ty tags) := by
  rw [decode.eq_def, decode.eq_def]
  dsimp only
  split
  all_goals first
    | exact Approx.refl _
    | skip
  case h_8 vlen elem _ => exact ih.listArray _ vlen elem
  case h_9 elem _ =>
    exact Approx.ite (Approx.bind (ih.sliceElems elem 0) fun _ => Approx.refl _) (ih.listSlice _ elem)
  case h_10 fields => exact ih.struct _ fields
  case h_11 elem _ =>
    exact Approx.ite (ih.optionalPtr _ elem) (Approx.bind (ih.dec elem {}) fun _ => Approx.refl _)
  case h_12 => exact ih.iface

theorem sliceElems_step (elem : Ty) (i : ℕ) :
    Approx (decodeSliceElems (fuel + 1) elem i) (decodeSliceElems (fuel + 1 + 1) elem i) := by
  rw [decodeSliceElems.eq_def, decodeSliceElems.eq_def]
  dsimp only
  refine Approx.bind (elemOrEOL_approx (ih.dec elem {}) i) fun o => ?_
  cases o with
  | none => exact Approx.refl _
  | some v => exact Approx.bind (ih.sliceElems elem (i + 1)) fun _ => Approx.refl _

theorem listSlice_step (typ elem : Ty) :
    Approx (decodeListSlice (fuel + 1) typ elem) (decodeListSlice (fuel + 1 + 1) typ elem) := by
  rw [decodeListSlice.eq_def, decodeListSlice.eq_def]
  dsimp only
  refine Approx.bind (Approx.refl _) fun _ => Approx.ite (Approx.refl _) ?_
  exact Approx.bind (ih.sliceElems elem 0) fun _ => Approx.refl _

theorem arrayElems_step (elem : Ty) (i k : ℕ) :
    Approx (decodeArrayElems (fuel + 1) elem i k) (decodeArrayElems (fuel + 1 + 1) elem i k) := by
  rw [decodeArrayElems.eq_def, decodeArrayElems.eq_def]
  cases k with
  | zero => exact Approx.refl _
  | succ k =>
    refine Approx.bind (elemOrEOL_approx (ih.dec elem {}) i) fun o => ?_
    cases o with
    | none => exact Approx.refl _
    | some v => exact Approx.bind (ih.arrayElems elem (i + 1) k) fun _ => Approx.refl _

theorem listArray_step (typ : Ty) (vlen : ℕ) (elem : Ty) :
    Approx (decodeListArray (fuel + 1) typ vlen elem) (decodeListArray (fuel + 1 + 1) typ vlen elem) := by
  rw [decodeListArray.eq_def, decodeListArray.eq_def]
  exact Approx.bind (Approx.refl _) fun _ =>
    Approx.bind (ih.arrayElems elem 0 vlen) fun _ => Approx.refl _

theorem structFields_step (typ : Ty) (fields : List (String × Tags × Ty)) :
    Approx (decodeFields (fuel + 1) typ fields) (decodeFields (fuel + 1 + 1) typ fields) := by
  rw [decodeFields.eq_def, decodeFields.eq_def]
  rcases fields with _ | ⟨⟨name, tags, ty⟩, fields⟩
  · exact Approx.refl _
  · exact Approx.bind (Approx.tryCatch (ih.dec ty tags) fun _ => Approx.refl _) fun _ =>
      Approx.bind (ih.structFields typ fields) fun _ => Approx.refl _

theorem struct_step (typ : Ty) (fields : List (String × Tags × Ty)) :
    Approx (decodeStruct (fuel + 1) typ fields) (decodeStruct (fuel + 1 + 1) typ fields) := by
  rw [decodeStruct.eq_def, decodeStruct.eq_def]
  exact Approx.bind (Approx.refl _) fun _ =>
    Approx.bind (ih.structFields typ fields) fun _ => Approx.refl _

theorem optionalPtr_step (typ elem : Ty) :
    Approx (decodeOptionalPtr (fuel + 1) typ elem) (decodeOptionalPtr (fuel + 1 + 1) typ elem) := by
  rw [decodeOptionalPtr.eq_def, decodeOptionalPtr.eq_def]
  dsimp only
  refine Approx.bind (Approx.refl _) fun p => ?_
  obtain ⟨kind, size⟩ := p
  exact Approx.ite (Approx.refl _) (Approx.bind (ih.dec elem {}) fun _ => Approx.refl _)

theorem iface_step : Approx (decodeInterface (fuel + 1)) (decodeInterface (fuel + 1 + 1)) := by
  rw [decodeInterface.eq_def, decodeInterface.eq_def]
  dsimp only
  refine Approx.bind (Approx.refl _) fun p => ?_
  obtain ⟨kind, -⟩ := p
  exact Approx.ite (Approx.bind (ih.listSlice _ _) fun _ => Approx.refl _) (Approx.refl _)

theorem DecodersApprox.succ : DecodersApprox (fuel + 1) :=
  ⟨decode_step ih, sliceElems_step ih, listSlice_step ih, arrayElems_step ih, listArray_step ih,
    structFields_step ih, struct_step ih, optionalPtr_step ih, iface_step ih⟩

end Step

theorem decodersApprox : ∀ fuel, DecodersApprox fuel
  | 0 => decodersApprox_zero
  | fuel + 1 => (decodersApprox fuel).succ

theorem Decode_approx (fuel k : ℕ) (ty : Ty) : Approx (Decode fuel ty) (Decode (fuel + k) ty) := by
  have hdec : Approx (decode fuel ty {}) (decode (fuel + k) ty {}) := by
    induction k with
    | zero => exact Approx.refl _
    | succ k ihk => exact ihk.trans ((decodersApprox (fuel + k)).dec ty {})
  unfold Decode
  split
  · exact Approx.refl _
  · exact Approx.tryCatch hdec fun _ => Approx.refl _

theorem DecodeBytes_mono {fuel : ℕ} {b : Bytes} {ty : Ty} {r : Except Err Val}
    (h : DecodeBytes fuel b ty = some r) (k : ℕ) : DecodeBytes (fuel + k) b ty = some r := by
  unfold DecodeBytes at h ⊢
  obtain ⟨p, hp, rfl⟩ := Option.map_eq_some_iff.mp h
  have hk : (Decode (fuel + k) ty).runFrom (Stream.New b) = some p := Decode_approx fuel k ty _ p hp
  unfold runFrom at hk
  rw [hk, Option.map_some]

/-! ## A zero byte read into a byte array

`decodeByteArray` reads the single byte of a `[1]byte` with `Uint` and ignores
its error. For the byte `0x00` that error is `ErrCanonInt`, which `uint` returns
before it rearms `Kind`: the byte stays ahead, and the next decoder reads it
again. -/

/-- The header `Kind` has cached is the single byte `0x00`. -/
def Stream.ZeroByteAhead (s : Stream) : Prop :=
  s.kind = some .Byte ∧ s.kinderr = none ∧ s.byteval = 0

theorem decode_zero_byte_array {s : Stream} (hs : s.ZeroByteAhead) (fuel : ℕ) :
    (decode (fuel + 1) (.array 1 (.uint 8)) {}).runFrom s = some (.ok (.bytes [0]), s) := by
  obtain ⟨r, remaining, limited, kind, size, byteval, kinderr, stack⟩ := s
  obtain ⟨hk, he, hb⟩ := hs
  dsimp only at hk he hb
  subst hk he hb
  rfl

/-- The loop over the elements of a `[][1]byte` with a zero byte ahead decodes
`[0]` for ever: it never returns, whatever the fuel. -/
theorem decodeSliceElems_zero_byte {s : Stream} (hs : s.ZeroByteAhead) :
    ∀ fuel i, (decodeSliceElems fuel (.array 1 (.uint 8)) i).runFrom s = none := by
  intro fuel
  induction fuel with
  | zero => intro i; rfl
  | succ fuel ih =>
    intro i
    rw [decodeSliceElems.eq_def]
    dsimp only
    cases fuel with
    | zero => rfl
    | succ fuel =>
      have helem : (elemOrEOL (decode (fuel + 1) (.array 1 (.uint 8)) {}) i).runFrom s =
          some (.ok (some (.bytes [0])), s) := by
        unfold elemOrEOL
        refine runFrom_tryCatch_ok ?_
        rw [runFrom_map, decode_zero_byte_array hs]
        rfl
      rw [runFrom_bind_ok helem]
      exact runFrom_bind_none (ih (i + 1))

/-- The `[][1]byte` holding `[1]byte{0}` encodes as `C1 00`, and `DecodeBytes`
of `C1 00` into a `[][1]byte` never returns. -/
theorem DecodeBytes_byte_array_slice_diverges (fuel : ℕ) :
    EncodeToBytes (.slice (.array 1 (.uint 8))) (.list [.bytes [0]]) = .ok [0xC1, 0x00] ∧
      DecodeBytes fuel [0xC1, 0x00] (.slice (.array 1 (.uint 8))) = none := by
  refine ⟨rfl, ?_⟩
  rcases fuel with _ | _ | _ | _ | fuel
  iterate 4 rfl
  -- the list header is read, then the zero byte, which stays ahead for ever
  have hlist : (wrapped (.slice (.array 1 (.uint 8))) Stream.List).runFrom (Stream.New [0xC1, 0x00]) =
      some (.ok 1, ⟨[0x00], 1, true, none, 0, 0, none, [⟨0, 1⟩]⟩) := rfl
  have hfirst : (elemOrEOL (decode (fuel + 1) (.array 1 (.uint 8)) {}) 0).runFrom
      ⟨[0x00], 1, true, none, 0, 0, none, [⟨0, 1⟩]⟩ =
      some (.ok (some (.bytes [0])), ⟨[], 0, true, some .Byte, 0, 0, none, [⟨1, 1⟩]⟩) := rfl
  have hloop := decodeSliceElems_zero_byte
    (s := ⟨[], 0, true, some .Byte, 0, 0, none, [⟨1, 1⟩]⟩) ⟨rfl, rfl, rfl⟩ (fuel + 1) 1
  have helems : (decodeSliceElems (fuel + 2) (.array 1 (.uint 8)) 0).runFrom
      ⟨[0x00], 1, true, none, 0, 0, none, [⟨0, 1⟩]⟩ = none := by
    rw [decodeSliceElems.eq_def]
    dsimp only
    rw [runFrom_bind_ok hfirst]
    exact runFrom_bind_none hloop
  have hdecode : (decode (fuel + 4) (.slice (.array 1 (.uint 8))) {}).runFrom (Stream.New [0xC1, 0x00]) =
      none := by
    show (decodeListSlice (fuel + 3) (.slice (.array 1 (.uint 8))) (.array 1 (.uint 8))).runFrom _ = none
    rw [decodeListSlice.eq_def]
    dsimp only
    rw [runFrom_bind_ok hlist]
    exact runFrom_bind_none helems
  have hDecode : (Decode (fuel + 4) (.slice (.array 1 (.uint 8)))).runFrom (Stream.New [0xC1, 0x00]) =
      none := runFrom_tryCatch_none hdecode
  unfold DecodeBytes
  unfold runFrom at hDecode
  rw [hDecode]
  rfl

/-- `DecodeBytes` of `C1 00` into a `[2][1]byte` succeeds: both elements read
the one zero byte. The value decoded encodes as `C2 00 00`. -/
theorem DecodeBytes_byte_array_pair_noncanonical (k : ℕ) :
    DecodeBytes (5 + k) [0xC1, 0x00] (.array 2 (.array 1 (.uint 8))) =
        some (.ok (.list [.bytes [0], .bytes [0]])) ∧
      EncodeToBytes (.array 2 (.array 1 (.uint 8))) (.list [.bytes [0], .bytes [0]]) =
        .ok [0xC2, 0x00, 0x00] := by
  have h5 : DecodeBytes 5 [0xC1, 0x00] (.array 2 (.array 1 (.uint 8))) =
      some (.ok (.list [.bytes [0], .bytes [0]])) := rfl
  exact ⟨DecodeBytes_mono h5 k, rfl⟩

end EthereumAI.Rlp
