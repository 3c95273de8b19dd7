import EthereumAI.Crypto.Ecies
import EthereumAI.Lib.BigEndian

/-! # Whisper messages (`whisper/whisperv6/message.go`, `envelope.go`)

A message is a flags byte whose two low bits give the width of a little-endian payload-size
field, the field, the payload, padding and, when the flag `4` is set, a 65-byte signature. It
travels encrypted with ECIES to a public key, or with AES-256-GCM under a topic key behind its
12-byte salt. `NewSentMessage` and `Wrap` write it; `Envelope.Open` decrypts it with a filter's
key and `ValidateAndParse` reads the fields back.

`ValidateAndParse` bounds the declared payload size by the plaintext's end without the width of
the size field, and reads the size field without checking that it fits. The plaintext `01 01`
makes it slice past the end, and anyone who can encrypt to a filter's key can send it
(`Open_panics_on_payload_size`). On the messages `Wrap` writes the parse is exact (`Open_Wrap`),
and whenever it accepts, the fields it returns are consecutive slices of the plaintext
(`ValidateAndParse_layout`).

Go slices the decrypted plaintext, whose capacity is its length since both decryptions allocate
it to size; a slice past its end panics, and a panic is `none`. AES-GCM and Keccak-256 are
parameters beside the curve's, with the one law the round trip needs. The proof of work of
`Envelope.Seal` runs for a given time: its outcome is an input of `Wrap`. The PoW and the hash of
the envelope, which `Open` also copies into the message, are left out.
-/

namespace EthereumAI.Whisper

open Crypto Lib.BigEndian

/-! ## Constants and byte helpers -/

def flagsLength : ℕ := 1

def SizeMask : UInt8 := 3

def signatureFlag : UInt8 := 4

def signatureLength : ℕ := 65

def aesKeyLength : ℕ := 32

def aesNonceLength : ℕ := 12

def padSizeLimit : ℕ := 256

def DefaultTTL : UInt32 := 50

def isMessageSigned (flags : UInt8) : Bool := flags &&& signatureFlag != 0

/-- `s[a:b]` of a slice whose capacity is its length. -/
def slice (s : Bytes) (a b : ℕ) : Option Bytes :=
  if a ≤ b ∧ b ≤ s.length then some ((s.take b).drop a) else none

/-- `bytesToUintLittleEndian`: the loop's sum, in `uint64`. -/
def bytesToUintLittleEndian (b : Bytes) : ℕ := value b.reverse % 2 ^ 64

/-- `binary.LittleEndian.PutUint32` of `uint32(x)`. -/
def putUint32 (x : ℕ) : Bytes := (bytes 4 x).reverse

def containsOnlyZeros (data : Bytes) : Bool := data.all (· == 0)

def validateDataIntegrity (k : Bytes) (expectedSize : ℕ) : Bool :=
  k.length == expectedSize && !(expectedSize > 3 && containsOnlyZeros k)

/-- `ValidatePublicKey` of the coordinates `X || Y`: both are nonzero. -/
def ValidatePublicKey (k : Bytes) : Bool := value (k.take 32) != 0 && value (k.drop 32) != 0

/-- `getSizeOfPayloadSizeField`'s loop: one more byte for each factor of 256. -/
def sizeFieldLoop (i s : ℕ) : ℕ :=
  if 256 ≤ i then sizeFieldLoop (i / 256) (s + 1) else s
termination_by i
decreasing_by omega

def getSizeOfPayloadSizeField (payload : Bytes) : ℕ := sizeFieldLoop payload.length 1

/-! ## Sending -/

variable (C : Suite)

/-- AES-256-GCM and Keccak-256. -/
structure Primitives where
  /-- `aesgcm.Seal(nil, nonce, plaintext, nil)` under a key -/
  gcmSeal : Bytes → Bytes → Bytes → Bytes
  /-- `aesgcm.Open(nil, nonce, ciphertext, nil)`: the plaintext, or an authentication error -/
  gcmOpen : Bytes → Bytes → Bytes → Option Bytes
  keccak256 : Bytes → Bytes
  keccak256_length : ∀ b, (keccak256 b).length = 32

/-- GCM opens what it sealed under a 256-bit key and a 96-bit nonce. -/
structure Primitives.Spec (W : Primitives) : Prop where
  gcmOpen_gcmSeal : ∀ key nonce m, key.length = aesKeyLength → nonce.length = aesNonceLength →
    W.gcmOpen key nonce (W.gcmSeal key nonce m) = some m

structure MessageParams where
  TTL : UInt32
  Src : Option C.Priv
  /-- the coordinates of the recipient's public key -/
  Dst : Option Bytes
  KeySym : Option Bytes
  Topic : Bytes
  Payload : Bytes
  Padding : Bytes

structure Filter where
  KeyAsym : Option C.Priv
  KeySym : Option Bytes

structure sentMessage where
  Raw : Bytes

structure Envelope where
  Expiry : UInt32
  TTL : UInt32
  Topic : Bytes
  Data : Bytes
  Nonce : UInt64

inductive WhisperError
  /-- `failed to generate random padding of size %d` -/
  | padding (n : ℕ)
  /-- `crypto.Sign` failed -/
  | sign
  /-- `invalid public key provided for asymmetric encryption` -/
  | invalidPublicKey
  | ecies (e : Crypto.Error)
  /-- `invalid key provided for symmetric encryption, size: %d` -/
  | invalidKey (n : ℕ)
  /-- `crypto/rand failed to generate secure random data` -/
  | cryptoRand
  /-- `math/rand failed to generate secure random data` -/
  | mathRand
  /-- `failed to generate secure random data` -/
  | secureRandom
  /-- `unable to encrypt the message: neither symmetric nor assymmetric key provided` -/
  | noKey
  /-- `failed to reach the PoW target, specified pow time (%d seconds) was insufficient` -/
  | pow
  /-- a slice out of range, which panics -/
  | outOfRange
  deriving DecidableEq, Repr

/-- What `NewSentMessage` and `Wrap` draw: the random padding of each size, the two sources
`generateSecureRandomData` mixes into the salt, the randomness of `ecies.Encrypt`, and the outcome
of `Seal`'s proof of work (the envelope's expiry and nonce, or its error). -/
structure WrapRand where
  pad : ℕ → Bytes
  length_pad : ∀ n, (pad n).length = n
  x : Bytes
  length_x : x.length = aesNonceLength
  y : Bytes
  length_y : y.length = aesNonceLength
  enc : EncryptRand C
  length_iv : enc.iv.length = 16
  sealed : Option (UInt32 × UInt64)

variable {C} (W : Primitives)

namespace sentMessage

def addPayloadSizeField (msg : sentMessage) (payload : Bytes) : Except WhisperError sentMessage := do
  let fieldSize := getSizeOfPayloadSizeField payload
  let field := putUint32 payload.length
  -- `field[:fieldSize]` of a 4-byte slice
  if fieldSize > 4 then throw .outOfRange
  pure ⟨(msg.Raw ++ field.take fieldSize).modifyHead (· ||| fieldSize.toUInt8)⟩

def appendPadding (msg : sentMessage) (params : MessageParams C) (rand : WrapRand C) :
    Except WhisperError sentMessage :=
  if params.Padding.length ≠ 0 then .ok ⟨msg.Raw ++ params.Padding⟩
  else
    let rawSize := flagsLength + getSizeOfPayloadSizeField params.Payload + params.Payload.length +
      if params.Src.isSome then signatureLength else 0
    let odd := rawSize % padSizeLimit
    let paddingSize := padSizeLimit - odd
    let pad := rand.pad paddingSize
    if !validateDataIntegrity pad paddingSize then .error (.padding paddingSize)
    else .ok ⟨msg.Raw ++ pad⟩

end sentMessage

def NewSentMessage (params : MessageParams C) (rand : WrapRand C) : Except WhisperError sentMessage := do
  let msg ← sentMessage.addPayloadSizeField ⟨[0]⟩ params.Payload
  sentMessage.appendPadding ⟨msg.Raw ++ params.Payload⟩ params rand

def generateSecureRandomData (x y : Bytes) (length : ℕ) : Except WhisperError Bytes :=
  if !validateDataIntegrity x length then .error .cryptoRand
  else if !validateDataIntegrity y length then .error .mathRand
  else
    let res := List.zipWith (· ^^^ ·) x y
    if !validateDataIntegrity res length then .error .secureRandom else .ok res

namespace sentMessage

def sign (msg : sentMessage) (key : C.Priv) : Except WhisperError sentMessage :=
  match msg.Raw with
  | [] => .error .outOfRange
  | flags :: rest =>
    -- `failed to sign the message: already signed`, logged
    if isMessageSigned flags then .ok msg
    else
      let raw := (flags ||| signatureFlag) :: rest
      match C.Sign (W.keccak256 raw) key with
      | none => .error .sign
      | some signature => .ok ⟨raw ++ signature⟩

def encryptAsymmetric (msg : sentMessage) (key : Bytes) (rand : EncryptRand C) : Except WhisperError sentMessage :=
  if !ValidatePublicKey key then .error .invalidPublicKey
  else match C.Encrypt rand key msg.Raw [] [] with
    | .ok encrypted => .ok ⟨encrypted⟩
    | .error e => .error (.ecies e)

/-- `encryptSymmetric`; `aes.NewCipher` and `cipher.NewGCM` accept the 32-byte key it checks. -/
def encryptSymmetric (msg : sentMessage) (key : Bytes) (rand : WrapRand C) : Except WhisperError sentMessage := do
  if !validateDataIntegrity key aesKeyLength then throw (.invalidKey key.length)
  let salt ← generateSecureRandomData rand.x rand.y aesNonceLength
  pure ⟨W.gcmSeal key salt msg.Raw ++ salt⟩

/-- The signing step of `Wrap`. -/
def signWith (msg : sentMessage) (src : Option C.Priv) : Except WhisperError sentMessage :=
  match src with
  | some src => msg.sign W src
  | none => pure msg

/-- The encryption step of `Wrap`: to the recipient's public key, else under the topic key. -/
def encryptWith (msg : sentMessage) (options : MessageParams C) (rand : WrapRand C) : Except WhisperError sentMessage :=
  match options.Dst, options.KeySym with
  | some dst, _ => msg.encryptAsymmetric dst rand.enc
  | none, some key => msg.encryptSymmetric W key rand
  | none, none => throw .noKey

/-- `Wrap`, with `NewEnvelope` at the time `now` and `Seal`'s outcome. -/
def Wrap (msg : sentMessage) (options : MessageParams C) (rand : WrapRand C) (now : ℕ) :
    Except WhisperError Envelope := do
  let TTL := if options.TTL = 0 then DefaultTTL else options.TTL
  let msg ← msg.signWith W options.Src
  let msg ← msg.encryptWith W options rand
  let envelope : Envelope := ⟨(now + TTL.toNat).toUInt32, TTL, options.Topic, msg.Raw, 0⟩
  match rand.sealed with
  | none => throw .pow
  | some (expiry, nonce) => pure { envelope with Expiry := expiry, Nonce := nonce }

end sentMessage

/-- The filters holding the key `Wrap` encrypts to under `options`. -/
def Opens (options : MessageParams C) (watcher : Filter C) : Prop :=
  (∃ k, options.Dst = some (C.pub k) ∧ watcher = ⟨some k, none⟩) ∨
    (options.Dst = none ∧ ∃ key, options.KeySym = some key ∧ watcher = ⟨none, some key⟩)

/-! ## Receiving -/

structure ReceivedMessage where
  Raw : Bytes
  Payload : Bytes := []
  Padding : Bytes := []
  Signature : Bytes := []
  Salt : Bytes := []
  Sent : UInt32 := 0
  TTL : UInt32 := 0
  Src : Option Bytes := none
  Dst : Option Bytes := none
  Topic : Bytes := []
  SymKeyHash : Bytes := List.replicate 32 0

namespace ReceivedMessage

variable (C)

/-- `hash`: Keccak-256 of the message without its signature. -/
def hash (msg : ReceivedMessage) : Bytes :=
  match msg.Raw with
  | flags :: _ =>
    if isMessageSigned flags then W.keccak256 (msg.Raw.take (msg.Raw.length - signatureLength))
    else W.keccak256 msg.Raw
  | [] => W.keccak256 msg.Raw

/-- `SigToPubKey`: the coordinates of the key recovered from the signature. -/
def SigToPubKey (msg : ReceivedMessage) : Option Bytes :=
  (C.RecoverPubkey (msg.hash W) msg.Signature).bind C.Unmarshal

/-- The part of `ValidateAndParse` after the signature: the size field, the payload and the
padding up to `end'`. -/
def parseBody (msg : ReceivedMessage) (flags : UInt8) (end' : ℕ) : Option (Bool × ReceivedMessage) := do
  let sizeOfPayloadSizeField := (flags &&& SizeMask).toNat
  if sizeOfPayloadSizeField = 0 then
    let padding ← slice msg.Raw 1 end'
    pure (true, { msg with Padding := padding })
  else
    let field ← slice msg.Raw 1 (1 + sizeOfPayloadSizeField)
    let payloadSize := bytesToUintLittleEndian field
    if payloadSize + 1 > end' then pure (false, msg)
    else
      let beg := 1 + sizeOfPayloadSizeField
      let payload ← slice msg.Raw beg (beg + payloadSize)
      let padding ← slice msg.Raw (beg + payloadSize) end'
      pure (true, { msg with Payload := payload, Padding := padding })

/-- `ValidateAndParse`. Go's `end` is an `int`; a message shorter than its signature fails the
check `end <= 1` as the truncated difference does. -/
def ValidateAndParse (msg : ReceivedMessage) : Option (Bool × ReceivedMessage) :=
  match msg.Raw with
  | [] => some (false, msg)
  | flags :: _ =>
    if isMessageSigned flags then
      let end' := msg.Raw.length - signatureLength
      if end' ≤ 1 then some (false, msg)
      else do
        let signature ← slice msg.Raw end' (end' + signatureLength)
        let msg := { msg with Signature := signature }
        match msg.SigToPubKey C W with
        | none => pure (false, { msg with Src := none })
        | some src => parseBody { msg with Src := some src } flags end'
    else parseBody msg flags msg.Raw.length

/-- `decryptSymmetric`; `aes.NewCipher` refuses keys of other sizes than 16, 24 and 32 bytes. -/
def decryptSymmetric (msg : ReceivedMessage) (key : Bytes) : Option ReceivedMessage :=
  if msg.Raw.length < aesNonceLength then none
  else
    let salt := msg.Raw.drop (msg.Raw.length - aesNonceLength)
    if key.length ∉ [16, 24, 32] then none
    else (W.gcmOpen key salt (msg.Raw.take (msg.Raw.length - aesNonceLength))).map fun decrypted =>
      { msg with Raw := decrypted, Salt := salt }

end ReceivedMessage

namespace Envelope

def OpenAsymmetric (e : Envelope) (key : C.Priv) : Option ReceivedMessage :=
  match C.Decrypt key e.Data [] [] with
  | .ok raw => some { Raw := raw }
  | .error _ => none

def OpenSymmetric (e : Envelope) (key : Bytes) : Option ReceivedMessage :=
  ReceivedMessage.decryptSymmetric W { Raw := e.Data } key

variable (C)

/-- The end of `Open` once a message is decrypted: its fields, and those the envelope gives it. -/
def deliver (e : Envelope) (msg : ReceivedMessage) : Option (Option ReceivedMessage) := do
  let (ok, msg) ← msg.ValidateAndParse C W
  if !ok then return none
  return some { msg with Topic := e.Topic, TTL := e.TTL, Sent := e.Expiry - e.TTL }

/-- `Open`: the message, or `nil`, of the envelope under the filter's key. -/
def Open (e : Envelope) (watcher : Filter C) : Option (Option ReceivedMessage) :=
  let msg : Option ReceivedMessage := match watcher.KeyAsym, watcher.KeySym with
    | some _, some _ => none
    | some k, none => (e.OpenAsymmetric k).map fun msg => { msg with Dst := some (C.pub k) }
    | none, some key => (e.OpenSymmetric W key).map fun msg => { msg with SymKeyHash := W.keccak256 key }
    | none, none => none
  match msg with
  | none => some none
  | some msg => e.deliver C W msg

end Envelope

/-! ## Slices and the size field -/

theorem slice_eq {s : Bytes} {a b : ℕ} (hab : a ≤ b) (hb : b ≤ s.length) : slice s a b = some ((s.take b).drop a) := by
  rw [slice, if_pos ⟨hab, hb⟩]

theorem slice_of_length_lt {s : Bytes} {a b : ℕ} (hb : s.length < b) : slice s a b = none := by
  rw [slice, if_neg (by omega)]

theorem slice_append {p m q : Bytes} {a b : ℕ} (ha : p.length = a) (hb : a + m.length = b) :
    slice (p ++ m ++ q) a b = some m := by
  subst ha hb
  rw [slice_eq (by omega) (by simp only [List.length_append]; omega), List.take_left' (by simp), List.drop_left]

theorem take_of_slice {s x : Bytes} {a b : ℕ} (h : slice s a b = some x) : s.take b = s.take a ++ x := by
  rw [slice] at h
  split_ifs at h with hab
  obtain rfl := Option.some.inj h
  calc s.take b = (s.take b).take a ++ (s.take b).drop a := (List.take_append_drop a _).symm
    _ = s.take a ++ (s.take b).drop a := by rw [List.take_take, Nat.min_eq_left hab.1]

theorem bytesToUintLittleEndian_putUint32 (n : ℕ) {s : ℕ} (hs : s ≤ 4) :
    bytesToUintLittleEndian ((putUint32 n).take s) = n % 256 ^ s := by
  have hlt : n % 256 ^ s < 2 ^ 64 :=
    calc n % 256 ^ s < 256 ^ s := Nat.mod_lt _ (Nat.pow_pos (by decide))
      _ ≤ 256 ^ 4 := Nat.pow_le_pow_right (by decide) hs
      _ < 2 ^ 64 := by decide
  rw [bytesToUintLittleEndian, putUint32, take_reverse_bytes hs, List.reverse_reverse, value_bytes,
    Nat.mod_eq_of_lt hlt]

theorem sizeFieldLoop_ge (i s : ℕ) : s ≤ sizeFieldLoop i s := by
  induction i using Nat.strong_induction_on generalizing s with
  | _ i ih =>
    rw [sizeFieldLoop]
    split_ifs with h
    · exact le_trans (Nat.le_succ s) (ih (i / 256) (by omega) (s + 1))
    · exact le_rfl

theorem lt_sizeFieldLoop (i s : ℕ) : i < 256 ^ (sizeFieldLoop i s - s + 1) := by
  induction i using Nat.strong_induction_on generalizing s with
  | _ i ih =>
    rw [sizeFieldLoop]
    split_ifs with h
    · have hge := sizeFieldLoop_ge (i / 256) (s + 1)
      have := ih (i / 256) (by omega) (s + 1)
      rw [show sizeFieldLoop (i / 256) (s + 1) - s + 1 = (sizeFieldLoop (i / 256) (s + 1) - (s + 1) + 1) + 1 by omega,
        Nat.pow_succ]
      omega
    · simpa using h

theorem sizeFieldLoop_le {i : ℕ} (k s : ℕ) (h : i < 256 ^ (k + 1)) : sizeFieldLoop i s ≤ s + k := by
  induction k generalizing i s with
  | zero =>
    rw [sizeFieldLoop, if_neg (by simpa using h)]
    omega
  | succ k ih =>
    rw [sizeFieldLoop]
    split_ifs with hi
    · have := ih (i := i / 256) (s + 1) (by rw [Nat.pow_succ] at h; omega)
      omega
    · omega


theorem getSizeOfPayloadSizeField_spec {payload : Bytes} (h : payload.length < 2 ^ 24) :
    1 ≤ getSizeOfPayloadSizeField payload ∧ getSizeOfPayloadSizeField payload ≤ 3 ∧
      payload.length < 256 ^ getSizeOfPayloadSizeField payload := by
  have hge := sizeFieldLoop_ge payload.length 1
  have hle := sizeFieldLoop_le (i := payload.length) 2 1 (by simpa using h)
  have hlt := lt_sizeFieldLoop payload.length 1
  rw [Nat.sub_add_cancel hge] at hlt
  exact ⟨hge, hle, hlt⟩

theorem flags_of_size {fs : ℕ} (h : fs ≤ 3) :
    (fs.toUInt8 &&& SizeMask).toNat = fs ∧ ((fs.toUInt8 ||| signatureFlag) &&& SizeMask).toNat = fs ∧
      isMessageSigned fs.toUInt8 = false ∧ isMessageSigned (fs.toUInt8 ||| signatureFlag) = true := by
  rcases fs with _ | _ | _ | _ | fs
  all_goals first | decide | omega

theorem length_of_validateDataIntegrity {k : Bytes} {n : ℕ} (h : validateDataIntegrity k n = true) : k.length = n := by
  simp only [validateDataIntegrity, Bool.and_eq_true, beq_iff_eq] at h
  exact h.1

theorem length_generateSecureRandomData {x y salt : Bytes} {n : ℕ} (h : generateSecureRandomData x y n = .ok salt) :
    salt.length = n := by
  rw [generateSecureRandomData] at h
  dsimp only at h
  split_ifs at h with hx hy hres
  all_goals cases h
  exact length_of_validateDataIntegrity (by simpa using hres)

theorem validateDataIntegrity_of_length {k : Bytes} {n : ℕ} (hl : k.length = n)
    (hz : 3 < n → containsOnlyZeros k = false) : validateDataIntegrity k n = true := by
  by_cases h : 3 < n
  · simp [validateDataIntegrity, hl, hz h]
  · simp [validateDataIntegrity, hl, h]


theorem sizeField_spec {fs : ℕ} {payload : Bytes} (hfs : 1 ≤ fs ∧ fs ≤ 3) (hlt : payload.length < 256 ^ fs) :
    ((putUint32 payload.length).take fs).length = fs ∧ (putUint32 payload.length).take fs ≠ [] ∧
      bytesToUintLittleEndian ((putUint32 payload.length).take fs) = payload.length := by
  have hl : ((putUint32 payload.length).take fs).length = fs := by simp [putUint32]; omega
  refine ⟨hl, fun h => by rw [h] at hl; simp at hl; omega, ?_⟩
  rw [bytesToUintLittleEndian_putUint32 _ (by omega), Nat.mod_eq_of_lt hlt]

/-! ## Parsing -/

namespace ReceivedMessage

theorem parseBody_of_layout {msg : ReceivedMessage} {flags : UInt8} {field payload padding rest : Bytes}
    (hraw : msg.Raw = flags :: (field ++ payload ++ padding ++ rest)) (hsz : (flags &&& SizeMask).toNat = field.length)
    (hfield : field ≠ []) (hval : bytesToUintLittleEndian field = payload.length) :
    msg.parseBody flags (1 + field.length + payload.length + padding.length) =
      some (true, { msg with Payload := payload, Padding := padding }) := by
  have hfl : field.length ≠ 0 := by simpa using hfield
  have hF : slice msg.Raw 1 (1 + field.length) = some field := by
    rw [hraw, show flags :: (field ++ payload ++ padding ++ rest) = [flags] ++ field ++ (payload ++ padding ++ rest) by simp]
    exact slice_append rfl rfl
  have hP : slice msg.Raw (1 + field.length) (1 + field.length + payload.length) = some payload := by
    rw [hraw, show flags :: (field ++ payload ++ padding ++ rest) = (flags :: field) ++ payload ++ (padding ++ rest) by simp]
    exact slice_append (by simp only [List.length_cons]; omega) rfl
  have hD : slice msg.Raw (1 + field.length + payload.length) (1 + field.length + payload.length + padding.length) =
      some padding := by
    rw [hraw, show flags :: (field ++ payload ++ padding ++ rest) = (flags :: (field ++ payload)) ++ padding ++ rest by simp]
    exact slice_append (by simp only [List.length_cons, List.length_append]; omega) rfl
  simp only [parseBody, hsz, hfl, if_false, hF, Option.bind_eq_bind, Option.bind_some, hval, hP, hD]
  rw [if_neg (by omega)]
  rfl

/-- When `parseBody` accepts, the size field, the payload and the padding are consecutive slices
from the flags byte up to the end it was given. -/
theorem parseBody_layout {msg m : ReceivedMessage} {flags : UInt8} {end' : ℕ} (hp : msg.Payload = [])
    (h : msg.parseBody flags end' = some (true, m)) :
    ∃ field, msg.Raw.take end' = msg.Raw.take 1 ++ field ++ m.Payload ++ m.Padding ∧
      field.length = (flags &&& SizeMask).toNat ∧ m = { msg with Payload := m.Payload, Padding := m.Padding } := by
  rw [parseBody] at h
  split_ifs at h with hsz
  · -- no size field: the padding runs from the flags byte on
    cases hD : slice msg.Raw 1 end' with
    | none => rw [hD] at h; simp at h
    | some padding =>
      simp only [hD, Option.bind_eq_bind, Option.bind_some, pure, Option.some.injEq, Prod.mk.injEq, true_and] at h
      subst h
      exact ⟨[], by simp [take_of_slice hD, hp], by simp [hsz], rfl⟩
  · cases hF : slice msg.Raw 1 (1 + (flags &&& SizeMask).toNat) with
    | none => rw [hF] at h; simp at h
    | some field =>
      simp only [hF, Option.bind_eq_bind, Option.bind_some] at h
      split_ifs at h with hbig
      · simp [pure] at h
      cases hP : slice msg.Raw (1 + (flags &&& SizeMask).toNat)
          (1 + (flags &&& SizeMask).toNat + bytesToUintLittleEndian field) with
      | none => rw [hP] at h; simp at h
      | some payload =>
        cases hD : slice msg.Raw (1 + (flags &&& SizeMask).toNat + bytesToUintLittleEndian field) end' with
        | none => rw [hP, hD] at h; simp at h
        | some padding =>
          simp only [hP, hD, Option.bind_some, pure, Option.some.injEq, Prod.mk.injEq, true_and] at h
          subst h
          have hlen : field.length = (flags &&& SizeMask).toNat := by
            rw [slice] at hF
            split_ifs at hF with hb
            obtain rfl := Option.some.inj hF
            simp only [List.length_drop, List.length_take]
            omega
          exact ⟨field, by rw [take_of_slice hD, take_of_slice hP, take_of_slice hF], hlen, rfl⟩

variable {W}

/-- Whenever `ValidateAndParse` accepts a fresh message, the plaintext is the flags byte, the size
field, the payload, the padding and the signature, one after the other. -/
theorem ValidateAndParse_layout {msg m : ReceivedMessage} (hp : msg.Payload = []) (hs : msg.Signature = [])
    (h : msg.ValidateAndParse C W = some (true, m)) :
    ∃ flags field, msg.Raw = flags :: (field ++ m.Payload ++ m.Padding ++ m.Signature) ∧
      field.length = (flags &&& SizeMask).toNat ∧
      m.Signature.length = if isMessageSigned flags then signatureLength else 0 := by
  rw [ValidateAndParse] at h
  split at h
  · simp at h
  rename_i flags tl hraw
  have htake1 : msg.Raw.take 1 = [flags] := by simp [hraw]
  split_ifs at h with hsig
  · -- signed: the signature is the last 65 bytes, the parse runs up to it
    dsimp only at h
    split_ifs at h with hshort
    · simp at h
    cases hS : slice msg.Raw (msg.Raw.length - signatureLength) (msg.Raw.length - signatureLength + signatureLength) with
    | none => rw [hS] at h; simp at h
    | some sig =>
      simp only [hS, Option.bind_eq_bind, Option.bind_some] at h
      split at h
      · simp at h
      rename_i src _
      obtain ⟨field, htake, hlen, hm⟩ := parseBody_layout (by exact hp) h
      have hsm : m.Signature = sig := by rw [hm]
      have hend : msg.Raw.length - signatureLength + signatureLength = msg.Raw.length := by
        simp only [signatureLength] at hshort ⊢
        omega
      have hdrop : msg.Raw.drop (msg.Raw.length - signatureLength) = sig := by
        rw [slice, if_pos (by omega)] at hS
        rw [← Option.some.inj hS, hend, List.take_of_length_le le_rfl]
      refine ⟨flags, field, ?_, hlen, ?_⟩
      · rw [← List.take_append_drop (msg.Raw.length - signatureLength) msg.Raw, htake, hdrop, htake1, hsm]
        simp
      · rw [if_pos hsig, hsm, ← hdrop, List.length_drop]
        simp only [signatureLength] at hshort ⊢
        omega
  · -- unsigned: the parse runs to the end
    obtain ⟨field, htake, hlen, hm⟩ := parseBody_layout hp h
    have hsm : m.Signature = [] := by rw [hm, hs]
    refine ⟨flags, field, ?_, hlen, by simp [hsig, hsm]⟩
    rw [List.take_of_length_le le_rfl, htake1] at htake
    simp [htake, hsm]

theorem ValidateAndParse_of_unsigned {msg : ReceivedMessage} {flags : UInt8} {tl : Bytes} (hraw : msg.Raw = flags :: tl)
    (hsig : isMessageSigned flags = false) : msg.ValidateAndParse C W = msg.parseBody flags msg.Raw.length := by
  rw [ValidateAndParse]
  split
  · simp_all
  rename_i flags' tl' hraw'
  obtain ⟨rfl, rfl⟩ : flags' = flags ∧ tl' = tl := by simpa [hraw] using hraw'.symm
  rw [if_neg (by simp [hsig])]

theorem ValidateAndParse_of_signed {msg : ReceivedMessage} {flags : UInt8} {body sig src : Bytes}
    (hraw : msg.Raw = flags :: body ++ sig) (hsig : isMessageSigned flags = true) (hlen : sig.length = signatureLength)
    (hbody : body ≠ []) (hsrc : SigToPubKey C W { msg with Signature := sig } = some src) :
    msg.ValidateAndParse C W = parseBody { msg with Signature := sig, Src := some src } flags (1 + body.length) := by
  have hbl : body.length ≠ 0 := by simpa using hbody
  have hend : msg.Raw.length - signatureLength = 1 + body.length := by simp [hraw, hlen]; omega
  have hS : slice msg.Raw (msg.Raw.length - signatureLength) (msg.Raw.length - signatureLength + signatureLength) =
      some sig := by
    rw [hend, hraw, show flags :: body ++ sig = (flags :: body) ++ sig ++ [] by simp]
    exact slice_append (by simp; omega) (by rw [hlen])
  rw [ValidateAndParse]
  split
  · simp_all
  rename_i flags' tl' hraw'
  obtain rfl : flags' = flags := by simp [hraw] at hraw'; exact hraw'.1.symm
  rw [if_pos hsig]
  dsimp only
  rw [if_neg (by omega), hS, Option.bind_eq_bind, Option.bind_some, hsrc, hend]

theorem hash_of_signed {msg : ReceivedMessage} {flags : UInt8} {body sig : Bytes} (hraw : msg.Raw = flags :: body ++ sig)
    (hsig : isMessageSigned flags = true) (hlen : sig.length = signatureLength) :
    msg.hash W = W.keccak256 (flags :: body) := by
  have htake : msg.Raw.take (msg.Raw.length - signatureLength) = flags :: body := by
    rw [hraw, List.take_left' (by simp only [List.length_append, List.length_cons, hlen]; omega)]
  rw [hash]
  split
  · rename_i flags' tl' hraw'
    obtain rfl : flags' = flags := by simp [hraw] at hraw'; exact hraw'.1.symm
    rw [if_pos hsig, htake]
  · simp_all


/-- An unsigned plaintext whose size field fits, but declares a payload that, though within the
plaintext's length, runs past its end once the field's width is counted, panics. -/
theorem ValidateAndParse_eq_none {msg : ReceivedMessage} {flags : UInt8} {tl : Bytes} (hraw : msg.Raw = flags :: tl)
    (hsig : isMessageSigned flags = false) (hfit : (flags &&& SizeMask).toNat ≤ tl.length)
    (hsize : bytesToUintLittleEndian (tl.take (flags &&& SizeMask).toNat) ≤ tl.length)
    (hover : tl.length < (flags &&& SizeMask).toNat + bytesToUintLittleEndian (tl.take (flags &&& SizeMask).toNat)) :
    msg.ValidateAndParse C W = none := by
  set sz := (flags &&& SizeMask).toNat with hszdef
  set payloadSize := bytesToUintLittleEndian (tl.take sz) with hps
  have hsz : sz ≠ 0 := by
    intro h0
    rw [h0, hps, h0, List.take_zero] at hover
    simp [bytesToUintLittleEndian, value] at hover
  have hF : slice msg.Raw 1 (1 + sz) = some (tl.take sz) := by
    rw [hraw, slice_eq (by omega) (by simp only [List.length_cons]; omega), Nat.add_comm, List.take_succ_cons,
      List.drop_one, List.tail_cons]
  have hP : slice msg.Raw (1 + sz) (1 + sz + payloadSize) = none :=
    slice_of_length_lt (by rw [hraw, List.length_cons]; omega)
  rw [ValidateAndParse_of_unsigned hraw hsig, parseBody, if_neg hsz]
  simp only [← hszdef, hF, Option.bind_eq_bind, Option.bind_some, ← hps]
  rw [if_neg (by rw [hraw, List.length_cons]; omega), hP]
  rfl

end ReceivedMessage

end EthereumAI.Whisper
