import EthereumAI.Crypto.Ecies
import EthereumAI.P2p.Rlpx
import EthereumAI.Rlp.Decode

/-! # The RLPx encryption handshake (`p2p/rlpx.go`)

The initiator knows the receiver's node ID, its static public key. It sends an auth message: a
signature by a fresh ephemeral key of the static ECDH secret xored with a nonce, its own static
public key and the nonce. The receiver recovers the initiator's ephemeral public key from the
signature and answers with its own ephemeral public key and nonce. Both messages are sent in the
EIP-8 format: RLP, padded with at least 100 zero bytes, encrypted with ECIES to the other's static
key behind a two-byte size prefix, which is also the shared data of the encryption. A reader first
tries the older plain format, a fixed-size encryption of the fields side by side, which an EIP-8
packet never passes, as its first byte is that of its size.

Each side derives the `secrets` from the ephemeral ECDH secret, both nonces and both packets as it
wrote or read them. `P2p.Session` shows that the two sides, run against each other over a
reliable pipe, agree on them, and that the frames of `P2p.Rlpx` built from the secrets then carry
every message from each side to the other.

The curve, ECIES and Keccak are the parameters `Crypto.Suite` and `Primitives`; what one side
draws at random is an input, `HandshakeRand`. A side's connection is the bytes it reads, the
other's packet followed by anything; a side returns what it wrote and what is left to read.
-/

namespace EthereumAI.P2p

open Crypto Rlp Lib FuelM

/-! ## Messages -/

/-- `sskLen`: the length of each half of an ECDH secret, `ecies.MaxSharedKeyLength(pubKey) / 2`. -/
def sskLen : ℕ := 16

/-- `sigLen`: an ECDSA signature of secp256k1, with its recovery byte. -/
def sigLen : ℕ := 65

/-- `pubLen`: an uncompressed public key without its format byte. -/
def pubLen : ℕ := 64

/-- `shaLen`: a hash, and a nonce. -/
def shaLen : ℕ := 32

/-- `authMsgLen`. -/
def authMsgLen : ℕ := sigLen + shaLen + pubLen + shaLen + 1

/-- `authRespLen`. -/
def authRespLen : ℕ := pubLen + shaLen + 1

/-- `eciesOverhead`: the public key, the IV and the MAC that ECIES adds. -/
def eciesOverhead : ℕ := 65 + 16 + 32

/-- `encAuthMsgLen`: the size of an encrypted auth message in the plain format. -/
def encAuthMsgLen : ℕ := authMsgLen + eciesOverhead

/-- `encAuthRespLen`: the size of an encrypted auth response in the plain format. -/
def encAuthRespLen : ℕ := authRespLen + eciesOverhead

/-- `xor` of `one` with the front of `other`; Go panics on a shorter `other`, which the handshake
never passes. -/
def xor (one other : Bytes) : Bytes := List.zipWith (· ^^^ ·) one other

/-- A byte array of `n` bytes with `src` copied to its front, as `copy(a[:], src)` leaves it. -/
def copyArray (n : ℕ) (src : Bytes) : Bytes := src.take n ++ List.replicate (n - src.length) 0

/-- `binary.BigEndian.PutUint16` of the low 16 bits of `v`. -/
def putUint16 (v : ℕ) : Bytes := [(v >>> 8).toUInt8, v.toUInt8]

/-- `authMsgV4`, the initiator's message, with `gotPlain`, whether it was read in the plain
format. The arrays are lists of their lengths; `Rest` holds the raw values of later versions'
fields. -/
structure authMsgV4 where
  gotPlain : Bool
  Signature : Bytes
  InitiatorPubkey : Bytes
  Nonce : Bytes
  Version : ℕ
  Rest : List Bytes
  deriving DecidableEq, Repr

/-- `authRespV4`, the receiver's message. -/
structure authRespV4 where
  RandomPubkey : Bytes
  Nonce : Bytes
  Version : ℕ
  Rest : List Bytes
  deriving DecidableEq, Repr

/-- The item of a `uint` field: its big-endian bytes, none for zero. -/
def uintField (n : ℕ) : Item := .str (if n = 0 then [] else putint n)

/-- `rlp.Encode` of a struct whose last field is a `tail` of `rlp.RawValue`s: the list of the
other fields, then the raw values as they are. -/
def encodeStruct (fields : List Item) (rest : List Bytes) : Bytes :=
  let payload := Item.encodeList fields ++ rest.flatten
  puthead 0xC0 0xF7 payload.length ++ payload

def authMsgV4.encode (msg : authMsgV4) : Bytes :=
  encodeStruct [.str msg.Signature, .str msg.InitiatorPubkey, .str msg.Nonce, uintField msg.Version] msg.Rest

def authRespV4.encode (msg : authRespV4) : Bytes :=
  encodeStruct [.str msg.RandomPubkey, .str msg.Nonce, uintField msg.Version] msg.Rest

/-- `authMsgV4.decodePlain`: the signature, then past the hash of the ephemeral key the public key
and the nonce. The offsets are fixed, as the input of a plain packet is `authMsgLen` bytes. -/
def authMsgV4.decodePlain (input : Bytes) : authMsgV4 where
  gotPlain := true
  Signature := copyArray sigLen input
  InitiatorPubkey := copyArray pubLen (input.drop (sigLen + shaLen))
  Nonce := copyArray shaLen (input.drop (sigLen + shaLen + pubLen))
  Version := 4
  Rest := []

/-- `authRespV4.decodePlain`. -/
def authRespV4.decodePlain (input : Bytes) : authRespV4 where
  RandomPubkey := copyArray pubLen input
  Nonce := copyArray shaLen (input.drop pubLen)
  Version := 4
  Rest := []

/-! ## Decoders of the messages -/

/-- A field of a struct read by `dec`: `EOL` is too few elements, another error names the
field. -/
def structField {α : Type} (typ : Ty) (name : String) (dec : DecodeM α) : DecodeM α :=
  tryCatch dec fun err => throw (fieldError typ name err)

/-- `decodeByteArray` into a `[n]byte`, which returns the bytes it read. -/
def byteArrayField (n : ℕ) : DecodeM Bytes := do
  match ← decodeByteArray (.array n (.uint 8)) n with
  | .bytes b => pure b
  | _ => pure []

/-- A `tail` field of `rlp.RawValue`s: `decodeSliceElems` over `decodeRawValue`, which reads each
element with `Raw`. -/
def decodeRawTail : ℕ → ℕ → DecodeM (List Bytes)
  | 0, _ => exhausted
  | fuel + 1, i => do
    match ← elemOrEOL (Val.bytes <$> stream Stream.Raw) i with
    | some (.bytes raw) => do
      let rest ← decodeRawTail fuel (i + 1)
      pure (raw :: rest)
    | _ => pure []

/-- The fields both messages end with, `Version uint` and `Rest []rlp.RawValue` with the tag
`tail`, and the end of the list. -/
def decodeVersionRest (typ : Ty) (fuel : ℕ) : DecodeM (ℕ × List Bytes) := do
  let version ← structField typ "Version" (wrapped (.uint 64) (Stream.uint 64))
  let rest ← structField typ "Rest" (decodeRawTail fuel 0)
  wrapped typ Stream.ListEnd
  pure (version, rest)

/-- `Stream.Decode` into a struct: the error of a failed field also names the struct. -/
def decodeTarget {α : Type} (ty : Ty) (dec : DecodeM α) : DecodeM α :=
  tryCatch dec fun err =>
    throw (match err with
      | .decodeError msg typ (c :: ctx) => .decodeError msg typ (c :: ctx ++ [.target ty])
      | err => err)

/-- The type `authMsgV4` as errors name it; `rlp.RawValue` is a byte slice. -/
def authMsgV4Ty : Ty :=
  .struct [("Signature", {}, .array sigLen (.uint 8)), ("InitiatorPubkey", {}, .array pubLen (.uint 8)),
    ("Nonce", {}, .array shaLen (.uint 8)), ("Version", {}, .uint 64),
    ("Rest", { tail := true }, .slice (.slice (.uint 8)))]

/-- The type `authRespV4` as errors name it. -/
def authRespV4Ty : Ty :=
  .struct [("RandomPubkey", {}, .array pubLen (.uint 8)), ("Nonce", {}, .array shaLen (.uint 8)),
    ("Version", {}, .uint 64), ("Rest", { tail := true }, .slice (.slice (.uint 8)))]

/-- `Stream.Decode` into an `authMsgV4`. -/
def decodeAuthMsgV4 (fuel : ℕ) : DecodeM authMsgV4 := decodeTarget authMsgV4Ty do
  let _ ← wrapped authMsgV4Ty Stream.List
  let sig ← structField authMsgV4Ty "Signature" (byteArrayField sigLen)
  let pub ← structField authMsgV4Ty "InitiatorPubkey" (byteArrayField pubLen)
  let nonce ← structField authMsgV4Ty "Nonce" (byteArrayField shaLen)
  let (version, rest) ← decodeVersionRest authMsgV4Ty fuel
  pure ⟨false, sig, pub, nonce, version, rest⟩

/-- `Stream.Decode` into an `authRespV4`. -/
def decodeAuthRespV4 (fuel : ℕ) : DecodeM authRespV4 := decodeTarget authRespV4Ty do
  let _ ← wrapped authRespV4Ty Stream.List
  let pub ← structField authRespV4Ty "RandomPubkey" (byteArrayField pubLen)
  let nonce ← structField authRespV4Ty "Nonce" (byteArrayField shaLen)
  let (version, rest) ← decodeVersionRest authRespV4Ty fuel
  pure ⟨pub, nonce, version, rest⟩

/-! ## Packets -/

/-- The errors of the handshake. -/
inductive HandshakeError
  /-- `io.EOF` or `io.ErrUnexpectedEOF`: the connection ended before what `io.ReadFull` asked -/
  | EOF
  /-- `size underflow, need at least %d bytes` -/
  | sizeUnderflow (plainSize : ℕ)
  | ecies (err : Crypto.Error)
  | rlp (err : Rlp.Err)
  /-- the decoder ran out of fuel -/
  | exhausted
  /-- `bad remoteID: id is invalid secp256k1 curve point` -/
  | badRemoteID
  /-- `crypto.Sign` failed -/
  | sign
  /-- `secp256k1.RecoverPubkey` failed -/
  | recover
  /-- `invalid public key length %v (expect 64/65)` -/
  | invalidPublicKeyLength (n : ℕ)
  /-- `invalid public key` -/
  | invalidPublicKey
  /-- a method of a nil key, which panics -/
  | nilKey

variable (C : Suite)

/-- `NodeID.Pubkey`: the node ID as a point, when it is on the curve. -/
def NodeID.Pubkey (id : Bytes) : Except HandshakeError Bytes :=
  if C.IsOnCurve id then .ok id else .error .badRemoteID

/-- `importPublicKey` of 64 bytes, or 65 with the format byte. -/
def importPublicKey (pubKey : Bytes) : Except HandshakeError Bytes :=
  let pubKey65 := if pubKey.length = 64 then some (4 :: pubKey) else if pubKey.length = 65 then some pubKey else none
  match pubKey65 with
  | none => .error (.invalidPublicKeyLength pubKey.length)
  | some pubKey65 =>
    match C.Unmarshal pubKey65 with
    | none => .error .invalidPublicKey
    | some pub => .ok pub

/-- `sealEIP8` of a message encoded as `enc` to the key `remotePub`: behind the encoding, `pad`
zero bytes more than the 100 that make an EIP-8 packet larger than a plain one, encrypted with
the size prefix as shared data. -/
def sealEIP8 (enc remotePub : Bytes) (pad : ℕ) (rand : EncryptRand C) : Except HandshakeError Bytes :=
  let buf := enc ++ List.replicate (pad + 100) 0
  let pfx := putUint16 (buf.length + eciesOverhead)
  match C.Encrypt rand remotePub buf [] pfx with
  | .error err => .error (.ecies err)
  | .ok c => .ok (pfx ++ c)

/-- `authRespV4.sealPlain`: the key and the nonce side by side, encrypted. -/
def authRespV4.sealPlain (msg : authRespV4) (remotePub : Bytes) (rand : EncryptRand C) :
    Except HandshakeError Bytes :=
  (C.Encrypt rand remotePub (copyArray authRespLen (msg.RandomPubkey ++ msg.Nonce)) [] []).mapError .ecies

/-- `readHandshakeMsg` from a connection that delivers `r`: the message, the packet as read, and
what is left to read. A packet that decrypts in the plain format goes to `decodePlain`; another
has its size in its first two bytes, which are the shared data of the rest, decoded as RLP with
data after the value allowed. -/
def readHandshakeMsg {α : Type} (decodePlain : Bytes → α) (decodeMsg : ℕ → DecodeM α) (plainSize : ℕ)
    (prv : C.Priv) (r : Bytes) : Except HandshakeError (α × Bytes × Bytes) :=
  if r.length < plainSize then .error .EOF
  else
    let buf := r.take plainSize
    -- attempt decoding pre-EIP-8 "plain" format
    match C.Decrypt prv buf [] [] with
    | .ok dec => .ok (decodePlain dec, buf, r.drop plainSize)
    | .error _ =>
      -- could be EIP-8 format, try that
      let pfx := buf.take 2
      let size := Stream.bigEndian pfx
      if size < plainSize then .error (.sizeUnderflow plainSize)
      else if r.length < size + 2 then .error .EOF
      else
        match C.Decrypt prv ((r.take (size + 2)).drop 2) [] pfx with
        | .error err => .error (.ecies err)
        | .ok dec =>
          match (decodeMsg (dec.length + 1)).runFrom (Stream.New dec) with
          | none => .error .exhausted
          | some (.error err, _) => .error (.rlp err)
          | some (.ok msg, _) => .ok (msg, r.take (size + 2), r.drop (size + 2))

/-! ## The two sides -/

/-- `encHandshake`: the side, the remote node, and the keys and nonces of the handshake so far;
a nil key is `none`. The remote static key is set before any use. -/
structure encHandshake where
  initiator : Bool
  remoteID : Bytes
  remotePub : Bytes
  initNonce : Bytes
  respNonce : Bytes
  randomPrivKey : Option C.Priv
  remoteRandomPub : Option Bytes

/-- What one side draws at random: its nonce (`rand.Read` of `shaLen` bytes), its ephemeral key,
the padding `mrand.Intn(len(padSpace) - 100)` of its EIP-8 packet, and the key and the IV of
its `ecies.Encrypt`. -/
structure HandshakeRand where
  nonce : Bytes
  length_nonce : nonce.length = shaLen
  randomPrivKey : C.Priv
  pad : ℕ
  pad_lt : pad < 200
  enc : EncryptRand C
  length_iv : enc.iv.length = 16

namespace encHandshake

variable {C} (P : Primitives)

/-- `staticSharedSecret`. -/
def staticSharedSecret (h : encHandshake C) (prv : C.Priv) : Except HandshakeError Bytes :=
  (C.GenerateShared prv h.remotePub sskLen sskLen).mapError .ecies

/-- `makeAuthMsg` with the nonce and the ephemeral key of `rand`. -/
def makeAuthMsg (h : encHandshake C) (prv : C.Priv) (rand : HandshakeRand C) :
    Except HandshakeError (encHandshake C × authMsgV4) := do
  let rpub ← NodeID.Pubkey C h.remoteID
  let h := { h with remotePub := rpub, initNonce := rand.nonce, randomPrivKey := some rand.randomPrivKey }
  -- sign known message: static-shared-secret ^ nonce
  let token ← h.staticSharedSecret prv
  let signed := xor token h.initNonce
  let some signature := C.Sign signed rand.randomPrivKey | throw .sign
  pure (h,
    { gotPlain := false, Signature := copyArray sigLen signature, InitiatorPubkey := copyArray pubLen (C.pub prv),
      Nonce := copyArray shaLen h.initNonce, Version := 4, Rest := [] })

/-- `handleAuthResp`. -/
def handleAuthResp (h : encHandshake C) (msg : authRespV4) : Except HandshakeError (encHandshake C) := do
  let pub ← importPublicKey C msg.RandomPubkey
  pure { h with respNonce := msg.Nonce, remoteRandomPub := some pub }

/-- `handleAuthMsg`, with the ephemeral key it draws when none is set. -/
def handleAuthMsg (h : encHandshake C) (msg : authMsgV4) (prv randomPrivKey : C.Priv) :
    Except HandshakeError (encHandshake C) := do
  -- import the remote identity
  let h := { h with initNonce := msg.Nonce, remoteID := msg.InitiatorPubkey }
  let rpub ← NodeID.Pubkey C h.remoteID
  let h := { h with remotePub := rpub }
  let h := match h.randomPrivKey with
    | none => { h with randomPrivKey := some randomPrivKey }
    | some _ => h
  -- check the signature
  let token ← h.staticSharedSecret prv
  let signedMsg := xor token h.initNonce
  let some remoteRandomPub := C.RecoverPubkey signedMsg msg.Signature | throw .recover
  -- an error of the import is dropped, and the key stays nil
  pure { h with remoteRandomPub := (importPublicKey C remoteRandomPub).toOption }

/-- `makeAuthResp` with the nonce `respNonce`. -/
def makeAuthResp (h : encHandshake C) (respNonce : Bytes) : Except HandshakeError (encHandshake C × authRespV4) := do
  let h := { h with respNonce := respNonce }
  let some k := h.randomPrivKey | throw .nilKey
  pure (h,
    { RandomPubkey := copyArray pubLen (C.pub k), Nonce := copyArray shaLen respNonce, Version := 4,
      Rest := [] })

/-- `secrets`, from the packets as this side wrote or read them; each MAC state is the bytes
written to it. -/
def secrets (h : encHandshake C) (auth authResp : Bytes) : Except HandshakeError P2p.secrets := do
  let some randomPrivKey := h.randomPrivKey | throw .nilKey
  let some remoteRandomPub := h.remoteRandomPub | throw .nilKey
  let ecdheSecret ← (C.GenerateShared randomPrivKey remoteRandomPub sskLen sskLen).mapError .ecies
  -- derive base secrets from ephemeral key agreement
  let sharedSecret := P.keccak (ecdheSecret ++ P.keccak (h.respNonce ++ h.initNonce))
  let aesSecret := P.keccak (ecdheSecret ++ sharedSecret)
  let mac := P.keccak (ecdheSecret ++ aesSecret)
  let mac1 := xor mac h.respNonce ++ auth
  let mac2 := xor mac h.initNonce ++ authResp
  pure
    { RemoteID := h.remoteID, AES := aesSecret, MAC := mac,
      EgressMAC := if h.initiator then mac1 else mac2, IngressMAC := if h.initiator then mac2 else mac1 }

end encHandshake

variable (P : Primitives)

/-- `initiatorEncHandshake` on a connection that delivers `conn` after the auth packet is
written: the secrets, the packet written, and what is left to read. -/
def initiatorEncHandshake (prv : C.Priv) (remoteID : Bytes) (rand : HandshakeRand C) (conn : Bytes) :
    Except HandshakeError (secrets × Bytes × Bytes) := do
  let h : encHandshake C := ⟨true, remoteID, [], [], [], none, none⟩
  let (h, authMsg) ← h.makeAuthMsg prv rand
  let authPacket ← sealEIP8 C authMsg.encode h.remotePub rand.pad rand.enc
  let (authRespMsg, authRespPacket, conn) ←
    readHandshakeMsg C authRespV4.decodePlain decodeAuthRespV4 encAuthRespLen prv conn
  let h ← h.handleAuthResp authRespMsg
  let s ← h.secrets P authPacket authRespPacket
  pure (s, authPacket, conn)

/-- `receiverEncHandshake` on a connection that delivers `conn`: the secrets, the packet written,
and what is left to read. -/
def receiverEncHandshake (prv : C.Priv) (rand : HandshakeRand C) (conn : Bytes) :
    Except HandshakeError (secrets × Bytes × Bytes) := do
  let (authMsg, authPacket, conn) ← readHandshakeMsg C authMsgV4.decodePlain decodeAuthMsgV4 encAuthMsgLen prv conn
  let h : encHandshake C := ⟨false, [], [], [], [], none, none⟩
  let h ← h.handleAuthMsg authMsg prv rand.randomPrivKey
  let (h, authRespMsg) ← h.makeAuthResp rand.nonce
  let authRespPacket ← if authMsg.gotPlain then authRespMsg.sealPlain C h.remotePub rand.enc
    else sealEIP8 C authRespMsg.encode h.remotePub rand.pad rand.enc
  let s ← h.secrets P authPacket authRespPacket
  pure (s, authRespPacket, conn)

/-- `rlpx.doEncHandshake`: the receiver's side when there is no node to dial, else the
initiator's; the remote node ID and the frame reader and writer installed from the secrets, with
the packet written and what is left to read. `newRLPXFrameRW` panics on an invalid secret, which
is `none`. -/
def doEncHandshake (prv : C.Priv) (dial : Option Bytes) (rand : HandshakeRand C) (conn : Bytes) :
    Except HandshakeError (Bytes × Option rlpxFrameRW × Bytes × Bytes) := do
  let (sec, written, conn) ← match dial with
    | none => receiverEncHandshake C P prv rand conn
    | some id => initiatorEncHandshake C P prv id rand conn
  pure (sec.RemoteID, newRLPXFrameRW sec, written, conn)

/-! ## Reading a message back

A message is decoded from its encoding followed by the padding: the list ends before the input,
so each field is read inside a list that ends `k` bytes early (`Stream.ReadyIn`). -/

section Reading

open StateExcept

variable {s : Stream} {d k : ℕ}

theorem decodeByteArray_readyIn {b rest : Bytes} (hs : s.ReadyIn d k) (hb : ¬ SingleByte b)
    (h : b.length < 2 ^ 64) (hr : s.r = (Item.str b).encode ++ rest) (hk : k ≤ rest.length) (typ : Ty) :
    ∃ s', (decodeByteArray typ b.length).runFrom s = some (.ok (.bytes b), s') ∧ s'.ReadyIn d k ∧ s'.r = rest := by
  have henc : (Item.str b).encode = puthead 0x80 0xB7 b.length ++ b := if_neg hb
  rw [henc, List.append_assoc] at hr
  obtain ⟨s₁, hK, hin, hd₁, hdrop⟩ := Kind_readyIn_header hs (by decide) (readKind_string hb h rest) hr hk
  have hn : b.length + k ≤ s₁.r.length := by simp [hdrop]; omega
  have htake : s₁.r.take b.length = b := by rw [hdrop, List.take_left' rfl]
  have hcanon : ¬ (b.length = 1 ∧ b.headD 0 < 128) := by
    rintro ⟨h1, hx⟩
    apply hb
    refine ⟨h1, ?_⟩
    exact UInt8.le_iff_toNat_le.mpr (by have := UInt8.lt_iff_toNat_lt.mp hx; simp at this ⊢; omega)
  rw [decodeByteArray, FuelM.runFrom_bind_ok (by rw [runFrom_stream, hK])]
  dsimp only
  rw [if_neg (lt_irrefl _), if_neg (lt_irrefl _),
    FuelM.runFrom_bind_ok (by rw [runFrom_stream, Stream.readFull_inside hin hn]), htake, if_neg hcanon]
  refine ⟨_, rfl, hin.ready_drop hd₁ hn, by simp [hdrop]⟩

theorem byteArrayField_readyIn {b rest : Bytes} {n : ℕ} (hs : s.ReadyIn d k) (hn : b.length = n)
    (hb : ¬ SingleByte b) (h : n < 2 ^ 64) (hr : s.r = (Item.str b).encode ++ rest) (hk : k ≤ rest.length) :
    ∃ s', (byteArrayField n).runFrom s = some (.ok b, s') ∧ s'.ReadyIn d k ∧ s'.r = rest := by
  subst hn
  obtain ⟨s', hrun, hs', hr'⟩ := decodeByteArray_readyIn hs hb h hr hk (.array b.length (.uint 8))
  exact ⟨s', by rw [byteArrayField, FuelM.runFrom_bind_ok hrun]; rfl, hs', hr'⟩

theorem structField_ok {α : Type} {dec : DecodeM α} {a : α} {t : Stream} (h : dec.runFrom s = some (.ok a, t))
    (typ : Ty) (name : String) : (structField typ name dec).runFrom s = some (.ok a, t) :=
  FuelM.runFrom_tryCatch_ok h

theorem decodeRawTail_EOL {tos : listpos} {st : List listpos} (hs : s.Inside k) (hkind : s.kind = none)
    (hst : s.stack = tos :: st) (hr : s.r.length = k) (fuel i : ℕ) :
    (decodeRawTail (fuel + 1) i).runFrom s = some (.ok [], { s with kinderr := none }) := by
  have hraw : runFrom Stream.Raw s = (.error .EOL, { s with kinderr := none }) := by
    unfold Stream.Raw
    rw [runFrom_bind_error (Kind_EOL_inside hs hkind hst hr)]
  have helem : (elemOrEOL (Val.bytes <$> stream Stream.Raw) i).runFrom s = some (.ok none, { s with kinderr := none }) := by
    unfold elemOrEOL
    rw [FuelM.runFrom_tryCatch_error (by rw [FuelM.runFrom_map, FuelM.runFrom_map, runFrom_stream, hraw]; rfl)]
    rfl
  rw [decodeRawTail, FuelM.runFrom_bind_ok helem]
  rfl

theorem decodeVersionRest_readyIn {v : ℕ} {pad : Bytes} (hs : s.ReadyIn (d + 1) pad.length) (hv : v < 2 ^ 64)
    (hr : s.r = (uintField v).encode ++ pad) (typ : Ty) (fuel : ℕ) :
    ∃ s', (decodeVersionRest typ (fuel + 1)).runFrom s = some (.ok (v, []), s') ∧ s'.r = pad := by
  obtain ⟨s₁, hv₁, hs₁, hr₁⟩ := uint_readyIn_encode hs hv hr le_rfl
  obtain ⟨tos, st, hst⟩ : ∃ tos st, s₁.stack = tos :: st := by
    cases h : s₁.stack with
    | nil => have := hs₁.depth; rw [h] at this; cases this
    | cons tos st => exact ⟨tos, st, rfl⟩
  have hrest := decodeRawTail_EOL hs₁.inside hs₁.kind hst (by rw [hr₁]) fuel 0
  have hend := ListEnd_inside (s := { s₁ with kinderr := none }) ⟨hs₁.inside.limited, hs₁.inside.remaining,
    hs₁.inside.stack⟩ hst (by rw [hr₁])
  rw [decodeVersionRest, FuelM.runFrom_bind_ok (structField_ok (wrapped_ok hv₁) _ _),
    FuelM.runFrom_bind_ok (structField_ok hrest _ _), FuelM.runFrom_bind_ok (wrapped_ok hend)]
  exact ⟨_, rfl, hr₁⟩

theorem length_uintField_encode_le {v : ℕ} (hv : v < 2 ^ 64) : (uintField v).encode.length ≤ 17 := by
  have hb : (if v = 0 then [] else putint v).length ≤ 8 := by
    split_ifs
    · simp
    · exact (length_putint hv).2
  have := length_encode_str_le _ (show (if v = 0 then [] else putint v).length < 2 ^ 64 by omega)
  exact le_trans this (by omega)

theorem not_singleByte_of_length {b : Bytes} (h : b.length ≠ 1) : ¬ SingleByte b := fun hb => h hb.1

theorem length_encode_str_of_length {b : Bytes} {n : ℕ} (hb : b.length = n) (hn : n ≠ 1) :
    (Item.str b).encode.length = (puthead 0x80 0xB7 n).length + n := by
  simp [Item.encode, not_singleByte_of_length (hb ▸ hn), hb]

theorem authMsgV4.length_encode {msg : authMsgV4} (hsig : msg.Signature.length = sigLen)
    (hpub : msg.InitiatorPubkey.length = pubLen) (hnonce : msg.Nonce.length = shaLen) (hv : msg.Version = 4)
    (hrest : msg.Rest = []) : msg.encode.length = 169 := by
  simp only [authMsgV4.encode, encodeStruct, hrest, hv, Item.encodeList, List.flatten_nil, List.append_nil,
    List.length_append, length_encode_str_of_length hsig (by decide), length_encode_str_of_length hpub (by decide),
    length_encode_str_of_length hnonce (by decide)]
  decide

theorem authRespV4.length_encode {msg : authRespV4} (hpub : msg.RandomPubkey.length = pubLen)
    (hnonce : msg.Nonce.length = shaLen) (hv : msg.Version = 4) (hrest : msg.Rest = []) :
    msg.encode.length = 102 := by
  simp only [authRespV4.encode, encodeStruct, hrest, hv, Item.encodeList, List.flatten_nil, List.append_nil,
    List.length_append, length_encode_str_of_length hpub (by decide), length_encode_str_of_length hnonce (by decide)]
  decide

theorem List_New_encodeStruct {fields : List Item} (h : (Item.encodeList fields).length < 2 ^ 64) (pad : Bytes) :
    ∃ s₁, runFrom Stream.List (Stream.New (encodeStruct fields [] ++ pad)) =
      (.ok (Item.encodeList fields).length, s₁) ∧ s₁.ReadyIn 1 pad.length ∧ s₁.r = Item.encodeList fields ++ pad := by
  have hr : (Stream.New (encodeStruct fields [] ++ pad)).r =
      puthead 0xC0 0xF7 (Item.encodeList fields).length ++ (Item.encodeList fields ++ pad) := by
    simp [Stream.New, encodeStruct]
  exact List_readyIn ((Stream.New_atTop _).ready rfl).readyIn h hr (Nat.zero_le _)

/-- An auth message with arrays of their lengths and no tail is read back from its encoding,
whatever follows it. -/
theorem decodeAuthMsgV4_encode {msg : authMsgV4} (hsig : msg.Signature.length = sigLen)
    (hpub : msg.InitiatorPubkey.length = pubLen) (hnonce : msg.Nonce.length = shaLen) (hv : msg.Version < 2 ^ 64)
    (hrest : msg.Rest = []) (pad : Bytes) (fuel : ℕ) :
    ∃ s', (decodeAuthMsgV4 (fuel + 1)).runFrom (Stream.New (msg.encode ++ pad)) =
      some (.ok { msg with gotPlain := false }, s') := by
  obtain ⟨gotPlain, sig, pub, nonce, v, rest⟩ := msg
  dsimp only [authMsgV4.encode] at hsig hpub hnonce hv hrest ⊢
  subst hrest
  have hpay : (Item.encodeList [.str sig, .str pub, .str nonce, uintField v]).length < 2 ^ 64 := by
    have h₁ := length_encode_str_le sig (by rw [hsig]; decide)
    have h₂ := length_encode_str_le pub (by rw [hpub]; decide)
    have h₃ := length_encode_str_le nonce (by rw [hnonce]; decide)
    have h₄ := length_uintField_encode_le hv
    simp only [Item.encodeList, List.length_append, List.length_nil] at h₁ h₂ h₃ h₄ ⊢
    rw [hsig, sigLen] at h₁
    rw [hpub, pubLen] at h₂
    rw [hnonce, shaLen] at h₃
    omega
  obtain ⟨s₁, hl, hs₁, hr₁⟩ := List_New_encodeStruct hpay pad
  simp only [Item.encodeList, List.append_nil, List.append_assoc] at hr₁
  -- the fields one after the other, each inside the list that ends before the padding
  obtain ⟨s₂, h₂, hs₂, hr₂⟩ := byteArrayField_readyIn hs₁ hsig (not_singleByte_of_length (by rw [hsig]; decide))
    (by decide) hr₁ (by simp only [List.length_append]; omega)
  obtain ⟨s₃, h₃, hs₃, hr₃⟩ := byteArrayField_readyIn hs₂ hpub (not_singleByte_of_length (by rw [hpub]; decide))
    (by decide) hr₂ (by simp only [List.length_append]; omega)
  obtain ⟨s₄, h₄, hs₄, hr₄⟩ := byteArrayField_readyIn hs₃ hnonce (not_singleByte_of_length (by rw [hnonce]; decide))
    (by decide) hr₃ (by simp only [List.length_append]; omega)
  obtain ⟨s₅, h₅, -⟩ := decodeVersionRest_readyIn hs₄ hv hr₄ authMsgV4Ty fuel
  refine ⟨s₅, FuelM.runFrom_tryCatch_ok ?_⟩
  rw [FuelM.runFrom_bind_ok (wrapped_ok hl), FuelM.runFrom_bind_ok (structField_ok h₂ _ _),
    FuelM.runFrom_bind_ok (structField_ok h₃ _ _), FuelM.runFrom_bind_ok (structField_ok h₄ _ _),
    FuelM.runFrom_bind_ok h₅]
  rfl

/-- An auth response with arrays of their lengths and no tail is read back from its encoding,
whatever follows it. -/
theorem decodeAuthRespV4_encode {msg : authRespV4} (hpub : msg.RandomPubkey.length = pubLen)
    (hnonce : msg.Nonce.length = shaLen) (hv : msg.Version < 2 ^ 64) (hrest : msg.Rest = []) (pad : Bytes)
    (fuel : ℕ) :
    ∃ s', (decodeAuthRespV4 (fuel + 1)).runFrom (Stream.New (msg.encode ++ pad)) = some (.ok msg, s') := by
  obtain ⟨pub, nonce, v, rest⟩ := msg
  dsimp only [authRespV4.encode] at hpub hnonce hv hrest ⊢
  subst hrest
  have hpay : (Item.encodeList [.str pub, .str nonce, uintField v]).length < 2 ^ 64 := by
    have h₁ := length_encode_str_le pub (by rw [hpub]; decide)
    have h₂ := length_encode_str_le nonce (by rw [hnonce]; decide)
    have h₃ := length_uintField_encode_le hv
    simp only [Item.encodeList, List.length_append, List.length_nil] at h₁ h₂ h₃ ⊢
    rw [hpub, pubLen] at h₁
    rw [hnonce, shaLen] at h₂
    omega
  obtain ⟨s₁, hl, hs₁, hr₁⟩ := List_New_encodeStruct hpay pad
  simp only [Item.encodeList, List.append_nil, List.append_assoc] at hr₁
  obtain ⟨s₂, h₂, hs₂, hr₂⟩ := byteArrayField_readyIn hs₁ hpub (not_singleByte_of_length (by rw [hpub]; decide))
    (by decide) hr₁ (by simp only [List.length_append]; omega)
  obtain ⟨s₃, h₃, hs₃, hr₃⟩ := byteArrayField_readyIn hs₂ hnonce (not_singleByte_of_length (by rw [hnonce]; decide))
    (by decide) hr₂ (by simp only [List.length_append]; omega)
  obtain ⟨s₄, h₄, -⟩ := decodeVersionRest_readyIn hs₃ hv hr₃ authRespV4Ty fuel
  refine ⟨s₄, FuelM.runFrom_tryCatch_ok ?_⟩
  rw [FuelM.runFrom_bind_ok (wrapped_ok hl), FuelM.runFrom_bind_ok (structField_ok h₂ _ _),
    FuelM.runFrom_bind_ok (structField_ok h₃ _ _), FuelM.runFrom_bind_ok h₄]
  rfl

end Reading

/-! ## Packets read back -/

theorem bigEndian_putUint16 {v : ℕ} (h : v < 2 ^ 16) : Stream.bigEndian (putUint16 v) = v := by
  simp only [putUint16, Stream.bigEndian, List.foldl_cons, List.foldl_nil, Nat.shiftRight_eq_div_pow]
  simp [Nat.toUInt8]
  omega

section Packets

variable {C}

/-- An EIP-8 packet, the size of its ciphertext `c` and `c`, is read back whatever follows it: the
plain attempt fails on the high byte of the size, and the message is decoded from what `c`
decrypts to with the size as shared data. -/
theorem readHandshakeMsg_eip8 {α : Type} {decodePlain : Bytes → α} {decodeMsg : ℕ → DecodeM α}
    {plainSize : ℕ} {prv : C.Priv} {c dec : Bytes} {msg : α} {t : Stream}
    (h2 : 2 ≤ plainSize) (hsize : plainSize ≤ c.length) (h16 : c.length < 2 ^ 16)
    (hfmt : (c.length >>> 8).toUInt8 ≠ 4) (hdec : C.Decrypt prv c [] (putUint16 c.length) = .ok dec)
    (hmsg : (decodeMsg (dec.length + 1)).runFrom (Stream.New dec) = some (.ok msg, t)) (rest : Bytes) :
    readHandshakeMsg C decodePlain decodeMsg plainSize prv (putUint16 c.length ++ c ++ rest) =
      .ok (msg, putUint16 c.length ++ c, rest) := by
  set pfx := putUint16 c.length with hpfx
  have hpl : pfx.length = 2 := rfl
  have hlen : (pfx ++ c ++ rest).length = c.length + 2 + rest.length := by
    simp only [List.length_append, hpl]
    omega
  -- the plain attempt fails: the packet's first byte is the high byte of its size
  obtain ⟨e, hplain⟩ : ∃ e, C.Decrypt prv ((pfx ++ c ++ rest).take plainSize) [] [] = .error e := by
    apply Suite.Decrypt_of_headD
    obtain ⟨n, rfl⟩ : ∃ n, plainSize = n + 1 := ⟨plainSize - 1, by omega⟩
    exact hfmt
  have htake₂ : ((pfx ++ c ++ rest).take plainSize).take 2 = pfx := by
    rw [List.take_take, Nat.min_eq_left h2, List.append_assoc, List.take_left' hpl]
  have hpacket : (pfx ++ c ++ rest).take (c.length + 2) = pfx ++ c :=
    List.take_left' (by simp only [List.length_append, hpl]; omega)
  have hrest : (pfx ++ c ++ rest).drop (c.length + 2) = rest :=
    List.drop_left' (by simp only [List.length_append, hpl]; omega)
  have hc : (pfx ++ c).drop 2 = c := List.drop_left' hpl
  have hsz : Stream.bigEndian pfx = c.length := bigEndian_putUint16 h16
  rw [readHandshakeMsg, if_neg (by omega)]
  dsimp only
  rw [hplain]
  dsimp only
  rw [htake₂, hsz, if_neg (by omega), if_neg (by omega), hpacket, hc, hdec]
  dsimp only
  rw [hmsg, hrest]

theorem sealEIP8_spec (hC : C.Spec) (rand : EncryptRand C) (hiv : rand.iv.length = 16) (k : C.Priv) (enc : Bytes)
    (pad : ℕ) :
    ∃ c, sealEIP8 C enc (C.pub k) pad rand = .ok (putUint16 c.length ++ c) ∧ c.length = enc.length + pad + 213 ∧
      C.Decrypt k c [] (putUint16 c.length) = .ok (enc ++ List.replicate (pad + 100) 0) := by
  set m := enc ++ List.replicate (pad + 100) 0 with hm
  obtain ⟨c, henc, hlen, -, hdec⟩ :=
    Suite.Decrypt_Encrypt hC rand hiv k (m := m) (by simp [hm]) [] (putUint16 (m.length + eciesOverhead))
  have hcl : c.length = m.length + eciesOverhead := hlen
  refine ⟨c, ?_, by simp [hcl, hm, eciesOverhead]; omega, by rw [hcl]; exact hdec⟩
  rw [sealEIP8, ← hm, henc, ← hcl]

theorem readHandshakeMsg_sealEIP8 {α : Type} {decodePlain : Bytes → α} {decodeMsg : ℕ → DecodeM α}
    {plainSize : ℕ} {enc : Bytes} {pad : ℕ} {msg : α} (hC : C.Spec) (rand : EncryptRand C)
    (hiv : rand.iv.length = 16) (k : C.Priv) (h2 : 2 ≤ plainSize) (hsize : plainSize ≤ enc.length + pad + 213)
    (hbound : enc.length + pad + 213 < 1024)
    (hmsg : ∀ fuel, ∃ t, (decodeMsg (fuel + 1)).runFrom (Stream.New (enc ++ List.replicate (pad + 100) 0)) =
      some (.ok msg, t)) :
    ∃ packet, sealEIP8 C enc (C.pub k) pad rand = .ok packet ∧
      ∀ rest, readHandshakeMsg C decodePlain decodeMsg plainSize k (packet ++ rest) = .ok (msg, packet, rest) := by
  obtain ⟨c, hseal, hlen, hdec⟩ := sealEIP8_spec hC rand hiv k enc pad
  refine ⟨putUint16 c.length ++ c, hseal, fun rest => ?_⟩
  obtain ⟨t, ht⟩ := hmsg (enc ++ List.replicate (pad + 100) 0).length
  have hfmt : (c.length >>> 8).toUInt8 ≠ 4 := by
    intro h
    have h' := congrArg UInt8.toNat h
    rw [Nat.shiftRight_eq_div_pow] at h'
    simp [Nat.toUInt8] at h'
    omega
  exact readHandshakeMsg_eip8 h2 (by omega) (by omega) hfmt hdec ht rest

variable (hC : C.Spec) (rand : EncryptRand C) (hiv : rand.iv.length = 16) (k : C.Priv) {pad : ℕ}
include hC hiv

theorem readHandshakeMsg_authMsgV4 (msg : authMsgV4) (hsig : msg.Signature.length = sigLen)
    (hpub : msg.InitiatorPubkey.length = pubLen) (hnonce : msg.Nonce.length = shaLen) (hv : msg.Version = 4)
    (hrest : msg.Rest = []) (hpad : pad < 200) :
    ∃ packet, sealEIP8 C msg.encode (C.pub k) pad rand = .ok packet ∧
      ∀ rest, readHandshakeMsg C authMsgV4.decodePlain decodeAuthMsgV4 encAuthMsgLen k (packet ++ rest) =
        .ok ({ msg with gotPlain := false }, packet, rest) := by
  have hlen := authMsgV4.length_encode hsig hpub hnonce hv hrest
  have hsize : encAuthMsgLen = 307 := rfl
  apply readHandshakeMsg_sealEIP8 hC rand hiv k (by decide) (by omega) (by omega)
  exact decodeAuthMsgV4_encode hsig hpub hnonce (by rw [hv]; decide) hrest _

theorem readHandshakeMsg_authRespV4 (msg : authRespV4) (hpub : msg.RandomPubkey.length = pubLen)
    (hnonce : msg.Nonce.length = shaLen) (hv : msg.Version = 4) (hrest : msg.Rest = []) (hpad : pad < 200) :
    ∃ packet, sealEIP8 C msg.encode (C.pub k) pad rand = .ok packet ∧
      ∀ rest, readHandshakeMsg C authRespV4.decodePlain decodeAuthRespV4 encAuthRespLen k (packet ++ rest) =
        .ok (msg, packet, rest) := by
  have hlen := authRespV4.length_encode hpub hnonce hv hrest
  have hsize : encAuthRespLen = 210 := rfl
  apply readHandshakeMsg_sealEIP8 hC rand hiv k (by decide) (by omega) (by omega)
  exact decodeAuthRespV4_encode hpub hnonce (by rw [hv]; decide) hrest _

end Packets

/-! ## The steps of the two sides -/

section Steps

variable {C}

theorem copyArray_of_length {n : ℕ} {b : Bytes} (h : b.length = n) : copyArray n b = b := by
  simp [copyArray, h]

theorem length_xor (one other : Bytes) : (xor one other).length = min one.length other.length :=
  List.length_zipWith

theorem importPublicKey_pub (hC : C.Spec) (k : C.Priv) :
    importPublicKey C (C.pub k) = .ok (C.pub k) ∧ importPublicKey C (4 :: C.pub k) = .ok (C.pub k) := by
  have hl := hC.length_pub k
  constructor
  · simp [importPublicKey, hl, Suite.Unmarshal_pub hC]
  · simp [importPublicKey, hl, Suite.Unmarshal_pub hC]

namespace encHandshake

variable {h : encHandshake C} {prv k : C.Priv} {token : Bytes}

theorem makeAuthMsg_eq {rand : HandshakeRand C} {sig : Bytes} (hid : C.IsOnCurve h.remoteID = true)
    (htoken : C.GenerateShared prv h.remoteID sskLen sskLen = .ok token)
    (hsig : C.Sign (xor token rand.nonce) rand.randomPrivKey = some sig) :
    h.makeAuthMsg prv rand =
      .ok ({ h with remotePub := h.remoteID, initNonce := rand.nonce, randomPrivKey := some rand.randomPrivKey },
        { gotPlain := false, Signature := copyArray sigLen sig, InitiatorPubkey := copyArray pubLen (C.pub prv),
          Nonce := copyArray shaLen rand.nonce, Version := 4, Rest := [] }) := by
  simp [makeAuthMsg, NodeID.Pubkey, hid, staticSharedSecret, htoken, hsig, bind, Except.bind, Except.mapError,
    pure, Except.pure]

theorem handleAuthMsg_eq {msg : authMsgV4} {pubR : Bytes} (hnil : h.randomPrivKey = none)
    (hid : C.IsOnCurve msg.InitiatorPubkey = true)
    (htoken : C.GenerateShared prv msg.InitiatorPubkey sskLen sskLen = .ok token)
    (hrec : C.RecoverPubkey (xor token msg.Nonce) msg.Signature = some pubR) :
    h.handleAuthMsg msg prv k =
      .ok { h with
        initNonce := msg.Nonce, remoteID := msg.InitiatorPubkey, remotePub := msg.InitiatorPubkey,
        randomPrivKey := some k, remoteRandomPub := (importPublicKey C pubR).toOption } := by
  simp [handleAuthMsg, NodeID.Pubkey, hid, hnil, staticSharedSecret, htoken, hrec, bind, Except.bind,
    Except.mapError, pure, Except.pure]

theorem makeAuthResp_eq (hk : h.randomPrivKey = some k) (respNonce : Bytes) :
    h.makeAuthResp respNonce =
      .ok ({ h with respNonce := respNonce },
        { RandomPubkey := copyArray pubLen (C.pub k), Nonce := copyArray shaLen respNonce, Version := 4, Rest := [] }) := by
  simp [makeAuthResp, hk, pure, Except.pure]

theorem handleAuthResp_eq {msg : authRespV4} {pub : Bytes} (himp : importPublicKey C msg.RandomPubkey = .ok pub) :
    h.handleAuthResp msg = .ok { h with respNonce := msg.Nonce, remoteRandomPub := some pub } := by
  simp [handleAuthResp, himp, bind, Except.bind, pure, Except.pure]

variable {P}

theorem secrets_eq {pub z : Bytes} (hk : h.randomPrivKey = some k) (hpub : h.remoteRandomPub = some pub)
    (hz : C.GenerateShared k pub sskLen sskLen = .ok z) (auth authResp : Bytes) :
    h.secrets P auth authResp =
      let sharedSecret := P.keccak (z ++ P.keccak (h.respNonce ++ h.initNonce))
      let aesSecret := P.keccak (z ++ sharedSecret)
      let mac := P.keccak (z ++ aesSecret)
      .ok { RemoteID := h.remoteID, AES := aesSecret, MAC := mac,
            EgressMAC := if h.initiator then xor mac h.respNonce ++ auth else xor mac h.initNonce ++ authResp,
            IngressMAC := if h.initiator then xor mac h.initNonce ++ authResp else xor mac h.respNonce ++ auth } := by
  simp [secrets, hk, hpub, hz, bind, Except.bind, Except.mapError, pure, Except.pure]

end encHandshake

/-! The two sides, from the results of their steps. -/

variable {P} {prv : C.Priv} {rand : HandshakeRand C} {conn : Bytes} {h h' : encHandshake C} {msg : authMsgV4}
  {ack : authRespV4} {authPacket ackPacket rest : Bytes} {s : secrets}

theorem initiatorEncHandshake_eq {remoteID : Bytes}
    (hmake : (⟨true, remoteID, [], [], [], none, none⟩ : encHandshake C).makeAuthMsg prv rand = .ok (h, msg))
    (hseal : sealEIP8 C msg.encode h.remotePub rand.pad rand.enc = .ok authPacket)
    (hread : readHandshakeMsg C authRespV4.decodePlain decodeAuthRespV4 encAuthRespLen prv conn =
      .ok (ack, ackPacket, rest))
    (hhandle : h.handleAuthResp ack = .ok h') (hs : h'.secrets P authPacket ackPacket = .ok s) :
    initiatorEncHandshake C P prv remoteID rand conn = .ok (s, authPacket, rest) := by
  simp [initiatorEncHandshake, hmake, hseal, hread, hhandle, hs, bind, Except.bind, pure, Except.pure]

theorem receiverEncHandshake_eq
    (hread : readHandshakeMsg C authMsgV4.decodePlain decodeAuthMsgV4 encAuthMsgLen prv conn =
      .ok (msg, authPacket, rest))
    (hhandle : (⟨false, [], [], [], [], none, none⟩ : encHandshake C).handleAuthMsg msg prv rand.randomPrivKey = .ok h)
    (hresp : h.makeAuthResp rand.nonce = .ok (h', ack)) (heip8 : msg.gotPlain = false)
    (hseal : sealEIP8 C ack.encode h'.remotePub rand.pad rand.enc = .ok ackPacket)
    (hs : h'.secrets P authPacket ackPacket = .ok s) :
    receiverEncHandshake C P prv rand conn = .ok (s, ackPacket, rest) := by
  simp [receiverEncHandshake, hread, hhandle, hresp, heip8, hseal, hs, bind, Except.bind, pure, Except.pure]

theorem doEncHandshake_dial {id : Bytes} (hs : initiatorEncHandshake C P prv id rand conn = .ok (s, authPacket, rest)) :
    doEncHandshake C P prv (some id) rand conn = .ok (s.RemoteID, newRLPXFrameRW s, authPacket, rest) := by
  simp [doEncHandshake, hs, bind, Except.bind, pure, Except.pure]

theorem doEncHandshake_listen (hs : receiverEncHandshake C P prv rand conn = .ok (s, ackPacket, rest)) :
    doEncHandshake C P prv none rand conn = .ok (s.RemoteID, newRLPXFrameRW s, ackPacket, rest) := by
  simp [doEncHandshake, hs, bind, Except.bind, pure, Except.pure]

end Steps

end EthereumAI.P2p
