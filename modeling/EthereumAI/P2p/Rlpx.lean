import EthereumAI.Lib.KeyStream
import EthereumAI.Rlp.Buffer

/-! # RLPx frames (`p2p/rlpx.go`)

After the handshake each side of a connection holds the `secrets` it derived: an AES key, whose
counter-mode stream from a zero IV encrypts what the side writes and decrypts what it reads, a
MAC key, and two running Keccak states, one over what it sends and one over what it receives.
`WriteMsg` frames a message: a 16-byte header with the 24-bit frame size, then the message code
in RLP and the payload, padded to 16 bytes, each part encrypted and followed by a MAC that
`updateMAC` derives from the running state. `ReadMsg` reads a frame back and checks both MACs.

The primitives are parameters: the key stream of a key, the encryption of one block, and the
digest of a Keccak state by the bytes written to it, so that a hash state is the list of those
bytes. Snappy is a parameter too. The connection is a byte queue: what one side has written and
the other has not read. An error ends the connection, so the state after one is not kept.
-/

namespace EthereumAI.P2p

open Lib.KeyStream Lib.StateExcept Rlp

/-- The primitives RLPx framing uses. -/
structure Primitives where
  /-- the key stream of `cipher.NewCTR(aes.NewCipher(key), iv)` with a zero `iv`, by position -/
  aesStream : Bytes → ℕ → UInt8
  /-- `aes.NewCipher(key).Encrypt` of the first block of its input -/
  aesEncrypt : Bytes → Bytes → Bytes
  /-- `Sum(nil)` of a Keccak-256 state that has absorbed these bytes -/
  keccak : Bytes → Bytes
  keccak_length : ∀ b, (keccak b).length = 32

/-- `github.com/golang/snappy`: `Encode`, and `DecodedLen` and `Decode`, an error being `none`. -/
structure Snappy where
  Encode : Bytes → Bytes
  DecodedLen : Bytes → Option ℕ
  Decode : Bytes → Option Bytes

/-- Snappy decodes what it encodes, and gives its length first. -/
structure Snappy.RoundTrips (Z : Snappy) : Prop where
  decodedLen : ∀ b, Z.DecodedLen (Z.Encode b) = some b.length
  decode : ∀ b, Z.Decode (Z.Encode b) = some b

/-- `Msg`, with its payload as the bytes its reader yields. -/
structure Msg where
  Code : UInt64
  Size : UInt32
  Payload : Bytes
  deriving DecidableEq, Repr

/-- The errors of `WriteMsg` and `ReadMsg`. -/
inductive FrameError
  | errPlainMessageTooLarge
  /-- `errors.New("message size overflows uint24")` -/
  | sizeOverflow
  /-- `io.ReadFull` on the connection ran out of bytes -/
  | EOF
  /-- `errors.New("bad header MAC")` -/
  | badHeaderMAC
  /-- `errors.New("bad frame MAC")` -/
  | badFrameMAC
  /-- the error of `rlp.Decode` of the code -/
  | rlp (err : Rlp.Err)
  /-- an error of snappy -/
  | snappy

/-- `secrets`, with each MAC state by the bytes written to it. The `Token` of a previous session
is not set by the handshake and not read by the frames. -/
structure secrets where
  RemoteID : Bytes
  AES : Bytes
  MAC : Bytes
  EgressMAC : Bytes
  IngressMAC : Bytes

/-- `rlpxFrameRW`: the key of its two streams and how far each has gone, the MAC key, and the
MAC states. -/
structure rlpxFrameRW where
  aesKey : Bytes
  enc : ℕ
  dec : ℕ
  macKey : Bytes
  egressMAC : Bytes
  ingressMAC : Bytes
  snappy : Bool

/-- The key lengths `aes.NewCipher` accepts. -/
def aesKeySize (key : Bytes) : Bool := key.length = 16 ∨ key.length = 24 ∨ key.length = 32

/-- `newRLPXFrameRW`; an invalid secret panics. -/
def newRLPXFrameRW (s : secrets) : Option rlpxFrameRW :=
  if !aesKeySize s.MAC then none
  else if !aesKeySize s.AES then none
  else some ⟨s.AES, 0, 0, s.MAC, s.EgressMAC, s.IngressMAC, false⟩

/-- `maxUint24`. -/
def maxUint24 : ℕ := 2 ^ 24 - 1

/-- `zeroHeader`. -/
def zeroHeader : Bytes := [0xC2, 0x80, 0x80]

/-- `putInt24`. -/
def putInt24 (v : ℕ) : Bytes := [(v >>> 16).toUInt8, (v >>> 8).toUInt8, v.toUInt8]

/-- `readInt24`. -/
def readInt24 (b : Bytes) : ℕ := (b.getD 2 0).toNat ||| (b.getD 1 0).toNat <<< 8 ||| (b.getD 0 0).toNat <<< 16

/-- The zero bytes that pad a frame of `fsize` bytes to a multiple of 16. -/
def padding (fsize : ℕ) : Bytes := if fsize % 16 > 0 then List.replicate (16 - fsize % 16) 0 else []

variable (P : Primitives) (Z : Snappy)

/-- `updateMAC`: the state after it absorbs its encrypted digest xored with the seed, and the
first 16 bytes of its digest then. -/
def updateMAC (macKey mac seed : Bytes) : Bytes × Bytes :=
  let enc := P.aesEncrypt macKey (P.keccak mac)
  let aesbuf := (List.range 16).map fun i => enc.getD i 0 ^^^ seed.getD i 0
  let mac := mac ++ aesbuf
  (mac, (P.keccak mac).take 16)

/-- `rlp.EncodeToBytes(msg.Code)`; its error, which a `uint64` never has, is dropped. -/
def codeBytes (code : UInt64) : Bytes :=
  match EncodeToBytes (.uint 64) (.uint code.toNat) with
  | .ok b => b
  | .error _ => []

namespace rlpxFrameRW

/-- The part of `WriteMsg` after the compression: the header with the frame size, its MAC, the
encrypted frame and its MAC, appended to the connection. -/
def writeFrame (rw : rlpxFrameRW) (conn ptype : Bytes) (msg : Msg) : Except FrameError (rlpxFrameRW × Bytes) :=
  let fsize := (ptype.length + msg.Size.toNat) % 2 ^ 32
  if fsize > maxUint24 then .error .sizeOverflow else
  let headbuf := xorKeyStream (P.aesStream rw.aesKey) rw.enc (putInt24 fsize ++ zeroHeader ++ List.replicate 10 0)
  let (egress, headMAC) := updateMAC P rw.macKey rw.egressMAC headbuf
  -- the tee encrypts the code, the payload and the padding, and writes them to both
  let frame := xorKeyStream (P.aesStream rw.aesKey) (rw.enc + 16) (ptype ++ msg.Payload ++ padding fsize)
  let egress := egress ++ frame
  let (egress, frameMAC) := updateMAC P rw.macKey egress (P.keccak egress)
  .ok ({ rw with enc := rw.enc + 16 + frame.length, egressMAC := egress },
    conn ++ headbuf ++ headMAC ++ frame ++ frameMAC)

/-- `WriteMsg`. -/
def WriteMsg (rw : rlpxFrameRW) (conn : Bytes) (msg : Msg) : Except FrameError (rlpxFrameRW × Bytes) :=
  let ptype := codeBytes msg.Code
  if rw.snappy then
    if msg.Size.toNat > maxUint24 then .error .errPlainMessageTooLarge
    else
      let payload := Z.Encode msg.Payload
      rw.writeFrame P conn ptype { msg with Payload := payload, Size := payload.length.toUInt32 }
  else rw.writeFrame P conn ptype msg

/-- The part of `ReadMsg` before the code is decoded: the frame's content, the reader after it,
and the rest of the connection. -/
def readFrame (rw : rlpxFrameRW) (conn : Bytes) : Except FrameError (Bytes × rlpxFrameRW × Bytes) :=
  if conn.length < 32 then .error .EOF else
  let headbuf := conn.take 32
  let conn := conn.drop 32
  let (ingress, shouldMAC) := updateMAC P rw.macKey rw.ingressMAC (headbuf.take 16)
  if shouldMAC ≠ headbuf.drop 16 then .error .badHeaderMAC else
  let fsize := readInt24 (xorKeyStream (P.aesStream rw.aesKey) rw.dec (headbuf.take 16))
  -- frame size rounded up to 16 byte boundary
  let rsize := fsize + (padding fsize).length
  if conn.length < rsize then .error .EOF else
  let framebuf := conn.take rsize
  let conn := conn.drop rsize
  let ingress := ingress ++ framebuf
  if conn.length < 16 then .error .EOF else
  let (ingress, shouldMAC) := updateMAC P rw.macKey ingress (P.keccak ingress)
  if shouldMAC ≠ conn.take 16 then .error .badFrameMAC else
  let content := (xorKeyStream (P.aesStream rw.aesKey) (rw.dec + 16) framebuf).take fsize
  .ok (content, { rw with dec := rw.dec + 16 + rsize, ingressMAC := ingress }, conn.drop 16)

/-- `ReadMsg`: the message, the reader after it, and the rest of the connection. -/
def ReadMsg (rw : rlpxFrameRW) (conn : Bytes) : Except FrameError (Msg × rlpxFrameRW × Bytes) :=
  match rw.readFrame P conn with
  | .error err => .error err
  | .ok (content, rw, conn) =>
    -- `rlp.Decode(content, &msg.Code)` reads the code off a reader over the content
    match runFrom (Stream.uint 64) (Stream.New content) with
    | (.error err, _) => .error (.rlp (wrapStreamError (.uint 64) err))
    | (.ok code, s) =>
      if rw.snappy then
        match Z.DecodedLen s.r with
        | none => .error .snappy
        | some size =>
          if size > maxUint24 then .error .errPlainMessageTooLarge
          else match Z.Decode s.r with
            | none => .error .snappy
            | some payload => .ok (⟨code.toUInt64, size.toUInt32, payload⟩, rw, conn)
      else .ok (⟨code.toUInt64, s.r.length.toUInt32, s.r⟩, rw, conn)

end rlpxFrameRW

/-! ## The header and the code -/

theorem readInt24_putInt24 {v : ℕ} (hv : v ≤ maxUint24) (rest : Bytes) : readInt24 (putInt24 v ++ rest) = v := by
  have hv' : v < 2 ^ 24 := by unfold maxUint24 at hv; omega
  have hlow : (v.toUInt8).toNat < 2 ^ 8 := UInt8.toNat_lt _
  have hmid : (v >>> 8).toUInt8.toNat <<< 8 + v.toUInt8.toNat < 2 ^ 16 := by
    have := UInt8.toNat_lt (v >>> 8).toUInt8
    rw [Nat.shiftLeft_eq]
    omega
  simp only [readInt24, putInt24, List.cons_append, List.getD_cons_succ, List.getD_cons_zero]
  rw [Nat.or_comm _ (_ <<< 8), ← Nat.shiftLeft_add_eq_or_of_lt hlow, Nat.or_comm,
    ← Nat.shiftLeft_add_eq_or_of_lt hmid]
  simp only [Nat.toUInt8, UInt8.toNat_ofNat', Nat.shiftLeft_eq, Nat.shiftRight_eq_div_pow]
  omega

@[simp] theorem length_putInt24 (v : ℕ) : (putInt24 v).length = 3 := rfl

@[simp] theorem length_padding (fsize : ℕ) : (padding fsize).length = (16 - fsize % 16) % 16 := by
  unfold padding
  split_ifs with h
  · rw [List.length_replicate]
    omega
  · rw [List.length_nil]
    omega

theorem length_updateMAC (macKey mac seed : Bytes) : (updateMAC P macKey mac seed).2.length = 16 := by
  simp [updateMAC, P.keccak_length]

theorem codeBytes_eq (code : UInt64) :
    codeBytes code = (Item.str (if code.toNat = 0 then [] else putint code.toNat)).encode := by
  have hw : (writeUint code.toNat encbuf.empty).toBytes =
      (Item.str (if code.toNat = 0 then [] else putint code.toNat)).encode := by
    unfold writeUint
    split_ifs with h0 h128
    · rfl
    · -- a code below 128 is its own encoding
      have hs : SingleByte (putint code.toNat) := by
        rw [putint_of_lt_256 (by omega)]
        refine ⟨rfl, ?_⟩
        simp [UInt8.le_iff_toNat_le, Nat.toUInt8, Nat.mod_eq_of_lt (show code.toNat < 256 by omega)]
        omega
      rw [Item.encode, if_pos hs, putint_of_lt_256 (by omega)]
      rfl
    · have hlen := length_putint_le code.toNat
      rw [Item.encode, if_neg (putint_not_singleByte (by omega)), puthead, if_pos (by omega)]
      rfl
  exact congrArg (fun r : Except String Bytes => match r with | .ok b => b | .error _ => []) (congrArg Except.ok hw)

theorem decode_codeBytes (code : UInt64) (payload : Bytes) :
    ∃ s, runFrom (Stream.uint 64) (Stream.New (codeBytes code ++ payload)) = (.ok code.toNat, s) ∧ s.r = payload := by
  obtain ⟨s, hrun, -, hr⟩ := uint_ready_encode ((Stream.New_atTop _).ready rfl) code.toNat_lt
    (show codeBytes code ++ payload = _ by rw [codeBytes_eq])
  exact ⟨s, hrun, hr⟩

/-! ## A frame is read back as it was written -/

/-- A writer and a reader of one direction of a connection: the same keys, the writer's stream
where the reader's is, the writer's egress MAC state the reader's ingress one, and the same
snappy setting. -/
structure Matched (A B : rlpxFrameRW) : Prop where
  aesKey : A.aesKey = B.aesKey
  pos : A.enc = B.dec
  macKey : A.macKey = B.macKey
  mac : A.egressMAC = B.ingressMAC
  snappy : A.snappy = B.snappy

namespace rlpxFrameRW

variable {P} {A B : rlpxFrameRW}

/-- A frame whose two MACs are the ones the reader computes is read: its content is the
decrypted frame cut to the size in the header, and the reader's stream and MAC move past it. -/
theorem readFrame_of_macs {headbuf headMAC frame frameMAC egress₁ egress₂ : Bytes} {fsize : ℕ}
    (hlh : headbuf.length = 16) (hmac₁ : updateMAC P B.macKey B.ingressMAC headbuf = (egress₁, headMAC))
    (hhead : readInt24 (xorKeyStream (P.aesStream B.aesKey) B.dec headbuf) = fsize)
    (hlf : frame.length = fsize + (padding fsize).length)
    (hmac₂ : updateMAC P B.macKey (egress₁ ++ frame) (P.keccak (egress₁ ++ frame)) = (egress₂, frameMAC))
    (rest : Bytes) :
    B.readFrame P (headbuf ++ headMAC ++ frame ++ frameMAC ++ rest) =
      .ok ((xorKeyStream (P.aesStream B.aesKey) (B.dec + 16) frame).take fsize,
        { B with dec := B.dec + 16 + frame.length, ingressMAC := egress₂ }, rest) := by
  have hlm : headMAC.length = 16 := by simpa [hmac₁] using length_updateMAC P B.macKey B.ingressMAC headbuf
  have hlfm : frameMAC.length = 16 := by
    simpa [hmac₂] using length_updateMAC P B.macKey (egress₁ ++ frame) (P.keccak (egress₁ ++ frame))
  have h32 : (headbuf ++ headMAC).length = 32 := by rw [List.length_append, hlh, hlm]
  rw [show headbuf ++ headMAC ++ frame ++ frameMAC ++ rest = (headbuf ++ headMAC) ++ (frame ++ (frameMAC ++ rest)) by
    simp only [List.append_assoc]]
  unfold readFrame
  rw [if_neg (by rw [List.length_append, h32]; omega)]
  dsimp only
  rw [List.take_left' h32, List.drop_left' h32, List.take_left' hlh, List.drop_left' hlh, hmac₁]
  rw [if_neg (by simp), hhead, ← hlf, if_neg (by simp), List.take_left, List.drop_left,
    if_neg (by rw [List.length_append, hlfm]; omega)]
  dsimp only
  rw [hmac₂, List.take_left' hlfm, List.drop_left' hlfm, if_neg (by simp)]

/-- The frame `writeFrame` appends is read back whole by a matched reader, code and payload,
and leaves the two sides matched. -/
theorem readFrame_writeFrame (hAB : Matched A B) {ptype : Bytes} {msg : Msg}
    (hsize : msg.Size.toNat = msg.Payload.length) (hfit : ptype.length + msg.Payload.length ≤ maxUint24)
    (conn : Bytes) :
    ∃ A' B' f, A.writeFrame P conn ptype msg = .ok (A', conn ++ f) ∧
      (∀ rest, B.readFrame P (f ++ rest) = .ok (ptype ++ msg.Payload, B', rest)) ∧ Matched A' B' := by
  obtain ⟨hkey, hpos, hmkey, hmac, hsn⟩ := hAB
  have hfs : (ptype.length + msg.Size.toNat) % 2 ^ 32 = ptype.length + msg.Payload.length := by
    rw [hsize]
    exact Nat.mod_eq_of_lt (by unfold maxUint24 at hfit; omega)
  set fsize := ptype.length + msg.Payload.length with hfsize
  set ks := P.aesStream A.aesKey with hks
  set headbuf := xorKeyStream ks A.enc (putInt24 fsize ++ (zeroHeader ++ List.replicate 10 0)) with hheadbuf
  rcases hm₁ : updateMAC P A.macKey A.egressMAC headbuf with ⟨egress₁, headMAC⟩
  set frame := xorKeyStream ks (A.enc + 16) (ptype ++ (msg.Payload ++ padding fsize)) with hframe
  rcases hm₂ : updateMAC P A.macKey (egress₁ ++ frame) (P.keccak (egress₁ ++ frame)) with ⟨egress₂, frameMAC⟩
  refine ⟨{ A with enc := A.enc + 16 + frame.length, egressMAC := egress₂ },
    { B with dec := B.dec + 16 + frame.length, ingressMAC := egress₂ }, headbuf ++ headMAC ++ frame ++ frameMAC,
    ?_, ?_, ⟨hkey, by rw [hpos], hmkey, rfl, hsn⟩⟩
  · simp only [writeFrame, hfs, if_neg (show ¬fsize > maxUint24 by omega), List.append_assoc, ← hks, ← hheadbuf, hm₁,
      ← hframe, hm₂]
  · intro rest
    have hlh : headbuf.length = 16 := by simp [headbuf, zeroHeader]
    have hlf : frame.length = fsize + (padding fsize).length := by
      simp only [frame, length_xorKeyStream, List.length_append, hfsize]
      omega
    -- the reader's stream and MAC states are the writer's
    have hhead : readInt24 (xorKeyStream (P.aesStream B.aesKey) B.dec headbuf) = fsize := by
      rw [← hkey, ← hpos, hheadbuf, hks, xorKeyStream_xorKeyStream]
      exact readInt24_putInt24 hfit _
    have hcontent : (xorKeyStream (P.aesStream B.aesKey) (B.dec + 16) frame).take fsize = ptype ++ msg.Payload := by
      rw [← hkey, ← hpos, hframe, hks, xorKeyStream_xorKeyStream, ← List.append_assoc,
        List.take_left' (by rw [List.length_append, hfsize])]
    rw [readFrame_of_macs hlh (by rw [← hmkey, ← hmac, hm₁]) hhead hlf (by rw [← hmkey, hm₂]), hcontent]

end rlpxFrameRW

/-! ## A message is read back as it was written -/

/-- A message `WriteMsg` sends in one frame: its size is its payload's, and the code in RLP with
the payload as sent, compressed under snappy, is at most `maxUint24` bytes; under snappy the
plain payload is too. -/
def Msg.Fits (snappy : Bool) (msg : Msg) : Prop :=
  msg.Size.toNat = msg.Payload.length ∧
    if snappy then msg.Payload.length ≤ maxUint24 ∧ (codeBytes msg.Code).length + (Z.Encode msg.Payload).length ≤ maxUint24
    else (codeBytes msg.Code).length + msg.Payload.length ≤ maxUint24

instance (snappy : Bool) (msg : Msg) : Decidable (msg.Fits Z snappy) := by
  unfold Msg.Fits
  infer_instance

theorem Msg.eq_of_fields {msg : Msg} {size : ℕ} (hsize : msg.Size.toNat = size) :
    (⟨msg.Code.toNat.toUInt64, size.toUInt32, msg.Payload⟩ : Msg) = msg := by
  obtain ⟨code, sz, payload⟩ := msg
  simp only at hsize
  subst hsize
  simp

namespace rlpxFrameRW

variable {P Z} {A B : rlpxFrameRW}

theorem writeFrame_snappy {conn ptype conn' : Bytes} {msg : Msg} {A' : rlpxFrameRW}
    (h : A.writeFrame P conn ptype msg = .ok (A', conn')) : A'.snappy = A.snappy := by
  simp only [writeFrame] at h
  split_ifs at h
  cases h
  rfl

/-- A message that fits is written in one frame, which a matched reader reads back as the same
message, and the two sides stay matched. -/
theorem ReadMsg_WriteMsg (hZ : Z.RoundTrips) (hAB : Matched A B) {msg : Msg} (hm : msg.Fits Z A.snappy)
    (conn : Bytes) :
    ∃ A' B' f, A.WriteMsg P Z conn msg = .ok (A', conn ++ f) ∧
      (∀ rest, B.ReadMsg P Z (f ++ rest) = .ok (msg, B', rest)) ∧ Matched A' B' := by
  obtain ⟨hsize, hfit⟩ := hm
  cases hsn : A.snappy with
  | false =>
    simp only [hsn, Bool.false_eq_true, if_false] at hfit
    obtain ⟨A', B', f, hw, hr, hAB'⟩ := readFrame_writeFrame (P := P) hAB hsize hfit conn
    have hB' : B'.snappy = false := by rw [← hAB'.snappy, writeFrame_snappy hw, hsn]
    obtain ⟨s, hdec, hs⟩ := decode_codeBytes msg.Code msg.Payload
    refine ⟨A', B', f, ?_, ?_, hAB'⟩
    · simp only [WriteMsg, hsn, Bool.false_eq_true, if_false, hw]
    · intro rest
      simp only [ReadMsg, hr, hdec, hB', Bool.false_eq_true, if_false, hs, Msg.eq_of_fields hsize]
  | true =>
    simp only [hsn, if_true] at hfit
    obtain ⟨hplain, hfit⟩ := hfit
    -- the frame carries the compressed payload, with its own size
    set cmsg : Msg := { msg with Payload := Z.Encode msg.Payload, Size := (Z.Encode msg.Payload).length.toUInt32 }
    have hcsize : cmsg.Size.toNat = cmsg.Payload.length := by
      simp only [cmsg, UInt32.toNat_ofNat', Nat.toUInt32]
      exact Nat.mod_eq_of_lt (by unfold maxUint24 at hfit; omega)
    obtain ⟨A', B', f, hw, hr, hAB'⟩ := readFrame_writeFrame (P := P) hAB hcsize hfit conn
    have hB' : B'.snappy = true := by rw [← hAB'.snappy, writeFrame_snappy hw, hsn]
    obtain ⟨s, hdec, hs⟩ := decode_codeBytes msg.Code (Z.Encode msg.Payload)
    refine ⟨A', B', f, ?_, ?_, hAB'⟩
    · simp only [WriteMsg, hsn, if_true, if_neg (show ¬msg.Size.toNat > maxUint24 by omega)]
      exact hw
    · intro rest
      have hcp : cmsg.Payload = Z.Encode msg.Payload := rfl
      simp only [ReadMsg, hr, hcp, hdec, hB', if_true, hs, hZ.decodedLen, hZ.decode,
        if_neg (show ¬msg.Payload.length > maxUint24 by omega), Msg.eq_of_fields hsize]

theorem WriteMsg_snappy {conn conn' : Bytes} {msg : Msg} {A' : rlpxFrameRW}
    (h : A.WriteMsg P Z conn msg = .ok (A', conn')) : A'.snappy = A.snappy := by
  unfold WriteMsg at h
  split_ifs at h
  · exact writeFrame_snappy h
  · exact writeFrame_snappy h

end rlpxFrameRW

/-! ## One direction of a connection, over any interleaving -/

/-- The frames on the connection: reading `conn`, the reader `B` meets, one after the other,
frames it reads as the messages `pend` whatever follows them, and is then matched with the
writer `A`. -/
def Pending (A : rlpxFrameRW) : rlpxFrameRW → Bytes → List Msg → Prop
  | B, conn, [] => Matched A B ∧ conn = []
  | B, conn, m :: pend => ∃ B' f rest, conn = f ++ rest ∧
      (∀ extra, B.ReadMsg P Z (f ++ extra) = .ok (m, B', extra)) ∧ Pending A B' rest pend

namespace Pending

variable {P Z} {A A' B : rlpxFrameRW}

theorem matched_self (A : rlpxFrameRW) : Matched A { A with dec := A.enc, ingressMAC := A.egressMAC } :=
  ⟨rfl, rfl, rfl, rfl, rfl⟩

theorem snoc {f : Bytes} {m : Msg}
    (hf : ∀ Bₙ, Matched A Bₙ → ∃ B', (∀ extra, Bₙ.ReadMsg P Z (f ++ extra) = .ok (m, B', extra)) ∧ Matched A' B') :
    ∀ {pend : List Msg} {B : rlpxFrameRW} {conn : Bytes}, Pending P Z A B conn pend →
      Pending P Z A' B (conn ++ f) (pend ++ [m])
  | [], B, conn, ⟨hAB, hconn⟩ => by
    subst hconn
    obtain ⟨B', hread, hAB'⟩ := hf B hAB
    exact ⟨B', f, [], by simp, hread, hAB', rfl⟩
  | _ :: _, _, _, ⟨B₁, f₀, rest, hconn, hread, hpend⟩ =>
    ⟨B₁, f₀, rest ++ f, by rw [hconn, List.append_assoc], hread, snoc hf hpend⟩

theorem write (hZ : Z.RoundTrips) {m : Msg} (hm : m.Fits Z A.snappy) {pend : List Msg} {conn : Bytes}
    (h : Pending P Z A B conn pend) :
    ∃ A' f, A.WriteMsg P Z conn m = .ok (A', conn ++ f) ∧ A'.snappy = A.snappy ∧
      Pending P Z A' B (conn ++ f) (pend ++ [m]) := by
  obtain ⟨A', -, f, hw, -, -⟩ := rlpxFrameRW.ReadMsg_WriteMsg (P := P) hZ (matched_self A) hm conn
  refine ⟨A', f, hw, rlpxFrameRW.WriteMsg_snappy hw, snoc ?_ h⟩
  intro Bₙ hBn
  obtain ⟨A'', B', f', hw', hread, hAB'⟩ := rlpxFrameRW.ReadMsg_WriteMsg (P := P) hZ hBn hm conn
  obtain ⟨rfl, hf⟩ := Prod.mk.inj (Except.ok.inj (hw.symm.trans hw'))
  rw [List.append_cancel_left hf]
  exact ⟨B', hread, hAB'⟩

theorem read {m : Msg} {pend : List Msg} {conn : Bytes} (h : Pending P Z A B conn (m :: pend)) :
    ∃ B' rest, B.ReadMsg P Z conn = .ok (m, B', rest) ∧ Pending P Z A B' rest pend := by
  obtain ⟨B', f, rest, rfl, hread, hpend⟩ := h
  exact ⟨B', rest, hread rest, hpend⟩

end Pending

/-- A call on one direction of a connection: the writer's `WriteMsg`, or the reader's `ReadMsg`. -/
inductive LinkOp
  | write (msg : Msg)
  | read

namespace LinkOp

/-- The messages written. -/
def sent : List LinkOp → List Msg
  | [] => []
  | write m :: ops => m :: sent ops
  | read :: ops => sent ops

/-- The number of reads. -/
def reads : List LinkOp → ℕ
  | [] => 0
  | write _ :: ops => reads ops
  | read :: ops => reads ops + 1

/-- Each read comes after a write it has not met yet, `k` writes being unread at the start. -/
def Causal : ℕ → List LinkOp → Prop
  | _, [] => True
  | k, write _ :: ops => Causal (k + 1) ops
  | k, read :: ops => 0 < k ∧ Causal (k - 1) ops

end LinkOp

/-- A run of calls: the messages read, then the writer, the reader and the connection after.
The first error ends it. -/
def runLink : List LinkOp → rlpxFrameRW → rlpxFrameRW → Bytes →
    Except FrameError (List Msg × rlpxFrameRW × rlpxFrameRW × Bytes)
  | [], A, B, conn => .ok ([], A, B, conn)
  | .write m :: ops, A, B, conn =>
    match A.WriteMsg P Z conn m with
    | .error e => .error e
    | .ok (A, conn) => runLink ops A B conn
  | .read :: ops, A, B, conn =>
    match B.ReadMsg P Z conn with
    | .error e => .error e
    | .ok (m, B, conn) => (runLink ops A B conn).map fun r => (m :: r.1, r.2)

variable {P Z}

/-- From frames pending on the connection, a run reads the pending messages and then those it
writes, in order: the induction is on the calls, with `Pending` as the invariant. -/
theorem runLink_pending (hZ : Z.RoundTrips) :
    ∀ (ops : List LinkOp) {A B : rlpxFrameRW} {conn : Bytes} {pend : List Msg},
      Pending P Z A B conn pend → LinkOp.Causal pend.length ops → (∀ m ∈ LinkOp.sent ops, m.Fits Z A.snappy) →
      ∃ A' B' conn', runLink P Z ops A B conn = .ok ((pend ++ LinkOp.sent ops).take (LinkOp.reads ops), A', B', conn')
  | [], A, B, conn, pend, _, _, _ => ⟨A, B, conn, by simp [runLink, LinkOp.reads]⟩
  | .write m :: ops, A, B, conn, pend, h, hc, hfits => by
    obtain ⟨A', f, hw, hsn, h'⟩ := h.write hZ (hfits m List.mem_cons_self)
    have hc' : LinkOp.Causal (pend ++ [m]).length ops := by
      rw [List.length_append, List.length_singleton]
      exact hc
    obtain ⟨A'', B', conn', hrun⟩ := runLink_pending hZ ops h' hc'
      (fun m' hm' => hsn ▸ hfits m' (List.mem_cons_of_mem _ hm'))
    refine ⟨A'', B', conn', ?_⟩
    rw [runLink, hw]
    simpa [LinkOp.sent, LinkOp.reads] using hrun
  | .read :: ops, A, B, conn, pend, h, hc, hfits => by
    obtain ⟨hpos, hc⟩ := hc
    obtain ⟨m, pend, rfl⟩ := List.exists_cons_of_length_pos hpos
    obtain ⟨B', rest, hread, h'⟩ := h.read
    obtain ⟨A', B'', conn', hrun⟩ := runLink_pending hZ ops h' hc hfits
    refine ⟨A', B'', conn', ?_⟩
    rw [runLink, hread]
    dsimp only
    rw [hrun]
    rfl

theorem runLink_delivers (hZ : Z.RoundTrips) {A B : rlpxFrameRW} (hAB : Matched A B) (ops : List LinkOp)
    (hc : LinkOp.Causal 0 ops) (hfits : ∀ m ∈ LinkOp.sent ops, m.Fits Z A.snappy) :
    ∃ A' B' conn, runLink P Z ops A B [] = .ok ((LinkOp.sent ops).take (LinkOp.reads ops), A', B', conn) := by
  have h : Pending P Z A B [] [] := ⟨hAB, rfl⟩
  simpa using runLink_pending hZ ops h hc hfits

example : ∃ A' B' conn, runLink ⟨fun _ i => i.toUInt8, fun _ b => b.take 16,
      fun b => List.replicate 32 b.length.toUInt8, fun _ => List.length_replicate⟩
      ⟨id, fun b => some b.length, some⟩ [.write ⟨1, 2, [7, 8]⟩, .read, .write ⟨300, 0, []⟩]
      ⟨[], 0, 0, [], [], [], false⟩ ⟨[], 0, 0, [], [], [], false⟩ [] = .ok ([⟨1, 2, [7, 8]⟩], A', B', conn) :=
  runLink_delivers ⟨fun _ => rfl, fun _ => rfl⟩ ⟨rfl, rfl, rfl, rfl, rfl⟩ _ ⟨by decide, trivial⟩ (by decide)

end EthereumAI.P2p
