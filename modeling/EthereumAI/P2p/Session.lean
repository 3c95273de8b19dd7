import EthereumAI.P2p.Handshake
import EthereumAI.Whisper.Envelope

/-! # An RLPx session (`p2p/rlpx.go`)

`rlpx.doEncHandshake` runs one side of the encryption handshake and installs the frame reader and
writer that `newRLPXFrameRW` builds from the secrets it derives. Run against each other over a
reliable pipe, the side that dials and the side that listens both succeed, each learns the other's
node ID, and each reads exactly the other's packet. What they install then carries every message,
in order, from each side to the other: `doEncHandshake_delivers`.

The proof follows the two packets. The auth message carries a signature that the receiver's
static ECDH secret, xored with the nonce, recovers to the initiator's ephemeral key
(`makeAuthMsg_recovers`); each packet is read back as it was sealed
(`readHandshakeMsg_authMsgV4`, `readHandshakeMsg_authRespV4`). The two states the sides end in
are mirrors of each other (`encHandshake.Mirror`): the same nonces, and each side's ephemeral key
the one whose public key the other holds. Their secrets agree (`Mirror.secrets_agree`), agreeing
secrets give frames matched in both directions (`secrets.Agree.frames`), and `runLink_delivers`
carries the messages over each.
-/

namespace EthereumAI.P2p

open Crypto

variable {C : Suite} {P : Primitives} {Z : Snappy}

/-! ## Agreeing secrets -/

/-- The secrets of the two ends of one connection: the same AES and MAC secrets, and each end's
egress MAC state the other's ingress one. -/
structure secrets.Agree (s t : secrets) : Prop where
  AES : s.AES = t.AES
  MAC : s.MAC = t.MAC
  egress : s.EgressMAC = t.IngressMAC
  ingress : s.IngressMAC = t.EgressMAC

theorem secrets.Agree.symm {s t : secrets} (h : s.Agree t) : t.Agree s :=
  ⟨h.AES.symm, h.MAC.symm, h.ingress.symm, h.egress.symm⟩

theorem newRLPXFrameRW_of_length {s : secrets} (hAES : s.AES.length = 32) (hMAC : s.MAC.length = 32) :
    newRLPXFrameRW s = some ⟨s.AES, 0, 0, s.MAC, s.EgressMAC, s.IngressMAC, false⟩ := by
  simp [newRLPXFrameRW, aesKeySize, hAES, hMAC]

theorem eq_of_newRLPXFrameRW {s : secrets} {A : rlpxFrameRW} (h : newRLPXFrameRW s = some A) :
    A = ⟨s.AES, 0, 0, s.MAC, s.EgressMAC, s.IngressMAC, false⟩ := by
  unfold newRLPXFrameRW at h
  split_ifs at h
  exact (Option.some.inj h).symm

theorem secrets.Agree.matched {s t : secrets} {A B : rlpxFrameRW} (h : s.Agree t) (hA : newRLPXFrameRW s = some A)
    (hB : newRLPXFrameRW t = some B) : Matched A B := by
  rw [eq_of_newRLPXFrameRW hA, eq_of_newRLPXFrameRW hB]
  exact ⟨h.AES, rfl, h.MAC, h.egress, rfl⟩

theorem secrets.Agree.frames {s t : secrets} (h : s.Agree t) (hAES : s.AES.length = 32)
    (hMAC : s.MAC.length = 32) :
    ∃ A B, newRLPXFrameRW s = some A ∧ newRLPXFrameRW t = some B ∧ Matched A B ∧ Matched B A := by
  have hA := newRLPXFrameRW_of_length hAES hMAC
  have hB := newRLPXFrameRW_of_length (h.AES ▸ hAES) (h.MAC ▸ hMAC)
  exact ⟨_, _, hA, hB, h.matched hA hB, h.symm.matched hB hA⟩

theorem Matched.withSnappy {A B : rlpxFrameRW} (h : Matched A B) (sn : Bool) :
    Matched { A with snappy := sn } { B with snappy := sn } :=
  ⟨h.aesKey, h.pos, h.macKey, h.mac, rfl⟩

variable (P Z) in
/-- The reader `B` gets what the writer `A` writes: over any interleaving of writes of messages
that fit and of reads, each read after a write it has not met, the reads return the messages
written, in order, none lost or repeated. -/
def Delivers (A B : rlpxFrameRW) : Prop :=
  ∀ ops, LinkOp.Causal 0 ops → (∀ m ∈ LinkOp.sent ops, m.Fits Z A.snappy) →
    ∃ A' B' conn, runLink P Z ops A B [] = .ok ((LinkOp.sent ops).take (LinkOp.reads ops), A', B', conn)

theorem Matched.delivers (hZ : Z.RoundTrips) {A B : rlpxFrameRW} (h : Matched A B) : Delivers P Z A B :=
  fun ops hc hfits => runLink_delivers hZ h ops hc hfits

/-! ## Mirrored handshake states -/

/-- The states the initiator and the receiver end a handshake in: the same nonces, and each
side's ephemeral key the one whose public key the other holds. -/
structure encHandshake.Mirror (hI hR : encHandshake C) : Prop where
  initiator : hI.initiator = true
  receiver : hR.initiator = false
  initNonce : hI.initNonce = hR.initNonce
  respNonce : hI.respNonce = hR.respNonce
  keys : ∃ a b, hI.randomPrivKey = some a ∧ hR.randomPrivKey = some b ∧
    hI.remoteRandomPub = some (C.pub b) ∧ hR.remoteRandomPub = some (C.pub a)

theorem encHandshake.Mirror.secrets_agree (hC : C.Spec) {hI hR : encHandshake C} (h : hI.Mirror hR)
    (auth authResp : Bytes) :
    ∃ sI sR, hI.secrets P auth authResp = .ok sI ∧ hR.secrets P auth authResp = .ok sR ∧
      sI.RemoteID = hI.remoteID ∧ sR.RemoteID = hR.remoteID ∧ sI.Agree sR ∧
      sI.AES.length = 32 ∧ sI.MAC.length = 32 := by
  obtain ⟨a, b, ha, hb, hpa, hpb⟩ := h.keys
  obtain ⟨z, -, hab, hba⟩ := Suite.GenerateShared_agree hC a b
  refine ⟨_, _, encHandshake.secrets_eq ha hpa hab auth authResp, encHandshake.secrets_eq hb hpb hba auth authResp,
    rfl, rfl, ?_, P.keccak_length _, P.keccak_length _⟩
  simp only [h.initiator, h.receiver, h.initNonce, h.respNonce, if_true, Bool.false_eq_true, if_false]
  exact ⟨rfl, rfl, rfl, rfl⟩

/-! ## The handshake run against itself -/

theorem makeAuthMsg_recovers (hC : C.Spec) (prvI prvR : C.Priv) (rand : HandshakeRand C) :
    ∃ sig token, (⟨true, C.pub prvR, [], [], [], none, none⟩ : encHandshake C).makeAuthMsg prvI rand =
        .ok (⟨true, C.pub prvR, C.pub prvR, rand.nonce, [], some rand.randomPrivKey, none⟩,
          ⟨false, sig, C.pub prvI, rand.nonce, 4, []⟩) ∧
      sig.length = sigLen ∧ C.GenerateShared prvR (C.pub prvI) sskLen sskLen = .ok token ∧
      C.RecoverPubkey (xor token rand.nonce) sig = some (4 :: C.pub rand.randomPrivKey) := by
  obtain ⟨z, hz, hIR, hRI⟩ := Suite.GenerateShared_agree hC prvI prvR
  have hlen : (xor z rand.nonce).length = 32 := by
    rw [length_xor, hz, rand.length_nonce]
    rfl
  obtain ⟨sig, hsign, hsig, hrec⟩ := hC.recover_sign (xor z rand.nonce) rand.randomPrivKey hlen
  have hsig : sig.length = sigLen := hsig
  have hpub : (C.pub prvI).length = pubLen := hC.length_pub prvI
  refine ⟨sig, z, ?_, hsig, hRI, hrec⟩
  rw [encHandshake.makeAuthMsg_eq (hC.isOnCurve_pub prvR) hIR hsign, copyArray_of_length hsig,
    copyArray_of_length hpub, copyArray_of_length rand.length_nonce]

/-- Over a reliable pipe, `doEncHandshake` on the side that dials the static key of `prvR` and on
the side of `prvR` that listens both succeed, each with the other's node ID, each reading exactly
the other's packet whatever follows it; and the frames they install, with the same snappy
setting on both, carry every message from each side to the other. -/
theorem doEncHandshake_delivers (hC : C.Spec) (hZ : Z.RoundTrips) (prvI prvR : C.Priv)
    (randI randR : HandshakeRand C) :
    ∃ authPacket ackPacket A B,
      (∀ rest, doEncHandshake C P prvI (some (C.pub prvR)) randI (ackPacket ++ rest) =
        .ok (C.pub prvR, some A, authPacket, rest)) ∧
      (∀ rest, doEncHandshake C P prvR none randR (authPacket ++ rest) =
        .ok (C.pub prvI, some B, ackPacket, rest)) ∧
      ∀ sn, Delivers P Z { A with snappy := sn } { B with snappy := sn } ∧
        Delivers P Z { B with snappy := sn } { A with snappy := sn } := by
  set eI := randI.randomPrivKey
  set eR := randR.randomPrivKey
  -- the initiator's auth packet, read back by the receiver
  obtain ⟨sig, token, hmake, hsig, htoken, hrec⟩ := makeAuthMsg_recovers hC prvI prvR randI
  obtain ⟨authPacket, hsealI, hreadR⟩ := readHandshakeMsg_authMsgV4 hC randI.enc randI.length_iv prvR
    ⟨false, sig, C.pub prvI, randI.nonce, 4, []⟩ hsig (hC.length_pub prvI) randI.length_nonce rfl rfl randI.pad_lt
  -- the receiver recovers the initiator's ephemeral key and answers with its own
  have hhandleR : (⟨false, [], [], [], [], none, none⟩ : encHandshake C).handleAuthMsg
      ⟨false, sig, C.pub prvI, randI.nonce, 4, []⟩ prvR eR =
        .ok ⟨false, C.pub prvI, C.pub prvI, randI.nonce, [], some eR, some (C.pub eI)⟩ := by
    rw [encHandshake.handleAuthMsg_eq rfl (hC.isOnCurve_pub prvI) htoken hrec, (importPublicKey_pub hC eI).2]
    rfl
  have hrespR : (⟨false, C.pub prvI, C.pub prvI, randI.nonce, [], some eR, some (C.pub eI)⟩ : encHandshake C).makeAuthResp
      randR.nonce =
        .ok (⟨false, C.pub prvI, C.pub prvI, randI.nonce, randR.nonce, some eR, some (C.pub eI)⟩,
          ⟨C.pub eR, randR.nonce, 4, []⟩) := by
    have hpub : (C.pub eR).length = pubLen := hC.length_pub eR
    rw [encHandshake.makeAuthResp_eq rfl, copyArray_of_length hpub, copyArray_of_length randR.length_nonce]
  obtain ⟨ackPacket, hsealR, hreadI⟩ := readHandshakeMsg_authRespV4 hC randR.enc randR.length_iv prvI
    ⟨C.pub eR, randR.nonce, 4, []⟩ (hC.length_pub eR) randR.length_nonce rfl rfl randR.pad_lt
  -- the initiator takes the receiver's ephemeral key
  have hhandleI : (⟨true, C.pub prvR, C.pub prvR, randI.nonce, [], some eI, none⟩ : encHandshake C).handleAuthResp
      ⟨C.pub eR, randR.nonce, 4, []⟩ =
        .ok ⟨true, C.pub prvR, C.pub prvR, randI.nonce, randR.nonce, some eI, some (C.pub eR)⟩ := by
    rw [encHandshake.handleAuthResp_eq (importPublicKey_pub hC eR).1]
  have hmirror : encHandshake.Mirror
      ⟨true, C.pub prvR, C.pub prvR, randI.nonce, randR.nonce, some eI, some (C.pub eR)⟩
      ⟨false, C.pub prvI, C.pub prvI, randI.nonce, randR.nonce, some eR, some (C.pub eI)⟩ :=
    ⟨rfl, rfl, rfl, rfl, ⟨eI, eR, rfl, rfl, rfl, rfl⟩⟩
  obtain ⟨sI, sR, hsI, hsR, hidI, hidR, hagree, hAES, hMAC⟩ := hmirror.secrets_agree (P := P) hC authPacket ackPacket
  obtain ⟨A, B, hA, hB, hAB, hBA⟩ := hagree.frames hAES hMAC
  refine ⟨authPacket, ackPacket, A, B, fun rest => ?_, fun rest => ?_, fun sn => ⟨?_, ?_⟩⟩
  · rw [doEncHandshake_dial (initiatorEncHandshake_eq hmake hsealI (hreadI rest) hhandleI hsI), hidI, hA]
  · rw [doEncHandshake_listen (receiverEncHandshake_eq (hreadR rest) hhandleR hrespR rfl hsealR hsR), hidR, hB]
  · exact (hAB.withSnappy sn).delivers hZ
  · exact (hBA.withSnappy sn).delivers hZ

theorem doEncHandshake_delivers_toy :
    let rand : HandshakeRand Whisper.toySuite :=
      ⟨List.replicate 32 0, rfl, (), 0, by decide, ⟨(), List.replicate 16 0⟩, rfl⟩
    let prims : Primitives := ⟨fun _ i => i.toUInt8, fun _ b => b.take 16,
      fun b => List.replicate 32 b.length.toUInt8, fun _ => List.length_replicate⟩
    let snappy : Snappy := ⟨id, fun b => some b.length, some⟩
    ∃ authPacket ackPacket A B,
      (∀ rest, doEncHandshake Whisper.toySuite prims () (some (Whisper.toySuite.pub ())) rand (ackPacket ++ rest) =
        .ok (Whisper.toySuite.pub (), some A, authPacket, rest)) ∧
      (∀ rest, doEncHandshake Whisper.toySuite prims () none rand (authPacket ++ rest) =
        .ok (Whisper.toySuite.pub (), some B, ackPacket, rest)) ∧
      ∀ sn, Delivers prims snappy { A with snappy := sn } { B with snappy := sn } ∧
        Delivers prims snappy { B with snappy := sn } { A with snappy := sn } :=
  doEncHandshake_delivers Whisper.toySuite_spec ⟨fun _ => rfl, fun _ => rfl⟩ () () _ _

end EthereumAI.P2p
