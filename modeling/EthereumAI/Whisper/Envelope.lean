import EthereumAI.Whisper.Message

/-! # Sending and opening whisper envelopes

What `NewSentMessage` and `Wrap` write, step by step (`NewSentMessage_eq`, `sign_eq`, `Wrap_ok`), and
what `Open` makes of it under each kind of key (`Open_encryptWith`). Together they give the round
trip: every message with a payload below `2 ^ 24` bytes that `Wrap` sends to a filter's key opens
to its payload, the padding given, and its signer's public key (`Open_Wrap`, `Wrap_Open`).

The plaintext `01 01` is accepted by both decryptions and makes the parse panic
(`Open_panics_on_payload_size`).
-/

namespace EthereumAI.Whisper

open Crypto Lib.BigEndian

variable {C : Suite} {W : Primitives}

/-! ## Sending -/

namespace sentMessage

theorem addPayloadSizeField_eq {payload : Bytes} (h : getSizeOfPayloadSizeField payload ≤ 4) :
    addPayloadSizeField ⟨[0]⟩ payload =
      .ok ⟨(getSizeOfPayloadSizeField payload).toUInt8 ::
        (putUint32 payload.length).take (getSizeOfPayloadSizeField payload)⟩ := by
  simp only [addPayloadSizeField, gt_iff_lt, if_neg (not_lt.mpr h), List.singleton_append, List.modifyHead_cons,
    UInt8.zero_or]
  rfl

theorem appendPadding_eq {msg out : sentMessage} {params : MessageParams C} {rand : WrapRand C}
    (h : msg.appendPadding params rand = .ok out) :
    ∃ padding, out.Raw = msg.Raw ++ padding ∧ (params.Padding ≠ [] → padding = params.Padding) := by
  rw [appendPadding] at h
  dsimp only at h
  split_ifs at h with hpad
  · exact ⟨params.Padding, by rw [← Except.ok.inj h], fun _ => rfl⟩
  all_goals cases h
  all_goals exact ⟨_, rfl, fun hne => absurd (List.length_eq_zero_iff.mp (not_not.mp hpad)) hne⟩

theorem NewSentMessage_eq {params : MessageParams C} {rand : WrapRand C} {msg : sentMessage}
    (hpl : params.Payload.length < 2 ^ 24) (h : NewSentMessage params rand = .ok msg) :
    ∃ padding, msg.Raw = (getSizeOfPayloadSizeField params.Payload).toUInt8 ::
      ((putUint32 params.Payload.length).take (getSizeOfPayloadSizeField params.Payload) ++ params.Payload ++ padding) ∧
      (params.Padding ≠ [] → padding = params.Padding) := by
  obtain ⟨-, hle, -⟩ := getSizeOfPayloadSizeField_spec hpl
  rw [NewSentMessage, addPayloadSizeField_eq (by omega)] at h
  obtain ⟨padding, hraw, hgiven⟩ := appendPadding_eq h
  exact ⟨padding, by rw [hraw]; simp, hgiven⟩

theorem sign_eq (hC : C.Spec) {msg : sentMessage} {flags : UInt8} {rest : Bytes} (hraw : msg.Raw = flags :: rest)
    (hsig : isMessageSigned flags = false) (k : C.Priv) :
    ∃ sig, msg.sign W k = .ok ⟨(flags ||| signatureFlag) :: rest ++ sig⟩ ∧ sig.length = signatureLength ∧
      C.RecoverPubkey (W.keccak256 ((flags ||| signatureFlag) :: rest)) sig = some (4 :: C.pub k) := by
  obtain ⟨sig, hs, hl, hr⟩ := hC.recover_sign (W.keccak256 ((flags ||| signatureFlag) :: rest)) k (W.keccak256_length _)
  refine ⟨sig, ?_, hl, hr⟩
  rw [sign]
  split
  · simp_all
  rename_i flags' rest' hraw'
  obtain ⟨rfl, rfl⟩ : flags' = flags ∧ rest' = rest := by simpa [hraw] using hraw'.symm
  rw [if_neg (by simp [hsig])]
  simp only [hs]

theorem Wrap_ok {msg : sentMessage} {options : MessageParams C} {rand : WrapRand C} {now : ℕ} {env : Envelope}
    (h : msg.Wrap W options rand now = .ok env) :
    ∃ signed, msg.signWith W options.Src = .ok signed ∧ signed.encryptWith W options rand = .ok ⟨env.Data⟩ := by
  rw [Wrap] at h
  cases hs : msg.signWith W options.Src with
  | error e => simp [hs, bind, Except.bind] at h
  | ok signed =>
    cases he : signed.encryptWith W options rand with
    | error e => simp [hs, he, bind, Except.bind] at h
    | ok out =>
      refine ⟨signed, rfl, ?_⟩
      simp only [hs, he, bind, Except.bind] at h
      split at h
      · cases h
      · obtain rfl := (Except.ok.inj h).symm
        exact he

theorem NewSentMessage_ok {params : MessageParams C} {rand : WrapRand C} (hpl : params.Payload.length < 2 ^ 24)
    (hpad : ∀ n, 3 < n → containsOnlyZeros (rand.pad n) = false) : ∃ msg, NewSentMessage params rand = .ok msg := by
  obtain ⟨-, hle, -⟩ := getSizeOfPayloadSizeField_spec hpl
  have hvalid (n : ℕ) : validateDataIntegrity (rand.pad n) n = true :=
    validateDataIntegrity_of_length (rand.length_pad n) (hpad n)
  rw [NewSentMessage, addPayloadSizeField_eq (by omega)]
  simp only [bind, Except.bind, appendPadding, hvalid, Bool.not_true, Bool.false_eq_true, if_false]
  split_ifs <;> exact ⟨_, rfl⟩

/-- `Wrap` succeeds on a message `NewSentMessage` wrote when the recipient's key is valid, the
random sources of the salt pass their checks, and the proof of work finished. -/
theorem Wrap_succeeds (hC : C.Spec) {msg : sentMessage} {flags : UInt8} {rest : Bytes} (hraw : msg.Raw = flags :: rest)
    (hflags : isMessageSigned flags = false) {params : MessageParams C} {rand : WrapRand C} {watcher : Filter C}
    (hw : Opens params watcher) (hvalid : ∀ k, params.Dst = some (C.pub k) → ValidatePublicKey (C.pub k) = true)
    (hkey : ∀ key, params.KeySym = some key → validateDataIntegrity key aesKeyLength = true)
    (hsalt : ∃ salt, generateSecureRandomData rand.x rand.y aesNonceLength = .ok salt) (hseal : rand.sealed.isSome)
    (now : ℕ) : ∃ env, msg.Wrap W params rand now = .ok env := by
  obtain ⟨signed, hsigned, hne⟩ : ∃ signed, msg.signWith W params.Src = .ok signed ∧ signed.Raw ≠ [] := by
    cases hs : params.Src with
    | none => exact ⟨msg, rfl, by simp [hraw]⟩
    | some k =>
      obtain ⟨sig, hsg, -, -⟩ := sign_eq hC hraw hflags k
      exact ⟨_, hsg, by simp⟩
  obtain ⟨out, henc⟩ : ∃ out, signed.encryptWith W params rand = .ok out := by
    rcases hw with ⟨k, hdst, -⟩ | ⟨hdst, key, hks, -⟩
    · obtain ⟨c, henc, -⟩ := Suite.Decrypt_Encrypt hC rand.enc rand.length_iv k hne [] []
      simp only [encryptWith, hdst, encryptAsymmetric, hvalid k hdst, Bool.not_true, henc]
      exact ⟨_, rfl⟩
    · obtain ⟨salt, hs⟩ := hsalt
      simp only [encryptWith, hdst, hks, encryptSymmetric, hkey key hks, Bool.not_true, hs]
      exact ⟨_, rfl⟩
  obtain ⟨sealed, hsl⟩ := Option.isSome_iff_exists.mp hseal
  simp only [Wrap, hsigned, henc, hsl, bind, Except.bind]
  exact ⟨_, rfl⟩


end sentMessage

/-! ## Reading back what was sent -/

namespace ReceivedMessage

theorem ValidateAndParse_unsigned {msg : ReceivedMessage} {fs : ℕ} {payload padding : Bytes}
    (hfs : 1 ≤ fs ∧ fs ≤ 3) (hlt : payload.length < 256 ^ fs)
    (hraw : msg.Raw = fs.toUInt8 :: ((putUint32 payload.length).take fs ++ payload ++ padding)) :
    msg.ValidateAndParse C W = some (true, { msg with Payload := payload, Padding := padding }) := by
  obtain ⟨hfl, hne, hval⟩ := sizeField_spec hfs hlt
  obtain ⟨hsz, -, hunsigned, -⟩ := flags_of_size hfs.2
  have hlen : msg.Raw.length = 1 + ((putUint32 payload.length).take fs).length + payload.length + padding.length := by
    simp only [hraw, List.length_cons, List.length_append]
    omega
  rw [ValidateAndParse_of_unsigned hraw hunsigned, hlen]
  exact parseBody_of_layout (by rw [hraw, List.append_nil]) (by rw [hsz, hfl]) hne hval

/-- The parse of a message as `NewSentMessage` writes it and `sign` signs it. -/
theorem ValidateAndParse_signed (hC : C.Spec) {msg : ReceivedMessage} {fs : ℕ} {payload padding sig : Bytes} {k : C.Priv}
    (hfs : 1 ≤ fs ∧ fs ≤ 3) (hlt : payload.length < 256 ^ fs)
    (hraw : msg.Raw = (fs.toUInt8 ||| signatureFlag) :: ((putUint32 payload.length).take fs ++ payload ++ padding) ++ sig)
    (hsl : sig.length = signatureLength)
    (hrec : C.RecoverPubkey (W.keccak256 ((fs.toUInt8 ||| signatureFlag) ::
      ((putUint32 payload.length).take fs ++ payload ++ padding))) sig = some (4 :: C.pub k)) :
    msg.ValidateAndParse C W =
      some (true, { msg with Signature := sig, Src := some (C.pub k), Payload := payload, Padding := padding }) := by
  obtain ⟨hfl, hne, hval⟩ := sizeField_spec hfs hlt
  obtain ⟨-, hsz, -, hsigned⟩ := flags_of_size hfs.2
  have hsrc : SigToPubKey C W { msg with Signature := sig } = some (C.pub k) := by
    have hraw' : ({ msg with Signature := sig } : ReceivedMessage).Raw = _ := hraw
    rw [SigToPubKey, hash_of_signed hraw' hsigned hsl, hrec, Option.bind_some, Suite.Unmarshal_pub hC]
  rw [ValidateAndParse_of_signed hraw hsigned hsl
    (List.append_ne_nil_of_left_ne_nil (List.append_ne_nil_of_left_ne_nil hne _) _) hsrc]
  have hlen : 1 + ((putUint32 payload.length).take fs ++ payload ++ padding).length =
      1 + ((putUint32 payload.length).take fs).length + payload.length + padding.length := by
    simp only [List.length_append]
    omega
  rw [hlen]
  exact parseBody_of_layout (by show msg.Raw = _; rw [hraw, List.cons_append]) (by rw [hsz, hfl]) hne hval


end ReceivedMessage

/-! ## Opening -/

namespace Envelope

theorem Open_asym {e : Envelope} {k : C.Priv} {raw : Bytes} (h : C.Decrypt k e.Data [] [] = .ok raw) :
    e.Open C W ⟨some k, none⟩ = e.deliver C W { Raw := raw, Dst := some (C.pub k) } := by
  simp only [Open, OpenAsymmetric, h, Option.map_some]

theorem Open_sym {e : Envelope} {key salt ct raw : Bytes} (hd : e.Data = ct ++ salt) (hkey : key.length = aesKeyLength)
    (hsalt : salt.length = aesNonceLength) (h : W.gcmOpen key salt ct = some raw) :
    e.Open C W ⟨none, some key⟩ = e.deliver C W { Raw := raw, Salt := salt, SymKeyHash := W.keccak256 key } := by
  have hlen : e.Data.length - aesNonceLength = ct.length := by simp [hd, hsalt]
  have hsalt' : e.Data.drop (e.Data.length - aesNonceLength) = salt := by rw [hlen, hd, List.drop_left]
  have hct : e.Data.take (e.Data.length - aesNonceLength) = ct := by rw [hlen, hd, List.take_left]
  simp only [Open, OpenSymmetric, ReceivedMessage.decryptSymmetric, hsalt', hct, h]
  rw [if_neg (by simp [hd, hsalt]), if_neg (by simp [hkey, aesKeyLength])]
  rfl

/-- What `Wrap` encrypts for a filter holding the key, `Open` decrypts back. -/
theorem Open_encryptWith (hC : C.Spec) (hW : W.Spec) {signed out : sentMessage} {options : MessageParams C}
    {rand : WrapRand C} {watcher : Filter C} (hw : Opens options watcher) (hne : signed.Raw ≠ [])
    (he : signed.encryptWith W options rand = .ok out) {e : Envelope} (hd : e.Data = out.Raw) :
    ∃ msg : ReceivedMessage, msg.Raw = signed.Raw ∧ msg.Payload = [] ∧ msg.Signature = [] ∧ msg.Src = none ∧
      e.Open C W watcher = e.deliver C W msg := by
  rcases hw with ⟨k, hdst, rfl⟩ | ⟨hdst, key, hkey, rfl⟩
  · -- ECIES to the filter's key
    obtain ⟨c, henc, -, -, hdec⟩ := Suite.Decrypt_Encrypt hC rand.enc rand.length_iv k hne [] []
    simp only [sentMessage.encryptWith, hdst, sentMessage.encryptAsymmetric, henc] at he
    split_ifs at he
    cases he
    exact ⟨_, rfl, rfl, rfl, rfl, Open_asym (hd ▸ hdec)⟩
  · -- GCM under the topic key, the salt behind
    simp only [sentMessage.encryptWith, hdst, hkey, sentMessage.encryptSymmetric, bind, Except.bind] at he
    split_ifs at he with hk
    cases hsalt : generateSecureRandomData rand.x rand.y aesNonceLength with
    | error _ => rw [hsalt] at he; cases he
    | ok salt =>
      rw [hsalt] at he
      cases he
      have hkl := length_of_validateDataIntegrity (by simpa using hk)
      have hsl := length_generateSecureRandomData hsalt
      exact ⟨_, rfl, rfl, rfl, rfl, Open_sym hd hkl hsl (hW.gcmOpen_gcmSeal key salt signed.Raw hkl hsl)⟩


end Envelope

/-! ## The round trip -/

/-- Opening what `NewSentMessage` and `Wrap` send, with a filter that holds the key, gives back the
payload, the padding when one was given, and the signer's public key when signed. -/
theorem Open_Wrap (hC : C.Spec) (hW : W.Spec) {params : MessageParams C} (hpl : params.Payload.length < 2 ^ 24)
    {rand : WrapRand C} {now : ℕ} {msg : sentMessage} {env : Envelope}
    (hnew : NewSentMessage params rand = .ok msg) (hwrap : msg.Wrap W params rand now = .ok env)
    {watcher : Filter C} (hw : Opens params watcher) :
    ∃ m, env.Open C W watcher = some (some m) ∧ m.Payload = params.Payload ∧
      (params.Padding ≠ [] → m.Padding = params.Padding) ∧ m.Src = params.Src.map C.pub := by
  obtain ⟨hfs1, hfs3, hlt⟩ := getSizeOfPayloadSizeField_spec hpl
  obtain ⟨padding, hraw, hgiven⟩ := sentMessage.NewSentMessage_eq hpl hnew
  obtain ⟨signed, hsigned, henc⟩ := sentMessage.Wrap_ok hwrap
  obtain ⟨-, -, hunsigned, -⟩ := flags_of_size hfs3
  cases hs : params.Src with
  | none =>
    -- sent unsigned
    obtain rfl : signed = msg := by
      rw [hs] at hsigned
      exact (Except.ok.inj hsigned).symm
    obtain ⟨msg0, hraw0, -, -, hsrc0, hopen⟩ := Envelope.Open_encryptWith hC hW hw (by simp [hraw]) henc rfl
    have hparse := ReceivedMessage.ValidateAndParse_unsigned (C := C) (W := W) ⟨hfs1, hfs3⟩ hlt (hraw0.trans hraw)
    refine ⟨{ msg0 with
        Payload := params.Payload, Padding := padding, Topic := env.Topic, TTL := env.TTL,
        Sent := env.Expiry - env.TTL }, ?_, rfl, hgiven, hsrc0⟩
    rw [hopen, Envelope.deliver, hparse]
    rfl
  | some k =>
    -- signed by `k`: the signature follows the padding
    obtain ⟨sig, hsg, hsl, hrec⟩ := sentMessage.sign_eq hC hraw hunsigned k
    rw [hs, sentMessage.signWith, hsg] at hsigned
    obtain rfl := Except.ok.inj hsigned
    obtain ⟨msg0, hraw0, -, -, -, hopen⟩ := Envelope.Open_encryptWith hC hW hw (by simp) henc rfl
    have hparse := ReceivedMessage.ValidateAndParse_signed hC ⟨hfs1, hfs3⟩ hlt hraw0 hsl hrec
    refine ⟨{ msg0 with
        Signature := sig, Src := some (C.pub k), Payload := params.Payload, Padding := padding,
        Topic := env.Topic, TTL := env.TTL, Sent := env.Expiry - env.TTL }, ?_, rfl, hgiven, rfl⟩
    rw [hopen, Envelope.deliver, hparse]
    rfl

theorem Wrap_Open (hC : C.Spec) (hW : W.Spec) {params : MessageParams C} (hpl : params.Payload.length < 2 ^ 24)
    {rand : WrapRand C} (hpad : ∀ n, 3 < n → containsOnlyZeros (rand.pad n) = false) {watcher : Filter C}
    (hw : Opens params watcher) (hvalid : ∀ k, params.Dst = some (C.pub k) → ValidatePublicKey (C.pub k) = true)
    (hkey : ∀ key, params.KeySym = some key → validateDataIntegrity key aesKeyLength = true)
    (hsalt : ∃ salt, generateSecureRandomData rand.x rand.y aesNonceLength = .ok salt) (hseal : rand.sealed.isSome)
    (now : ℕ) :
    ∃ msg env m, NewSentMessage params rand = .ok msg ∧ msg.Wrap W params rand now = .ok env ∧
      env.Open C W watcher = some (some m) ∧ m.Payload = params.Payload ∧
      (params.Padding ≠ [] → m.Padding = params.Padding) ∧ m.Src = params.Src.map C.pub := by
  obtain ⟨msg, hnew⟩ := sentMessage.NewSentMessage_ok hpl hpad
  obtain ⟨-, hfs3, -⟩ := getSizeOfPayloadSizeField_spec hpl
  obtain ⟨_, hraw, -⟩ := sentMessage.NewSentMessage_eq hpl hnew
  obtain ⟨env, hwrap⟩ := sentMessage.Wrap_succeeds hC hraw (flags_of_size hfs3).2.2.1 hw hvalid hkey hsalt hseal now
  obtain ⟨m, hopen, hpay, hpad', hsrc⟩ := Open_Wrap hC hW hpl hnew hwrap hw
  exact ⟨msg, env, m, hnew, hwrap, hopen, hpay, hpad', hsrc⟩

/-! ## A plaintext that panics -/

/-- A plaintext of two bytes, `01 01`, whose one-byte size field declares one byte of payload,
sent to a filter's private key with ECIES or under its topic key with GCM, makes `Open` panic. -/
theorem Open_panics_on_payload_size (hC : C.Spec) (hW : W.Spec) (k : C.Priv) (rand : EncryptRand C)
    (hiv : rand.iv.length = 16) (key salt : Bytes) (hkey : key.length = aesKeyLength)
    (hsalt : salt.length = aesNonceLength) (e : Envelope) :
    (∃ c, C.Encrypt rand (C.pub k) [1, 1] [] [] = .ok c ∧ Envelope.Open C W { e with Data := c } ⟨some k, none⟩ = none) ∧
      Envelope.Open C W { e with Data := W.gcmSeal key salt [1, 1] ++ salt } ⟨none, some key⟩ = none := by
  have hparse : ∀ msg : ReceivedMessage, msg.Raw = [1, 1] → msg.ValidateAndParse C W = none := fun msg h =>
    ReceivedMessage.ValidateAndParse_eq_none h (by decide) (by decide) (by decide) (by decide)
  obtain ⟨c, henc, -, -, hdec⟩ := Suite.Decrypt_Encrypt hC rand hiv k (m := [1, 1]) (by simp) [] []
  refine ⟨⟨c, henc, ?_⟩, ?_⟩
  · rw [Envelope.Open_asym hdec, Envelope.deliver, hparse _ rfl]
    rfl
  · rw [Envelope.Open_sym rfl hkey hsalt (hW.gcmOpen_gcmSeal key salt [1, 1] hkey hsalt), Envelope.deliver, hparse _ rfl]
    rfl

/-- A curve of one key whose primitives are constants; it meets `Suite.Spec`. -/
def toySuite : Suite where
  Priv := Unit
  pub _ := List.replicate 64 1
  IsOnCurve _ := true
  ScalarMult _ _ := some []
  concatKDF _ _ n := List.replicate n 0
  sha256 _ := List.replicate 32 0
  hmac _ _ := List.replicate 32 0
  ctrStream _ _ _ := 0
  Sign h _ := if h.length = 32 then some (List.replicate 65 0) else none
  RecoverPubkey _ _ := some (4 :: List.replicate 64 1)

theorem toySuite_spec : toySuite.Spec where
  length_pub _ := by simp [toySuite]
  isOnCurve_pub _ := rfl
  agree _ _ := ⟨[], by simp, rfl, rfl⟩
  length_hmac _ _ := by simp [toySuite]
  recover_sign h _ hh := ⟨List.replicate 65 0, by simp [toySuite, hh], by simp, rfl⟩

/-- The identity as the cipher, and a constant hash. -/
def toyPrimitives : Primitives where
  gcmSeal _ _ m := m
  gcmOpen _ _ c := some c
  keccak256 _ := List.replicate 32 0
  keccak256_length _ := by simp

theorem toyPrimitives_spec : toyPrimitives.Spec := ⟨fun _ _ _ _ _ => rfl⟩

theorem Open_panics_on_payload_size_toy :
    (∃ c, toySuite.Encrypt ⟨(), List.replicate 16 0⟩ (toySuite.pub ()) [1, 1] [] [] = .ok c ∧
      Envelope.Open toySuite toyPrimitives ⟨0, 0, [], c, 0⟩ ⟨some (), none⟩ = none) ∧
      Envelope.Open toySuite toyPrimitives ⟨0, 0, [], [1, 1] ++ List.replicate 12 7, 0⟩
        ⟨none, some (List.replicate 32 7)⟩ = none :=
  Open_panics_on_payload_size toySuite_spec toyPrimitives_spec () ⟨(), List.replicate 16 0⟩ rfl
    (List.replicate 32 7) (List.replicate 12 7) rfl rfl ⟨0, 0, [], [], 0⟩


end EthereumAI.Whisper
