import EthereumAI.Lib.KeyStream
import EthereumAI.Common.Types

/-! # ECIES over secp256k1 (`crypto/ecies/ecies.go`)

`Encrypt` makes a fresh key pair `R`, derives from the ECDH secret of `R` and the recipient an AES
key and a MAC key, and sends `R`'s public key, the message encrypted in counter mode behind a
random IV, and an HMAC tag over the encrypted message and the shared data `s2`. `Decrypt` reads
the public key back, derives the same keys from its own private key, checks the tag and decrypts.
The parameters are those `ParamsFromCurve` gives secp256k1, `ECIES_AES128_SHA256`: keys of 16
bytes, a block and an IV of 16 bytes, tags of 32.

The curve and the primitives below the framing are parameters (`Suite`): the public key of a
private key, the check that 64 bytes are a point, the X coordinate of a scalar product, SHA-256,
the concatenation KDF, HMAC-SHA-256 and the key stream of AES in counter mode, with the ECDSA
signature and its recovery that the RLPx handshake uses. `Suite.Spec` states what they are
specified to do and the protocol relies on: public keys are points, two keys agree on their ECDH
secret, and a signature recovers its key. That decryption undoes encryption is then a theorem,
`Decrypt_Encrypt`; and a ciphertext whose first byte is not the format byte `4` of an
uncompressed point is refused whatever follows, `Decrypt_of_headD`.
-/

namespace EthereumAI.Crypto

open Lib.KeyStream

/-- secp256k1 and the primitives ECIES and the RLPx handshake are built from, over private keys
of type `Priv`. -/
structure Suite where
  Priv : Type
  /-- the X and Y coordinates of the public key, 32 bytes each: `elliptic.Marshal` without its
  format byte -/
  pub : Priv → Bytes
  /-- `IsOnCurve` of the point with these coordinates, each below the field prime -/
  IsOnCurve : Bytes → Bool
  /-- `ScalarMult` of a point by a private key: the X coordinate of the product as `x.Bytes()`,
  `none` at infinity -/
  ScalarMult : Bytes → Priv → Option Bytes
  /-- `concatKDF` over SHA-256 of a secret and `s1`, to the given length -/
  concatKDF : Bytes → Bytes → ℕ → Bytes
  /-- `sha256.Sum256` -/
  sha256 : Bytes → Bytes
  /-- `hmac.New(sha256.New, key)` after writing the message, summed -/
  hmac : Bytes → Bytes → Bytes
  /-- the key stream of `cipher.NewCTR(aes.NewCipher(key), iv)`, by position -/
  ctrStream : Bytes → Bytes → ℕ → UInt8
  /-- `crypto.Sign` of a hash: the 65 bytes `[R || S || V]`, or an error -/
  Sign : Bytes → Priv → Option Bytes
  /-- `secp256k1.RecoverPubkey`: the public key of the signer of a hash, with its format byte -/
  RecoverPubkey : Bytes → Bytes → Option Bytes

/-- What the handshake relies on of the primitives: the public key of a private key is a point
of 64 bytes, two keys agree on their ECDH secret (an X coordinate of at most 32 bytes), a tag is
32 bytes, and a signature of a 32-byte hash recovers the public key of its signer. -/
structure Suite.Spec (C : Suite) : Prop where
  length_pub : ∀ k, (C.pub k).length = 64
  isOnCurve_pub : ∀ k, C.IsOnCurve (C.pub k) = true
  agree : ∀ a b, ∃ x, x.length ≤ 32 ∧ C.ScalarMult (C.pub b) a = some x ∧ C.ScalarMult (C.pub a) b = some x
  length_hmac : ∀ key m, (C.hmac key m).length = 32
  recover_sign : ∀ h k, h.length = 32 → ∃ sig, C.Sign h k = some sig ∧ sig.length = 65 ∧
    C.RecoverPubkey h sig = some (4 :: C.pub k)

/-- The errors of `ecies`. -/
inductive Error
  | ErrInvalidCurve
  | ErrSharedKeyTooBig
  | ErrSharedKeyIsPointAtInfinity
  | ErrInvalidMessage
  | ErrInvalidPublicKey
  /-- a slice out of range, which panics -/
  | outOfRange
  deriving DecidableEq, Repr

/-- The randomness of `Encrypt`: the fresh key pair `R` and the IV. -/
structure EncryptRand (C : Suite) where
  R : C.Priv
  iv : Bytes

namespace Suite

variable (C : Suite)

/-- `elliptic.Unmarshal` of an uncompressed point: its coordinates, when it has 65 bytes, the
format byte `4` and lies on the curve. -/
def Unmarshal (data : Bytes) : Option Bytes :=
  if data.length = 65 ∧ data.headD 0 = 4 ∧ C.IsOnCurve (data.drop 1) = true then some (data.drop 1) else none

/-- `MaxSharedKeyLength` of a key of secp256k1. -/
def MaxSharedKeyLength : ℕ := 32

/-- `GenerateShared`: the X coordinate of the public point times the private key, as many bytes
as asked, with zeros in front. Both keys are of secp256k1, so the check of their curves passes. -/
def GenerateShared (prv : C.Priv) (pub : Bytes) (skLen macLen : ℕ) : Except Error Bytes :=
  if skLen + macLen > MaxSharedKeyLength then .error .ErrSharedKeyTooBig
  else match C.ScalarMult pub prv with
    | none => .error .ErrSharedKeyIsPointAtInfinity
    | some x =>
      -- `copy(sk[len(sk)-len(skBytes):], skBytes)` panics on a coordinate longer than the key
      if x.length > skLen + macLen then .error .outOfRange
      else .ok (List.replicate (skLen + macLen - x.length) 0 ++ x)

/-- The AES key and the MAC key that `Encrypt` and `Decrypt` derive from the ECDH secret and
`s1`: the two halves of the KDF's 32 bytes, the second hashed. -/
def deriveKeys (z s1 : Bytes) : Bytes × Bytes :=
  let K := C.concatKDF z s1 32
  (K.take 16, C.sha256 (K.drop 16))

/-- `messageTag`. -/
def messageTag (km msg shared : Bytes) : Bytes := C.hmac km (msg ++ shared)

/-- `symEncrypt` behind the IV `iv`. -/
def symEncrypt (iv key m : Bytes) : Bytes := iv ++ xorKeyStream (C.ctrStream key iv) 0 m

/-- `symDecrypt`; a ciphertext shorter than the IV panics. -/
def symDecrypt (key ct : Bytes) : Except Error Bytes :=
  if ct.length < 16 then .error .outOfRange
  else .ok (xorKeyStream (C.ctrStream key (ct.take 16)) 0 (ct.drop 16))

/-- `Encrypt` to the public key `pub`. A message that encrypts to no more than the IV gives no
ciphertext and no error. -/
def Encrypt (rand : EncryptRand C) (pub m s1 s2 : Bytes) : Except Error Bytes := do
  let z ← C.GenerateShared rand.R pub 16 16
  let (Ke, Km) := C.deriveKeys z s1
  let em := C.symEncrypt rand.iv Ke m
  if em.length ≤ 16 then return []
  let d := C.messageTag Km em s2
  return 4 :: C.pub rand.R ++ em ++ d

/-- `Decrypt` with the private key `prv`: the point `R` is the first 65 bytes, the tag the last 32. -/
def Decrypt (prv : C.Priv) (c s1 s2 : Bytes) : Except Error Bytes :=
  match c with
  | [] => .error .ErrInvalidMessage
  | c₀ :: _ =>
    if c₀ = 2 ∨ c₀ = 3 ∨ c₀ = 4 then
      if c.length < 65 + 32 + 1 then .error .ErrInvalidMessage
      else
        match C.Unmarshal (c.take 65) with
        | none => .error .ErrInvalidPublicKey
        | some R =>
          if !C.IsOnCurve R then .error .ErrInvalidCurve
          else do
            let z ← C.GenerateShared prv R 16 16
            let (Ke, Km) := C.deriveKeys z s1
            let em := (c.take (c.length - 32)).drop 65
            if c.drop (c.length - 32) ≠ C.messageTag Km em s2 then throw .ErrInvalidMessage
            C.symDecrypt Ke em
    else .error .ErrInvalidPublicKey

variable {C}

/-! ## Key agreement -/

theorem GenerateShared_agree (hC : C.Spec) (a b : C.Priv) :
    ∃ z, z.length = 32 ∧ C.GenerateShared a (C.pub b) 16 16 = .ok z ∧ C.GenerateShared b (C.pub a) 16 16 = .ok z := by
  obtain ⟨x, hx, hab, hba⟩ := hC.agree a b
  refine ⟨List.replicate (16 + 16 - x.length) 0 ++ x, by simp; omega, ?_, ?_⟩
  · rw [GenerateShared, if_neg (by decide), hab]
    simp only [if_neg (show ¬ x.length > 16 + 16 by omega)]
  · rw [GenerateShared, if_neg (by decide), hba]
    simp only [if_neg (show ¬ x.length > 16 + 16 by omega)]

theorem Unmarshal_pub (hC : C.Spec) (k : C.Priv) : C.Unmarshal (4 :: C.pub k) = some (C.pub k) := by
  rw [Unmarshal, if_pos ⟨by simp [hC.length_pub], rfl, hC.isOnCurve_pub k⟩]
  rfl

/-! ## Decryption undoes encryption -/

/-- `Encrypt` to the public key of `k` of a message that is not empty: a ciphertext of 113 bytes
more than the message, starting with the format byte of `R`, that `Decrypt` with `k` and the
same shared data takes back to the message. -/
theorem Decrypt_Encrypt (hC : C.Spec) (rand : EncryptRand C) (hiv : rand.iv.length = 16) (k : C.Priv)
    {m : Bytes} (hm : m ≠ []) (s1 s2 : Bytes) :
    ∃ c, C.Encrypt rand (C.pub k) m s1 s2 = .ok c ∧ c.length = m.length + 113 ∧ c.headD 0 = 4 ∧
      C.Decrypt k c s1 s2 = .ok m := by
  obtain ⟨z, -, hRk, hkR⟩ := GenerateShared_agree hC rand.R k
  set Ke := (C.deriveKeys z s1).1 with hKe
  set Km := (C.deriveKeys z s1).2 with hKm
  set em := C.symEncrypt rand.iv Ke m with hem
  have hml : 0 < m.length := List.length_pos_of_ne_nil hm
  have hlem : em.length = 16 + m.length := by simp [hem, symEncrypt, hiv]
  have hd := hC.length_hmac Km (em ++ s2)
  have hR := hC.length_pub rand.R
  refine ⟨4 :: C.pub rand.R ++ em ++ C.messageTag Km em s2, ?_, ?_, rfl, ?_⟩
  · simp only [Encrypt, hRk, bind, Except.bind, ← hKe, ← hKm, ← hem, if_neg (show ¬ em.length ≤ 16 by omega)]
    rfl
  · simp [messageTag, hd, hR, hlem]
    omega
  -- the point read back is `R`, whose secret with `k` is the sender's, so the tag checks
  set tag := C.messageTag Km em s2 with htag
  have hA : (4 :: C.pub rand.R).length = 65 := by simp [hR]
  have hlt : tag.length = 32 := by simp [htag, messageTag, hd]
  have hc : 4 :: (C.pub rand.R ++ em ++ tag) = (4 :: C.pub rand.R) ++ em ++ tag := rfl
  have hlen : (4 :: (C.pub rand.R ++ em ++ tag)).length = 65 + em.length + 32 := by
    simp only [List.length_cons, List.length_append, hR, hlt]
    omega
  have hend : (4 :: (C.pub rand.R ++ em ++ tag)).length - 32 = ((4 :: C.pub rand.R) ++ em).length := by
    rw [hlen, List.length_append, hA]
    omega
  have htake : (4 :: (C.pub rand.R ++ em ++ tag)).take 65 = 4 :: C.pub rand.R := by
    rw [hc, List.append_assoc, List.take_left' hA]
  have hem' : ((4 :: (C.pub rand.R ++ em ++ tag)).take ((4 :: (C.pub rand.R ++ em ++ tag)).length - 32)).drop 65
      = em := by
    rw [hend, hc, List.take_left, List.drop_left' hA]
  have htag' : (4 :: (C.pub rand.R ++ em ++ tag)).drop ((4 :: (C.pub rand.R ++ em ++ tag)).length - 32) = tag := by
    rw [hend, hc, List.drop_left]
  show C.Decrypt k (4 :: (C.pub rand.R ++ em ++ tag)) s1 s2 = .ok m
  rw [Decrypt]
  dsimp only
  rw [if_pos (by decide), if_neg (by rw [hlen]; omega), htake, Unmarshal_pub hC]
  dsimp only
  rw [if_neg (by simp [hC.isOnCurve_pub]), hkR]
  simp only [bind, Except.bind, ← hKm, ← hKe]
  rw [hem', htag', if_neg (by simp [htag]), symDecrypt, if_neg (by omega)]
  -- the message is the stream added twice
  simp [hem, symEncrypt, List.take_left' hiv, List.drop_left' hiv]

theorem Decrypt_of_headD {prv : C.Priv} {c : Bytes} (h : c.headD 0 ≠ 4) (s1 s2 : Bytes) :
    ∃ e, C.Decrypt prv c s1 s2 = .error e := by
  cases c with
  | nil => exact ⟨_, rfl⟩
  | cons c₀ tl =>
    have h₀ : c₀ ≠ 4 := h
    rw [Decrypt]
    dsimp only
    split_ifs with hfmt hlen
    · exact ⟨_, rfl⟩
    · -- the compressed formats pass the first check, and `Unmarshal` refuses them
      have hun : C.Unmarshal ((c₀ :: tl).take 65) = none := by
        rw [Unmarshal, if_neg]
        rintro ⟨-, h4, -⟩
        exact h₀ (by simpa using h4)
      rw [hun]
      exact ⟨_, rfl⟩
    · exact ⟨_, rfl⟩

end Suite

end EthereumAI.Crypto
