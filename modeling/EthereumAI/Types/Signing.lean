import Mathlib
import EthereumAI.Types.Transaction
import EthereumAI.Rlp.Item
import EthereumAI.Lib.BigEndian

/-! # Signing transactions (`core/types/transaction_signing.go`)

A signer hashes the fields of a transaction other than its signature, `SignTx` signs that hash,
and `SignatureValues` writes the recovery id into `V`: plus 27 for the Frontier and Homestead
signers, and plus `35 + 2 chainId` for an EIP155 signer of a chain id other than 0. `Sender`
reads `V` back, and recovers the key from the signature over the signer's hash.

An EIP155 signer of chain id 0 signs its own hash, which ends with the chain id and two zeros,
but writes `V` as the Homestead signer does; its `Sender` takes such a transaction as
unprotected and recovers over the Homestead hash, which lacks the three fields. So the key it
recovers is that of a signature over another hash.

The primitives (`Keccak256`, `Sign`, `Ecrecover`) are a parameter; `Crypto.Inverts` says that
`Sign` gives valid signatures from which `Ecrecover` gives back the signing key.
-/

namespace EthereumAI.Types

open Rlp

/-- The errors of signing and of recovering a sender. -/
inductive SignError
  | ErrInvalidChainId
  | ErrInvalidSig
  /-- `errors.New("invalid public key")` -/
  | invalidPublicKey
  /-- an error of `crypto.Sign` -/
  | sign
  /-- an error of `crypto.Ecrecover` -/
  | recover
deriving DecidableEq, Repr

/-- The 65 bytes of a signature, `[R || S || V]`, with `V` the recovery id. -/
structure Signature where
  R : ℕ
  S : ℕ
  V : UInt8
deriving DecidableEq, Repr

/-- The primitives signing uses, over private keys of type `K`. -/
structure Crypto (K : Type) where
  /-- `crypto.Keccak256Hash` -/
  Keccak256Hash : Bytes → Hash
  /-- `crypto.Sign` of a hash, or an error -/
  Sign : Hash → K → Option Signature
  /-- `crypto.Ecrecover`: the uncompressed public key of a signature of a hash -/
  Ecrecover : Hash → Signature → Option Bytes
  /-- `crypto.FromECDSAPub` of the public key of a private key -/
  FromECDSAPub : K → Bytes

/-- `secp256k1N`. -/
def secp256k1N : ℕ := 0xFFFFFFFFFFFFFFFFFFFFFFFFFFFFFFFEBAAEDCE6AF48A03BBFD25E8CD0364141

/-- `secp256k1halfN`. -/
def secp256k1halfN : ℕ := secp256k1N / 2

/-- `ValidateSignatureValues`. -/
def ValidateSignatureValues (v : UInt8) (r s : ℤ) (homestead : Bool) : Bool :=
  if r < 1 ∨ s < 1 then false
  -- reject upper range of s values (ECDSA malleability)
  else if homestead ∧ s > secp256k1halfN then false
  else r < secp256k1N ∧ s < secp256k1N ∧ (v = 0 ∨ v = 1)

/-- `x.BitLen()` of a `*big.Int`. -/
def bitLen (x : ℤ) : ℕ := x.natAbs.size

/-- `x.Uint64()` of a `*big.Int`: the low 64 bits of its absolute value. -/
def uint64Of (x : ℤ) : UInt64 := x.natAbs.toUInt64

/-- `deriveChainId`. -/
def deriveChainId (v : ℤ) : ℤ :=
  if bitLen v ≤ 64 then
    let v := uint64Of v
    if v = 27 ∨ v = 28 then 0 else ((v - 35) / 2).toNat
  else (v - 35) / 2

/-- `isProtectedV`. -/
def isProtectedV (V : ℤ) : Bool :=
  if bitLen V ≤ 8 then
    let v := uint64Of V
    v ≠ 27 ∧ v ≠ 28
  -- anything not 27 or 28 are considered unprotected
  else true

/-- `ChainId`: the chain id this transaction was signed for, if at all. -/
def Transaction.ChainId (tx : Transaction) : ℤ := deriveChainId tx.V

/-- `Protected`. -/
def Transaction.Protected (tx : Transaction) : Bool := isProtectedV tx.V

/-! ## Hashes -/

/-- The RLP string of a `uint64` or of a `*big.Int` that is not negative: its big-endian bytes,
none for zero. A negative `*big.Int` fails to encode; the fields a transaction decodes to are
not negative. -/
def intItem (n : ℕ) : Item := .str (bigBytes n)

/-- The RLP string of a `*common.Address`, empty for `nil`. -/
def recipientItem : Option Address → Item
  | none => .str []
  | some a => .str (bigEndianBytes a.val 20)

/-- The fields of `txdata` both hashes begin with. -/
def Transaction.hashItems (tx : Transaction) : List Item :=
  [intItem tx.Nonce.toNat, intItem tx.GasPrice.toNat, intItem tx.Gas.toNat, recipientItem tx.To,
    intItem tx.Value.toNat, .str tx.Data]

namespace Crypto

variable {K : Type} (C : Crypto K)

/-- `rlpHash`. -/
def rlpHash (items : List Item) : Hash := C.Keccak256Hash (Item.list items).encode

/-- `common.BytesToAddress(Keccak256(pub[1:])[12:])`: the low 20 bytes of the hash of the key. -/
def addressOf (pub : Bytes) : Address :=
  ⟨(C.Keccak256Hash (pub.drop 1)).val % 2 ^ 160, Nat.mod_lt _ (Nat.two_pow_pos 160)⟩

/-- `crypto.PubkeyToAddress` of the public key of a private key. -/
def PubkeyToAddress (k : K) : Address := C.addressOf (C.FromECDSAPub k)

/-- `recoverPlain`. -/
def recoverPlain (sighash : Hash) (R S Vb : ℤ) (homestead : Bool) : Except SignError Address :=
  if bitLen Vb > 8 then .error .ErrInvalidSig else
  let V : UInt8 := (uint64Of Vb - 27).toUInt8
  if !ValidateSignatureValues V R S homestead then .error .ErrInvalidSig else
  -- the signature in uncompressed format, `R` and `S` padded to 32 bytes
  match C.Ecrecover sighash ⟨R.toNat, S.toNat, V⟩ with
  | none => .error .recover
  | some pub => if pub.length = 0 ∨ pub.headD 0 ≠ 4 then .error .invalidPublicKey else .ok (C.addressOf pub)

end Crypto

/-! ## Signers -/

/-- `Signer`, with its three implementations. -/
inductive Signer
  /-- `EIP155Signer{chainId, chainIdMul}` -/
  | EIP155 (chainId chainIdMul : ℤ)
  | Homestead
  | Frontier
deriving DecidableEq, Repr

/-- `NewEIP155Signer`. -/
def NewEIP155Signer (chainId : ℤ) : Signer := .EIP155 chainId (chainId * 2)

namespace Signer

/-- `Equal`: a signer of the same kind, and for EIP155 of the same chain id. -/
def Equal : Signer → Signer → Bool
  | .EIP155 chainId _, .EIP155 chainId' _ => chainId' = chainId
  | .Homestead, .Homestead => true
  | .Frontier, .Frontier => true
  | _, _ => false

variable {K : Type} (C : Crypto K)

/-- `Hash`: the EIP155 hash adds the chain id and two zeros to the fields. -/
def Hash : Signer → Transaction → EthereumAI.Hash
  | .EIP155 chainId _, tx => C.rlpHash (tx.hashItems ++ [intItem chainId.toNat, intItem 0, intItem 0])
  | .Homestead, tx | .Frontier, tx => C.rlpHash tx.hashItems

/-- `FrontierSigner.SignatureValues`: `V` is the recovery id plus 27, added in a byte. -/
def frontierValues (sig : Signature) : ℤ × ℤ × ℤ := (sig.R, sig.S, (sig.V + 27).toNat)

/-- `SignatureValues`. -/
def SignatureValues : Signer → Signature → ℤ × ℤ × ℤ
  | .EIP155 chainId chainIdMul, sig =>
    let (R, S, V) := frontierValues sig
    if chainId.sign ≠ 0 then (R, S, (sig.V + 35).toNat + chainIdMul) else (R, S, V)
  | .Homestead, sig | .Frontier, sig => frontierValues sig

/-- `HomesteadSigner.Sender`. -/
def homesteadSender (tx : Transaction) : Except SignError Address :=
  C.recoverPlain (Signer.Homestead.Hash C tx) tx.R tx.S tx.V true

/-- `Sender` of each signer. -/
def Sender : Signer → Transaction → Except SignError Address
  | .EIP155 chainId chainIdMul, tx =>
    if !tx.Protected then homesteadSender C tx
    else if tx.ChainId ≠ chainId then .error .ErrInvalidChainId
    else C.recoverPlain ((Signer.EIP155 chainId chainIdMul).Hash C tx) tx.R tx.S (tx.V - chainIdMul - 8) true
  | .Homestead, tx => homesteadSender C tx
  | .Frontier, tx => C.recoverPlain (Signer.Frontier.Hash C tx) tx.R tx.S tx.V false

end Signer

/-- `WithSignature`: a copy of the transaction with the values of the signature. -/
def Transaction.WithSignature (tx : Transaction) (signer : Signer) (sig : Signature) : Transaction :=
  let (r, s, v) := signer.SignatureValues sig
  { tx with R := r, S := s, V := v }

/-- `sigCache{signer, from}`. -/
structure sigCache where
  signer : Signer
  addr : Address

namespace Crypto

variable {K : Type} (C : Crypto K)

/-- `SignTx`; the copy it returns has an empty sender cache. -/
def SignTx (tx : Transaction) (s : Signer) (prv : K) : Except SignError Transaction :=
  match C.Sign (s.Hash C tx) prv with
  | none => .error .sign
  | some sig => .ok (tx.WithSignature s sig)

/-- `Sender`: the sender cached for an equal signer, or the one the signer recovers, which it
then caches; the cache `tx.from` is passed and returned. -/
def Sender (signer : Signer) (tx : Transaction) (cache : Option sigCache) : Except SignError Address × Option sigCache :=
  match cache.bind fun sc => if sc.signer.Equal signer then some sc.addr else none with
  | some addr => (.ok addr, cache)
  | none =>
    match signer.Sender C tx with
    | .error err => (.error err, cache)
    | .ok addr => (.ok addr, some ⟨signer, addr⟩)

end Crypto

/-! ## What the primitives are assumed to do -/

/-- A signature as `crypto.Sign` makes it: `R` and `S` in range, `S` in the lower half, and a
recovery id of 0 or 1. -/
structure Signature.Valid (sig : Signature) : Prop where
  R_pos : 1 ≤ sig.R
  R_lt : sig.R < secp256k1N
  S_pos : 1 ≤ sig.S
  S_le : sig.S ≤ secp256k1halfN
  V_le : sig.V ≤ 1

/-- `crypto.Sign` signs every hash with a valid signature, from which `Ecrecover` recovers the
public key, which starts with `0x04`. -/
structure Crypto.Inverts {K : Type} (C : Crypto K) : Prop where
  sign : ∀ h k, ∃ sig, C.Sign h k = some sig ∧ sig.Valid ∧ C.Ecrecover h sig = some (C.FromECDSAPub k)
  pub : ∀ k, (C.FromECDSAPub k).headD 0 = 4

namespace Signature.Valid

variable {sig : Signature}

theorem toNat_V_le (hv : sig.Valid) : sig.V.toNat ≤ 1 := by
  have h := UInt8.le_iff_toNat_le.mp hv.V_le
  simpa using h

end Signature.Valid

/-! ## Reading `V` back -/

section V

theorem bitLen_le_iff (x : ℤ) (n : ℕ) : bitLen x ≤ n ↔ x.natAbs < 2 ^ n := Nat.size_le

theorem bitLen_natCast_le_iff (v n : ℕ) : bitLen (v : ℤ) ≤ n ↔ v < 2 ^ n := by
  rw [bitLen_le_iff, Int.natAbs_natCast]

theorem toNat_uint64Of {n : ℕ} (h : n < 2 ^ 64) : (uint64Of n).toNat = n := by
  rw [uint64Of, Int.natAbs_natCast, UInt64.toNat_ofNat', Nat.mod_eq_of_lt h]

theorem uint64Of_eq_iff {n : ℕ} (h : n < 2 ^ 64) (m : UInt64) : uint64Of n = m ↔ n = m.toNat := by
  rw [← UInt64.toNat_inj, toNat_uint64Of h]

theorem toNat_add_of_le_one {v : UInt8} (hv : v ≤ 1) (c : UInt8) (hc : c.toNat < 255) :
    (v + c).toNat = v.toNat + c.toNat := by
  have hv' := UInt8.le_iff_toNat_le.mp hv
  rw [UInt8.toNat_add]
  simp only [UInt8.reduceToNat] at hv'
  omega

theorem toUInt8_uint64Of_sub (v : UInt8) : (uint64Of (v.toNat + 27 : ℕ) - 27).toUInt8 = v := by
  have hlt := v.toNat_lt
  have hu : (uint64Of (v.toNat + 27 : ℕ)).toNat = v.toNat + 27 := toNat_uint64Of (by omega)
  have hle : (27 : UInt64) ≤ uint64Of (v.toNat + 27 : ℕ) := UInt64.le_iff_toNat_le.mpr (by rw [hu]; simp)
  apply UInt8.toNat.inj
  rw [UInt64.toNat_toUInt8, UInt64.toNat_sub_of_le _ _ hle, hu]
  simp only [UInt64.reduceToNat, Nat.add_sub_cancel]
  omega

variable {r : ℕ}

theorem frontier_V (hr : r ≤ 1) :
    isProtectedV ((r + 27 : ℕ) : ℤ) = false ∧ deriveChainId ((r + 27 : ℕ) : ℤ) = 0 := by
  have h27 : uint64Of ((r + 27 : ℕ) : ℤ) = 27 ∨ uint64Of ((r + 27 : ℕ) : ℤ) = 28 := by
    rw [uint64Of_eq_iff (by omega), uint64Of_eq_iff (by omega)]
    simp only [UInt64.reduceToNat]
    omega
  constructor
  · unfold isProtectedV
    rw [if_pos ((bitLen_natCast_le_iff _ _).mpr (by omega))]
    dsimp only
    rcases h27 with h | h <;> rw [h] <;> decide
  · unfold deriveChainId
    rw [if_pos ((bitLen_natCast_le_iff _ _).mpr (by omega))]
    dsimp only
    rw [if_pos h27]

/-- An EIP155 `V`, for a chain id other than 0, is protected and gives the chain id back. -/
theorem eip155_V (hr : r ≤ 1) {c : ℕ} (hc : 0 < c) :
    isProtectedV ((r + 35 + c * 2 : ℕ) : ℤ) = true ∧ deriveChainId ((r + 35 + c * 2 : ℕ) : ℤ) = c := by
  constructor
  · unfold isProtectedV
    by_cases hb : bitLen ((r + 35 + c * 2 : ℕ) : ℤ) ≤ 8
    · -- a small `V` is neither 27 nor 28
      have hlt : r + 35 + c * 2 < 2 ^ 64 := by
        have := (bitLen_natCast_le_iff _ _).mp hb
        omega
      rw [if_pos hb]
      simp only [ne_eq, uint64Of_eq_iff hlt, UInt64.reduceToNat, decide_eq_true_eq]
      omega
    · rw [if_neg hb]
  · unfold deriveChainId
    by_cases hb : bitLen ((r + 35 + c * 2 : ℕ) : ℤ) ≤ 64
    · -- the `uint64` path
      have hlt : r + 35 + c * 2 < 2 ^ 64 := (bitLen_natCast_le_iff _ _).mp hb
      have hne : ¬(uint64Of ((r + 35 + c * 2 : ℕ) : ℤ) = 27 ∨ uint64Of ((r + 35 + c * 2 : ℕ) : ℤ) = 28) := by
        rw [uint64Of_eq_iff hlt, uint64Of_eq_iff hlt]
        simp only [UInt64.reduceToNat]
        omega
      have h35 : (35 : UInt64) ≤ uint64Of ((r + 35 + c * 2 : ℕ) : ℤ) :=
        UInt64.le_iff_toNat_le.mpr (by rw [toNat_uint64Of hlt]; simp only [UInt64.reduceToNat]; omega)
      rw [if_pos hb]
      dsimp only
      rw [if_neg hne, UInt64.toNat_div, UInt64.toNat_sub_of_le _ _ h35, toNat_uint64Of hlt]
      simp only [UInt64.reduceToNat]
      omega
    · rw [if_neg hb]
      omega

end V

/-! ## Recovering the signer -/

section Recover

variable {K : Type} {C : Crypto K}

/-- `recoverPlain` recovers the key of a valid signature from its values, `V` being the recovery
id plus 27. -/
theorem recoverPlain_valid {sig : Signature} {h : Hash} {pub : Bytes} (homestead : Bool) (hv : sig.Valid)
    (hrec : C.Ecrecover h sig = some pub) (hpub : pub.headD 0 = 4) :
    C.recoverPlain h sig.R sig.S (sig.V.toNat + 27 : ℕ) homestead = .ok (C.addressOf pub) := by
  have hV' := hv.toNat_V_le
  obtain ⟨hR₁, hR₂, hS₁, hS₂, -⟩ := hv
  have hbit : ¬bitLen ((sig.V.toNat + 27 : ℕ) : ℤ) > 8 := by
    rw [not_lt, bitLen_natCast_le_iff]
    omega
  have hS₃ : sig.S < secp256k1N := lt_of_le_of_lt hS₂ (by unfold secp256k1halfN secp256k1N; omega)
  -- the values pass `ValidateSignatureValues`, in either rules
  have hval : ValidateSignatureValues sig.V sig.R sig.S homestead = true := by
    have hv01 : sig.V = 0 ∨ sig.V = 1 := by
      rw [← UInt8.toNat_inj, ← UInt8.toNat_inj]
      simp only [UInt8.reduceToNat]
      omega
    unfold ValidateSignatureValues
    rw [if_neg (by omega), if_neg (fun h => by have := h.2; omega)]
    exact decide_eq_true ⟨by omega, by omega, hv01⟩
  have hsig : (⟨((sig.R : ℕ) : ℤ).toNat, ((sig.S : ℕ) : ℤ).toNat, sig.V⟩ : Signature) = sig := by simp
  have hne : ¬(pub.length = 0 ∨ pub.headD 0 ≠ 4) := by
    rintro (hl | hh)
    · rw [List.length_eq_zero_iff.mp hl] at hpub
      cases hpub
    · exact hh hpub
  unfold Crypto.recoverPlain
  rw [if_neg hbit]
  dsimp only
  rw [toUInt8_uint64Of_sub, hval, Bool.not_true, if_neg Bool.false_ne_true, hsig, hrec]
  dsimp only
  rw [if_neg hne]

theorem WithSignature_eq (tx : Transaction) (signer : Signer) (sig : Signature) :
    tx.WithSignature signer sig =
      { tx with R := (signer.SignatureValues sig).1, S := (signer.SignatureValues sig).2.1,
                V := (signer.SignatureValues sig).2.2 } := by
  unfold Transaction.WithSignature
  rfl

theorem Hash_WithSignature (tx : Transaction) (s signer : Signer) (sig : Signature) :
    s.Hash C (tx.WithSignature signer sig) = s.Hash C tx := by
  rw [WithSignature_eq]
  cases s <;> rfl

theorem SignatureValues_frontier {sig : Signature} (hv : sig.V ≤ 1) :
    Signer.frontierValues sig = ((sig.R : ℤ), (sig.S : ℤ), ((sig.V.toNat + 27 : ℕ) : ℤ)) := by
  rw [Signer.frontierValues, toNat_add_of_le_one hv 27 (by decide)]
  rfl

theorem SignatureValues_eip155 {sig : Signature} (hv : sig.V ≤ 1) {c : ℕ} (hc : 0 < c) :
    (NewEIP155Signer c).SignatureValues sig = ((sig.R : ℤ), (sig.S : ℤ), ((sig.V.toNat + 35 + c * 2 : ℕ) : ℤ)) := by
  have hsign : (c : ℤ).sign = 1 := Int.sign_eq_one_of_pos (by omega)
  simp only [NewEIP155Signer, Signer.SignatureValues, SignatureValues_frontier hv, hsign, ne_eq,
    one_ne_zero, not_false_eq_true, if_true, toNat_add_of_le_one hv 35 (by decide)]
  push_cast
  rfl

theorem SignatureValues_eip155_zero {sig : Signature} (hv : sig.V ≤ 1) :
    (NewEIP155Signer 0).SignatureValues sig = ((sig.R : ℤ), (sig.S : ℤ), ((sig.V.toNat + 27 : ℕ) : ℤ)) := by
  simp only [NewEIP155Signer, Signer.SignatureValues, SignatureValues_frontier hv, Int.sign_zero, ne_eq,
    not_true_eq_false, if_false]

end Recover

/-! ## Each signer recovers what it signed -/

section Signers

variable {K : Type} {C : Crypto K}

namespace Signer

variable {chainId chainIdMul : ℤ} {tx : Transaction}

theorem Sender_eip155_unprotected (h : tx.Protected = false) :
    (EIP155 chainId chainIdMul).Sender C tx = homesteadSender C tx := by
  simp only [Sender, h, Bool.not_false, if_true]

theorem Sender_eip155_chainId_ne (h : tx.Protected = true) (hc : tx.ChainId ≠ chainId) :
    (EIP155 chainId chainIdMul).Sender C tx = .error .ErrInvalidChainId := by
  simp only [Sender, h, Bool.not_true, Bool.false_eq_true, if_false, ne_eq, hc, not_false_eq_true, if_true]

theorem Sender_eip155_protected (h : tx.Protected = true) (hc : tx.ChainId = chainId) :
    (EIP155 chainId chainIdMul).Sender C tx =
      C.recoverPlain ((EIP155 chainId chainIdMul).Hash C tx) tx.R tx.S (tx.V - chainIdMul - 8) true := by
  simp only [Sender, h, Bool.not_true, Bool.false_eq_true, if_false, ne_eq, hc, not_true_eq_false]

end Signer

variable (hC : C.Inverts) (tx : Transaction) (k : K)
include hC

theorem SignTx_signs (s : Signer) :
    ∃ sig, sig.Valid ∧ C.Ecrecover (s.Hash C tx) sig = some (C.FromECDSAPub k) ∧
      C.SignTx tx s k = .ok (tx.WithSignature s sig) := by
  obtain ⟨sig, hsign, hv, hrec⟩ := hC.sign (s.Hash C tx) k
  refine ⟨sig, hv, hrec, ?_⟩
  rw [Crypto.SignTx, hsign]

theorem Sender_SignTx_frontier :
    ∃ tx', C.SignTx tx .Frontier k = .ok tx' ∧ Signer.Frontier.Sender C tx' = .ok (C.PubkeyToAddress k) := by
  obtain ⟨sig, hv, hrec, hsign⟩ := SignTx_signs hC tx k .Frontier
  refine ⟨_, hsign, ?_⟩
  rw [Signer.Sender, Hash_WithSignature, WithSignature_eq]
  simp only [Signer.SignatureValues, SignatureValues_frontier hv.V_le]
  exact recoverPlain_valid false hv hrec (hC.pub k)

theorem Sender_SignTx_homestead :
    ∃ tx', C.SignTx tx .Homestead k = .ok tx' ∧ Signer.Homestead.Sender C tx' = .ok (C.PubkeyToAddress k) := by
  obtain ⟨sig, hv, hrec, hsign⟩ := SignTx_signs hC tx k .Homestead
  refine ⟨_, hsign, ?_⟩
  rw [Signer.Sender, Signer.homesteadSender, Hash_WithSignature, WithSignature_eq]
  simp only [Signer.SignatureValues, SignatureValues_frontier hv.V_le]
  exact recoverPlain_valid true hv hrec (hC.pub k)

/-- An EIP155 signer of a chain id other than 0 writes a protected `V` of its chain id, recovers
the signing key's address, and a signer of another chain id refuses the transaction. -/
theorem Sender_SignTx_eip155 {c : ℕ} (hc : 0 < c) :
    ∃ tx', C.SignTx tx (NewEIP155Signer c) k = .ok tx' ∧ tx'.Protected = true ∧ tx'.ChainId = c ∧
      (NewEIP155Signer c).Sender C tx' = .ok (C.PubkeyToAddress k) ∧
      ∀ c' : ℤ, c' ≠ c → (NewEIP155Signer c').Sender C tx' = .error .ErrInvalidChainId := by
  obtain ⟨sig, hv, hrec, hsign⟩ := SignTx_signs hC tx k (NewEIP155Signer c)
  obtain ⟨hprot, hchain⟩ := eip155_V hv.toNat_V_le hc
  have hvals := SignatureValues_eip155 hv.V_le hc
  have hV : (tx.WithSignature (NewEIP155Signer c) sig).V = ((sig.V.toNat + 35 + c * 2 : ℕ) : ℤ) := by
    rw [WithSignature_eq, hvals]
  have hP : (tx.WithSignature (NewEIP155Signer c) sig).Protected = true := by
    rw [Transaction.Protected, hV, hprot]
  have hI : (tx.WithSignature (NewEIP155Signer c) sig).ChainId = c := by
    rw [Transaction.ChainId, hV, hchain]
  refine ⟨_, hsign, hP, hI, ?_, ?_⟩
  · -- `Sender` takes `2 c + 8` off `V`, which leaves the recovery id plus 27
    have hsub : ((sig.V.toNat + 35 + c * 2 : ℕ) : ℤ) - c * 2 - 8 = ((sig.V.toNat + 27 : ℕ) : ℤ) := by
      push_cast
      ring
    simp only [NewEIP155Signer] at hrec hvals hP hI ⊢
    rw [Signer.Sender_eip155_protected hP hI, Hash_WithSignature, WithSignature_eq, hvals]
    dsimp only
    rw [hsub]
    exact recoverPlain_valid true hv hrec (hC.pub k)
  · intro c' hc'
    exact Signer.Sender_eip155_chainId_ne hP (by rw [hI]; exact hc'.symm)

theorem Sender_SignTx_eip155_zero :
    ∃ sig tx', sig.Valid ∧ C.Sign ((NewEIP155Signer 0).Hash C tx) k = some sig ∧
      C.SignTx tx (NewEIP155Signer 0) k = .ok tx' ∧ tx'.Protected = false ∧ tx'.ChainId = 0 ∧
      (NewEIP155Signer 0).Sender C tx' =
        C.recoverPlain (Signer.Homestead.Hash C tx) sig.R sig.S (sig.V.toNat + 27 : ℕ) true := by
  obtain ⟨sig, hsign, hv, -⟩ := hC.sign ((NewEIP155Signer 0).Hash C tx) k
  obtain ⟨hprot, hchain⟩ := frontier_V hv.toNat_V_le
  have hV : (tx.WithSignature (NewEIP155Signer 0) sig).V = ((sig.V.toNat + 27 : ℕ) : ℤ) := by
    rw [WithSignature_eq, SignatureValues_eip155_zero hv.V_le]
  have hP : (tx.WithSignature (NewEIP155Signer 0) sig).Protected = false := by
    rw [Transaction.Protected, hV, hprot]
  refine ⟨sig, _, hv, hsign, by rw [Crypto.SignTx, hsign], hP, by rw [Transaction.ChainId, hV, hchain], ?_⟩
  have hvals := SignatureValues_eip155_zero hv.V_le
  simp only [NewEIP155Signer] at hP hvals ⊢
  rw [Signer.Sender_eip155_unprotected hP, Signer.homesteadSender, Hash_WithSignature, WithSignature_eq, hvals]

end Signers

/-! ## The sender cache -/

namespace Crypto

variable {K : Type} {C : Crypto K} {signer : Signer} {tx : Transaction} {cache : Option sigCache}

theorem uncached_bind (h : ∀ sc ∈ cache, sc.signer.Equal signer = false) :
    (cache.bind fun sc => if sc.signer.Equal signer then some sc.addr else none) = none := by
  rcases cache with _ | sc
  · rfl
  · simp only [Option.bind_some, h sc rfl, Bool.false_eq_true, if_false]

theorem Sender_fst_of_uncached (h : ∀ sc ∈ cache, sc.signer.Equal signer = false) :
    (C.Sender signer tx cache).1 = signer.Sender C tx := by
  unfold Sender
  rw [uncached_bind h]
  dsimp only
  rcases signer.Sender C tx with err | addr <;> rfl

theorem Sender_of_ok {addr : Address} (h : ∀ sc ∈ cache, sc.signer.Equal signer = false)
    (hs : signer.Sender C tx = .ok addr) : C.Sender signer tx cache = (.ok addr, some ⟨signer, addr⟩) := by
  unfold Sender
  rw [uncached_bind h]
  dsimp only
  rw [hs]

end Crypto

theorem Equal_NewEIP155Signer (c c' : ℤ) : (NewEIP155Signer c).Equal (NewEIP155Signer c') = decide (c' = c) := rfl

section Cache

variable {K : Type} {C : Crypto K} (hC : C.Inverts) (tx : Transaction) (k : K)
include hC

theorem Sender_cache_SignTx_eip155 {c : ℕ} (hc : 0 < c) :
    ∃ tx', C.SignTx tx (NewEIP155Signer c) k = .ok tx' ∧
      C.Sender (NewEIP155Signer c) tx' none =
        (.ok (C.PubkeyToAddress k), some ⟨NewEIP155Signer c, C.PubkeyToAddress k⟩) ∧
      ∀ c' : ℤ, c' ≠ c → ∀ cache ∈ [none, some ⟨NewEIP155Signer c, C.PubkeyToAddress k⟩],
        (C.Sender (NewEIP155Signer c') tx' cache).1 = .error .ErrInvalidChainId := by
  obtain ⟨tx', hsign, -, -, hsend, hother⟩ := Sender_SignTx_eip155 hC tx k hc
  refine ⟨tx', hsign, Crypto.Sender_of_ok (by simp) hsend, ?_⟩
  intro c' hc' cache hcache
  have hneq : ∀ sc ∈ cache, sc.signer.Equal (NewEIP155Signer c') = false := by
    intro sc hsc
    simp only [List.mem_cons, List.not_mem_nil, or_false] at hcache
    rcases hcache with rfl | rfl
    · cases hsc
    · cases hsc
      rw [Equal_NewEIP155Signer, decide_eq_false_iff_not]
      exact hc'
  rw [Crypto.Sender_fst_of_uncached hneq]
  exact hother c' hc'

end Cache

/-! ## A chain id of 0 -/

/-- A stand-in for the primitives that meets `Crypto.Inverts`: the hash is the length and the
bytes of its input, the signature's `R` the key plus the hash's low byte, and the recovered key
`R` less the hash's low byte. -/
def toyCrypto : Crypto ℕ where
  Keccak256Hash b := ⟨(b.length + 256 * Lib.BigEndian.value b) % 2 ^ 256, Nat.mod_lt _ (Nat.two_pow_pos 256)⟩
  Sign h k := some ⟨1 + (k + h.val) % 256, 1, 0⟩
  Ecrecover h sig := some [4, ((sig.R + 255 - h.val % 256) % 256).toUInt8]
  FromECDSAPub k := [4, k.toUInt8]

theorem toyCrypto_inverts : toyCrypto.Inverts where
  sign h k := by
    have hlow : (k + h.val) % 256 < 256 := Nat.mod_lt _ (by omega)
    refine ⟨_, rfl, ?_, ?_⟩
    · constructor <;> dsimp only
      · omega
      · unfold secp256k1N
        omega
      · exact le_refl 1
      · unfold secp256k1halfN secp256k1N
        omega
      · decide
    · -- the low byte of the hash cancels
      have hk : (1 + (k + h.val) % 256 + 255 - h.val % 256) % 256 = k % 256 := by omega
      simp only [toyCrypto, hk, List.cons.injEq, Option.some.injEq, and_true, true_and]
      apply UInt8.toNat.inj
      simp [Nat.toUInt8, UInt8.toNat_ofNat']
  pub _ := rfl

/-- The transaction of zeros, to no recipient and with no data. -/
def zeroTx : Transaction := ⟨0, 0, 0, none, 0, [], 0, 0, 0⟩

theorem toy_eip155_hash : ((NewEIP155Signer 0).Hash toyCrypto zeroTx).val % 256 = 10 := by decide

theorem toy_homestead_hash : (Signer.Homestead.Hash toyCrypto zeroTx).val % 256 = 7 := by decide

/-- Key 5 signs the transaction of zeros with the EIP155 signer of chain id 0; `Sender` recovers
the key 8, and not the address of key 5. -/
theorem Sender_chain_zero_not_signer :
    toyCrypto.Inverts ∧ ∃ tx', toyCrypto.SignTx zeroTx (NewEIP155Signer 0) 5 = .ok tx' ∧
      (toyCrypto.Sender (NewEIP155Signer 0) tx' none).1 ≠ .ok (toyCrypto.PubkeyToAddress 5) := by
  obtain ⟨sig, tx', hv, hsign, htx, -, -, hsend⟩ := Sender_SignTx_eip155_zero toyCrypto_inverts zeroTx 5
  refine ⟨toyCrypto_inverts, tx', htx, ?_⟩
  have hsig : sig = ⟨16, 1, 0⟩ := by
    rw [← Option.some.inj hsign]
    rw [Nat.add_mod, toy_eip155_hash]
  have hrec : toyCrypto.Ecrecover (Signer.Homestead.Hash toyCrypto zeroTx) sig = some [4, 8] := by
    rw [hsig]
    change some [4, ((16 + 255 - (Signer.Homestead.Hash toyCrypto zeroTx).val % 256) % 256).toUInt8] = _
    rw [toy_homestead_hash]
    rfl
  rw [Crypto.Sender_fst_of_uncached (by simp), hsend, recoverPlain_valid true hv hrec rfl]
  decide

end EthereumAI.Types
