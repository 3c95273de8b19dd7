import EthereumAI.Rlp.Decode
import EthereumAI.Rlp.InList
import EthereumAI.Lib.SortSearch

/-! # Node records (`p2p/enr/enr.go`, `p2p/enr/idscheme.go`)

A record is a sequence number, a signature, its RLP encoding and key/value pairs sorted by key.
`Set` puts a pair in place by binary search and invalidates the signature; `Load` finds a pair
by the same search. The pairs stay sorted without duplicate keys, and `Load` returns the value
of the last `Set` of its key.

`Set` increments the sequence number only when the record is unsigned, though its documentation
says it does so when the record is signed. The first `Set` after signing keeps the number, so a
record re-signed with `SetSig` carries new content under a number it has already signed.

An entry is its key and the RLP item its value encodes to. `Load` returns the raw value; it is
decoded into the entry by `rlp.DecodeBytes`, which the identity scheme does for the keys it
reads. Keys are Go strings, compared bytewise.
-/

namespace EthereumAI.Enr

open Rlp Lib StateExcept

/-- `SizeLimit`. -/
def SizeLimit : ℕ := 300

/-- The errors of records. -/
inductive Err where
  | errNoID
  | errInvalidSig
  | errNotSorted
  | errDuplicateKey
  | errIncompletePair
  | errTooBig
  | errEncodeUnsigned
  | errNotFound
  /-- `invalid public key` -/
  | invalidPublicKey
  /-- an error of the RLP stream -/
  | rlp (err : Rlp.Err)
  /-- an error of "crypto.Sign" -/
  | crypto
  /-- `KeyError`: an error of `Load`, with the key -/
  | KeyError (Key : Bytes) (Err : Err)

/-- A key/value pair; the value is an `rlp.RawValue`. -/
structure pair where
  k : Bytes
  v : Bytes
deriving DecidableEq, Repr

structure Record where
  seq : UInt64
  /-- the signature; `none` is nil -/
  signature : Option Bytes
  /-- the RLP encoding of the signed record -/
  raw : Bytes
  /-- the pairs, sorted by key -/
  pairs : List pair
deriving DecidableEq, Repr

/-- The zero `Record`. -/
def Record.empty : Record := ⟨0, none, [], []⟩

/-- An entry: its key and the RLP item of its value. -/
structure Entry where
  ENRKey : Bytes
  value : Item

/-! ## Set and Load -/

/-- The search of `Load` and `Set`: the first pair whose key is not below `key`. -/
def searchKey (pairs : List pair) (key : Bytes) : ℕ :=
  Sort.Search pairs.length fun i => (pairs[i]?).any fun p => decide (key ≤ p.k)

namespace Record

/-- `Signed`. -/
def Signed (r : Record) : Bool := r.signature.isSome

/-- `SetSeq`: the signature is dropped. -/
def SetSeq (r : Record) (s : UInt64) : Record := { r with signature := none, raw := [], seq := s }

/-- `Load` of a key: its raw value. -/
def Load (r : Record) (key : Bytes) : Except Err Bytes :=
  match r.pairs[searchKey r.pairs key]? with
  | some p => if p.k = key then .ok p.v else .error (.KeyError key .errNotFound)
  | none => .error (.KeyError key .errNotFound)

/-- `invalidate`: the sequence number goes up if the record is unsigned, and the signature goes. -/
def invalidate (r : Record) : Record :=
  { r with seq := if r.signature.isNone then r.seq + 1 else r.seq, signature := none, raw := [] }

/-- `Set`: the value replaces the pair of its key, goes before the first greater key, or at the
end. -/
def Set (r : Record) (e : Entry) : Record :=
  let blob := e.value.encode
  let r := r.invalidate
  let i := searchKey r.pairs e.ENRKey
  let pairs :=
    match r.pairs[i]? with
    | some p => if p.k = e.ENRKey then r.pairs.set i { p with v := blob } else r.pairs.insertIdx i ⟨e.ENRKey, blob⟩
    | none => r.pairs ++ [⟨e.ENRKey, blob⟩]
  { r with pairs := pairs }

end Record

/-! ## Sorted pairs

The meaning of the pairs: an association list sorted by key. `firstGE` is where a key belongs,
`upsert` puts a value at its key, `lookup` finds it. -/

/-- Sorted by key, without duplicates. -/
def Sorted (pairs : List pair) : Prop := pairs.Pairwise fun a b => a.k < b.k

/-- The index of the first key not below `key`. -/
def firstGE (key : Bytes) : List pair → ℕ
  | [] => 0
  | p :: ps => if key ≤ p.k then 0 else firstGE key ps + 1

/-- The pairs with `blob` at `key`. -/
def upsert (key blob : Bytes) : List pair → List pair
  | [] => [⟨key, blob⟩]
  | p :: ps =>
    if key ≤ p.k then (if p.k = key then ⟨p.k, blob⟩ :: ps else ⟨key, blob⟩ :: p :: ps)
    else p :: upsert key blob ps

/-- The value at `key`. -/
def lookup (key : Bytes) (pairs : List pair) : Option Bytes := (pairs.find? fun p => p.k = key).map (·.v)

section Sorted

variable {key blob : Bytes}

/-- `firstGE` is the threshold of `key ≤ k` on sorted pairs. -/
theorem firstGE_spec (key : Bytes) : ∀ {pairs : List pair}, Sorted pairs →
    firstGE key pairs ≤ pairs.length ∧ ∀ j (hj : j < pairs.length), key ≤ pairs[j].k ↔ firstGE key pairs ≤ j
  | [], _ => ⟨Nat.le_refl _, fun j hj => absurd hj (Nat.not_lt_zero j)⟩
  | p :: ps, hs => by
    obtain ⟨hp, hps⟩ := List.pairwise_cons.1 hs
    obtain ⟨hle, hth⟩ := firstGE_spec key hps
    by_cases hk : key ≤ p.k
    · -- every key from the head on is not below `key`
      refine ⟨by simp [firstGE, hk], fun j hj => ?_⟩
      simp only [firstGE, hk, if_true, Nat.zero_le, iff_true]
      cases j with
      | zero => exact hk
      | succ j =>
        have hj' : j < ps.length := by simpa using hj
        have hq : p.k < ps[j].k := hp _ (List.getElem_mem hj')
        exact List.le_of_lt (List.lt_of_le_of_lt hk hq)
    · refine ⟨by simp [firstGE, hk]; omega, fun j hj => ?_⟩
      simp only [firstGE, hk, if_false]
      cases j with
      | zero => simpa using hk
      | succ j =>
        simp only [List.getElem_cons_succ]
        rw [hth j (by simpa using hj)]
        omega

/-- On sorted pairs the binary search finds the threshold. -/
theorem searchKey_eq {pairs : List pair} (hs : Sorted pairs) : searchKey pairs key = firstGE key pairs := by
  have hmono : Sort.Monotone pairs.length fun i => (pairs[i]?).any fun p => decide (key ≤ p.k) := by
    intro a b hab hb ha
    have ha' : a < pairs.length := by omega
    simp only [List.getElem?_eq_getElem ha', List.getElem?_eq_getElem hb, Option.any_some,
      decide_eq_true_eq] at ha ⊢
    exact ((firstGE_spec key hs).2 b hb).2 (Nat.le_trans (((firstGE_spec key hs).2 a ha').1 ha) hab)
  obtain ⟨hS, hSth⟩ := Sort.Search_spec hmono
  obtain ⟨hF, hFth⟩ := firstGE_spec key hs
  unfold searchKey
  generalize Sort.Search pairs.length (fun i => (pairs[i]?).any fun p => decide (key ≤ p.k)) = S at hS hSth ⊢
  have hiff : ∀ j < pairs.length, (S ≤ j ↔ firstGE key pairs ≤ j) := by
    intro j hj
    rw [← hSth j hj, ← hFth j hj, List.getElem?_eq_getElem hj, Option.any_some, decide_eq_true_eq]
  by_contra hne
  rcases Nat.lt_or_gt_of_ne hne with hlt | hlt
  · have := (hiff S (by omega)).1 (Nat.le_refl _)
    omega
  · have := (hiff _ (by omega)).2 (Nat.le_refl _)
    omega

/-- The cases of `Set` at the threshold are `upsert`, on any pairs. -/
theorem setAt_firstGE (blob : Bytes) : ∀ pairs : List pair,
    (match pairs[firstGE key pairs]? with
      | some p => if p.k = key then pairs.set (firstGE key pairs) { p with v := blob }
        else pairs.insertIdx (firstGE key pairs) ⟨key, blob⟩
      | none => pairs ++ [⟨key, blob⟩]) = upsert key blob pairs
  | [] => rfl
  | p :: ps => by
    by_cases hk : key ≤ p.k
    · by_cases hp : p.k = key
      · simp [firstGE, upsert, hp]
      · simp [firstGE, upsert, hk, hp]
    · have ih := setAt_firstGE blob ps
      simp only [firstGE, upsert, hk, if_false, List.getElem?_cons_succ] at ih ⊢
      revert ih
      cases ps[firstGE key ps]? with
      | none => intro ih; simp [ih]
      | some q =>
        by_cases hq : q.k = key
        · intro ih; simp [hq] at ih ⊢; exact ih
        · intro ih; simp [hq] at ih ⊢; exact ih

theorem mem_upsert {q : pair} : ∀ {pairs : List pair}, q ∈ upsert key blob pairs → q.k = key ∨ ∃ p ∈ pairs, p.k = q.k
  | [], h => by simp_all [upsert]
  | p :: ps, h => by
    unfold upsert at h
    split_ifs at h with hk hp
    · rcases List.mem_cons.1 h with rfl | h
      · exact .inr ⟨p, by simp, rfl⟩
      · exact .inr ⟨q, by simp [h], rfl⟩
    · rcases List.mem_cons.1 h with rfl | h
      · exact .inl rfl
      · exact .inr ⟨q, h, rfl⟩
    · rcases List.mem_cons.1 h with rfl | h
      · exact .inr ⟨q, by simp, rfl⟩
      · rcases mem_upsert h with h | ⟨p', hp', he⟩
        · exact .inl h
        · exact .inr ⟨p', by simp [hp'], he⟩

theorem upsert_sorted : ∀ {pairs : List pair}, Sorted pairs → Sorted (upsert key blob pairs)
  | [], _ => List.pairwise_singleton _ _
  | p :: ps, hs => by
    obtain ⟨hp, hps⟩ := List.pairwise_cons.1 hs
    unfold upsert
    split_ifs with hk he
    · exact List.pairwise_cons.2 ⟨fun q hq => he ▸ hp q hq, hps⟩
    · -- the new key goes before a greater one
      have hlt : key < p.k := by
        rcases List.le_iff_lt_or_eq.1 hk with h | h
        · exact h
        · exact absurd h.symm he
      refine List.pairwise_cons.2 ⟨fun q hq => ?_, hs⟩
      rcases List.mem_cons.1 hq with rfl | hq
      · exact hlt
      · exact List.lt_trans hlt (hp q hq)
    · refine List.pairwise_cons.2 ⟨fun q hq => ?_, upsert_sorted hps⟩
      rcases mem_upsert hq with h | ⟨p', hp', he'⟩
      · rw [h]
        exact List.not_le.1 hk
      · rw [← he']
        exact hp p' hp'

@[simp] theorem lookup_nil (k : Bytes) : lookup k [] = none := rfl

theorem lookup_cons (k : Bytes) (p : pair) (ps : List pair) :
    lookup k (p :: ps) = if p.k = k then some p.v else lookup k ps := by
  by_cases h : p.k = k <;> simp [lookup, h]

theorem lookup_upsert (k : Bytes) : ∀ pairs : List pair,
    lookup k (upsert key blob pairs) = if k = key then some blob else lookup k pairs
  | [] => by
    simp only [upsert, lookup_cons, lookup_nil]
    by_cases h : k = key
    · simp [h]
    · simp [h, Ne.symm h]
  | p :: ps => by
    by_cases hk : key ≤ p.k
    · by_cases he : p.k = key
      · -- the pair of `key` gets the new value
        rw [upsert, if_pos hk, if_pos he, lookup_cons, lookup_cons, he]
        by_cases h : k = key
        · simp [h]
        · simp [h, Ne.symm h]
      · rw [upsert, if_pos hk, if_neg he, lookup_cons]
        by_cases h : k = key
        · simp [h]
        · simp [h, Ne.symm h]
    · -- the key is further on, so the head is not it
      have hne : p.k ≠ key := fun h => hk (List.le_iff_lt_or_eq.2 (.inr h.symm))
      rw [upsert, if_neg hk, lookup_cons, lookup_cons, lookup_upsert k ps]
      by_cases h : k = key
      · simp [h, hne]
      · simp [h]

theorem lookup_eq_none_of_lt (k : Bytes) : ∀ {pairs : List pair}, (∀ q ∈ pairs, k < q.k) → lookup k pairs = none
  | [], _ => rfl
  | p :: ps, h => by
    have hne : p.k ≠ k := fun he => List.lt_irrefl k (he ▸ h p List.mem_cons_self)
    rw [lookup_cons, if_neg hne]
    exact lookup_eq_none_of_lt k fun q hq => h q (List.mem_cons_of_mem p hq)

theorem lookup_eq_firstGE : ∀ {pairs : List pair}, Sorted pairs →
    lookup key pairs = (pairs[firstGE key pairs]?).bind fun p => if p.k = key then some p.v else none
  | [], _ => rfl
  | p :: ps, hs => by
    obtain ⟨hp, hps⟩ := List.pairwise_cons.1 hs
    rw [lookup_cons]
    by_cases hk : key ≤ p.k
    · -- the head is the threshold; past it every key is greater
      simp only [firstGE, if_pos hk, List.getElem?_cons_zero, Option.bind_some]
      by_cases he : p.k = key
      · simp [he]
      · have hlt : key < p.k := (List.le_iff_lt_or_eq.1 hk).resolve_right fun h => he h.symm
        rw [if_neg he, if_neg he]
        exact lookup_eq_none_of_lt key fun q hq => List.lt_trans hlt (hp q hq)
    · have hne : p.k ≠ key := fun h => hk (List.le_iff_lt_or_eq.2 (.inr h.symm))
      simp only [firstGE, if_neg hk, if_neg hne, List.getElem?_cons_succ]
      exact lookup_eq_firstGE hps

end Sorted

/-! ## Set and Load on sorted pairs -/

namespace Record

variable {r : Record}

@[simp] theorem invalidate_pairs (r : Record) : r.invalidate.pairs = r.pairs := rfl

theorem Set_seq (r : Record) (e : Entry) :
    (r.Set e).Signed = false ∧ (r.Set e).seq = if r.Signed then r.seq else r.seq + 1 := by
  cases h : r.signature <;> simp [Set, invalidate, Signed, h]

theorem Set_pairs (hs : Sorted r.pairs) (e : Entry) : (r.Set e).pairs = upsert e.ENRKey e.value.encode r.pairs := by
  simp only [Set, invalidate_pairs]
  rw [searchKey_eq hs]
  exact setAt_firstGE _ r.pairs

theorem Set_sorted (hs : Sorted r.pairs) (e : Entry) : Sorted (r.Set e).pairs := by
  rw [Set_pairs hs]
  exact upsert_sorted hs

theorem Load_eq_lookup (hs : Sorted r.pairs) (key : Bytes) :
    r.Load key = match lookup key r.pairs with
      | some v => .ok v
      | none => .error (.KeyError key .errNotFound) := by
  unfold Load
  rw [searchKey_eq hs, lookup_eq_firstGE hs]
  cases r.pairs[firstGE key r.pairs]? with
  | none => rfl
  | some p =>
    by_cases he : p.k = key
    · simp [he]
    · simp [he]

theorem Load_Set (hs : Sorted r.pairs) (e : Entry) (key : Bytes) :
    (r.Set e).Load key = if key = e.ENRKey then .ok e.value.encode else r.Load key := by
  rw [Load_eq_lookup (Set_sorted hs e), Set_pairs hs, lookup_upsert, Load_eq_lookup hs]
  by_cases h : key = e.ENRKey
  · simp [h]
  · simp [h]

/-- A run of `Set` calls. -/
def SetAll (r : Record) (es : List Entry) : Record := es.foldl Set r

theorem SetAll_cons (r : Record) (e : Entry) (es : List Entry) : r.SetAll (e :: es) = (r.Set e).SetAll es := rfl

end Record

theorem SetAll_sorted_Load (r : Record) (hs : Sorted r.pairs) (es : List Entry) (key : Bytes) :
    Sorted (r.SetAll es).pairs ∧
      (r.SetAll es).Load key = match es.reverse.find? fun e => e.ENRKey = key with
        | some e => .ok e.value.encode
        | none => r.Load key := by
  induction es generalizing r with
  | nil => exact ⟨hs, rfl⟩
  | cons e es ih =>
    obtain ⟨hsorted, hload⟩ := ih (r.Set e) (Record.Set_sorted hs e)
    refine ⟨hsorted, ?_⟩
    rw [Record.SetAll_cons, hload, List.reverse_cons, List.find?_append]
    cases es.reverse.find? fun e => e.ENRKey = key with
    | some e' => rfl
    | none =>
      rw [Record.Load_Set hs]
      by_cases h : e.ENRKey = key
      · simp [h]
      · simp [h, Ne.symm h]

example : (Record.empty.SetAll [⟨[1], .str [5]⟩, ⟨[0], .str [6]⟩, ⟨[1], .str [7]⟩]).Load [1] = .ok [7] := by
  rw [(SetAll_sorted_Load Record.empty List.Pairwise.nil _ [1]).2]
  rfl

/-! ## Identity schemes

The identity scheme of a record is named by its `id` entry; `v4` is the only one registered. Its
`Verify` loads the compressed public key from the `secp256k1` entry and checks the signature
over the Keccak-256 hash of `[seq, k1, v1, ...]`. The primitives of `crypto` are parameters. -/

/-- `"id"` -/
def idKey : Bytes := [0x69, 0x64]

/-- `"secp256k1"` -/
def secp256k1Key : Bytes := [0x73, 0x65, 0x63, 0x70, 0x32, 0x35, 0x36, 0x6B, 0x31]

/-- `IDv4`, `"v4"`. -/
def IDv4 : Bytes := [0x76, 0x34]

/-- `rlp.DecodeBytes` into a string or a byte slice of type `ty`: one RLP string and no more input. -/
def DecodeString (ty : Ty) (b : Bytes) : Except Rlp.Err Bytes :=
  match runFrom Stream.Bytes (Stream.New b) with
  | (.error err, _) => .error (wrapStreamError ty err)
  | (.ok v, s) => if s.r.length > 0 then .error .ErrMoreThanOneValue else .ok v

/-- The primitives of the v4 scheme, over private keys of type `K`. -/
structure Crypto (K : Type) where
  /-- the Keccak-256 hash of the bytes written -/
  Keccak256 : Bytes → Bytes
  /-- `crypto.Sign`: a signature with the recovery id `v` last, or an error -/
  Sign : Bytes → K → Option Bytes
  /-- `crypto.VerifySignature` of a compressed public key, a hash and a signature without `v` -/
  VerifySignature : Bytes → Bytes → Bytes → Bool
  /-- `crypto.CompressPubkey` of the public key of a private key -/
  CompressPubkey : K → Bytes

/-- The identity schemes of the registry: `init` registers `v4`. -/
inductive IdentityScheme where
  | v4
deriving DecidableEq, Repr

/-- `FindIdentityScheme`. -/
def FindIdentityScheme (name : Bytes) : Option IdentityScheme := if name = IDv4 then some .v4 else none

/-- The RLP list around a payload. -/
def listBytes (payload : Bytes) : Bytes := puthead 0xC0 0xF7 payload.length ++ payload

/-- A `uint64` as RLP writes it. -/
def uintItem (n : UInt64) : Item := .str (if n = 0 then [] else putint n.toNat)

namespace Record

/-- `AppendElements` as RLP writes the list: the sequence number, then each key as a string and
each value raw. -/
def AppendElements (r : Record) : Bytes :=
  (uintItem r.seq).encode ++ r.pairs.flatMap fun p => (Item.str p.k).encode ++ p.v

/-- `encode`: the list [sig, seq, k1, v1, ...], at most `SizeLimit` bytes. -/
def encode (r : Record) (sig : Bytes) : Except Err Bytes :=
  let raw := listBytes ((Item.str sig).encode ++ r.AppendElements)
  if raw.length > SizeLimit then .error .errTooBig else .ok raw

/-- `Load` of an entry that decodes to a string or a byte slice of type `ty`. -/
def LoadBytes (r : Record) (ty : Ty) (key : Bytes) : Except Err Bytes := do
  let raw ← r.Load key
  match DecodeString ty raw with
  | .ok v => pure v
  | .error err => throw (.KeyError key (.rlp err))

/-- `idScheme`: the name in the `id` entry and its scheme. -/
def idScheme (r : Record) : Bytes × Option IdentityScheme :=
  match r.LoadBytes .string idKey with
  | .ok id => (id, FindIdentityScheme id)
  | .error _ => ([], none)

end Record

variable {K : Type}

/-- `Verify` of a scheme: for `v4` the key is 33 bytes and the signature verifies. -/
def IdentityScheme.Verify (C : Crypto K) : IdentityScheme → Record → Bytes → Except Err Unit
  | .v4, r, sig => do
    let entry ← r.LoadBytes (.slice (.uint 8)) secp256k1Key
    if entry.length ≠ 33 then throw .invalidPublicKey
    if !C.VerifySignature entry (C.Keccak256 (listBytes r.AppendElements)) sig then throw .errInvalidSig

/-- `SetSig`; `none` where it panics: no identity scheme, or another one than `idscheme`. On an
error the record is left as it was. -/
def Record.SetSig (C : Crypto K) (r : Record) (idscheme sig : Bytes) : Option (Except Err Record) :=
  match r.idScheme with
  | (_, none) => none
  | (id, some s) =>
    if id ≠ idscheme then none
    else some do
      s.Verify C r sig
      let raw ← r.encode sig
      pure { r with signature := some sig, raw := raw }

/-- `SignV4`: a copy gets the `id` and `secp256k1` entries and is signed; `none` where slicing off
`v` panics. -/
def Record.SignV4 (C : Crypto K) (r : Record) (privkey : K) : Option (Except Err Record) :=
  let cpy := (r.Set ⟨idKey, .str IDv4⟩).Set ⟨secp256k1Key, .str (C.CompressPubkey privkey)⟩
  match C.Sign (C.Keccak256 (listBytes cpy.AppendElements)) privkey with
  | none => some (.error .crypto)
  | some sig => if sig = [] then none else cpy.SetSig C IDv4 sig.dropLast

/-! ## Signing -/

/-- The `tcp` entry of port 30303. -/
def tcpEntry : Entry := ⟨[0x74, 0x63, 0x70], .str [0x76, 0x5F]⟩

theorem DecodeString_encode (ty : Ty) (b : Bytes) (h : (Item.str b).encode.length < 2 ^ 64) :
    DecodeString ty (Item.str b).encode = .ok b := by
  obtain ⟨s, hrun, hr⟩ := Bytes_New_encode b [] h
  rw [List.append_nil] at hrun
  simp [DecodeString, hrun, hr]

namespace Record

variable {r : Record}

theorem LoadBytes_of_lookup (hs : Sorted r.pairs) (ty : Ty) {key b : Bytes}
    (h : lookup key r.pairs = some (Item.str b).encode) (hb : (Item.str b).encode.length < 2 ^ 64) :
    r.LoadBytes ty key = .ok b := by
  simp [LoadBytes, Load_eq_lookup hs, h, DecodeString_encode ty b hb, bind, Except.bind, pure, Except.pure]

theorem idScheme_of_lookup (hs : Sorted r.pairs) (h : lookup idKey r.pairs = some (Item.str IDv4).encode) :
    r.idScheme = (IDv4, some .v4) := by
  rw [idScheme, LoadBytes_of_lookup hs .string h (by decide)]
  rfl

end Record

theorem length_listBytes_le {p : Bytes} (h : p.length < 2 ^ 64) : (listBytes p).length ≤ p.length + 9 := by
  have := length_puthead_le 0xC0 0xF7 h
  simp only [listBytes, List.length_append]
  omega

section Sign

variable (C : Crypto K) (k : K)

theorem SetSig_v4 {r : Record} {sig pub : Bytes} (hid : r.idScheme = (IDv4, some .v4))
    (hpub : r.LoadBytes (.slice (.uint 8)) secp256k1Key = .ok pub) (hlen : pub.length = 33)
    (hver : C.VerifySignature pub (C.Keccak256 (listBytes r.AppendElements)) sig = true)
    (hsize : (listBytes ((Item.str sig).encode ++ r.AppendElements)).length ≤ SizeLimit) :
    r.SetSig C IDv4 sig =
      some (.ok { r with signature := some sig, raw := listBytes ((Item.str sig).encode ++ r.AppendElements) }) := by
  simp [Record.SetSig, hid, IdentityScheme.Verify, hpub, hlen, hver, Record.encode, Nat.not_lt.2 hsize, bind,
    Except.bind, pure, Except.pure]

theorem SetSig_of_lookup {r : Record} {pub sig : Bytes} (hs : Sorted r.pairs)
    (hid : lookup idKey r.pairs = some (Item.str IDv4).encode)
    (hsecp : lookup secp256k1Key r.pairs = some (Item.str pub).encode) (hlen : pub.length = 33)
    (hver : C.VerifySignature pub (C.Keccak256 (listBytes r.AppendElements)) sig = true)
    (hsize : (listBytes ((Item.str sig).encode ++ r.AppendElements)).length ≤ SizeLimit) :
    r.SetSig C IDv4 sig =
      some (.ok { r with signature := some sig, raw := listBytes ((Item.str sig).encode ++ r.AppendElements) }) :=
  SetSig_v4 C (Record.idScheme_of_lookup hs hid)
    (Record.LoadBytes_of_lookup hs _ hsecp (by have := length_encode_str_le pub (by omega); omega)) hlen hver hsize

theorem signed_size_le {sig elems : Bytes} (hsig : sig.length = 64) (helems : elems.length ≤ 200) :
    (listBytes ((Item.str sig).encode ++ elems)).length ≤ SizeLimit := by
  have hs := length_encode_str_le sig (by omega)
  have hl := length_listBytes_le (p := (Item.str sig).encode ++ elems) (by simp only [List.length_append]; omega)
  simp only [List.length_append] at hl
  unfold SizeLimit
  omega

theorem length_AppendElements_v4 (s : Option Bytes) (raw pub : Bytes) (rest : List pair) (h : pub.length = 33) :
    (Record.mk 2 s raw (⟨idKey, (Item.str IDv4).encode⟩ :: ⟨secp256k1Key, (Item.str pub).encode⟩ :: rest)).AppendElements.length ≤
      59 + (rest.flatMap fun p => (Item.str p.k).encode ++ p.v).length := by
  have hp := length_encode_str_le pub (by omega)
  simp only [Record.AppendElements, List.flatMap_cons, List.length_append]
  have h1 : (uintItem 2).encode.length = 1 := by decide
  have h2 : (Item.str idKey).encode.length + (Item.str IDv4).encode.length = 6 := by decide
  have h3 : (Item.str secp256k1Key).encode.length = 10 := by decide
  omega

/-- `SetSig` signs new content under a sequence number already signed: `SignV4` signs the empty
record at sequence number 2, a `Set` of the `tcp` entry keeps the number, and `SetSig` signs the
new pairs under it. This holds for every signer whose signatures verify, as those of
`crypto.Sign` do. -/
theorem SetSig_reuses_seq (hpub : (C.CompressPubkey k).length = 33)
    (hsign : ∀ b, ∃ sig, C.Sign (C.Keccak256 b) k = some sig ∧ sig.length = 65 ∧
      C.VerifySignature (C.CompressPubkey k) (C.Keccak256 b) sig.dropLast = true) :
    ∃ r₁ r₂ : Record, ∃ sig : Bytes, Record.empty.SignV4 C k = some (.ok r₁) ∧
      (r₁.Set tcpEntry).SetSig C IDv4 sig = some (.ok r₂) ∧
      r₁.Signed ∧ r₂.Signed ∧ r₁.seq = r₂.seq ∧ r₁.pairs ≠ r₂.pairs := by
  -- the copy `SignV4` signs holds the scheme and the key, at sequence number 2
  have hcpy : (Record.empty.Set ⟨idKey, .str IDv4⟩).Set ⟨secp256k1Key, .str (C.CompressPubkey k)⟩ =
      ⟨2, none, [], [⟨idKey, (Item.str IDv4).encode⟩, ⟨secp256k1Key, (Item.str (C.CompressPubkey k)).encode⟩]⟩ := rfl
  have hs₀ : Sorted ((Record.empty.Set ⟨idKey, .str IDv4⟩).Set ⟨secp256k1Key, .str (C.CompressPubkey k)⟩).pairs :=
    Record.Set_sorted (Record.Set_sorted (r := Record.empty) List.Pairwise.nil _) _
  obtain ⟨sig₁, hs₁, hl₁, hv₁⟩ := hsign (listBytes
    ((Record.empty.Set ⟨idKey, .str IDv4⟩).Set ⟨secp256k1Key, .str (C.CompressPubkey k)⟩).AppendElements)
  have hne₁ : sig₁ ≠ [] := fun h => by simp [h] at hl₁
  have hsign₁ := SetSig_of_lookup C hs₀ (by rw [hcpy, lookup_cons, if_pos rfl])
    (by rw [hcpy, lookup_cons, if_neg (by decide), lookup_cons, if_pos rfl]) hpub hv₁
    (signed_size_le (by simp [hl₁]) (by rw [hcpy]; have := length_AppendElements_v4 none [] _ [] hpub; simp at this; omega))
  -- the signed record, and the same after a `Set` of the `tcp` entry
  set r₁ : Record := { (Record.empty.Set ⟨idKey, .str IDv4⟩).Set ⟨secp256k1Key, .str (C.CompressPubkey k)⟩ with
    signature := some sig₁.dropLast
    raw := listBytes ((Item.str sig₁.dropLast).encode ++
      ((Record.empty.Set ⟨idKey, .str IDv4⟩).Set ⟨secp256k1Key, .str (C.CompressPubkey k)⟩).AppendElements) } with hr₁
  have hp₁ : r₁.pairs = [⟨idKey, (Item.str IDv4).encode⟩, ⟨secp256k1Key, (Item.str (C.CompressPubkey k)).encode⟩] := by
    rw [hr₁]
    exact congrArg Record.pairs hcpy
  have hseq : (r₁.Set tcpEntry).seq = 2 := by
    rw [(Record.Set_seq r₁ tcpEntry).2]
    rfl
  have hpairs : (r₁.Set tcpEntry).pairs = [⟨idKey, (Item.str IDv4).encode⟩,
      ⟨secp256k1Key, (Item.str (C.CompressPubkey k)).encode⟩, ⟨[0x74, 0x63, 0x70], (Item.str [0x76, 0x5F]).encode⟩] := by
    rw [Record.Set_pairs (r := r₁) hs₀, hp₁]
    simp only [tcpEntry, upsert, show ¬ ([0x74, 0x63, 0x70] : Bytes) ≤ idKey by decide,
      show ¬ ([0x74, 0x63, 0x70] : Bytes) ≤ secp256k1Key by decide, if_false]
  have hsorted : Sorted (r₁.Set tcpEntry).pairs := Record.Set_sorted (r := r₁) hs₀ tcpEntry
  have helems : (r₁.Set tcpEntry).AppendElements = (Record.mk 2 none [] (r₁.Set tcpEntry).pairs).AppendElements := by
    simp only [Record.AppendElements, hseq]
  obtain ⟨sig₂, hs₂, hl₂, hv₂⟩ := hsign (listBytes (r₁.Set tcpEntry).AppendElements)
  have hsign₂ := SetSig_of_lookup C hsorted (by rw [hpairs, lookup_cons, if_pos rfl])
    (by rw [hpairs, lookup_cons, if_neg (by decide), lookup_cons, if_pos rfl]) hpub hv₂
    (signed_size_le (by simp [hl₂]) (by
      rw [helems, hpairs]
      have := length_AppendElements_v4 none [] _ [⟨[0x74, 0x63, 0x70], (Item.str [0x76, 0x5F]).encode⟩] hpub
      have h7 : ([⟨[0x74, 0x63, 0x70], (Item.str [0x76, 0x5F]).encode⟩] : List pair).flatMap
        (fun p => (Item.str p.k).encode ++ p.v) = [0x83, 0x74, 0x63, 0x70, 0x82, 0x76, 0x5F] := by decide
      rw [h7] at this
      simp only [List.length_cons, List.length_nil] at this
      omega))
  refine ⟨r₁, _, _, ?_, hsign₂, rfl, rfl, ?_, ?_⟩
  · simp only [Record.SignV4, hs₁, if_neg hne₁]
    exact hsign₁
  · rw [hseq]
    rfl
  · intro h
    have hl : r₁.pairs.length = (r₁.Set tcpEntry).pairs.length := congrArg List.length h
    rw [hp₁, hpairs] at hl
    simp at hl

/-- A signer whose digests are 64 bytes and whose signature is the digest with a byte for `v`,
which its verification accepts. -/
def toyCrypto : Crypto Unit :=
  ⟨fun b => List.replicate 64 b.length.toUInt8, fun h _ => some (h ++ [0]), fun _ h sig => sig == h,
    fun _ => List.replicate 33 2⟩

theorem SetSig_reuses_seq_toyCrypto :
    ∃ r₁ r₂ : Record, ∃ sig : Bytes, Record.empty.SignV4 toyCrypto () = some (.ok r₁) ∧
      (r₁.Set tcpEntry).SetSig toyCrypto IDv4 sig = some (.ok r₂) ∧
      r₁.Signed ∧ r₂.Signed ∧ r₁.seq = r₂.seq ∧ r₁.pairs ≠ r₂.pairs :=
  SetSig_reuses_seq toyCrypto () rfl fun b => ⟨_, rfl, by simp [toyCrypto], by simp [toyCrypto]⟩

end Sign

end EthereumAI.Enr
