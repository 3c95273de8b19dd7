import EthereumAI.Enr.Record
import EthereumAI.Rlp.RawValue

/-! # Decoding a record (`Record.DecodeRLP`, `p2p/enr/enr.go`)

`DecodeRLP` reads the next value raw, refuses it above `SizeLimit`, and decodes it again from a
stream of its own: the list of the signature, the sequence number and the key/value pairs,
whose keys must be strictly increasing; then the identity scheme named by the `id` entry checks
the signature. The loop over the pairs ends at `EOL`; like the decoders of the RLP package it is
given fuel, one turn a pair.

A record only accepts what it signs: its raw bytes fit, its keys increase, each value is one
that `Raw` returns, and its scheme verifies the signature. Conversely every record `SetSig` signs
from such pairs, as `Set` and `DecodeRLP` leave them, decodes to itself, wherever its bytes stand
in a list that reads to the end of the input.
-/

namespace EthereumAI.Enr

open Rlp Lib StateExcept

variable {K : Type}

/-- A decoder of records: a method of the RLP stream that may run out of fuel. -/
abbrev DecodeM := FuelM Err Stream

/-- A call of the RLP package whose error the decoder returns as it is. -/
def rlpCall {α : Type} (x : Rlp.DecodeM α) : DecodeM α :=
  ExceptT.mk fun s => (x.run.run s).map fun p => (p.1.mapError .rlp, p.2)

/-- The checks of the `i`-th key against the one before. -/
def checkKey (i : ℕ) (k prevkey : Bytes) : Except Err Unit :=
  if i > 0 then
    if k = prevkey then .error .errDuplicateKey
    else if k < prevkey then .error .errNotSorted
    else .ok ()
  else .ok ()

/-- `s.Decode(&kv.k)` into a string; `none` at `EOL`, which ends the loop over the pairs. -/
def decodeKey : DecodeM (Option Bytes) :=
  tryCatch (some <$> rlpCall (wrapped .string Stream.Bytes)) fun err =>
    match err with
    | .rlp .EOL => pure none
    | err => throw err

/-- `s.Decode(&kv.v)` into a raw value; `EOL` there leaves the pair incomplete. -/
def decodeValue : DecodeM Bytes :=
  tryCatch (rlpCall (stream Stream.Raw)) fun err =>
    match err with
    | .rlp .EOL => throw .errIncompletePair
    | err => throw err

/-- The loop over the key/value pairs, from the `i`-th on. -/
def decodePairs : ℕ → ℕ → Bytes → List pair → DecodeM (List pair)
  | 0, _, _, _ => FuelM.exhausted
  | fuel + 1, i, prevkey, pairs => do
    match ← decodeKey with
    | none => pure pairs
    | some k =>
      let v ← decodeValue
      match checkKey i k prevkey with
      | .error err => throw err
      | .ok () => decodePairs fuel (i + 1) k (pairs ++ [⟨k, v⟩])

/-- The record in `raw`, read from a stream over it. `Decode` into a byte slice, a `uint64`, a
string and a raw value runs `decodeByteSlice`, `decodeUint`, `decodeString` and
`decodeRawValue`, whose errors carry no context for it to extend. -/
def decodeRecord (C : Crypto K) (fuel : ℕ) (raw : Bytes) : DecodeM Record := do
  let _ ← rlpCall (stream Stream.List)
  let signature ← rlpCall (wrapped (.slice (.uint 8)) Stream.Bytes)
  let seq ← rlpCall (wrapped (.uint 64) (Stream.uint 64))
  let pairs ← decodePairs fuel 0 [] []
  rlpCall (stream Stream.ListEnd)
  let dec : Record := ⟨seq.toUInt64, some signature, raw, pairs⟩
  match dec.idScheme.2 with
  | none => throw .errNoID
  | some scheme =>
    match scheme.Verify C dec signature with
    | .error err => throw err
    | .ok () => pure dec

/-- `DecodeRLP`: the raw record, at most `SizeLimit` bytes, decoded from a stream of its own;
the stream it came from stays after it. -/
def Record.DecodeRLP (C : Crypto K) (fuel : ℕ) : DecodeM Record := do
  let raw ← rlpCall (stream Stream.Raw)
  if raw.length > SizeLimit then throw .errTooBig
  else
    match (decodeRecord C fuel raw).runFrom (Stream.New raw) with
    | none => FuelM.exhausted
    | some (.error err, _) => throw err
    | some (.ok dec, _) => pure dec

/-- `EncodeRLP`: the raw bytes of a signed record. -/
def Record.EncodeRLP (r : Record) : Except Err Bytes :=
  if !r.Signed then .error .errEncodeUnsigned else .ok r.raw

/-! ## Steps of the decoder -/

section Steps

variable {α : Type} {s t : Stream} {a : α}

theorem runFrom_rlpCall (x : Rlp.DecodeM α) :
    (rlpCall x).runFrom s = (x.runFrom s).map fun p => (p.1.mapError .rlp, p.2) := rfl

theorem rlpCall_stream_ok {x : StreamM α} (h : runFrom x s = (.ok a, t)) :
    (rlpCall (stream x)).runFrom s = some (.ok a, t) := by
  rw [runFrom_rlpCall, runFrom_stream, h]
  rfl

theorem rlpCall_wrapped_ok {typ : Ty} {x : StreamM α} (h : runFrom x s = (.ok a, t)) :
    (rlpCall (wrapped typ x)).runFrom s = some (.ok a, t) := by
  rw [runFrom_rlpCall, wrapped, FuelM.runFrom_tryCatch_ok (by rw [runFrom_stream, h])]
  rfl

theorem rlpCall_stream_error {x : StreamM α} {e : Rlp.Err} (h : runFrom x s = (.error e, t)) :
    (rlpCall (stream x)).runFrom s = some (.error (.rlp e), t) := by
  rw [runFrom_rlpCall, runFrom_stream, h]
  rfl

theorem rlpCall_wrapped_error {typ : Ty} {x : StreamM α} {e : Rlp.Err} (h : runFrom x s = (.error e, t)) :
    (rlpCall (wrapped typ x)).runFrom s = some (.error (.rlp (wrapStreamError typ e)), t) := by
  rw [runFrom_rlpCall, wrapped, FuelM.runFrom_tryCatch_error (by rw [runFrom_stream, h])]
  rfl

theorem decodeKey_ok {k : Bytes} (h : runFrom Stream.Bytes s = (.ok k, t)) :
    decodeKey.runFrom s = some (.ok (some k), t) := by
  rw [decodeKey, FuelM.runFrom_tryCatch_ok]
  rw [FuelM.runFrom_map, rlpCall_wrapped_ok h]
  rfl

theorem keyRead_error {e : Rlp.Err} (h : runFrom Stream.Bytes s = (.error e, t)) :
    (some <$> rlpCall (wrapped .string Stream.Bytes) : DecodeM (Option Bytes)).runFrom s =
      some (.error (.rlp (wrapStreamError .string e)), t) := by
  rw [FuelM.runFrom_map, rlpCall_wrapped_error h]
  rfl

theorem decodeKey_EOL (h : runFrom Stream.Bytes s = (.error .EOL, t)) :
    decodeKey.runFrom s = some (.ok none, t) := by
  rw [decodeKey, FuelM.runFrom_tryCatch_error (keyRead_error h)]
  rfl

theorem decodeKey_some {k : Bytes} (h : decodeKey.runFrom s = some (.ok (some k), t)) :
    runFrom Stream.Bytes s = (.ok k, t) := by
  rcases hb : runFrom Stream.Bytes s with ⟨e | b, s₁⟩
  · -- `EOL` ends the loop, any other error is thrown
    rw [decodeKey, FuelM.runFrom_tryCatch_error (keyRead_error hb)] at h
    split at h <;> cases h
  · rw [decodeKey_ok hb] at h
    cases h
    rfl

theorem decodeValue_ok {v : Bytes} (h : runFrom Stream.Raw s = (.ok v, t)) :
    decodeValue.runFrom s = some (.ok v, t) := by
  rw [decodeValue, FuelM.runFrom_tryCatch_ok (rlpCall_stream_ok h)]

theorem decodeValue_raw {v : Bytes} (h : decodeValue.runFrom s = some (.ok v, t)) :
    runFrom Stream.Raw s = (.ok v, t) := by
  rcases hr : runFrom Stream.Raw s with ⟨e | w, s₁⟩
  · -- `EOL` leaves the pair incomplete, any other error is thrown
    rw [decodeValue, FuelM.runFrom_tryCatch_error (rlpCall_stream_error hr)] at h
    split at h <;> cases h
  · rw [decodeValue_ok hr] at h
    cases h
    rfl

theorem checkKey_ok_iff {i : ℕ} {k prevkey : Bytes} : checkKey i k prevkey = .ok () ↔ (0 < i → prevkey < k) := by
  unfold checkKey
  split_ifs with hi he hl
  · -- a key repeated
    subst he
    exact ⟨fun h => (by cases h), fun h => absurd (h hi) (List.lt_irrefl k)⟩
  · exact ⟨fun h => (by cases h), fun h => absurd (h hi) (List.lt_asymm hl)⟩
  · refine ⟨fun _ _ => ?_, fun _ => rfl⟩
    rcases List.le_iff_lt_or_eq.1 (List.not_lt.1 hl) with h | h
    · exact h
    · exact absurd h.symm he
  · exact ⟨fun _ h => absurd h hi, fun _ => rfl⟩

end Steps

/-! ## What the decoder accepts -/

/-- Pairs as `Set` and `DecodeRLP` leave them: sorted by key, each value one that `Raw` returns
(the encoding of an item, or a byte below `0x80` behind a string header). -/
structure Canonical (pairs : List pair) : Prop where
  sorted : Sorted pairs
  values : ∀ p ∈ pairs, RawEncoded p.v

theorem Canonical.nil : Canonical [] := ⟨List.Pairwise.nil, fun _ h => by cases h⟩

theorem sorted_append_of_lt {pairs : List pair} {k v : Bytes} (hs : Sorted pairs) (hk : ∀ p ∈ pairs, p.k < k) :
    Sorted (pairs ++ [⟨k, v⟩]) :=
  List.pairwise_append.2 ⟨hs, List.pairwise_singleton _ _, fun p hp q hq => by
    rw [List.mem_singleton.1 hq]
    exact hk p hp⟩

theorem Canonical.append {pairs : List pair} {k v : Bytes} (hc : Canonical pairs) (hk : ∀ p ∈ pairs, p.k < k)
    (hv : RawEncoded v) : Canonical (pairs ++ [⟨k, v⟩]) :=
  ⟨sorted_append_of_lt hc.sorted hk, fun p hp => by
    rcases List.mem_append.1 hp with hp | hp
    · exact hc.values p hp
    · rw [List.mem_singleton.1 hp]
      exact hv⟩

/-- The pairs the loop returns are canonical: each key it appends is above the one before, which
is the greatest so far, and each value is what `Raw` returned after the key's read. -/
theorem decodePairs_canonical : ∀ {fuel i : ℕ} {prevkey : Bytes} {pairs res : List pair} {s s' : Stream},
    (decodePairs fuel i prevkey pairs).runFrom s = some (.ok res, s') →
    Canonical pairs → (∀ p ∈ pairs, 0 < i ∧ p.k ≤ prevkey) → Canonical res
  | 0, _, _, _, _, _, _, h, _, _ => by cases h
  | fuel + 1, i, prevkey, pairs, res, s, s', h, hc, hprev => by
    obtain ⟨key, s₁, hkey, hrest⟩ := FuelM.runFrom_bind_eq_ok h
    cases key with
    | none =>
      cases hrest
      exact hc
    | some k =>
      obtain ⟨v, s₂, hv, hrest⟩ := FuelM.runFrom_bind_eq_ok hrest
      have hraw := Raw_rawEncoded (Bytes_kind (decodeKey_some hkey)) (decodeValue_raw hv)
      split at hrest
      · cases hrest
      · rename_i hck
        have hlt := checkKey_ok_iff.1 hck
        refine decodePairs_canonical hrest (hc.append (fun p hp => ?_) hraw) fun p hp => ?_
        · obtain ⟨hi, hle⟩ := hprev p hp
          exact List.lt_of_le_of_lt hle (hlt hi)
        · refine ⟨Nat.succ_pos i, ?_⟩
          rcases List.mem_append.1 hp with hp | hp
          · obtain ⟨hi, hle⟩ := hprev p hp
            exact List.le_of_lt (List.lt_of_le_of_lt hle (hlt hi))
          · rw [List.mem_singleton.1 hp]
            exact List.le_refl k

/-- What a record decoded from `raw` is: `raw` itself, with canonical pairs and a signature its
identity scheme accepts. -/
theorem decodeRecord_accepts {C : Crypto K} {fuel : ℕ} {raw : Bytes} {s s' : Stream} {dec : Record}
    (h : (decodeRecord C fuel raw).runFrom s = some (.ok dec, s')) :
    dec.raw = raw ∧ Canonical dec.pairs ∧
      ∃ sig id scheme, dec.signature = some sig ∧ dec.idScheme = (id, some scheme) ∧
        scheme.Verify C dec sig = .ok () := by
  obtain ⟨_, s₁, -, h⟩ := FuelM.runFrom_bind_eq_ok h
  obtain ⟨sig, s₂, -, h⟩ := FuelM.runFrom_bind_eq_ok h
  obtain ⟨seq, s₃, -, h⟩ := FuelM.runFrom_bind_eq_ok h
  obtain ⟨pairs, s₄, hpairs, h⟩ := FuelM.runFrom_bind_eq_ok h
  obtain ⟨_, s₅, -, h⟩ := FuelM.runFrom_bind_eq_ok h
  have hcanon := decodePairs_canonical hpairs Canonical.nil (by simp)
  dsimp only at h
  split at h
  · cases h
  · rename_i scheme hscheme
    split at h
    · cases h
    · rename_i hver
      cases h
      exact ⟨rfl, hcanon, sig, _, scheme, rfl, Prod.ext rfl hscheme, hver⟩

theorem DecodeRLP_accepts {C : Crypto K} {fuel : ℕ} {s s' : Stream} {dec : Record}
    (h : (Record.DecodeRLP C fuel).runFrom s = some (.ok dec, s')) :
    dec.raw.length ≤ SizeLimit ∧ Canonical dec.pairs ∧
      ∃ sig id scheme, dec.signature = some sig ∧ dec.idScheme = (id, some scheme) ∧
        scheme.Verify C dec sig = .ok () := by
  obtain ⟨raw, s₁, -, h⟩ := FuelM.runFrom_bind_eq_ok h
  split_ifs at h with hsize
  · cases h
  · split at h
    next => cases h
    next => cases h
    next dec' _ hdec =>
      cases h
      obtain ⟨hraw, hcanon, hver⟩ := decodeRecord_accepts hdec
      exact ⟨hraw ▸ Nat.not_lt.1 hsize, hcanon, hver⟩

/-! ## Signed records decode to themselves -/

theorem mem_upsert_cases {q : pair} {key blob : Bytes} : ∀ {pairs : List pair},
    q ∈ upsert key blob pairs → q = ⟨key, blob⟩ ∨ q ∈ pairs
  | [], h => by simp_all [upsert]
  | p :: ps, h => by
    unfold upsert at h
    split_ifs at h with hk hp
    · rcases List.mem_cons.1 h with rfl | h
      · exact .inl (by rw [hp])
      · exact .inr (List.mem_cons_of_mem p h)
    · rcases List.mem_cons.1 h with rfl | h
      · exact .inl rfl
      · exact .inr h
    · rcases List.mem_cons.1 h with rfl | h
      · exact .inr List.mem_cons_self
      · rcases mem_upsert_cases h with h | h
        · exact .inl h
        · exact .inr (List.mem_cons_of_mem p h)

theorem Canonical.tail {p : pair} {ps : List pair} (hc : Canonical (p :: ps)) : Canonical ps :=
  ⟨(List.pairwise_cons.1 hc.sorted).2, fun q hq => hc.values q (List.mem_cons_of_mem p hq)⟩

theorem Canonical.Set {r : Record} (hc : Canonical r.pairs) (e : Entry) : Canonical (r.Set e).pairs := by
  rw [Record.Set_pairs hc.sorted]
  refine ⟨upsert_sorted hc.sorted, fun q hq => ?_⟩
  rcases mem_upsert_cases hq with rfl | hq
  · exact RawEncoded.encode e.value
  · exact hc.values q hq

theorem Canonical.SetAll {r : Record} (hc : Canonical r.pairs) (es : List Entry) : Canonical (r.SetAll es).pairs := by
  induction es generalizing r with
  | nil => exact hc
  | cons e es ih => exact ih (hc.Set e)

theorem Split_listBytes {payload : Bytes} (h : payload.length < 2 ^ 64) (rest : Bytes) :
    Split (listBytes payload ++ rest) = .ok (.List, payload, rest) :=
  Split_list h rest

/-- The loop reads back the pairs as `AppendElements` writes them, up to the end of the list,
when each key is above the one before. -/
theorem decodePairs_encode {d : ℕ} {pairs acc : List pair} {fuel i : ℕ} {prevkey : Bytes} {s : Stream}
    (hc : Canonical pairs) (hs : s.Ready (d + 1)) (hr : s.r = pairs.flatMap fun p => (Item.str p.k).encode ++ p.v)
    (hlen : s.r.length < 2 ^ 64) (hprev : 0 < i → ∀ p ∈ pairs, prevkey < p.k) (hfuel : pairs.length < fuel) :
    ∃ s', (decodePairs fuel i prevkey acc).runFrom s = some (.ok (acc ++ pairs), s') ∧
      s'.Ready (d + 1) ∧ s'.r = [] := by
  induction pairs generalizing acc fuel i prevkey s with
  | nil =>
    obtain ⟨fuel, rfl⟩ : ∃ f, fuel = f + 1 := ⟨fuel - 1, by omega⟩
    -- at the end of the list the key is `EOL`
    refine ⟨{ s with kinderr := none }, ?_, ⟨⟨hs.exact.limited, hs.exact.remaining, hs.exact.stack⟩, hs.kind,
      hs.depth⟩, hr⟩
    rw [decodePairs, FuelM.runFrom_bind_ok (decodeKey_EOL (Bytes_EOL hs hr)), List.append_nil]
    rfl
  | cons p ps ih =>
    obtain ⟨fuel, rfl⟩ : ∃ f, fuel = f + 1 := ⟨fuel - 1, by simp at hfuel; omega⟩
    have hlt := (List.pairwise_cons.1 hc.sorted).1
    rw [List.flatMap_cons, List.append_assoc] at hr
    have hl := hlen
    simp only [hr, List.length_append] at hl
    -- the key, then the value raw
    obtain ⟨s₁, hk, hs₁, hr₁⟩ := Bytes_ready_encode hs (by omega) hr
    obtain ⟨s₂, hv, hs₂, hr₂⟩ := Raw_ready_rawEncoded hs₁ (hc.values p List.mem_cons_self) (by omega) hr₁
    have hck : checkKey i p.k prevkey = .ok () := checkKey_ok_iff.2 fun hi => hprev hi p List.mem_cons_self
    obtain ⟨s', hrun, hs', hr'⟩ := @ih (acc ++ [⟨p.k, p.v⟩]) fuel (i + 1) p.k s₂ hc.tail hs₂ hr₂
      (by rw [hr₂]; omega) (fun _ => hlt) (by simp at hfuel; omega)
    refine ⟨s', ?_, hs', hr'⟩
    rw [decodePairs, FuelM.runFrom_bind_ok (decodeKey_ok hk)]
    dsimp only
    rw [FuelM.runFrom_bind_ok (decodeValue_ok hv), hck]
    dsimp only
    rw [hrun, List.append_assoc, List.singleton_append]

/-- A record as `SetSig` leaves it, signed with `sig`: its raw bytes are the list of the
signature and its elements, within `SizeLimit`, and its identity scheme verifies the signature. -/
structure Record.SignedWith (C : Crypto K) (r : Record) (sig : Bytes) : Prop where
  canonical : Canonical r.pairs
  signature : r.signature = some sig
  raw : r.raw = listBytes ((Item.str sig).encode ++ r.AppendElements)
  size : r.raw.length ≤ SizeLimit
  verified : ∃ id scheme, r.idScheme = (id, some scheme) ∧ scheme.Verify C r sig = .ok ()

theorem length_le_listBytes (p : Bytes) : p.length ≤ (listBytes p).length := by
  simp [listBytes]

theorem Record.SignedWith.length_payload {C : Crypto K} {r : Record} {sig : Bytes} (hr : r.SignedWith C sig) :
    ((Item.str sig).encode ++ r.AppendElements).length ≤ SizeLimit :=
  Nat.le_trans (length_le_listBytes _) (hr.raw ▸ hr.size)

theorem uintItem_eq (n : UInt64) : uintItem n = .str (if n.toNat = 0 then [] else putint n.toNat) := by
  simp only [uintItem, ← UInt64.toNat_inj, UInt64.toNat_zero]

/-- The record a stream over its raw bytes decodes is the signed record: each element is read
back as it was written. -/
theorem decodeRecord_encode {C : Crypto K} {r : Record} {sig : Bytes} {fuel : ℕ} (hr : r.SignedWith C sig)
    (hfuel : r.pairs.length < fuel) :
    ∃ s', (decodeRecord C fuel r.raw).runFrom (Stream.New r.raw) = some (.ok r, s') := by
  have hpl := hr.length_payload
  unfold SizeLimit at hpl
  have hpl' : ((Item.str sig).encode ++ r.AppendElements).length < 2 ^ 64 := by omega
  simp only [List.length_append, Record.AppendElements] at hpl
  obtain ⟨s₁, hl, hs₁, hr₁⟩ := List_ready ((Stream.New_atTop r.raw).ready rfl) hpl' (show r.raw = _ from hr.raw)
  obtain ⟨s₂, hb, hs₂, hr₂⟩ := Bytes_ready_encode hs₁ (by omega) hr₁
  rw [Record.AppendElements, uintItem_eq] at hr₂
  obtain ⟨s₃, hu, hs₃, hr₃⟩ := uint_ready_encode hs₂ r.seq.toNat_lt hr₂
  obtain ⟨s₄, hp, hs₄, hr₄⟩ := @decodePairs_encode 0 r.pairs [] fuel 0 [] s₃ hr.canonical hs₃ hr₃
    (by rw [hr₃]; omega) (fun h => absurd h (Nat.lt_irrefl 0)) hfuel
  obtain ⟨tos, hst⟩ := List.length_eq_one_iff.1 hs₄.depth
  have hend := ListEnd_EOL hs₄.exact hst hr₄
  have hdec : (⟨r.seq.toNat.toUInt64, some sig, r.raw, [] ++ r.pairs⟩ : Record) = r := by
    rw [show r.seq.toNat.toUInt64 = r.seq from UInt64.ofNat_toNat, List.nil_append, ← hr.signature]
  obtain ⟨id, scheme, hid, hver⟩ := hr.verified
  refine ⟨{ s₄ with stack := charge [] tos.size, kind := none, size := 0 }, ?_⟩
  rw [decodeRecord, FuelM.runFrom_bind_ok (rlpCall_stream_ok hl), FuelM.runFrom_bind_ok (rlpCall_wrapped_ok hb),
    FuelM.runFrom_bind_ok (rlpCall_wrapped_ok hu), FuelM.runFrom_bind_ok hp,
    FuelM.runFrom_bind_ok (rlpCall_stream_ok hend)]
  dsimp only
  rw [hdec, hid]
  dsimp only
  rw [hver]
  rfl

theorem DecodeRLP_encode {C : Crypto K} {r : Record} {sig : Bytes} {fuel d : ℕ} {s : Stream} {rest : Bytes}
    (hr : r.SignedWith C sig) (hfuel : r.pairs.length < fuel) (hs : s.Ready d) (hsr : s.r = r.raw ++ rest) :
    ∃ s', (Record.DecodeRLP C fuel).runFrom s = some (.ok r, s') ∧ s'.Ready d ∧ s'.r = rest := by
  have hpl := hr.length_payload
  unfold SizeLimit at hpl
  have hsplit := @Split_listBytes ((Item.str sig).encode ++ r.AppendElements) (by omega) rest
  rw [← hr.raw] at hsplit
  obtain ⟨s₁, hraw, hs₁, hr₁⟩ := Raw_ready_append hs hsplit hsr
  obtain ⟨s₂, hdec⟩ := decodeRecord_encode hr hfuel
  refine ⟨s₁, ?_, hs₁, hr₁⟩
  rw [Record.DecodeRLP, FuelM.runFrom_bind_ok (rlpCall_stream_ok hraw)]
  rw [if_neg (Nat.not_lt.2 hr.size), hdec]
  rfl

theorem SetSig_signedWith {C : Crypto K} {r₀ r : Record} {idscheme sig : Bytes} (hc : Canonical r₀.pairs)
    (h : r₀.SetSig C idscheme sig = some (.ok r)) : r.SignedWith C sig := by
  unfold Record.SetSig at h
  split at h
  · cases h
  · rename_i id scheme hid
    split_ifs at h
    obtain ⟨⟨⟩, hver, h⟩ := Lib.except_bind_eq_ok.mp (Option.some.inj h)
    obtain ⟨raw, henc, h⟩ := Lib.except_bind_eq_ok.mp h
    cases h
    unfold Record.encode at henc
    dsimp only at henc
    split_ifs at henc with hsize
    cases henc
    exact ⟨hc, rfl, rfl, Nat.not_lt.1 hsize, id, scheme, hid, hver⟩

theorem SignV4_signedWith {C : Crypto K} {r₀ r : Record} {privkey : K} (hc : Canonical r₀.pairs)
    (h : r₀.SignV4 C privkey = some (.ok r)) : ∃ sig, r.SignedWith C sig := by
  unfold Record.SignV4 at h
  dsimp only at h
  split at h
  · cases h
  · split_ifs at h
    exact ⟨_, SetSig_signedWith ((hc.Set _).Set _) h⟩

theorem Canonical.SetAll_empty (es : List Entry) : Canonical (Record.empty.SetAll es).pairs :=
  Canonical.nil.SetAll es

theorem DecodeRLP_EncodeRLP {C : Crypto K} {r : Record} {sig : Bytes} (hr : r.SignedWith C sig) :
    r.EncodeRLP = .ok r.raw ∧ ∀ fuel, r.pairs.length < fuel →
      ∃ s', (Record.DecodeRLP C fuel).runFrom (Stream.New r.raw) = some (.ok r, s') ∧ s'.r = [] := by
  refine ⟨by simp [Record.EncodeRLP, Record.Signed, hr.signature], fun fuel hfuel => ?_⟩
  obtain ⟨s', hrun, -, hr'⟩ := DecodeRLP_encode hr hfuel ((Stream.New_atTop r.raw).ready rfl)
    (List.append_nil r.raw).symm
  exact ⟨s', hrun, hr'⟩

/-- The records of `p2p/enr`. Over every run of `Set` calls the pairs stay sorted and `Load`
returns the last value set; every record that `SetSig` or `SignV4` signs from canonical pairs
(as every record has that `Set` builds or `DecodeRLP` accepts) encodes to bytes that `DecodeRLP`
reads back as the same record; and `DecodeRLP` accepts only records within `SizeLimit`, with strictly increasing keys
and a signature their identity scheme verifies. -/
theorem records_sorted_roundtrip_verified (C : Crypto K) :
    (∀ r : Record, Sorted r.pairs → ∀ (es : List Entry) (key : Bytes),
      Sorted (r.SetAll es).pairs ∧
        (r.SetAll es).Load key = match es.reverse.find? fun e => e.ENRKey = key with
          | some e => .ok e.value.encode
          | none => r.Load key) ∧
    (∀ (r₀ r : Record) (idscheme sig : Bytes), Canonical r₀.pairs → r₀.SetSig C idscheme sig = some (.ok r) →
      r.EncodeRLP = .ok r.raw ∧ ∀ fuel, r.pairs.length < fuel →
        ∃ s', (Record.DecodeRLP C fuel).runFrom (Stream.New r.raw) = some (.ok r, s') ∧ s'.r = []) ∧
    (∀ (r₀ r : Record) (privkey : K), Canonical r₀.pairs → r₀.SignV4 C privkey = some (.ok r) →
      r.EncodeRLP = .ok r.raw ∧ ∀ fuel, r.pairs.length < fuel →
        ∃ s', (Record.DecodeRLP C fuel).runFrom (Stream.New r.raw) = some (.ok r, s') ∧ s'.r = []) ∧
    (∀ (fuel : ℕ) (s s' : Stream) (dec : Record), (Record.DecodeRLP C fuel).runFrom s = some (.ok dec, s') →
      dec.raw.length ≤ SizeLimit ∧ Sorted dec.pairs ∧
        ∃ sig id scheme, dec.signature = some sig ∧ dec.idScheme = (id, some scheme) ∧
          scheme.Verify C dec sig = .ok ()) := by
  refine ⟨fun r hs es key => SetAll_sorted_Load r hs es key, ?_, ?_, fun fuel s s' dec h => ?_⟩
  · intro r₀ r idscheme sig hc h
    exact DecodeRLP_EncodeRLP (SetSig_signedWith hc h)
  · intro r₀ r privkey hc h
    obtain ⟨sig, hr⟩ := SignV4_signedWith hc h
    exact DecodeRLP_EncodeRLP hr
  · obtain ⟨hsize, hcanon, hver⟩ := DecodeRLP_accepts h
    exact ⟨hsize, hcanon.sorted, hver⟩

end EthereumAI.Enr
