import EthereumAI.Lib.Fuel
import EthereumAI.Rlp.Stream

/-! # Raw RLP (`rlp/raw.go`)

Splitting encoded RLP without decoding it: `readKind` reads a header from the
front of a buffer and checks that the content it announces is there; `Split`
cuts the buffer after that content. The trie decodes its nodes with these.
-/

namespace EthereumAI.Rlp

/-- `readSize`: a size in `slen` big-endian bytes, at least 56 and without a
leading zero byte. -/
def readSize (b : Bytes) (slen : ℕ) : Except Err ℕ :=
  if slen > b.length then .error .ErrUnexpectedEOF
  else
    let s := Stream.bigEndian (b.take slen)
    if s < 56 ∨ b.headD 0 = 0 then .error .ErrCanonSize else .ok s

/-- The switch of `readKind` on the first byte `b` of a buffer, `rest` after it:
the kind, the size of the header and the size of the content. -/
def readHeader (b : UInt8) (rest : Bytes) : Except Err (Kind × ℕ × ℕ) :=
  if b < 0x80 then pure (.Byte, 0, 1)
  else if b < 0xB8 then
    let contentsize := (b - 0x80).toNat
    -- a single byte below 0x80 must be its own encoding
    if contentsize = 1 ∧ rest.length > 0 ∧ rest.headD 0 < 128 then .error .ErrCanonSize
    else pure (.String, 1, contentsize)
  else if b < 0xC0 then do
    let contentsize ← readSize rest (b - 0xB7).toNat
    pure (.String, (b - 0xB7).toNat + 1, contentsize)
  else if b < 0xF8 then pure (.List, 1, (b - 0xC0).toNat)
  else do
    let contentsize ← readSize rest (b - 0xF7).toNat
    pure (.List, (b - 0xF7).toNat + 1, contentsize)

/-- `readKind`: the kind of the value at the front of `buf`, the size of its
header and the size of its content, which must be there. -/
def readKind (buf : Bytes) : Except Err (Kind × ℕ × ℕ) :=
  match buf with
  | [] => .error .ErrUnexpectedEOF
  | b :: rest => do
    let (k, tagsize, contentsize) ← readHeader b rest
    if contentsize > buf.length - tagsize then .error .ErrValueTooLarge
    else pure (k, tagsize, contentsize)

/-- `Split`: the kind of the first value, its content and the rest of `b`. -/
def Split (b : Bytes) : Except Err (Kind × Bytes × Bytes) := do
  let (k, ts, cs) ← readKind b
  pure (k, (b.drop ts).take cs, b.drop (ts + cs))

/-- `SplitString`: the content of a string or byte and the rest. -/
def SplitString (b : Bytes) : Except Err (Bytes × Bytes) := do
  let (k, content, rest) ← Split b
  if k = .List then .error .ErrExpectedString
  else pure (content, rest)

/-- `SplitList`: the content of a list and the rest. -/
def SplitList (b : Bytes) : Except Err (Bytes × Bytes) := do
  let (k, content, rest) ← Split b
  if k ≠ .List then .error .ErrExpectedList
  else pure (content, rest)

/-- The loop of `CountValues`: every value takes at least one byte, so `b.length`
turns are enough. -/
def countValuesLoop : ℕ → Bytes → ℕ → Except Err ℕ
  | 0, _, i => .ok i
  | fuel + 1, b, i =>
    if b.isEmpty then .ok i
    else do
      let (_, tagsize, size) ← readKind b
      countValuesLoop fuel (b.drop (tagsize + size)) (i + 1)

/-- `CountValues`: the number of values encoded in `b`. -/
def CountValues (b : Bytes) : Except Err ℕ := countValuesLoop b.length b 0

/-! ## Every split value takes bytes from the front -/

theorem readSize_le {b : Bytes} {slen s : ℕ} (h : readSize b slen = .ok s) : slen ≤ b.length := by
  unfold readSize at h
  split at h
  · cases h
  · omega

/-- The header the switch reads is there, and a string or list has one. -/
theorem readHeader_spec {b : UInt8} {rest : Bytes} {k : Kind} {ts cs : ℕ}
    (h : readHeader b rest = .ok (k, ts, cs)) :
    0 < ts + cs ∧ ts ≤ rest.length + 1 ∧ (k ≠ .Byte → 0 < ts) := by
  unfold readHeader at h
  split_ifs at h
  · -- a single byte is its own content
    cases h
    simp
  · -- a short string: the header is the first byte
    dsimp only at h
    split_ifs at h
    cases h
    exact ⟨by omega, by omega, fun _ => by omega⟩
  · -- a long string: the bytes of the size follow the first byte
    obtain ⟨s, hs, hk⟩ := Lib.except_bind_eq_ok.mp h
    cases hk
    have := readSize_le hs
    exact ⟨by omega, by omega, fun _ => by omega⟩
  · cases h
    exact ⟨by omega, by omega, fun _ => by omega⟩
  · obtain ⟨s, hs, hk⟩ := Lib.except_bind_eq_ok.mp h
    cases hk
    have := readSize_le hs
    exact ⟨by omega, by omega, fun _ => by omega⟩

theorem readKind_spec {buf : Bytes} {k : Kind} {ts cs : ℕ} (h : readKind buf = .ok (k, ts, cs)) :
    0 < ts + cs ∧ ts + cs ≤ buf.length ∧ (k ≠ .Byte → 0 < ts) := by
  rcases buf with _ | ⟨b, rest⟩
  · cases h
  obtain ⟨⟨k', ts', cs'⟩, hh, hk⟩ := Lib.except_bind_eq_ok.mp h
  obtain ⟨hpos, hts, hhead⟩ := readHeader_spec hh
  dsimp only at hk
  split_ifs at hk with hcs
  cases hk
  simp only [List.length_cons] at hcs hts ⊢
  exact ⟨hpos, by omega, hhead⟩

theorem Split_spec {b content rest : Bytes} {k : Kind} (h : Split b = .ok (k, content, rest)) :
    rest.length < b.length ∧ (k ≠ .Byte → content.length < b.length) := by
  obtain ⟨⟨k', ts, cs⟩, hk, hs⟩ := Lib.except_bind_eq_ok.mp h
  cases hs
  obtain ⟨hpos, hle, hhead⟩ := readKind_spec hk
  refine ⟨by simp only [List.length_drop]; omega, fun hb => ?_⟩
  have := hhead hb
  simp only [List.length_take, List.length_drop]
  omega

theorem SplitString_rest_lt {b content rest : Bytes} (h : SplitString b = .ok (content, rest)) :
    rest.length < b.length := by
  obtain ⟨⟨k, c, r⟩, hs, hk⟩ := Lib.except_bind_eq_ok.mp h
  dsimp only at hk
  split_ifs at hk
  cases hk
  exact (Split_spec hs).1

theorem SplitList_content_lt {b content rest : Bytes} (h : SplitList b = .ok (content, rest)) :
    content.length < b.length := by
  obtain ⟨⟨k, c, r⟩, hs, hk⟩ := Lib.except_bind_eq_ok.mp h
  dsimp only at hk
  split_ifs at hk with hl
  cases hk
  exact (Split_spec hs).2 (by rw [not_not.mp hl]; decide)

end EthereumAI.Rlp
