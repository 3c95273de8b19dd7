import EthereumAI.Rlp.InList

/-! # Raw values (`Stream.Raw`, `rlp/decode.go`)

`Raw` returns the next value with a header it writes anew for the size `Kind` read. What it can
return is a byte below `0x80`, or a string or a list behind the header `puthead` writes for its
length. The string of one byte below `0x80` is among them: `Split` refuses its header as not
canonical, but the stream's `readKind` does not check it, so `Raw` returns it as it stands.

Inside a list that ends with the input, `Raw` reads back every such value; and whatever it
returns after a read that rearmed `Kind` is one.
-/

namespace EthereumAI.Rlp

open Lib.StateExcept

/-- The values `Raw` returns: a byte below `0x80`, or a string or a list behind the header
`puthead` writes for its length. -/
inductive RawEncoded : Bytes → Prop
  | byte {b : UInt8} (h : b < 0x80) : RawEncoded [b]
  | string (content : Bytes) : RawEncoded (puthead 0x80 0xB7 content.length ++ content)
  | list (content : Bytes) : RawEncoded (puthead 0xC0 0xF7 content.length ++ content)

theorem RawEncoded.encode (i : Item) : RawEncoded i.encode := by
  cases i with
  | str b =>
    unfold Item.encode
    split_ifs with hb
    · obtain ⟨h1, hx⟩ := hb
      obtain ⟨x, rfl⟩ := List.length_eq_one_iff.mp h1
      exact .byte (UInt8.lt_iff_toNat_lt.mpr (by have := UInt8.le_iff_toNat_le.mp hx; simp at this ⊢; omega))
    · exact .string b
  | list items => exact .list _

/-! ## `Raw` reads back every raw value -/

theorem Split_list {payload : Bytes} (h : payload.length < 2 ^ 64) (rest : Bytes) :
    Split (puthead 0xC0 0xF7 payload.length ++ payload ++ rest) = .ok (.List, payload, rest) := by
  rw [Split, List.append_assoc, readKind_list h rest]
  simp only [pure, Except.pure, bind, Except.bind]
  rw [List.drop_left' rfl, List.take_left' rfl, ← List.append_assoc, List.drop_left' (by simp)]

section Ready

variable {s : Stream} {d : ℕ} {rest : Bytes}

theorem Raw_ready_append {v content : Bytes} {k : Kind} (hs : s.Ready d)
    (h : Split (v ++ rest) = .ok (k, content, rest)) (hr : s.r = v ++ rest) :
    ∃ s', runFrom Stream.Raw s = (.ok v, s') ∧ s'.Ready d ∧ s'.r = rest := by
  rw [← hr] at h
  obtain ⟨s', hrun, hs', hr'⟩ := Raw_ready hs h
  rw [hr, List.length_append, Nat.add_sub_cancel, List.take_left' rfl] at hrun
  exact ⟨s', hrun, hs', hr'⟩

theorem Raw_ready_short {c : Bytes} (hs : s.Ready d) (hc : c.length < 56)
    (hr : s.r = puthead 0x80 0xB7 c.length ++ c ++ rest) :
    ∃ s', runFrom Stream.Raw s = (.ok (puthead 0x80 0xB7 c.length ++ c), s') ∧ s'.Ready d ∧ s'.r = rest := by
  obtain ⟨h80, hB8, hsub⟩ := short_string_tag c.length hc
  have hhead : puthead 0x80 0xB7 c.length = [0x80 + c.length.toUInt8] := if_pos hc
  rw [hhead, List.singleton_append, List.cons_append] at hr
  have hrk := readKind_short (s := { s with kinderr := none })
    ⟨hs.exact.limited, hs.exact.remaining, hs.exact.stack⟩ hr h80 hB8
  rw [hsub] at hrk
  have hone : 1 ≤ s.r.length := by simp [hr]
  have hdrop : s.r.drop 1 = c ++ rest := by simp [hr]
  have hK := Kind_exact_of hs.exact hs.kind Nat.one_pos (by simp [hr]; omega) hrk
  have hex := hs.exact.header hone (some .String) c.length none 0
  have hn : c.length ≤ (s.r.drop 1).length := by simp [hdrop]
  refine ⟨_, ?_, hex.ready_drop (by simp [hs.depth]) hn, by simp [hdrop]⟩
  rw [Raw_content hK (by decide) hex hn]
  simp [hdrop, hhead]

/-- `Raw` inside a list reads back every raw value. -/
theorem Raw_ready_rawEncoded {v : Bytes} (hs : s.Ready d) (hv : RawEncoded v) (hlen : v.length < 2 ^ 64)
    (hr : s.r = v ++ rest) :
    ∃ s', runFrom Stream.Raw s = (.ok v, s') ∧ s'.Ready d ∧ s'.r = rest := by
  cases hv with
  | @byte b hb =>
    have henc : (Item.str [b]).encode = [b] :=
      if_pos ⟨rfl, UInt8.le_iff_toNat_le.mpr (by have := UInt8.lt_iff_toNat_lt.mp hb; simp at this ⊢; omega)⟩
    have hsplit := Split_encode (.str [b]) (by rw [henc]; simp) rest
    rw [henc] at hsplit
    exact Raw_ready_append hs hsplit hr
  | string c =>
    by_cases hc : c.length < 56
    · exact Raw_ready_short hs hc hr
    · -- a long string is the encoding of its content
      have henc : (Item.str c).encode = puthead 0x80 0xB7 c.length ++ c := if_neg fun h => by
        have := h.1
        omega
      have hsplit := Split_encode (.str c) (by rw [henc]; exact hlen) rest
      rw [henc] at hsplit
      exact Raw_ready_append hs hsplit hr
  | list c =>
    have hc : c.length < 2 ^ 64 := by simp at hlen; omega
    exact Raw_ready_append hs (Split_list hc rest) hr

end Ready

/-! ## What `Raw` returns is a raw value -/

section Returns

variable {s s' s₁ : Stream} {n size : ℕ}

theorem willRead_kind {u : Unit} (h : runFrom (Stream.willRead n) s = (.ok u, s')) : s'.kind = none := by
  obtain ⟨r, remaining, limited, kind, size, byteval, kinderr, stack⟩ := s
  unfold Stream.willRead at h
  rcases stack with _ | ⟨tos, rest⟩
  · by_cases hl : limited = true <;> by_cases hn : n > remaining <;>
      simp [runFrom_bind, hl, hn] at h <;> rw [← h]
  · by_cases hs : n > tos.size - tos.pos
    · simp [runFrom_bind, hs] at h
    · by_cases hl : limited = true <;> by_cases hn : n > remaining <;>
        simp [runFrom_bind, hs, hl, hn] at h <;> rw [← h]

theorem readFull_length {b : Bytes} (h : runFrom (Stream.readFull n) s = (.ok b, s')) :
    b.length = n ∧ s'.kind = none := by
  rw [Stream.readFull] at h
  obtain ⟨u, s₁, hw, h⟩ := runFrom_bind_eq_ok h
  by_cases hn : n ≤ s₁.r.length
  · simp only [runFrom_bind, runFrom_get, runFrom_set, runFrom_pure, if_pos hn, Prod.mk.injEq,
      Except.ok.injEq] at h
    obtain ⟨rfl, rfl⟩ := h
    have hk := willRead_kind hw
    exact ⟨by simp [hn], hk⟩
  · simp [runFrom_bind, hn] at h

theorem readKind_byteval (h : runState Stream.readKind s = ((.Byte, size, none), s₁)) : s₁.byteval < 0x80 := by
  unfold Stream.readKind at h
  rw [runState_bind, runState_run] at h
  rcases hb : runFrom Stream.readByte s with ⟨_ | x, t⟩ <;> rw [hb] at h
  · simp at h
  · dsimp only at h
    simp only [runState_bind, runState_modify] at h
    split_ifs at h with h80
    · simp only [runState_bind, runState_modify, runState_pure, Prod.mk.injEq] at h
      obtain ⟨-, rfl⟩ := h
      exact h80
    all_goals simp at h

/-- `Kind` reading a single byte afresh leaves it below `0x80`. -/
theorem Kind_byteval (hk : s.kind = none) (h : runFrom Stream.Kind s = (.ok (.Byte, size), s₁)) :
    s₁.byteval < 0x80 := by
  unfold Stream.Kind at h
  simp only [runFrom_bind, runFrom_get, hk, runFrom_modify] at h
  split at h
  on_goal 1 => split_ifs at h
  on_goal 1 => simp at h
  all_goals
    simp only [runFrom_bind, runFrom_lift] at h
    rcases hp : runState Stream.readKind ⟨s.r, s.remaining, s.limited, none, s.size, s.byteval, none, s.stack⟩ with
      ⟨⟨k', size', err⟩, t⟩
    simp only [hp] at h
    cases err with
    | some e => simp [runFrom_bind, runFrom_modify, runFrom_get] at h
    | none =>
      simp only [runFrom_modify, runFrom_get, Option.isNone_none, if_true] at h
      split at h <;> split_ifs at h <;> simp [runFrom_bind, runFrom_modify, runFrom_get] at h
      all_goals
        obtain ⟨⟨rfl, rfl⟩, rfl⟩ := h
        have hb := readKind_byteval hp
        exact hb

theorem Bytes_kind {b : Bytes} (h : runFrom Stream.Bytes s = (.ok b, s')) : s'.kind = none := by
  unfold Stream.Bytes at h
  obtain ⟨⟨k, size⟩, s₁, -, h⟩ := runFrom_bind_eq_ok h
  cases k with
  | Byte =>
    simp only [runFrom_bind, runFrom_modify, runFrom_get, runFrom_pure, Prod.mk.injEq] at h
    rw [← h.2]
  | String =>
    obtain ⟨c, s₂, hf, h⟩ := runFrom_bind_eq_ok h
    split_ifs at h
    · simp at h
    · simp only [runFrom_pure, Prod.mk.injEq] at h
      rw [← h.2]
      exact (readFull_length hf).2
  | List => simp at h

theorem Raw_rawEncoded {v : Bytes} (hk : s.kind = none) (h : runFrom Stream.Raw s = (.ok v, s')) : RawEncoded v := by
  unfold Stream.Raw at h
  obtain ⟨⟨k, size⟩, s₁, hK, h⟩ := runFrom_bind_eq_ok h
  cases k with
  | Byte =>
    simp only [runFrom_bind, runFrom_modify, runFrom_get, runFrom_pure, Prod.mk.injEq, Except.ok.injEq] at h
    rw [← h.1]
    exact .byte (Kind_byteval hk hK)
  | String | List =>
    obtain ⟨c, s₂, hf, h⟩ := runFrom_bind_eq_ok h
    obtain ⟨hl, -⟩ := readFull_length hf
    simp [runFrom_pure] at h
    obtain ⟨rfl, -⟩ := h
    rw [← hl]
    first
    | exact .string c
    | exact .list c

end Returns

end EthereumAI.Rlp
