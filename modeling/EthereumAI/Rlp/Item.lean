import Mathlib
import EthereumAI.Rlp.Encode
import EthereumAI.Rlp.Raw

/-! # RLP items

What RLP encodes: a string of bytes, or a list of items. `Item.encode` is the
canonical encoding: a single byte below `0x80` stands for itself, every other
string and every list has a header with its size, short below 56 bytes of
content and long from there on.

The raw splitter inverts it: splitting the encoding of an item followed by any
bytes returns the item's kind, its content and those bytes. The trie relies on
this when it decodes the nodes it has encoded.
-/

namespace EthereumAI.Rlp

inductive Item where
  | str (b : Bytes)
  | list (items : List Item)

/-- A string that is its own encoding. -/
def SingleByte (b : Bytes) : Prop := b.length = 1 ∧ b.headD 0 ≤ 0x7F

instance (b : Bytes) : Decidable (SingleByte b) := inferInstanceAs (Decidable (_ ∧ _))

mutual
def Item.encode : Item → Bytes
  | .str b => if SingleByte b then b else puthead 0x80 0xB7 b.length ++ b
  | .list items => puthead 0xC0 0xF7 (Item.encodeList items).length ++ Item.encodeList items

def Item.encodeList : List Item → Bytes
  | [] => []
  | i :: is => i.encode ++ Item.encodeList is
end

/-- The kind `readKind` reads from the front of an item's encoding. -/
def Item.kind : Item → Kind
  | .str b => if SingleByte b then .Byte else .String
  | .list _ => .List

/-- The content the header of an item's encoding announces. -/
def Item.content : Item → Bytes
  | .str b => b
  | .list items => Item.encodeList items

/-! ## Big-endian sizes -/

theorem foldl_bigEndian (acc : ℕ) (b : Bytes) :
    b.foldl (fun acc x => acc * 256 + x.toNat) acc = acc * 256 ^ b.length + Stream.bigEndian b := by
  induction b generalizing acc with
  | nil => simp [Stream.bigEndian]
  | cons x b ih =>
    have hx := ih x.toNat
    simp only [Stream.bigEndian, List.foldl_cons, zero_mul, zero_add] at hx ⊢
    rw [ih, hx, List.length_cons, pow_succ, Stream.bigEndian]
    ring

theorem bigEndian_cons (x : UInt8) (b : Bytes) :
    Stream.bigEndian (x :: b) = x.toNat * 256 ^ b.length + Stream.bigEndian b := by
  rw [Stream.bigEndian, List.foldl_cons, foldl_bigEndian]
  simp

theorem bigEndianBytes_succ (i k : ℕ) :
    bigEndianBytes i (k + 1) = (i / 256 ^ k % 256).toUInt8 :: bigEndianBytes i k := by
  simp [bigEndianBytes, List.range_succ]

@[simp] theorem length_bigEndianBytes (i k : ℕ) : (bigEndianBytes i k).length = k := by
  simp [bigEndianBytes]

theorem bigEndian_bigEndianBytes (i k : ℕ) : Stream.bigEndian (bigEndianBytes i k) = i % 256 ^ k := by
  induction k with
  | zero => simp [bigEndianBytes, Stream.bigEndian, Nat.mod_one]
  | succ k ih =>
    rw [bigEndianBytes_succ, bigEndian_cons, ih, length_bigEndianBytes, Nat.mod_pow_succ]
    have : ((i / 256 ^ k % 256).toUInt8).toNat = i / 256 ^ k % 256 := by simp [Nat.toUInt8]
    rw [this]
    ring

theorem putint_eq (n : ℕ) (h : n < 2 ^ 64) :
    ∃ k, 0 < k ∧ k ≤ 8 ∧ n < 256 ^ k ∧ (k = 1 ∨ 256 ^ (k - 1) ≤ n) ∧ putint n = bigEndianBytes n k := by
  unfold putint
  split_ifs with h1 h2 h3 h4 h5 h6 h7
  · exact ⟨1, by norm_num, by norm_num, by simpa using h1, .inl rfl, rfl⟩
  · refine ⟨2, by norm_num, by norm_num, ?_, .inr ?_, rfl⟩ <;> norm_num at * <;> omega
  · refine ⟨3, by norm_num, by norm_num, ?_, .inr ?_, rfl⟩ <;> norm_num at * <;> omega
  · refine ⟨4, by norm_num, by norm_num, ?_, .inr ?_, rfl⟩ <;> norm_num at * <;> omega
  · refine ⟨5, by norm_num, by norm_num, ?_, .inr ?_, rfl⟩ <;> norm_num at * <;> omega
  · refine ⟨6, by norm_num, by norm_num, ?_, .inr ?_, rfl⟩ <;> norm_num at * <;> omega
  · refine ⟨7, by norm_num, by norm_num, ?_, .inr ?_, rfl⟩ <;> norm_num at * <;> omega
  · refine ⟨8, by norm_num, by norm_num, ?_, .inr ?_, rfl⟩ <;> norm_num at * <;> omega

theorem bigEndian_putint {n : ℕ} (h : n < 2 ^ 64) : Stream.bigEndian (putint n) = n := by
  obtain ⟨k, -, -, hk, -, he⟩ := putint_eq n h
  rw [he, bigEndian_bigEndianBytes, Nat.mod_eq_of_lt hk]

theorem length_putint {n : ℕ} (h : n < 2 ^ 64) : 0 < (putint n).length ∧ (putint n).length ≤ 8 := by
  obtain ⟨k, hk0, hk8, -, -, he⟩ := putint_eq n h
  rw [he, length_bigEndianBytes]
  exact ⟨hk0, hk8⟩

theorem putint_head_ne_zero {n : ℕ} (h : n < 2 ^ 64) (h56 : 56 ≤ n) : (putint n).headD 0 ≠ 0 := by
  obtain ⟨k, hk0, -, hk, hlow, he⟩ := putint_eq n h
  obtain ⟨j, rfl⟩ : ∃ j, k = j + 1 := ⟨k - 1, by omega⟩
  rw [he, bigEndianBytes_succ, List.headD_cons]
  intro h0
  have hv : (n / 256 ^ j % 256).toUInt8.toNat = n / 256 ^ j % 256 := by simp [Nat.toUInt8]
  rw [h0] at hv
  have hlt : n / 256 ^ j < 256 := by
    rw [Nat.div_lt_iff_lt_mul (by positivity)]
    rw [pow_succ] at hk
    linarith
  have hpos : 0 < n / 256 ^ j := by
    rcases hlow with h1 | h1
    · cases h1
      simp
      omega
    · exact Nat.div_pos (by simpa using h1) (by positivity)
  simp at hv
  omega

theorem bigEndian_lt (bs : Bytes) : Stream.bigEndian bs < 256 ^ bs.length := by
  induction bs with
  | nil => simp [Stream.bigEndian]
  | cons x bs ih =>
    have hx : x.toNat < 256 := x.toNat_lt
    rw [bigEndian_cons, List.length_cons, pow_succ]
    nlinarith

theorem bigEndian_ge {x : UInt8} (bs : Bytes) (hx : x ≠ 0) :
    256 ^ bs.length ≤ Stream.bigEndian (x :: bs) := by
  have : 1 ≤ x.toNat := by
    rcases Nat.eq_zero_or_pos x.toNat with h | h
    · exact absurd (UInt8.toNat_inj.mp (by simpa using h)) hx
    · exact h
  rw [bigEndian_cons]
  calc 256 ^ bs.length = 1 * 256 ^ bs.length := (one_mul _).symm
    _ ≤ x.toNat * 256 ^ bs.length := Nat.mul_le_mul_right _ this
    _ ≤ _ := Nat.le_add_right _ _

/-- Big-endian bytes of one length are told apart by their value. -/
theorem bigEndian_injective : ∀ {bs cs : Bytes}, bs.length = cs.length →
    Stream.bigEndian bs = Stream.bigEndian cs → bs = cs
  | [], [], _, _ => rfl
  | x :: bs, y :: cs, hl, he => by
    simp only [List.length_cons, Nat.add_right_cancel_iff] at hl
    rw [bigEndian_cons, bigEndian_cons, hl] at he
    have hb := bigEndian_lt bs
    have hc := bigEndian_lt cs
    rw [hl] at hb
    have hpos : 0 < 256 ^ cs.length := by positivity
    have hxy : x.toNat = y.toNat := by
      have := congrArg (· / 256 ^ cs.length) he
      simp only [mul_comm _ (256 ^ cs.length), Nat.mul_add_div hpos, Nat.div_eq_of_lt hb,
        Nat.div_eq_of_lt hc] at this
      simpa using this
    have hrest : Stream.bigEndian bs = Stream.bigEndian cs := by
      rw [hxy] at he
      omega
    rw [UInt8.toNat_inj.mp hxy, bigEndian_injective hl hrest]

theorem putint_bigEndian {bs : Bytes} (h0 : 0 < bs.length) (h8 : bs.length ≤ 8) (hz : bs.headD 0 ≠ 0) :
    putint (Stream.bigEndian bs) = bs := by
  obtain ⟨x, tl, rfl⟩ : ∃ x tl, bs = x :: tl := by
    cases bs with
    | nil => simp at h0
    | cons x tl => exact ⟨x, tl, rfl⟩
  have hlt := bigEndian_lt (x :: tl)
  have hge := bigEndian_ge tl hz
  have h64 : Stream.bigEndian (x :: tl) < 2 ^ 64 :=
    lt_of_lt_of_le hlt (by rw [show (2 : ℕ) ^ 64 = 256 ^ 8 by norm_num]; exact Nat.pow_le_pow_right (by norm_num) h8)
  obtain ⟨k, hk0, hk8, hk, hlow, he⟩ := putint_eq _ h64
  have hkL : k = (x :: tl).length := by
    have h1 : tl.length < k := (Nat.pow_lt_pow_iff_right (by norm_num)).mp (lt_of_le_of_lt hge hk)
    have h2 : k - 1 < (x :: tl).length := by
      rcases hlow with rfl | h
      · simp
      · exact (Nat.pow_lt_pow_iff_right (by norm_num)).mp (lt_of_le_of_lt h hlt)
    simp only [List.length_cons] at h2 ⊢
    omega
  apply bigEndian_injective
  · rw [he, length_bigEndianBytes, hkL]
  · exact bigEndian_putint h64

/-! ## Headers

The first byte of a header against the bounds `readHeader` compares it with. -/

theorem short_string_tag : ∀ k < 56, ¬ ((0x80 : UInt8) + k.toUInt8 < 0x80) ∧
    (0x80 : UInt8) + k.toUInt8 < 0xB8 ∧ (((0x80 : UInt8) + k.toUInt8) - 0x80).toNat = k := by
  decide

theorem long_string_tag : ∀ k < 9, 0 < k → ¬ ((0xB7 : UInt8) + k.toUInt8 < 0x80) ∧
    ¬ ((0xB7 : UInt8) + k.toUInt8 < 0xB8) ∧ (0xB7 : UInt8) + k.toUInt8 < 0xC0 ∧
    (((0xB7 : UInt8) + k.toUInt8) - 0xB7).toNat = k := by
  decide

theorem short_list_tag : ∀ k < 56, ¬ ((0xC0 : UInt8) + k.toUInt8 < 0x80) ∧
    ¬ ((0xC0 : UInt8) + k.toUInt8 < 0xB8) ∧ ¬ ((0xC0 : UInt8) + k.toUInt8 < 0xC0) ∧
    (0xC0 : UInt8) + k.toUInt8 < 0xF8 ∧ (((0xC0 : UInt8) + k.toUInt8) - 0xC0).toNat = k := by
  decide

theorem long_list_tag : ∀ k < 9, 0 < k → ¬ ((0xF7 : UInt8) + k.toUInt8 < 0x80) ∧
    ¬ ((0xF7 : UInt8) + k.toUInt8 < 0xB8) ∧ ¬ ((0xF7 : UInt8) + k.toUInt8 < 0xC0) ∧
    ¬ ((0xF7 : UInt8) + k.toUInt8 < 0xF8) ∧ (((0xF7 : UInt8) + k.toUInt8) - 0xF7).toNat = k := by
  decide

theorem headD_append_of_pos {l₁ l₂ : Bytes} (h : 0 < l₁.length) : (l₁ ++ l₂).headD 0 = l₁.headD 0 := by
  cases l₁ with
  | nil => cases h
  | cons x l => rfl

theorem readSize_putint {n : ℕ} (h : n < 2 ^ 64) (h56 : 56 ≤ n) (rest : Bytes) :
    readSize (putint n ++ rest) (putint n).length = .ok n := by
  have hne := putint_head_ne_zero h h56
  have hlen := (length_putint h).1
  unfold readSize
  rw [if_neg (by simp), List.take_left' rfl, bigEndian_putint h, if_neg]
  rintro (hs | hz)
  · omega
  · apply hne
    rwa [headD_append_of_pos hlen] at hz

/-- The header of a string that does not stand for itself. -/
theorem readKind_string {b : Bytes} (hb : ¬ SingleByte b) (hlen : b.length < 2 ^ 64) (rest : Bytes) :
    readKind (puthead 0x80 0xB7 b.length ++ (b ++ rest)) =
      .ok (.String, (puthead 0x80 0xB7 b.length).length, b.length) := by
  unfold puthead
  by_cases hs : b.length < 56
  · obtain ⟨h80, hB8, hsub⟩ := short_string_tag b.length hs
    simp only [if_pos hs, List.singleton_append, readKind, readHeader, if_neg h80, if_pos hB8, hsub]
    rw [if_neg]
    · simp only [pure, Except.pure, bind, Except.bind, List.length_cons, List.length_append]
      rw [if_neg (by omega)]
      rfl
    · rintro ⟨h1, -, hx⟩
      apply hb
      refine ⟨h1, ?_⟩
      rw [headD_append_of_pos (by omega)] at hx
      have := UInt8.lt_iff_toNat_lt.mp hx
      exact UInt8.le_iff_toNat_le.mpr (by simp at this ⊢; omega)
  · have hp := length_putint hlen
    obtain ⟨h80, hB8, hC0, hsub⟩ := long_string_tag (putint b.length).length (by omega) hp.1
    simp only [if_neg hs, List.cons_append, readKind, readHeader, if_neg h80, if_neg hB8,
      if_pos hC0, hsub, readSize_putint hlen (by omega)]
    simp only [pure, Except.pure, bind, Except.bind, List.length_cons, List.length_append]
    rw [if_neg (by omega)]

theorem readKind_list {payload : Bytes} (hlen : payload.length < 2 ^ 64) (rest : Bytes) :
    readKind (puthead 0xC0 0xF7 payload.length ++ (payload ++ rest)) =
      .ok (.List, (puthead 0xC0 0xF7 payload.length).length, payload.length) := by
  unfold puthead
  by_cases hs : payload.length < 56
  · obtain ⟨h80, hB8, hC0, hF8, hsub⟩ := short_list_tag payload.length hs
    simp only [if_pos hs, List.singleton_append, readKind, readHeader, if_neg h80, if_neg hB8,
      if_neg hC0, if_pos hF8, hsub]
    simp only [pure, Except.pure, bind, Except.bind, List.length_cons, List.length_append]
    rw [if_neg (by omega)]
    rfl
  · have hp := length_putint hlen
    obtain ⟨h80, hB8, hC0, hF8, hsub⟩ := long_list_tag (putint payload.length).length (by omega) hp.1
    simp only [if_neg hs, List.cons_append, readKind, readHeader, if_neg h80, if_neg hB8,
      if_neg hC0, if_neg hF8, hsub, readSize_putint hlen (by omega)]
    simp only [pure, Except.pure, bind, Except.bind, List.length_cons, List.length_append]
    rw [if_neg (by omega)]

theorem length_puthead_le (smalltag largetag : UInt8) {n : ℕ} (h : n < 2 ^ 64) :
    (puthead smalltag largetag n).length ≤ 9 := by
  unfold puthead
  split_ifs
  · simp
  · have := length_putint h
    simp only [List.length_cons]
    omega

theorem length_encode_str_le (b : Bytes) (h : b.length < 2 ^ 64) : (Item.str b).encode.length ≤ b.length + 9 := by
  simp only [Item.encode]
  split_ifs with hb
  · omega
  · have := length_puthead_le 0x80 0xB7 h
    simp only [List.length_append]
    omega

/-! ## Splitting an encoding -/

theorem length_content_le (i : Item) : i.content.length ≤ i.encode.length := by
  cases i with
  | str b =>
    simp only [Item.content, Item.encode]
    split_ifs <;> simp
  | list items => simp [Item.content, Item.encode]

/-- `readKind` reads the header of an item's encoding. -/
theorem readKind_encode (i : Item) (h : i.encode.length < 2 ^ 64) (rest : Bytes) :
    readKind (i.encode ++ rest) =
      .ok (i.kind, i.encode.length - i.content.length, i.content.length) := by
  have hc := length_content_le i
  cases i with
  | str b =>
    simp only [Item.encode, Item.kind, Item.content] at h hc ⊢
    by_cases hb : SingleByte b
    · obtain ⟨h1, hx⟩ := hb
      obtain ⟨x, rfl⟩ := List.length_eq_one_iff.mp h1
      simp only [if_pos (show SingleByte [x] from ⟨h1, hx⟩), List.singleton_append, readKind,
        readHeader, if_pos (show x < 0x80 from UInt8.lt_of_le_of_lt hx (by decide))]
      rfl
    · simp only [if_neg hb, List.append_assoc, readKind_string hb (by simp at h; omega), List.length_append]
      congr 3
      omega
  | list items =>
    simp only [Item.encode, Item.kind, Item.content] at h ⊢
    rw [List.append_assoc, readKind_list (by simp at h; omega), List.length_append]
    congr 3
    omega

theorem Split_encode (i : Item) (h : i.encode.length < 2 ^ 64) (rest : Bytes) :
    Split (i.encode ++ rest) = .ok (i.kind, i.content, rest) := by
  obtain ⟨hdr, he⟩ : ∃ hdr, i.encode = hdr ++ i.content := by
    cases i with
    | str b =>
      simp only [Item.encode, Item.content]
      split_ifs
      · exact ⟨[], rfl⟩
      · exact ⟨_, rfl⟩
    | list items => exact ⟨_, rfl⟩
  have hl : i.encode.length - i.content.length = hdr.length := by
    rw [he, List.length_append]
    omega
  rw [Split, readKind_encode i h, hl, he]
  simp only [pure, Except.pure, bind, Except.bind, List.append_assoc]
  rw [List.drop_left' rfl, List.take_left' rfl, ← List.append_assoc, List.drop_left' (by simp)]

theorem SplitString_encode (b : Bytes) (h : (Item.str b).encode.length < 2 ^ 64) (rest : Bytes) :
    SplitString ((Item.str b).encode ++ rest) = .ok (b, rest) := by
  rw [SplitString, Split_encode _ h]
  by_cases hb : SingleByte b <;> simp [Item.kind, Item.content, hb, bind, Except.bind, pure, Except.pure]

theorem SplitList_encode (items : List Item) (h : (Item.list items).encode.length < 2 ^ 64) (rest : Bytes) :
    SplitList ((Item.list items).encode ++ rest) = .ok (Item.encodeList items, rest) := by
  rw [SplitList, Split_encode _ h]
  rfl

theorem length_encode_lt_of_mem {i : Item} {items : List Item} (h : i ∈ items) :
    i.encode.length < (Item.list items).encode.length := by
  have hle : i.encode.length ≤ (Item.encodeList items).length := by
    induction items with
    | nil => cases h
    | cons j is ih =>
      rw [Item.encodeList, List.length_append]
      rcases List.mem_cons.mp h with rfl | hm
      · omega
      · have := ih hm
        omega
  have hh : 0 < (puthead 0xC0 0xF7 (Item.encodeList items).length).length := by
    unfold puthead
    split_ifs <;> simp
  simp only [Item.encode, List.length_append]
  omega

/-- `CountValues` counts the items of an encoded list. -/
theorem countValuesLoop_encodeList (items : List Item) (hb : ∀ i ∈ items, i.encode.length < 2 ^ 64)
    (fuel n : ℕ) (hf : (Item.encodeList items).length ≤ fuel) :
    countValuesLoop fuel (Item.encodeList items) n = .ok (n + items.length) := by
  induction items generalizing fuel n with
  | nil =>
    cases fuel <;> simp [countValuesLoop, Item.encodeList]
  | cons i is ih =>
    have hi := hb i (List.mem_cons_self ..)
    have hpos : 0 < i.encode.length := by
      cases i with
      | str b =>
        simp only [Item.encode]
        split_ifs with hs
        · simp [hs.1]
        · unfold puthead
          split_ifs <;> simp
      | list items =>
        simp only [Item.encode, puthead]
        split_ifs <;> simp
    obtain ⟨fuel, rfl⟩ : ∃ f, fuel = f + 1 := ⟨fuel - 1, by simp [Item.encodeList] at hf; omega⟩
    rw [Item.encodeList] at hf ⊢
    have hne : (i.encode ++ Item.encodeList is).isEmpty = false := by
      cases h : i.encode with
      | nil => simp [h] at hpos
      | cons _ _ => rfl
    simp only [countValuesLoop, hne, Bool.false_eq_true, if_false, readKind_encode i hi,
      bind, Except.bind]
    have hdrop : (i.encode ++ Item.encodeList is).drop
        (i.encode.length - i.content.length + i.content.length) = Item.encodeList is := by
      rw [Nat.sub_add_cancel (length_content_le i), List.drop_left' rfl]
    rw [hdrop, ih (fun j hj => hb j (List.mem_cons_of_mem _ hj)) fuel (n + 1) (by simp at hf; omega)]
    simp only [List.length_cons]
    congr 1
    omega

theorem CountValues_encodeList (items : List Item) (hb : ∀ i ∈ items, i.encode.length < 2 ^ 64) :
    CountValues (Item.encodeList items) = .ok items.length := by
  rw [CountValues, countValuesLoop_encodeList items hb _ 0 le_rfl, Nat.zero_add]

/-! ## `Raw` puts back the header `Split` reads

`Stream.Raw` reads a header with the stream's own `readKind`, then writes a new
header for the size it read. `Split` accepts canonical headers only, so the new
header is the one read: `puthead_readHeader`. -/

section Raw

theorem toNat_sub_pos {x hi : UInt8} (lo : UInt8) (h : ¬ x < hi) (hlo : lo < hi) : 0 < (x - lo).toNat := by
  rw [UInt8.not_lt] at h
  have h1 := UInt8.lt_iff_toNat_lt.mp hlo
  have h2 := UInt8.le_iff_toNat_le.mp h
  rw [UInt8.toNat_sub_of_le _ _ (UInt8.le_iff_toNat_le.mpr (by omega))]
  omega

theorem readSize_spec {b : Bytes} {slen size : ℕ} (h : readSize b slen = .ok size) :
    slen ≤ b.length ∧ size = Stream.bigEndian (b.take slen) ∧ 56 ≤ size ∧ b.headD 0 ≠ 0 := by
  unfold readSize at h
  split_ifs at h with hlen
  dsimp only at h
  split_ifs at h with hcanon
  cases h
  rw [not_or] at hcanon
  exact ⟨by omega, rfl, by omega, hcanon.2⟩

theorem readHeader_byte {x : UInt8} {tl : Bytes} {ts cs : ℕ} (h : readHeader x tl = .ok (.Byte, ts, cs)) :
    ts = 0 ∧ cs = 1 := by
  unfold readHeader at h
  split_ifs at h
  · cases h
    exact ⟨rfl, rfl⟩
  all_goals first
    | (dsimp only at h; split_ifs at h; cases h)
    | (obtain ⟨_, _, hk⟩ := Lib.except_bind_eq_ok.mp h; cases hk)
    | cases h

/-- A long header that `readSize` accepts is the one `puthead` writes. -/
theorem puthead_of_readSize {x smalltag largetag : UInt8} {tl : Bytes} {size : ℕ}
    (h0 : 0 < (x - largetag).toNat) (h8 : (x - largetag).toNat ≤ 8)
    (h : readSize tl (x - largetag).toNat = .ok size) :
    puthead smalltag largetag size = (x :: tl).take ((x - largetag).toNat + 1) := by
  have hx : largetag + ((x - largetag).toNat).toUInt8 = x := by
    rw [Nat.toUInt8_eq, UInt8.ofNat_toNat, UInt8.add_comm, UInt8.sub_add_cancel]
  generalize (x - largetag).toNat = n at h0 h8 h hx
  obtain ⟨hlen, rfl, h56, hz⟩ := readSize_spec h
  obtain ⟨y, tl, rfl⟩ : ∃ y tl', tl = y :: tl' := by
    cases tl with
    | nil => simp at hlen; omega
    | cons y tl => exact ⟨y, tl, rfl⟩
  obtain ⟨m, rfl⟩ : ∃ m, n = m + 1 := ⟨n - 1, by omega⟩
  have hput : putint (Stream.bigEndian ((y :: tl).take (m + 1))) = (y :: tl).take (m + 1) := by
    apply putint_bigEndian
    · simp
    · simp only [List.length_take, List.length_cons] at hlen ⊢
      omega
    · simpa using hz
  rw [puthead, if_neg (by omega), hput]
  dsimp only
  rw [List.length_take_of_le hlen, hx]
  rfl

/-- The header `readHeader` accepts is the one `puthead` writes for the size it reads. -/
theorem puthead_readHeader {x : UInt8} {tl : Bytes} {k : Kind} {ts cs : ℕ}
    (h : readHeader x tl = .ok (k, ts, cs)) :
    (k = .String → puthead 0x80 0xB7 cs = (x :: tl).take ts) ∧
      (k = .List → puthead 0xC0 0xF7 cs = (x :: tl).take ts) := by
  have hx := x.toNat_lt
  unfold readHeader at h
  split_ifs at h with h80 hB8 hC0 hF8
  · cases h
    simp
  · dsimp only at h
    split_ifs at h
    cases h
    refine ⟨fun _ => ?_, fun h => (by cases h)⟩
    have : (x - 0x80).toNat < 56 := by
      rw [UInt8.toNat_sub_of_le _ _ (UInt8.not_lt.mp h80)]
      have := UInt8.lt_iff_toNat_lt.mp hB8
      simp at this ⊢
      omega
    rw [puthead, if_pos this, Nat.toUInt8_eq, UInt8.ofNat_toNat, UInt8.add_comm, UInt8.sub_add_cancel]
    rfl
  · obtain ⟨size, hsize, hk⟩ := Lib.except_bind_eq_ok.mp h
    cases hk
    refine ⟨fun _ => puthead_of_readSize (toNat_sub_pos 0xB7 hB8 (by decide)) ?_ hsize,
      fun h => (by cases h)⟩
    rw [UInt8.toNat_sub_of_le _ _ (UInt8.le_iff_toNat_le.mpr (by have := UInt8.not_lt.mp hB8; simp [UInt8.le_iff_toNat_le] at this ⊢; omega))]
    have := UInt8.lt_iff_toNat_lt.mp hC0
    simp at this ⊢
    omega
  · cases h
    refine ⟨fun h => (by cases h), fun _ => ?_⟩
    have : (x - 0xC0).toNat < 56 := by
      rw [UInt8.toNat_sub_of_le _ _ (UInt8.not_lt.mp hC0)]
      have := UInt8.lt_iff_toNat_lt.mp hF8
      simp at this ⊢
      omega
    rw [puthead, if_pos this, Nat.toUInt8_eq, UInt8.ofNat_toNat, UInt8.add_comm, UInt8.sub_add_cancel]
    rfl
  · obtain ⟨size, hsize, hk⟩ := Lib.except_bind_eq_ok.mp h
    cases hk
    refine ⟨fun h => (by cases h),
      fun _ => puthead_of_readSize (toNat_sub_pos 0xF7 hF8 (by decide)) ?_ hsize⟩
    rw [UInt8.toNat_sub_of_le _ _ (UInt8.le_iff_toNat_le.mpr (by have := UInt8.not_lt.mp hF8; simp [UInt8.le_iff_toNat_le] at this ⊢; omega))]
    simp
    omega

end Raw

end EthereumAI.Rlp
