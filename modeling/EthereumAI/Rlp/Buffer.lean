import EthereumAI.Rlp.InList

/-! # What the encoder's buffer holds

An `encbuf` keeps the string data apart from the list headers, each header at the
offset of the string data it stands before. `renderFrom` puts the headers back:
`toBytes` is its result from the start, and the writes of `toWriter` and the pieces
of `encReader` are its result cut into parts.

Writing a value appends string data and closed headers whose rendering is the RLP
encoding of items: a list's header, closed by `listEnd`, announces the size of the
string data and of the headers written since it was opened, which is the length of
the encodings of its elements. So the three outputs of the encoder are one item's
encoding, and their length is the buffer's `size`.
-/

namespace EthereumAI.Rlp

/-! ## Header sizes -/

/-- `intsizeLoop` counts the bytes of `i` when `k` of them hold it and no fewer. -/
theorem intsizeLoop_eq : ∀ (fuel size i k : ℕ), 0 < k → k ≤ fuel + 1 → i < 256 ^ k →
    (k = 1 ∨ 256 ^ (k - 1) ≤ i) → intsizeLoop fuel size i = size + k - 1
  | 0, size, i, k, hk, hf, _, _ => by
    rw [intsizeLoop]
    omega
  | fuel + 1, size, i, k, hk, hf, hlt, hlow => by
    rw [intsizeLoop]
    split_ifs with h0
    · -- one byte holds `i`, so `k` is one
      have hi : i < 256 := by omega
      by_cases hk1 : k = 1
      · omega
      · have : 256 ≤ 256 ^ (k - 1) := Nat.le_self_pow (by omega) 256
        omega
    · have hk2 : 2 ≤ k := by
        by_contra hk
        obtain rfl : k = 1 := by omega
        simp at hlt
        omega
      obtain ⟨j, rfl⟩ : ∃ j, k = j + 2 := ⟨k - 2, by omega⟩
      have hdiv : i / 256 < 256 ^ (j + 1) := by
        rw [Nat.div_lt_iff_lt_mul (by norm_num), ← pow_succ]
        exact hlt
      have hlow₂ : 256 ^ (j + 1) ≤ i := by
        rcases hlow with h | h
        · omega
        · simpa using h
      have hlow' : j + 1 = 1 ∨ 256 ^ j ≤ i / 256 := by
        right
        rw [Nat.le_div_iff_mul_le (by norm_num), ← pow_succ]
        exact hlow₂
      rw [intsizeLoop_eq fuel (size + 1) (i / 256) (j + 1) (by omega) (by omega) hdiv hlow']
      omega

theorem intsize_eq {n : ℕ} (h : n < 2 ^ 64) : intsize n = (putint n).length := by
  obtain ⟨k, hk0, hk8, hlt, hlow, he⟩ := putint_eq n h
  rw [he, length_bigEndianBytes, intsize, intsizeLoop_eq 8 1 n k hk0 (by omega) hlt hlow]
  omega

theorem headsize_eq (smalltag largetag : UInt8) {n : ℕ} (h : n < 2 ^ 64) :
    headsize n = (puthead smalltag largetag n).length := by
  unfold headsize puthead
  split_ifs
  · rfl
  · simp only [intsize_eq h, List.length_cons]
    omega

namespace encbuf

/-! ## Rendering the buffer -/

/-- The headers sit in order in the string data, from position `pos` on. -/
def Placed (str : Bytes) : ℕ → List listhead → Prop
  | _, [] => True
  | pos, h :: hs => pos ≤ h.offset ∧ h.offset ≤ str.length ∧ Placed str h.offset hs

/-- The string data from `pos` with the headers `hs` put back at their offsets. -/
def renderFrom (str : Bytes) : ℕ → List listhead → Bytes
  | pos, [] => str.drop pos
  | pos, h :: hs => (str.drop pos).take (h.offset - pos) ++ h.encode ++ renderFrom str h.offset hs

theorem Placed.mono {str : Bytes} {p q : ℕ} (hpq : p ≤ q) :
    ∀ {hs : List listhead}, Placed str q hs → Placed str p hs
  | [], _ => trivial
  | _ :: _, ⟨hq, hl, hs⟩ => ⟨le_trans hpq hq, hl, hs⟩

theorem Placed.append_str {str : Bytes} (s : Bytes) :
    ∀ {pos : ℕ} {hs : List listhead}, Placed str pos hs → Placed (str ++ s) pos hs
  | _, [], _ => trivial
  | _, _ :: _, ⟨hp, hl, hs⟩ => ⟨hp, by simp only [List.length_append]; omega, hs.append_str s⟩

theorem Placed.append {str : Bytes} {pos q : ℕ} :
    ∀ {hs hs' : List listhead}, Placed str pos hs → (∀ h ∈ hs, h.offset ≤ q) → pos ≤ q →
      Placed str q hs' → Placed str pos (hs ++ hs')
  | [], _, _, _, hq, h' => h'.mono hq
  | _ :: _, _, ⟨hp, hl, hs⟩, hle, _, h' =>
    ⟨hp, hl, hs.append (fun h hh => hle h (List.mem_cons_of_mem _ hh)) (hle _ List.mem_cons_self) h'⟩

theorem Placed.le_length {str : Bytes} :
    ∀ {pos : ℕ} {hs : List listhead}, Placed str pos hs → ∀ h ∈ hs, h.offset ≤ str.length
  | _, [], _ => fun _ hh => by cases hh
  | _, _ :: _, ⟨_, hl, hs⟩ => by
    intro h hh
    rcases List.mem_cons.mp hh with rfl | hh
    · exact hl
    · exact hs.le_length h hh

theorem length_renderFrom {str : Bytes} :
    ∀ {pos : ℕ} {hs : List listhead}, Placed str pos hs → pos ≤ str.length →
      (renderFrom str pos hs).length = str.length - pos + (hs.map fun h => h.encode.length).sum
  | _, [], _, _ => by simp [renderFrom]
  | pos, h :: hs, ⟨hp, hl, hhs⟩, _ => by
    rw [renderFrom, List.length_append, List.length_append, length_renderFrom hhs hl,
      List.length_take, List.length_drop, List.map_cons, List.sum_cons]
    omega

theorem renderFrom_append {S : Bytes} (s : Bytes) {hs' : List listhead} (hs'_placed : Placed (S ++ s) S.length hs') :
    ∀ {pos : ℕ} {hs : List listhead}, Placed S pos hs → pos ≤ S.length →
      renderFrom (S ++ s) pos (hs ++ hs') = renderFrom S pos hs ++ renderFrom (S ++ s) S.length hs'
  | pos, [], _, hpos => by
    cases hs' with
    | nil => simp [renderFrom, List.drop_append_of_le_length hpos]
    | cons h hs' =>
      obtain ⟨hh, hl, -⟩ := hs'_placed
      simp only [List.nil_append, renderFrom, List.drop_append_of_le_length hpos, List.drop_left,
        List.append_assoc]
      rw [List.take_append, List.take_of_length_le (by simp; omega), List.length_drop,
        show h.offset - pos - (S.length - pos) = h.offset - S.length by omega]
      simp only [List.append_assoc]
  | pos, h :: hs, ⟨hp, hl, hhs⟩, _ => by
    rw [List.cons_append, renderFrom, renderFrom, renderFrom_append s hs'_placed hhs hl,
      List.drop_append_of_le_length (le_trans hp hl),
      List.take_append_of_le_length (by simp; omega)]
    simp only [List.append_assoc]

variable (w : encbuf)

theorem toBytes_eq : w.toBytes = renderFrom w.str 0 w.lheads := by
  have hloop : ∀ (hs : List listhead) (out : Bytes) (pos : ℕ),
      (hs.foldl (fun (acc : Bytes × ℕ) head =>
        (acc.1 ++ (w.str.drop acc.2).take (head.offset - acc.2) ++ head.encode, head.offset)) (out, pos)).1 ++
        w.str.drop (hs.foldl (fun (acc : Bytes × ℕ) head =>
          (acc.1 ++ (w.str.drop acc.2).take (head.offset - acc.2) ++ head.encode, head.offset)) (out, pos)).2 =
      out ++ renderFrom w.str pos hs := by
    intro hs
    induction hs with
    | nil => simp [renderFrom]
    | cons h hs ih =>
      intro out pos
      rw [List.foldl_cons, ih, renderFrom]
      simp only [List.append_assoc]
  rw [toBytes]
  exact hloop w.lheads [] 0

theorem toWriter_flatten (hp : Placed w.str 0 w.lheads) : w.toWriter.flatten = w.toBytes := by
  -- the loop of `toWriter` has written everything before the header it reached
  have hloop : ∀ (hs : List listhead) (out : List Bytes) (pos : ℕ), Placed w.str pos hs →
      pos ≤ w.str.length →
      (hs.foldl w.toWriterStep (out, pos)).1.flatten ++ w.str.drop (hs.foldl w.toWriterStep (out, pos)).2 =
        out.flatten ++ renderFrom w.str pos hs := by
    intro hs
    induction hs with
    | nil => simp [renderFrom]
    | cons h hs ih =>
      intro out pos hph hpos
      obtain ⟨hp₁, hl, hhs⟩ := hph
      rw [List.foldl_cons, renderFrom]
      by_cases hgt : h.offset - pos > 0
      · have hlen : ((w.str.drop pos).take (h.offset - pos)).length = h.offset - pos := by
          simp; omega
        have hstep : w.toWriterStep (out, pos) h =
            (out ++ [(w.str.drop pos).take (h.offset - pos)] ++ [h.encode], h.offset) := by
          simp only [toWriterStep, if_pos hgt, hlen]
          congr 2
          omega
        rw [hstep, ih _ _ hhs hl]
        simp
      · have hstep : w.toWriterStep (out, pos) h = (out ++ [h.encode], pos) := by
          simp only [toWriterStep, if_neg hgt]
        have hoff : h.offset = pos := by omega
        rw [hstep, ← hoff, ih _ _ hhs hl, hoff]
        simp
  rw [toWriter, toBytes_eq]
  have h := hloop w.lheads [] 0 hp (Nat.zero_le _)
  simp only [List.flatten_nil, List.nil_append] at h
  generalize List.foldl w.toWriterStep ([], 0) w.lheads = acc at h ⊢
  obtain ⟨out, strpos⟩ := acc
  dsimp only at h ⊢
  split_ifs with hlt
  · rw [List.flatten_append, List.flatten_singleton, h]
  · rw [← h, List.drop_of_length_le (by omega), List.append_nil]

/-! ## Writing appends items -/

/-- `w'` is `w` with the items `is` written after it: string data and closed headers
are appended, `lhsize` counts the appended headers, and the appended part renders to
the items' encodings. The headers of `w`, closed or still open, stay as they were. -/
structure Appends (w w' : encbuf) (is : List Item) : Prop where
  str : ∃ s, w'.str = w.str ++ s
  lheads : ∃ hs, w'.lheads = w.lheads ++ hs ∧ Placed w'.str w.str.length hs ∧
    (∀ h ∈ hs, headsize h.size = h.encode.length) ∧
    w'.lhsize = w.lhsize + (hs.map fun h => headsize h.size).sum ∧
    renderFrom w'.str w.str.length hs = Item.encodeList is

theorem encodeList_append (is js : List Item) :
    Item.encodeList (is ++ js) = Item.encodeList is ++ Item.encodeList js := by
  induction is with
  | nil => simp [Item.encodeList]
  | cons i is ih => simp [Item.encodeList, ih]

namespace Appends

variable {w w₁ w₂ w₃ : encbuf} {is js : List Item}

theorem refl (w : encbuf) : Appends w w [] :=
  ⟨⟨[], by simp⟩, ⟨[], by simp, trivial, by simp, by simp, by simp [renderFrom, Item.encodeList]⟩⟩

theorem size_le (h : Appends w w' is) : w.size ≤ w'.size := by
  obtain ⟨s, hs⟩ := h.str
  obtain ⟨_, -, -, -, hl, -⟩ := h.lheads
  simp only [size, hs, hl, List.length_append]
  omega

theorem trans (h₁ : Appends w₁ w₂ is) (h₂ : Appends w₂ w₃ js) : Appends w₁ w₃ (is ++ js) := by
  obtain ⟨s₁, hs₁⟩ := h₁.str
  obtain ⟨s₂, hs₂⟩ := h₂.str
  obtain ⟨hs, hl₁, hp₁, hc₁, hsize₁, hr₁⟩ := h₁.lheads
  obtain ⟨hs', hl₂, hp₂, hc₂, hsize₂, hr₂⟩ := h₂.lheads
  have hlen : w₁.str.length ≤ w₂.str.length := by simp [hs₁]
  refine ⟨⟨s₁ ++ s₂, by rw [hs₂, hs₁, List.append_assoc]⟩, ⟨hs ++ hs', by rw [hl₂, hl₁, List.append_assoc], ?_, ?_, ?_, ?_⟩⟩
  · rw [hs₂] at hp₂ ⊢
    exact (hp₁.append_str s₂).append (fun h hh => hp₁.le_length h hh) hlen hp₂
  · intro h hh
    rcases List.mem_append.mp hh with hh | hh
    · exact hc₁ h hh
    · exact hc₂ h hh
  · rw [hsize₂, hsize₁, List.map_append, List.sum_append, Nat.add_assoc]
  · rw [hs₂] at hp₂ ⊢
    rw [renderFrom_append s₂ hp₂ hp₁ hlen, hr₁, ← hs₂, hr₂, encodeList_append]

theorem Write (w : encbuf) (is : List Item) : Appends w (w.Write (Item.encodeList is)) is :=
  ⟨⟨_, rfl⟩, ⟨[], by simp [encbuf.Write], trivial, by simp, by simp [encbuf.Write],
    by simp [renderFrom, encbuf.Write]⟩⟩

theorem Write_item (w : encbuf) (i : Item) : Appends w (w.Write i.encode) [i] := by
  simpa [Item.encodeList] using Write w [i]

/-- A list: the header `list` opens, closed by `listEnd` once the elements are
written, announces the length of their encodings. -/
theorem listEnd (h : Appends w.list.2 w₂ is) (hsize : (w₂.listEnd w.list.1).size < 2 ^ 64) :
    Appends w (w₂.listEnd w.list.1) [Item.list is] := by
  obtain ⟨s, hs₂⟩ := h.str
  obtain ⟨hs, hl₂, hp, hc, hlh, hr⟩ := h.lheads
  simp only [list] at hs₂ hl₂ hp hlh hr hsize ⊢
  have hget : w₂.lheads[w.lheads.length]? = some ⟨w.str.length, w.lhsize⟩ := by
    rw [hl₂, List.append_assoc, List.getElem?_append_right le_rfl]
    simp
  -- the size is the length of what was written since the header
  have hsum : (hs.map fun h => headsize h.size).sum = (hs.map fun h => h.encode.length).sum := by
    rw [List.map_congr_left hc]
  have hcontent : w₂.size - w.str.length - w.lhsize = (Item.encodeList is).length := by
    rw [← hr, length_renderFrom hp (by simp [hs₂])]
    simp only [size, hs₂, hlh, hsum, List.length_append]
    omega
  have hle : (Item.encodeList is).length ≤ w₂.str.length + w₂.lhsize := by
    rw [← hcontent]
    simp only [size]
    omega
  simp only [encbuf.listEnd, hget, hcontent] at hsize ⊢
  have hsize' : (Item.encodeList is).length < 2 ^ 64 := by
    simp only [size] at hsize
    omega
  refine ⟨⟨s, hs₂⟩, ⟨⟨w.str.length, (Item.encodeList is).length⟩ :: hs, ?_, ?_, ?_, ?_, ?_⟩⟩
  · rw [hl₂, List.append_assoc, List.set_append_right _ _ le_rfl]
    simp
  · exact ⟨le_rfl, by simp [hs₂], by simpa [hs₂] using hp⟩
  · intro h hh
    rcases List.mem_cons.mp hh with rfl | hh
    · exact headsize_eq 0xC0 0xF7 hsize'
    · exact hc h hh
  · simp only [hlh, List.map_cons, List.sum_cons, headsize]
    omega
  · simp only [renderFrom, Nat.sub_self, List.take_zero, List.nil_append, listhead.encode]
    rw [hs₂] at hr ⊢
    rw [hr]
    simp [Item.encodeList, Item.encode]

theorem list_of {lh : ℕ} (hl : w.list = (lh, w₁)) (h : Appends w₁ w₂ is)
    (hsize : (w₂.listEnd lh).size < 2 ^ 64) : Appends w (w₂.listEnd lh) [Item.list is] := by
  obtain rfl : lh = w.list.1 := by rw [hl]
  obtain rfl : w₁ = w.list.2 := by rw [hl]
  exact listEnd h hsize

end Appends

theorem Write_Write (a b : Bytes) : (w.Write a).Write b = w.Write (a ++ b) := by
  simp [encbuf.Write, List.append_assoc]

theorem size_le_listEnd (lh : ℕ) : w.size ≤ (w.listEnd lh).size := by
  unfold encbuf.listEnd
  split
  · exact le_rfl
  · simp only [size]
    omega

theorem encodeStringHeader_eq (n : ℕ) : w.encodeStringHeader n = w.Write (puthead 0x80 0xB7 n) := by
  unfold encodeStringHeader puthead
  split_ifs <;> rfl

theorem encodeString_eq (b : Bytes) : w.encodeString b = w.Write (Item.str b).encode := by
  by_cases hs : SingleByte b
  · obtain ⟨x, rfl⟩ := List.length_eq_one_iff.mp hs.1
    have hs' : [x].length = 1 ∧ [x].headD 0 ≤ 0x7F := hs
    rw [encodeString, if_pos hs', Item.encode, if_pos hs]
    rfl
  · have hs' : ¬ (b.length = 1 ∧ b.headD 0 ≤ 0x7F) := hs
    rw [encodeString, if_neg hs', Item.encode, if_neg hs, encodeStringHeader_eq, Write_Write]

end encbuf

open encbuf

/-! ## The writers write items -/

section Writers

variable (w : encbuf)

theorem writeString_eq (s : Bytes) : writeString s w = w.Write (Item.str s).encode :=
  w.encodeString_eq s

theorem writeBool_eq (b : Bool) : writeBool b w = w.Write (Item.str (if b then [0x01] else [])).encode := by
  cases b <;> rfl

theorem putint_not_singleByte {i : ℕ} (h : 128 ≤ i) : ¬ SingleByte (putint i) := by
  rintro ⟨hlen, hhead⟩
  by_cases h8 : i < 2 ^ 8
  · rw [putint, if_pos h8, bigEndianBytes] at hhead
    simp only [List.range_one, List.reverse_singleton, List.map_singleton, pow_zero, Nat.div_one,
      List.headD_cons, UInt8.le_iff_toNat_le] at hhead
    have : ((i % 256).toUInt8).toNat = i % 256 := by simp [Nat.toUInt8]
    rw [this] at hhead
    simp at hhead
    omega
  · have : 2 ≤ (putint i).length := by
      rw [putint, if_neg h8]
      split_ifs <;> simp
    omega

theorem length_putint_le (i : ℕ) : (putint i).length ≤ 8 := by
  unfold putint
  split_ifs <;> simp

theorem writeUint_eq (i : ℕ) : ∃ it : Item, writeUint i w = w.Write it.encode := by
  unfold writeUint
  split_ifs with h0 h128
  · exact ⟨.str [], rfl⟩
  · have hs : SingleByte [i.toUInt8] := by
      refine ⟨rfl, ?_⟩
      simp [UInt8.le_iff_toNat_le, Nat.toUInt8, Nat.mod_eq_of_lt (show i < 256 by omega)]
      omega
    exact ⟨.str [i.toUInt8], by rw [Item.encode, if_pos hs]⟩
  · refine ⟨.str (putint i), ?_⟩
    have hlen := length_putint_le i
    rw [Item.encode, if_neg (putint_not_singleByte (by omega)), puthead, if_pos (by omega)]
    rfl

theorem writeBigInt_eq {i : ℤ} {w' : encbuf} (h : writeBigInt i w = .ok w') :
    ∃ it : Item, w' = w.Write it.encode := by
  unfold writeBigInt at h
  split_ifs at h with hneg h0
  · cases h
    exact ⟨.str [], rfl⟩
  · cases h
    exact ⟨_, w.encodeString_eq _⟩

end Writers

/-! ## Writing a value appends its items -/

section Appending

variable {w w' : encbuf}

/-- What a writer may produce: items appended to its input buffer, for every
output whose size fits in a `uint64`. -/
def WritesItems (run : encbuf → Except String encbuf) : Prop :=
  ∀ w w', run w = .ok w' → w'.size < 2 ^ 64 → ∃ is, Appends w w' is

theorem appends_of_item (t : Bool) {i : Item} (h : w' = w.Write i.encode) :
    ∃ is, Appends w w' is ∧ (t = false → is.length = 1) :=
  ⟨[i], h ▸ Appends.Write_item w i, fun _ => rfl⟩

theorem appends_bind {f : Except String encbuf} {g : encbuf → Except String encbuf}
    (hf : ∀ w₁, f = .ok w₁ → w₁.size < 2 ^ 64 → ∃ is, Appends w w₁ is) (hg : WritesItems g)
    (h : (f >>= g) = .ok w') (hsize : w'.size < 2 ^ 64) : ∃ is, Appends w w' is := by
  obtain ⟨w₁, hf₁, hg₁⟩ := Lib.except_bind_eq_ok.mp h
  obtain ⟨js, hjs⟩ := hg w₁ w' hg₁ hsize
  obtain ⟨is, his⟩ := hf w₁ hf₁ (lt_of_le_of_lt hjs.size_le hsize)
  exact ⟨is ++ js, his.trans hjs⟩

theorem appends_foldlM {α : Type} {f : encbuf → α → Except String encbuf}
    (hf : ∀ a, WritesItems fun w => f w a) : ∀ l : List α, WritesItems fun w => l.foldlM f w
  | [], w, w', h, _ => by
    simp only [List.foldlM_nil, pure, Except.pure, Except.ok.injEq] at h
    exact ⟨[], h ▸ Appends.refl w⟩
  | a :: l, w, w', h, hsize => by
    dsimp only at h
    rw [List.foldlM_cons] at h
    exact appends_bind (hf a w) (appends_foldlM hf l) h hsize

theorem appends_list {lh : ℕ} {w₁ : encbuf} (hl : w.list = (lh, w₁)) {g : Except String encbuf}
    (hg : ∀ w₂, g = .ok w₂ → w₂.size < 2 ^ 64 → ∃ is, Appends w₁ w₂ is)
    (h : (g >>= fun w₂ => pure (w₂.listEnd lh)) = .ok w') (hsize : w'.size < 2 ^ 64) :
    ∃ is : List Item, Appends w w' [Item.list is] := by
  obtain ⟨w₂, hg₂, he⟩ := Lib.except_bind_eq_ok.mp h
  simp only [pure, Except.pure, Except.ok.injEq] at he
  subst he
  obtain ⟨is, his⟩ := hg w₂ hg₂ (lt_of_le_of_lt (w₂.size_le_listEnd lh) hsize)
  exact ⟨is, Appends.list_of hl his hsize⟩

/-- The zero value of a type is written as items: one item, unless the type is
a slice tagged tail, whose elements are written in place of a list. -/
theorem writeZero_appends (ty : Ty) (tags : Tags) (w w' : encbuf) (h : writeZero ty tags w = .ok w')
    (hsize : w'.size < 2 ^ 64) : ∃ is, Appends w w' is ∧ (tags.tail = false → is.length = 1) := by
  refine writeZero.induct
    (fun ty tags w => ∀ w', writeZero ty tags w = .ok w' → w'.size < 2 ^ 64 →
      ∃ is, Appends w w' is ∧ (tags.tail = false → is.length = 1))
    (fun fields w => ∀ w', writeZeroFields fields w = .ok w' → w'.size < 2 ^ 64 → ∃ is, Appends w w' is)
    ?iface ?ptrBigInt ?bigInt ?uint ?bool ?string ?bytes ?byteArray ?tailSlice ?slice ?array ?struct
    ?ptrByteArray ?ptrStruct ?ptrArray ?ptr ?nil ?cons ty tags w w' h hsize
  case iface =>
    intro tags w w' h _
    simp only [writeZero, Except.ok.injEq] at h
    exact appends_of_item tags.tail (i := .list []) h.symm
  case ptrBigInt =>
    intro tags w w' h _
    simp only [writeZero, Except.ok.injEq] at h
    exact appends_of_item tags.tail (i := .str []) h.symm
  case bigInt =>
    intro tags w w' h _
    simp only [writeZero] at h
    obtain ⟨i, hi⟩ := writeBigInt_eq w h
    exact appends_of_item tags.tail hi
  case uint =>
    intro _ tags w w' h _
    simp only [writeZero, Except.ok.injEq] at h
    obtain ⟨i, hi⟩ := writeUint_eq w 0
    exact appends_of_item tags.tail (h.symm.trans hi)
  case bool =>
    intro tags w w' h _
    simp only [writeZero, Except.ok.injEq] at h
    exact appends_of_item tags.tail (h.symm.trans (writeBool_eq w false))
  case string =>
    intro tags w w' h _
    simp only [writeZero, Except.ok.injEq] at h
    exact appends_of_item tags.tail (h.symm.trans (writeString_eq w []))
  case bytes =>
    intro tags w w' h _
    simp only [writeZero, Except.ok.injEq] at h
    exact appends_of_item tags.tail (h.symm.trans (w.encodeString_eq []))
  case byteArray =>
    intro n tags w w' h _
    simp only [writeZero, Except.ok.injEq] at h
    exact appends_of_item tags.tail (h.symm.trans (w.encodeString_eq _))
  case tailSlice =>
    -- a tail slice writes nothing of its own
    intro elem tags w hne ht w' h _
    rw [writeZero.eq_9 _ _ _ hne, if_pos ht, Except.ok.injEq] at h
    subst h
    exact ⟨[], Appends.refl w, fun hf => by simp [ht] at hf⟩
  case slice =>
    intro elem tags w hne ht lh w₁ hl w' h hsize
    rw [writeZero.eq_9 _ _ _ hne, if_neg ht, hl, Except.ok.injEq] at h
    subst h
    exact ⟨_, Appends.list_of hl (Appends.refl w₁) hsize, fun _ => rfl⟩
  case array =>
    intro n elem tags w hne lh w₁ hl ih w' h hsize
    rw [writeZero.eq_10 _ _ _ _ hne, hl] at h
    have helem : ∀ a : Unit, WritesItems fun w => writeZero elem {} w := fun _ w w' h hs =>
      (ih w w' h hs).imp fun _ h => h.1
    obtain ⟨is, his⟩ := appends_list hl (appends_foldlM helem _ w₁) h hsize
    exact ⟨_, his, fun _ => rfl⟩
  case struct =>
    intro fields tags w lh w₁ hl ih w' h hsize
    rw [writeZero.eq_11, hl] at h
    obtain ⟨is, his⟩ := appends_list hl ih h hsize
    exact ⟨_, his, fun _ => rfl⟩
  case ptrByteArray =>
    intro tags w len _ w' h _
    simp only [writeZero, Except.ok.injEq] at h
    exact appends_of_item tags.tail (i := .str []) h.symm
  case ptrStruct =>
    intro tags w fields lh w₁ hl _ w' h hsize
    rw [writeZero.eq_13, hl, Except.ok.injEq] at h
    subst h
    exact ⟨_, Appends.list_of hl (Appends.refl w₁) hsize, fun _ => rfl⟩
  case ptrArray =>
    intro tags w len elem hne lh w₁ hl _ w' h hsize
    rw [writeZero.eq_14 _ _ _ _ hne, hl, Except.ok.injEq] at h
    subst h
    exact ⟨_, Appends.list_of hl (Appends.refl w₁) hsize, fun _ => rfl⟩
  case ptr =>
    -- a nil pointer to any other type writes the element's zero value
    intro elem tags w h₁ h₂ h₃ h₄ ih w' h hsize
    rw [writeZero.eq_15 _ _ _ h₁ h₂ h₃ h₄] at h
    obtain ⟨is, his, hlen⟩ := ih w' h hsize
    exact ⟨is, his, fun _ => hlen rfl⟩
  case nil =>
    intro w w' h _
    simp only [writeZeroFields, Except.ok.injEq] at h
    exact ⟨[], h ▸ Appends.refl w⟩
  case cons =>
    intro _ tags ty fields w ih ihs w' h hsize
    rw [writeZeroFields.eq_2] at h
    exact appends_bind (fun w₁ h₁ hs₁ => (ih w₁ h₁ hs₁).imp fun _ h => h.1) ihs h hsize

/-- Writing a value appends items: one item, unless the value is a slice tagged
tail, whose elements are written in place of a list. -/
theorem write_appends (ty : Ty) (tags : Tags) (v : Val) (w w' : encbuf) (h : write ty tags v w = .ok w')
    (hsize : w'.size < 2 ^ 64) : ∃ is, Appends w w' is ∧ (tags.tail = false → is.length = 1) := by
  refine write.induct
    (fun ty tags v w => ∀ w', write ty tags v w = .ok w' → w'.size < 2 ^ 64 →
      ∃ is, Appends w w' is ∧ (tags.tail = false → is.length = 1))
    (fun fields vs w => ∀ w', writeFields fields vs w = .ok w' → w'.size < 2 ^ 64 → ∃ is, Appends w w' is)
    (fun elem vs w => ∀ w', writeElems elem vs w = .ok w' → w'.size < 2 ^ 64 → ∃ is, Appends w w' is)
    ?ifaceNil ?iface ?ptrBigIntNil ?ptrBigInt ?bigInt ?uint ?bool ?string ?bytes ?byteArray ?tailSlice
    ?slice ?array ?struct ?ptrNil ?ptr ?mismatch ?fieldsNil ?fieldsCons ?fieldsMismatch ?elemsNil ?elemsCons
    ty tags v w w' h hsize
  case ifaceNil =>
    intro tags w w' h _
    simp only [write, Except.ok.injEq] at h
    exact appends_of_item tags.tail (i := .list []) h.symm
  case iface =>
    -- a non-nil interface writes its dynamic value with no tags
    intro tags ty v w ih w' h hsize
    simp only [write] at h
    obtain ⟨is, his, hlen⟩ := ih w' h hsize
    exact ⟨is, his, fun _ => hlen rfl⟩
  case ptrBigIntNil =>
    intro tags w w' h _
    simp only [write, Except.ok.injEq] at h
    exact appends_of_item tags.tail (i := .str []) h.symm
  case ptrBigInt =>
    intro tags i w w' h _
    simp only [write] at h
    obtain ⟨it, hit⟩ := writeBigInt_eq w h
    exact appends_of_item tags.tail hit
  case bigInt =>
    intro tags i w w' h _
    simp only [write] at h
    obtain ⟨it, hit⟩ := writeBigInt_eq w h
    exact appends_of_item tags.tail hit
  case uint =>
    intro _ tags i w w' h _
    simp only [write, Except.ok.injEq] at h
    obtain ⟨it, hit⟩ := writeUint_eq w i
    exact appends_of_item tags.tail (h.symm.trans hit)
  case bool =>
    intro tags b w w' h _
    simp only [write, Except.ok.injEq] at h
    exact appends_of_item tags.tail (h.symm.trans (writeBool_eq w b))
  case string =>
    intro tags s w w' h _
    simp only [write, Except.ok.injEq] at h
    exact appends_of_item tags.tail (h.symm.trans (writeString_eq w s))
  case bytes =>
    intro tags b w w' h _
    simp only [write, Except.ok.injEq] at h
    exact appends_of_item tags.tail (h.symm.trans (w.encodeString_eq b))
  case byteArray =>
    intro _ tags b w w' h _
    simp only [write, Except.ok.injEq] at h
    exact appends_of_item tags.tail (h.symm.trans (w.encodeString_eq b))
  case tailSlice =>
    -- a tail slice writes its elements without a header
    intro elem tags vs w ht ih w' h hsize
    rw [write.eq_11, if_pos ht] at h
    obtain ⟨is, his⟩ := ih w' h hsize
    exact ⟨is, his, fun hf => by simp [ht] at hf⟩
  case slice =>
    intro elem tags vs w ht lh w₁ hl ih w' h hsize
    rw [write.eq_11, if_neg ht, hl] at h
    obtain ⟨is, his⟩ := appends_list hl ih h hsize
    exact ⟨_, his, fun _ => rfl⟩
  case array =>
    intro _ elem tags vs w lh w₁ hl ih w' h hsize
    rw [write.eq_12, hl] at h
    obtain ⟨is, his⟩ := appends_list hl ih h hsize
    exact ⟨_, his, fun _ => rfl⟩
  case struct =>
    intro fields tags vs w lh w₁ hl ih w' h hsize
    rw [write.eq_13, hl] at h
    obtain ⟨is, his⟩ := appends_list hl ih h hsize
    exact ⟨_, his, fun _ => rfl⟩
  case ptrNil =>
    -- a nil pointer writes the zero value of the element
    intro elem tags w hne w' h hsize
    rw [write.eq_14 _ _ _ hne] at h
    obtain ⟨is, his, hlen⟩ := writeZero_appends _ _ w w' h hsize
    exact ⟨is, his, fun _ => hlen rfl⟩
  case ptr =>
    intro elem tags v w hne ih w' h hsize
    rw [write.eq_15 _ _ _ _ hne] at h
    obtain ⟨is, his, hlen⟩ := ih w' h hsize
    exact ⟨is, his, fun _ => hlen rfl⟩
  case mismatch =>
    intro v ty tags w h₁ h₂ h₃ h₄ h₅ h₆ h₇ h₈ h₉ h₁₀ h₁₁ h₁₂ h₁₃ h₁₄ h₁₅ w' h _
    rw [write.eq_16 ty tags v w h₁ h₂ h₃ h₄ h₅ h₆ h₇ h₈ h₉ h₁₀ h₁₁ h₁₂ h₁₃ h₁₄ h₁₅] at h
    cases h
  case fieldsNil =>
    intro w w' h _
    simp only [writeFields, Except.ok.injEq] at h
    exact ⟨[], h ▸ Appends.refl w⟩
  case fieldsCons =>
    intro _ tags ty fields v vs w ih ihs w' h hsize
    rw [writeFields.eq_2] at h
    exact appends_bind (fun w₁ h₁ hs₁ => (ih w₁ h₁ hs₁).imp fun _ h => h.1) ihs h hsize
  case fieldsMismatch =>
    intro vs fields w h₁ h₂ w' h _
    rw [writeFields.eq_3 fields vs w h₁ h₂] at h
    cases h
  case elemsNil =>
    intro elem w w' h _
    simp only [writeElems, Except.ok.injEq] at h
    exact ⟨[], h ▸ Appends.refl w⟩
  case elemsCons =>
    intro elem v vs w ih ihs w' h hsize
    rw [writeElems.eq_2] at h
    exact appends_bind (fun w₁ h₁ hs₁ => (ih w₁ h₁ hs₁).imp fun _ h => h.1) ihs h hsize

end Appending

/-! ## The reader -/

namespace encReader

/-- The number of pieces `next` has still to return from string data at `pos` and
the headers `hs`: the data before each header, the header, and the data after the last. -/
def restPieces (str : Bytes) : ℕ → List listhead → ℕ
  | pos, [] => if pos < str.length then 1 else 0
  | pos, h :: hs => (if h.offset - pos > 0 then 1 else 0) + 1 + restPieces str h.offset hs

/-- What is left to read: the pending piece, then the rest of the buffer. -/
def remaining (r : encReader) : Bytes :=
  match r.buf with
  | none => []
  | some buf => r.piece.getD [] ++ renderFrom buf.str r.strpos (buf.lheads.drop r.lhpos)

/-- The number of pieces left to read. -/
def pieces (r : encReader) : ℕ :=
  match r.buf with
  | none => 0
  | some buf => (if r.piece.isSome then 1 else 0) + restPieces buf.str r.strpos (buf.lheads.drop r.lhpos)

/-- The headers left sit in order in the string data after the position, a pending
piece is not empty, and the pieces left fit the steps `Read` takes. -/
structure Valid (r : encReader) : Prop where
  placed : ∀ buf, r.buf = some buf →
    Placed buf.str r.strpos (buf.lheads.drop r.lhpos) ∧ r.strpos ≤ buf.str.length
  piece : ∀ p, r.piece = some p → p ≠ []
  pieces : r.pieces ≤ 2 * (r.buf.map fun buf => buf.lheads.length).getD 0 + 1

theorem listhead_encode_ne_nil (head : listhead) : head.encode ≠ [] := by
  unfold listhead.encode puthead
  split_ifs <;> simp

theorem restPieces_le (str : Bytes) : ∀ (pos : ℕ) (hs : List listhead),
    restPieces str pos hs ≤ 2 * hs.length + 1
  | pos, [] => by
    simp only [restPieces]
    split_ifs <;> simp
  | pos, h :: hs => by
    have := restPieces_le str h.offset hs
    simp only [restPieces, List.length_cons]
    split_ifs <;> omega

theorem valid_start (w : encbuf) (hp : Placed w.str 0 w.lheads) : Valid ⟨some w, 0, 0, none⟩ where
  placed := fun buf hb => by
    cases hb
    exact ⟨by simpa using hp, Nat.zero_le _⟩
  piece := fun _ hp => by cases hp
  pieces := by
    simpa [pieces] using restPieces_le w.str 0 w.lheads

theorem remaining_piece {r : encReader} {buf : encbuf} (hb : r.buf = some buf) (q : Bytes) :
    { r with piece := some q }.remaining = q ++ { r with piece := none }.remaining := by
  simp [remaining, hb]

theorem pieces_piece {r : encReader} {buf : encbuf} (hb : r.buf = some buf) (q : Bytes) :
    { r with piece := some q }.pieces = { r with piece := none }.pieces + 1 := by
  simp [pieces, hb, Nat.add_comm]

/-- What one call of `next` can do: report the end when nothing is left, or return a
piece that is not empty and is the front of what is left. -/
theorem next_cases {r : encReader} (hv : r.Valid) :
    (r.remaining = [] ∧ r.next = (none, r)) ∨
    (∃ p r' buf, r.next = (some p, r') ∧ p ≠ [] ∧ r.buf = some buf ∧ r'.buf = some buf ∧
      r.remaining = p ++ { r' with piece := none }.remaining ∧
      { r' with piece := none }.pieces + 1 = r.pieces ∧ { r' with piece := none }.Valid) := by
  obtain ⟨buf, lhpos, strpos, piece⟩ := r
  cases buf with
  | none => exact .inl ⟨rfl, rfl⟩
  | some buf =>
    obtain ⟨hp, hpos⟩ := hv.placed buf rfl
    dsimp only at hp hpos
    -- the state after a piece is valid once its count of pieces went down by one
    have hvalid : ∀ r' : encReader, r'.buf = some buf →
        Placed buf.str r'.strpos (buf.lheads.drop r'.lhpos) → r'.strpos ≤ buf.str.length →
        { r' with piece := none }.pieces + 1 = pieces ⟨some buf, lhpos, strpos, piece⟩ →
        { r' with piece := none }.Valid := by
      intro r' hb' hp' hpos' hcount
      refine ⟨fun b hb => ?_, fun _ h => (by cases h), ?_⟩
      · obtain rfl : b = buf := Option.some_injective _ (hb.symm.trans hb')
        exact ⟨hp', hpos'⟩
      · have hbound := hv.pieces
        rw [hb'] at hcount ⊢
        simp only [Option.map_some, Option.getD_some] at hbound ⊢
        omega
    cases piece with
    | some q =>
      -- the piece left over from the last read comes first
      have hcount := pieces_piece (r := ⟨some buf, lhpos, strpos, some q⟩) rfl q
      refine .inr ⟨q, _, buf, rfl, hv.piece q rfl, rfl, rfl,
        remaining_piece (r := ⟨some buf, lhpos, strpos, some q⟩) rfl q, hcount.symm,
        hvalid _ rfl hp hpos hcount.symm⟩
    | none =>
      cases hh : buf.lheads[lhpos]? with
      | some head =>
        have hdrop : buf.lheads.drop lhpos = head :: buf.lheads.drop (lhpos + 1) := by
          obtain ⟨hn, rfl⟩ := List.getElem?_eq_some_iff.mp hh
          exact List.drop_eq_getElem_cons hn
        rw [hdrop] at hp
        obtain ⟨hle, hlen, hrest⟩ := hp
        by_cases hgt : head.offset - strpos > 0
        · -- the string data before the header
          have hoff : strpos + (head.offset - strpos) = head.offset := by omega
          have hnext : next ⟨some buf, lhpos, strpos, none⟩ =
              (some ((buf.str.drop strpos).take (head.offset - strpos)),
                ⟨some buf, lhpos, head.offset, none⟩) := by
            simp only [next, hh, if_pos hgt, hoff]
          have hcount : pieces ⟨some buf, lhpos, head.offset, none⟩ + 1 =
              pieces ⟨some buf, lhpos, strpos, none⟩ := by
            simp [pieces, hdrop, restPieces, hgt]
            omega
          refine .inr ⟨_, _, buf, hnext, ?_, rfl, rfl, ?_, hcount,
            hvalid _ rfl (by rw [hdrop]; exact ⟨le_rfl, hlen, hrest⟩) hlen hcount⟩
          · rw [← List.length_pos_iff]
            simp
            omega
          · simp [remaining, hdrop, renderFrom]
        · -- the header itself
          have hoff : head.offset = strpos := by omega
          have hnext : next ⟨some buf, lhpos, strpos, none⟩ =
              (some head.encode, ⟨some buf, lhpos + 1, strpos, none⟩) := by
            simp only [next, hh, if_neg hgt]
          have hcount : pieces ⟨some buf, lhpos + 1, strpos, none⟩ + 1 =
              pieces ⟨some buf, lhpos, strpos, none⟩ := by
            simp [pieces, hdrop, restPieces, hoff]
            omega
          refine .inr ⟨_, _, buf, hnext, listhead_encode_ne_nil head, rfl, rfl, ?_, hcount,
            hvalid _ rfl (hoff ▸ hrest) hpos hcount⟩
          simp [remaining, hdrop, renderFrom, hoff]
      | none =>
        have hdrop : buf.lheads.drop lhpos = [] := by simpa using hh
        by_cases hlt : strpos < buf.str.length
        · -- the string data after the last header
          have hnext : next ⟨some buf, lhpos, strpos, none⟩ =
              (some (buf.str.drop strpos), ⟨some buf, lhpos, buf.str.length, none⟩) := by
            simp only [next, hh, if_pos hlt]
          have hcount : pieces ⟨some buf, lhpos, buf.str.length, none⟩ + 1 =
              pieces ⟨some buf, lhpos, strpos, none⟩ := by
            simp [pieces, hdrop, restPieces, hlt]
          refine .inr ⟨_, _, buf, hnext, ?_, rfl, rfl, ?_, hcount,
            hvalid _ rfl (by rw [hdrop]; trivial) le_rfl hcount⟩
          · rw [← List.length_pos_iff]
            simp
            omega
          · simp [remaining, hdrop, renderFrom]
        · -- nothing is left
          refine .inl ⟨?_, by simp only [next, hh, if_neg hlt]⟩
          simp [remaining, hdrop, renderFrom]
          omega

theorem valid_eof (r : encReader) : Valid { r with buf := none, piece := none } :=
  ⟨fun _ hb => (by cases hb), fun _ hp => (by cases hp), by simp [pieces]⟩

/-- `readLoop` copies what is left up to the room in the buffer and reports the end
when all of it fit. Fewer pieces than steps are enough: each step but the last
copies a whole piece. -/
theorem readLoop_spec : ∀ (fuel : ℕ) (r : encReader) (copied : Bytes) (room : ℕ), r.Valid →
    r.pieces < fuel → ∃ r', readLoop fuel r copied room =
      some (copied ++ r.remaining.take room, decide (r.remaining.length ≤ room), r') ∧
      r'.Valid ∧ r'.remaining = r.remaining.drop room
  | 0, _, _, _, _, hp => absurd hp (Nat.not_lt_zero _)
  | fuel + 1, r, copied, room, hv, hp => by
    rcases next_cases hv with ⟨hrem, hnext⟩ | ⟨p, r₁, buf, hnext, hne, hb, hb₁, hrem, hcount, hv₁⟩
    · -- nothing is left: the end is reported
      refine ⟨{ r with buf := none, piece := none }, ?_, valid_eof r,
        by rw [hrem, List.drop_nil]; rfl⟩
      rw [readLoop, hnext, hrem]
      simp
    · have hplen : 0 < p.length := List.length_pos_iff.mpr hne
      by_cases hfit : p.length ≤ room
      · -- the piece fits: copy it whole and go on with the next
        obtain ⟨r', hloop, hv', hrem'⟩ :=
          readLoop_spec fuel { r₁ with piece := none } (copied ++ p) (room - p.length) hv₁ (by omega)
        refine ⟨r', ?_, hv', ?_⟩
        · rw [readLoop, hnext]
          dsimp only
          rw [if_neg (by omega), Nat.min_eq_right hfit, hloop, hrem, List.take_append,
            List.take_of_length_le hfit, List.append_assoc, List.length_append]
          congr 3
          exact decide_eq_decide.mpr (by omega)
        · rw [hrem', hrem, List.drop_append, List.drop_of_length_le hfit, List.nil_append]
      · -- the piece does not fit: copy its front and keep the rest for the next read
        have hroom : min room p.length = room := Nat.min_eq_left (by omega)
        have hcount' := pieces_piece (r := r₁) hb₁ (p.drop room)
        refine ⟨{ r₁ with piece := some (p.drop room) }, ?_, ⟨?_, ?_, ?_⟩, ?_⟩
        · rw [readLoop, hnext]
          dsimp only
          rw [hroom, if_pos (by omega), hrem, List.take_append_of_le_length (by omega)]
          congr 3
          rw [List.length_append]
          exact (decide_eq_false (by omega)).symm
        · exact hv₁.placed
        · intro q hq
          cases hq
          simpa using hfit
        · have hbound := hv.pieces
          rw [hb] at hbound
          rw [hcount']
          simp only [hb₁, Option.map_some, Option.getD_some] at hcount hbound ⊢
          omega
        · rw [remaining_piece hb₁, hrem, List.drop_append_of_le_length (by omega)]

theorem Read_spec {r : encReader} (hv : r.Valid) (n : ℕ) : ∃ r', r.Read n =
    some (r.remaining.take n, decide (r.remaining.length ≤ n), r') ∧
    r'.Valid ∧ r'.remaining = r.remaining.drop n := by
  have hbound := hv.pieces
  simpa [Read] using readLoop_spec _ r [] n hv (by omega)

/-- Reads into buffers of the given sizes, one `Read` each: what each read
returned and whether it reported the end. -/
def readAll (r : encReader) : List ℕ → Option (List (Bytes × Bool))
  | [] => some []
  | n :: ns =>
    match r.Read n with
    | none => none
    | some (b, eof, r) => (r.readAll ns).map fun reads => (b, eof) :: reads

theorem readAll_spec : ∀ (sizes : List ℕ) {r : encReader}, r.Valid → ∃ reads,
    r.readAll sizes = some reads ∧ (reads.map Prod.fst).flatten = r.remaining.take sizes.sum
  | [], _, _ => ⟨[], rfl, by simp⟩
  | n :: ns, r, hv => by
    obtain ⟨r', hread, hv', hrem⟩ := Read_spec hv n
    obtain ⟨reads, hreads, hflat⟩ := readAll_spec ns hv'
    refine ⟨(r.remaining.take n, decide (r.remaining.length ≤ n)) :: reads,
      by simp [readAll, hread, hreads], ?_⟩
    rw [List.map_cons, List.flatten_cons, hflat, hrem, List.sum_cons, List.take_add]

end encReader

/-! ## The three outputs of the encoder -/

theorem encbuf.Appends.of_empty {w : encbuf} {is : List Item} (h : Appends encbuf.empty w is) :
    Placed w.str 0 w.lheads ∧ w.toBytes = Item.encodeList is ∧ w.size = (Item.encodeList is).length := by
  obtain ⟨hs, hl, hp, hc, hlh, hr⟩ := h.lheads
  simp only [encbuf.empty, List.nil_append, List.length_nil, zero_add] at hl hp hlh hr
  subst hl
  refine ⟨hp, by rw [toBytes_eq, hr], ?_⟩
  have hsum : (w.lheads.map fun h => headsize h.size).sum = (w.lheads.map fun h => h.encode.length).sum := by
    rw [List.map_congr_left hc]
  rw [← hr, length_renderFrom hp (Nat.zero_le _), size, hlh, hsum, Nat.sub_zero]

theorem write_item {ty : Ty} {v : Val} {w : encbuf} (h : write ty {} v encbuf.empty = .ok w)
    (hsize : w.size < 2 ^ 64) : ∃ i : Item, Appends encbuf.empty w [i] := by
  obtain ⟨is, his, hlen⟩ := write_appends ty {} v _ w h hsize
  obtain ⟨i, rfl⟩ := List.length_eq_one_iff.mp (hlen rfl)
  exact ⟨i, his⟩

theorem EncodeToReader_ok {ty : Ty} {v : Val} {size : ℕ} {r : encReader}
    (hr : EncodeToReader ty v = .ok (size, r)) : ∃ w, ty.typeError = none ∧
      write ty {} v encbuf.empty = .ok w ∧ size = w.size ∧ r = ⟨some w, 0, 0, none⟩ := by
  unfold EncodeToReader at hr
  cases hty : ty.typeError with
  | some err => simp [hty] at hr
  | none =>
    cases hw : write ty {} v encbuf.empty with
    | error err => simp [hty, hw, Except.map] at hr
    | ok w =>
      simp only [hty, hw, Except.map, Except.ok.injEq, Prod.mk.injEq] at hr
      exact ⟨w, rfl, rfl, hr.1.symm, hr.2.symm⟩

theorem write_empty_item {ty : Ty} {v : Val} {w : encbuf} (hw : write ty {} v encbuf.empty = .ok w)
    (hsize : w.size < 2 ^ 64) :
    ∃ i : Item, Placed w.str 0 w.lheads ∧ w.toBytes = i.encode ∧ w.size = i.encode.length := by
  obtain ⟨i, hi⟩ := write_item hw hsize
  obtain ⟨hp, hbytes, hlen⟩ := hi.of_empty
  have henc : Item.encodeList [i] = i.encode := by simp [Item.encodeList]
  rw [henc] at hbytes hlen
  exact ⟨i, hp, hbytes, hlen⟩

/-- The encoder's outputs agree. For a value whose encoding size, as
`EncodeToReader` reports it, fits in a `uint64`: `EncodeToBytes` returns the
encoding of one item, so that every list header announces the length of its
elements' encodings; the writes of `Encode` put together, and the reads of the
reader into buffers of any sizes put together, are that encoding, cut at the
buffers' total; and its length is the reported size. -/
theorem encoder_outputs_agree (ty : Ty) (v : Val) (size : ℕ) (r : encReader)
    (hr : EncodeToReader ty v = .ok (size, r)) (hsize : size < 2 ^ 64) :
    ∃ i : Item, EncodeToBytes ty v = .ok i.encode ∧ (Encode ty v).map List.flatten = .ok i.encode ∧
      i.encode.length = size ∧ ∀ sizes : List ℕ,
        (r.readAll sizes).map (fun reads => (reads.map Prod.fst).flatten) = some (i.encode.take sizes.sum) := by
  obtain ⟨w, hty, hw, rfl, rfl⟩ := EncodeToReader_ok hr
  obtain ⟨i, hp, hbytes, hlen⟩ := write_empty_item hw hsize
  refine ⟨i, ?_, ?_, hlen.symm, fun sizes => ?_⟩
  · simp [EncodeToBytes, hty, hw, Except.map, hbytes]
  · simp [Encode, hty, hw, Except.map, toWriter_flatten w hp, hbytes]
  · -- the reader starts with the whole buffer left
    obtain ⟨reads, hreads, hflat⟩ := encReader.readAll_spec sizes (encReader.valid_start w hp)
    rw [hreads, Option.map_some, hflat]
    simp [encReader.remaining, ← toBytes_eq, hbytes]

theorem encoder_outputs_agree_uints :
    ∃ size r, EncodeToReader (.slice (.uint 64)) (.list [.uint 1, .uint 300]) = .ok (size, r) ∧
      size < 2 ^ 64 ∧ ∃ i : Item, EncodeToBytes (.slice (.uint 64)) (.list [.uint 1, .uint 300]) =
        .ok i.encode ∧ i.encode.length = size ∧ ∀ sizes : List ℕ,
          (r.readAll sizes).map (fun reads => (reads.map Prod.fst).flatten) = some (i.encode.take sizes.sum) :=
  ⟨_, _, rfl, by decide, (encoder_outputs_agree _ _ _ _ rfl (by decide)).imp fun _ h => ⟨h.1, h.2.2⟩⟩

/-! ## Splitting what the encoder wrote -/

/-- A value the encoder accepts, with an encoding whose size fits in a `uint64`,
as the length of every Go byte slice does. -/
def Serialisable (ty : Ty) (v : Val) : Prop :=
  ∃ size r, EncodeToReader ty v = .ok (size, r) ∧ size < 2 ^ 64

theorem Serialisable.item {ty : Ty} {v : Val} (h : Serialisable ty v) :
    ∃ i : Item, EncodeToBytes ty v = .ok i.encode ∧ i.encode.length < 2 ^ 64 := by
  obtain ⟨size, r, hr, hsize⟩ := h
  obtain ⟨w, hty, hw, rfl, rfl⟩ := EncodeToReader_ok hr
  obtain ⟨i, -, hbytes, hlen⟩ := write_empty_item hw hsize
  exact ⟨i, by simp [EncodeToBytes, hty, hw, Except.map, hbytes], hlen ▸ hsize⟩

theorem items_of_encodings {vs : List (Ty × Val)} {es : List Bytes}
    (h : List.Forall₂ (fun p e => Serialisable p.1 p.2 ∧ EncodeToBytes p.1 p.2 = .ok e) vs es) :
    ∃ items : List Item, es.flatten = Item.encodeList items ∧ items.length = vs.length ∧
      ∀ i ∈ items, i.encode.length < 2 ^ 64 := by
  induction h with
  | nil => exact ⟨[], rfl, rfl, fun _ h => by cases h⟩
  | cons hp _ ih =>
    obtain ⟨hser, he⟩ := hp
    obtain ⟨i, hi, hlen⟩ := hser.item
    obtain ⟨items, hflat, hcount, hb⟩ := ih
    rw [he, Except.ok.injEq] at hi
    refine ⟨i :: items, by rw [List.flatten_cons, hflat, hi, Item.encodeList], by simp [hcount], ?_⟩
    intro j hj
    rcases List.mem_cons.mp hj with rfl | hj
    · exact hlen
    · exact hb j hj

/-- Raw splitting inverts encoding: `CountValues` counts the values whose
encodings are put together; `Split` of a value's encoding followed by any bytes
returns the kind and content of its item and those bytes; and `Raw` on a stream
over bytes returns what `Split` consumes of them. -/
theorem split_inverts_encoding :
    (∀ (vs : List (Ty × Val)) (es : List Bytes),
      List.Forall₂ (fun p e => Serialisable p.1 p.2 ∧ EncodeToBytes p.1 p.2 = .ok e) vs es →
      CountValues es.flatten = .ok vs.length) ∧
    (∀ (ty : Ty) (v : Val) (e rest : Bytes), Serialisable ty v → EncodeToBytes ty v = .ok e →
      ∃ i : Item, e = i.encode ∧ Split (e ++ rest) = .ok (i.kind, i.content, rest)) ∧
    (∀ (b content rest : Bytes) (k : Kind), Split b = .ok (k, content, rest) →
      (Lib.StateExcept.runFrom Stream.Raw (Stream.New b)).1 = .ok (b.take (b.length - rest.length))) := by
  refine ⟨fun vs es h => ?_, fun ty v e rest hser he => ?_, fun b content rest k h => Raw_New h⟩
  · obtain ⟨items, hflat, hcount, hb⟩ := items_of_encodings h
    rw [hflat, CountValues_encodeList items hb, hcount]
  · obtain ⟨i, hi, hlen⟩ := hser.item
    rw [he, Except.ok.injEq] at hi
    subst hi
    exact ⟨i, rfl, Split_encode i hlen rest⟩

theorem split_inverts_encoding_pair :
    CountValues ([0x80] ++ [0xC2, 0x01, 0x02]) = .ok 2 :=
  split_inverts_encoding.1 [(.uint 64, .uint 0), (.slice (.uint 64), .list [.uint 1, .uint 2])]
    [[0x80], [0xC2, 0x01, 0x02]]
    (.cons ⟨⟨_, _, rfl, by decide⟩, rfl⟩ (.cons ⟨⟨_, _, rfl, by decide⟩, rfl⟩ .nil))

end EthereumAI.Rlp
