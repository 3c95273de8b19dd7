import EthereumAI.Common.Types
import EthereumAI.Lib.ByteBits

/-! # Sparse bitset compression (`common/bitutil/compress.go`)

`bitsetEncodeBytes` replaces data by the bitset of its non-zero bytes, itself encoded the same
way, followed by the non-zero bytes; `CompressBytes` keeps the data when that is not shorter.
`bitsetDecodePartialBytes` undoes it for a known size: it decodes the bitset at an eighth of the
size and then puts the non-zero bytes at its set bits.

A slice read or written out of range panics, which the model returns as `none`. The decoder
rejects what the encoder does not write: a set bit past the target, a zero content byte, missing
or unread input. So a decoding that succeeds is the compression of what it returns, and
compression round-trips.
-/

namespace EthereumAI.Bitutil

open Lib.ByteBits

inductive Err where
  | errMissingData
  | errUnreferencedData
  | errExceededTarget
  | errZeroContent
deriving DecidableEq, Repr

/-- `1 << (7 - i % 8)`: the mask of bit `i` in its byte. -/
def mask (i : ℕ) : UInt8 := 1 <<< (7 - i % 8).toUInt8

/-! ## Compression -/

/-- The loop of `bitsetEncodeBytes` from index `i`: a non-zero byte is appended to the non-zero
bytes and sets its bit. -/
def encodeLoop : Bytes → ℕ → Bytes → Bytes → Option (Bytes × Bytes)
  | [], _, nonZeroBitset, nonZeroBytes => some (nonZeroBitset, nonZeroBytes)
  | b :: data, i, nonZeroBitset, nonZeroBytes =>
    if b ≠ 0 then
      match orAt nonZeroBitset (i / 8) (mask i) with
      | some nonZeroBitset => encodeLoop data (i + 1) nonZeroBitset (nonZeroBytes ++ [b])
      | none => none
    else encodeLoop data (i + 1) nonZeroBitset nonZeroBytes

theorem length_of_encodeLoop : ∀ {data : Bytes} {i : ℕ} {bs nz bs' nz' : Bytes},
    encodeLoop data i bs nz = some (bs', nz') → bs'.length = bs.length
  | [], _, _, _, _, _, h => by
    cases h
    rfl
  | b :: data, i, bs, nz, bs', nz', h => by
    unfold encodeLoop at h
    split_ifs at h
    · cases hb : orAt bs (i / 8) (mask i) with
      | none => rw [hb] at h; cases h
      | some bs₁ =>
        rw [hb] at h
        rw [length_of_encodeLoop h, length_of_orAt hb]
    · exact length_of_encodeLoop h

/-- `bitsetEncodeBytes`: nothing for zeroes, a single byte as itself, else the encoding of the
bitset followed by the non-zero bytes. -/
def bitsetEncodeBytes (data : Bytes) : Option Bytes :=
  match data with
  | [] => some []
  | [b] => if b = 0 then some [] else some [b]
  | a :: b :: rest =>
    match h : encodeLoop (a :: b :: rest) 0 (List.replicate (((a :: b :: rest).length + 7) / 8) 0) [] with
    | none => none
    | some (nonZeroBitset, nonZeroBytes) =>
      if nonZeroBytes.length = 0 then some []
      else (bitsetEncodeBytes nonZeroBitset).map (· ++ nonZeroBytes)
termination_by data.length
decreasing_by
  have hl := length_of_encodeLoop h
  simp only [List.length_replicate, List.length_cons] at hl ⊢
  omega

/-- `CompressBytes`: the encoding when it is shorter, else a copy of the data. -/
def CompressBytes (data : Bytes) : Option Bytes :=
  (bitsetEncodeBytes data).map fun out => if out.length < data.length then out else data

/-! ## Decompression -/

/-- The loop of `bitsetDecodePartialBytes` over the bits `i` of the bitset: a set bit takes the
next input byte, which must be there, be for a slot of the target and not be zero. -/
def decodeLoop (data nonZeroBitset : Bytes) : List ℕ → Bytes → ℕ → Option (Except Err (Bytes × ℕ))
  | [], decomp, ptr => some (.ok (decomp, ptr))
  | i :: is, decomp, ptr =>
    match nonZeroBitset[i / 8]? with
    | none => none
    | some byte =>
      if byte &&& mask i ≠ 0 then
        if ptr ≥ data.length then some (.error .errMissingData)
        else if i ≥ decomp.length then some (.error .errExceededTarget)
        else
          match data[ptr]? with
          | none => none
          | some x =>
            if x = 0 then some (.error .errZeroContent)
            else decodeLoop data nonZeroBitset is (decomp.set i x) (ptr + 1)
      else decodeLoop data nonZeroBitset is decomp ptr

/-- `bitsetDecodePartialBytes`: the data of size `target` and the length of the input it was
read from. -/
def bitsetDecodePartialBytes (data : Bytes) (target : ℕ) : Option (Except Err (Bytes × ℕ)) :=
  if target = 0 then some (.ok ([], 0))
  else
    let decomp := List.replicate target 0
    match data with
    | [] => some (.ok (decomp, 0))
    | x :: _ =>
      if target = 1 then some (.ok ([x], if x ≠ 0 then 1 else 0))
      else
        match bitsetDecodePartialBytes data ((target + 7) / 8) with
        | none => none
        | some (.error err) => some (.error err)
        | some (.ok (nonZeroBitset, ptr)) =>
          decodeLoop data nonZeroBitset (List.range (8 * nonZeroBitset.length)) decomp ptr
termination_by target
decreasing_by omega

/-- `bitsetDecodeBytes`: all the input must be read. -/
def bitsetDecodeBytes (data : Bytes) (target : ℕ) : Option (Except Err Bytes) :=
  (bitsetDecodePartialBytes data target).map fun
    | .error err => .error err
    | .ok (out, size) => if size ≠ data.length then .error .errUnreferencedData else .ok out

/-- `DecompressBytes`, for a target of Go type `int`: input of the target's size is returned as
it is. -/
def DecompressBytes (data : Bytes) (target : ℤ) : Option (Except Err Bytes) :=
  if (data.length : ℤ) > target then some (.error .errExceededTarget)
  else if (data.length : ℤ) = target then some (.ok data)
  else bitsetDecodeBytes data target.toNat

/-! ## The bitset of the non-zero bytes -/

/-- Byte `q` of the data is there and not zero. -/
def nonZeroAt (data : Bytes) (q : ℕ) : Bool := (data[q]?).any (· ≠ 0)

/-- The bitset the encoder computes: a byte for every eight, bit `q` set for a non-zero byte `q`. -/
structure IsBitset (data nonZeroBitset : Bytes) : Prop where
  length : nonZeroBitset.length = (data.length + 7) / 8
  bit_eq : ∀ q, bit nonZeroBitset q = nonZeroAt data q

variable {data bs : Bytes}

theorem nonZeroAt_cons (b : UInt8) (data : Bytes) (q : ℕ) :
    nonZeroAt (b :: data) q = if q = 0 then decide (b ≠ 0) else nonZeroAt data (q - 1) := by
  cases q <;> simp [nonZeroAt]

theorem nonZeroAt_of_le {q : ℕ} (h : data.length ≤ q) : nonZeroAt data q = false := by
  simp [nonZeroAt, List.getElem?_eq_none h]

theorem nonZeroAt_shift (b : UInt8) (data : Bytes) (i q : ℕ) :
    (decide (i ≤ q) && nonZeroAt (b :: data) (q - i)) =
      ((decide (q = i) && decide (b ≠ 0)) || (decide (i + 1 ≤ q) && nonZeroAt data (q - (i + 1)))) := by
  rw [nonZeroAt_cons]
  rcases Nat.lt_trichotomy q i with hq | rfl | hq
  · simp [show ¬ i ≤ q by omega, show q ≠ i by omega, show ¬ i + 1 ≤ q by omega]
  · simp
  · simp [show i ≤ q by omega, show q ≠ i by omega, show i + 1 ≤ q by omega, show q - i ≠ 0 by omega,
      show q - i - 1 = q - (i + 1) by omega]

theorem IsBitset.unique {bs' : Bytes} (h : IsBitset data bs) (h' : IsBitset data bs') : bs = bs' :=
  ext_bit (h.length.trans h'.length.symm) fun q => (h.bit_eq q).trans (h'.bit_eq q).symm

theorem IsBitset.filter_ne_nil (h : IsBitset data bs) (hd : data.filter (· ≠ 0) ≠ []) :
    bs.filter (· ≠ 0) ≠ [] := by
  obtain ⟨b, hmem, hb⟩ : ∃ b ∈ data, b ≠ 0 := by
    simpa [List.filter_eq_nil_iff] using hd
  obtain ⟨q, hq, rfl⟩ := List.getElem_of_mem hmem
  have hbit : bit bs q = true := by
    rw [h.bit_eq]
    simp [nonZeroAt, List.getElem?_eq_getElem hq, hb]
  have hq8 : q / 8 < bs.length := by
    by_contra hle
    rw [bit_of_le (by omega)] at hbit
    cases hbit
  rw [bit_eq_testBit hq8] at hbit
  intro hnil
  have hz := (List.filter_eq_nil_iff.1 hnil) bs[q / 8] (List.getElem_mem hq8)
  simp only [ne_eq, decide_not, Bool.not_eq_eq_eq_not, Bool.not_true, decide_eq_false_iff_not,
    not_not] at hz
  rw [hz] at hbit
  simp at hbit

theorem mask_eq (i : ℕ) : mask i = 0x80 >>> (i % 8).toUInt8 :=
  one_shiftLeft_eq _ (Nat.mod_lt _ (by decide))

/-- The encoding loop from index `i`: the bits of the non-zero bytes are set and the non-zero bytes
appended, as long as the bitset has room for every index. -/
theorem encodeLoop_spec : ∀ (data : Bytes) (i : ℕ) (bs nz : Bytes), i + data.length ≤ 8 * bs.length →
    ∃ bs', encodeLoop data i bs nz = some (bs', nz ++ data.filter (· ≠ 0)) ∧ bs'.length = bs.length ∧
      ∀ q, bit bs' q = (bit bs q || (decide (i ≤ q) && nonZeroAt data (q - i)))
  | [], i, bs, nz, _ => ⟨bs, by simp [encodeLoop], rfl, fun q => by simp [nonZeroAt]⟩
  | b :: data, i, bs, nz, h => by
    simp only [List.length_cons] at h
    by_cases hb : b = 0
    · -- a zero byte sets nothing
      obtain ⟨bs', hrun, hlen, hbit⟩ := encodeLoop_spec data (i + 1) bs nz (by omega)
      refine ⟨bs', by simp [encodeLoop, hb, hrun], hlen, fun q => ?_⟩
      rw [hbit, nonZeroAt_shift]
      simp [hb]
    · have hi : i / 8 < bs.length := by omega
      obtain ⟨bs₁, hor⟩ : ∃ bs₁, orAt bs (i / 8) (mask i) = some bs₁ := ⟨_, if_pos hi⟩
      have hlen₁ := length_of_orAt hor
      obtain ⟨bs', hrun, hlen, hbit⟩ := encodeLoop_spec data (i + 1) bs₁ (nz ++ [b]) (by omega)
      refine ⟨bs', ?_, hlen.trans hlen₁, fun q => ?_⟩
      · simp [encodeLoop, hb, hor, hrun]
      · rw [hbit, bit_orAt_mask (mask_eq i ▸ hor), nonZeroAt_shift]
        simp [hb, Bool.or_assoc]

theorem encodeLoop_isBitset (data : Bytes) :
    ∃ bs, encodeLoop data 0 (List.replicate ((data.length + 7) / 8) 0) [] = some (bs, data.filter (· ≠ 0)) ∧
      IsBitset data bs := by
  obtain ⟨bs, hrun, hlen, hbit⟩ := encodeLoop_spec data 0 (List.replicate ((data.length + 7) / 8) 0) []
    (by simp only [List.length_replicate]; omega)
  refine ⟨bs, by simpa using hrun, ⟨by simpa using hlen, fun q => by simp [hbit]⟩⟩

theorem bitsetEncodeBytes_of_bitset (h2 : 2 ≤ data.length) (hbs : IsBitset data bs) :
    bitsetEncodeBytes data =
      if data.filter (· ≠ 0) = [] then some [] else (bitsetEncodeBytes bs).map (· ++ data.filter (· ≠ 0)) := by
  obtain ⟨bs', hrun, hbs'⟩ := encodeLoop_isBitset data
  rw [← hbs'.unique hbs]
  match data, h2, hrun with
  | a :: b :: rest, _, hrun =>
    rw [bitsetEncodeBytes]
    split
    · rename_i heq
      rw [hrun] at heq
      cases heq
    · rename_i nb nz heq
      rw [hrun] at heq
      cases heq
      simp only [List.length_eq_zero_iff]

@[simp] theorem bitsetEncodeBytes_nil : bitsetEncodeBytes [] = some [] := by
  rw [bitsetEncodeBytes]

theorem bitsetEncodeBytes_singleton (b : UInt8) : bitsetEncodeBytes [b] = if b = 0 then some [] else some [b] := by
  rw [bitsetEncodeBytes]

theorem bitsetEncodeBytes_of_zero (hd : data.filter (· ≠ 0) = []) : bitsetEncodeBytes data = some [] := by
  match data, hd with
  | [], _ => exact bitsetEncodeBytes_nil
  | [b], hd =>
    have hb : b = 0 := by simpa using hd
    rw [bitsetEncodeBytes_singleton, if_pos hb]
  | a :: b :: rest, hd =>
    obtain ⟨bs, -, hbs⟩ := encodeLoop_isBitset (a :: b :: rest)
    rw [bitsetEncodeBytes_of_bitset (by simp) hbs, if_pos hd]

/-! ## The bits a decoding reads -/

theorem and_mask_ne_zero {i : ℕ} (hi : i / 8 < bs.length) : (bs[i / 8] &&& mask i ≠ 0) ↔ bit bs i = true := by
  have h := and_highBit_eq_zero bs[i / 8] (Nat.mod_lt i (show 8 > 0 by decide))
  rw [← mask_eq] at h
  rw [bit_eq_testBit hi, ← Bool.not_eq_false, ← Bool.not_eq_true', ← h, ne_eq, beq_iff_eq]

/-- The decoded data from index `j` on are still zero. -/
def ZeroFrom (decomp : Bytes) (j : ℕ) : Prop := ∀ i, j ≤ i → decomp[i]? = none ∨ decomp[i]? = some 0

theorem ZeroFrom.set {decomp : Bytes} {j : ℕ} (h : ZeroFrom decomp j) (x : UInt8) :
    ZeroFrom (decomp.set j x) (j + 1) := fun i hi => by
  rw [List.getElem?_set_ne (by omega)]
  exact h i (by omega)

theorem ZeroFrom.succ {decomp : Bytes} {j : ℕ} (h : ZeroFrom decomp j) : ZeroFrom decomp (j + 1) :=
  fun i hi => h i (by omega)

theorem nonZeroAt_of_zeroFrom {decomp : Bytes} {j i : ℕ} (h : ZeroFrom decomp j) (hi : j ≤ i) :
    nonZeroAt decomp i = false := by
  rcases h i hi with h | h <;> simp [nonZeroAt, h]

theorem filter_drop_of_getElem? {l : Bytes} {j : ℕ} {y : UInt8} (h : l[j]? = some y) :
    (l.drop j).filter (· ≠ 0) = (if y ≠ 0 then [y] else []) ++ (l.drop (j + 1)).filter (· ≠ 0) := by
  obtain ⟨hj, rfl⟩ := List.getElem?_eq_some_iff.1 h
  rw [List.drop_eq_getElem_cons hj, List.filter_cons]
  split_ifs <;> simp_all

theorem filter_drop_of_zeroFrom {decomp : Bytes} {j : ℕ} (h : ZeroFrom decomp j) :
    (decomp.drop j).filter (· ≠ 0) = [] := by
  rw [List.filter_eq_nil_iff]
  intro a ha
  obtain ⟨k, hk, rfl⟩ := List.getElem_of_mem ha
  rw [List.getElem_drop]
  have hlt : j + k < decomp.length := by simp only [List.length_drop] at hk; omega
  rcases h (j + k) (by omega) with h | h <;> simp_all

/-- A decoding loop that returns: what it wrote, and where in the input it stopped. From index
`j` on, the bytes it returns are non-zero at the set bits it ran over and nowhere else; the
non-zero ones are the input it read, in order. -/
theorem decodeLoop_spec {input : Bytes} : ∀ (m j : ℕ) (decomp : Bytes) (ptr : ℕ) (out : Bytes) (p : ℕ),
    ZeroFrom decomp j → ptr ≤ input.length → decodeLoop input bs (List.range' j m) decomp ptr = some (.ok (out, p)) →
    out.length = decomp.length ∧ (∀ i < j, out[i]? = decomp[i]?) ∧ ptr ≤ p ∧ p ≤ input.length ∧
      (∀ i, j ≤ i → nonZeroAt out i = (decide (i < j + m) && bit bs i)) ∧
      (out.drop j).filter (· ≠ 0) = (input.drop ptr).take (p - ptr)
  | 0, j, decomp, ptr, out, p, hz, hptr, h => by
    simp only [List.range'_zero, decodeLoop, Option.some.injEq, Except.ok.injEq, Prod.mk.injEq] at h
    obtain ⟨rfl, rfl⟩ := h
    refine ⟨rfl, fun _ _ => rfl, Nat.le_refl _, hptr, fun i hi => ?_, ?_⟩
    · rw [nonZeroAt_of_zeroFrom hz hi]
      simp only [Nat.add_zero, show ¬ i < j by omega, decide_false, Bool.false_and]
    · rw [filter_drop_of_zeroFrom hz]
      simp
  | m + 1, j, decomp, ptr, out, p, hz, hptr, h => by
    rw [List.range'_succ] at h
    simp only [decodeLoop] at h
    cases hb : bs[j / 8]? with
    | none => rw [hb] at h; cases h
    | some byte =>
      obtain ⟨hj8, rfl⟩ := List.getElem?_eq_some_iff.1 hb
      rw [hb] at h
      simp only at h
      by_cases hbit : bit bs j = true
      · -- a set bit: the next input byte goes to slot `j`
        rw [if_pos ((and_mask_ne_zero hj8).2 hbit)] at h
        by_cases hp : ptr ≥ input.length
        · rw [if_pos hp] at h; cases h
        rw [if_neg hp] at h
        by_cases hj : j ≥ decomp.length
        · rw [if_pos hj] at h; cases h
        rw [if_neg hj] at h
        have hp' : ptr < input.length := by omega
        rw [List.getElem?_eq_getElem hp'] at h
        simp only at h
        by_cases hx : input[ptr] = 0
        · rw [if_pos hx] at h; cases h
        rw [if_neg hx] at h
        obtain ⟨hlen, hpre, hp₁, hp₂, hnz, hfilter⟩ :=
          decodeLoop_spec m (j + 1) (decomp.set j input[ptr]) (ptr + 1) out p (hz.set _) hp' h
        have hout_j : out[j]? = some input[ptr] := by
          rw [hpre j (by omega), List.getElem?_set_self (by omega)]
        refine ⟨by rw [hlen, List.length_set], fun i hi => ?_, by omega, hp₂, fun i hi => ?_, ?_⟩
        · rw [hpre i (by omega), List.getElem?_set_ne (by omega)]
        · rcases Nat.eq_or_lt_of_le hi with rfl | hi
          · simp [nonZeroAt, hout_j, hx, hbit]
          · rw [hnz i hi]
            simp only [show i < j + 1 + m ↔ i < j + (m + 1) by omega]
        · rw [filter_drop_of_getElem? hout_j, if_pos hx, hfilter, List.drop_eq_getElem_cons hp',
            show p - ptr = (p - (ptr + 1)) + 1 by omega, List.take_succ_cons]
          rfl
      · -- a clear bit: nothing is read
        rw [if_neg (fun hne => hbit ((and_mask_ne_zero hj8).1 hne))] at h
        obtain ⟨hlen, hpre, hp₁, hp₂, hnz, hfilter⟩ := decodeLoop_spec m (j + 1) decomp ptr out p hz.succ hptr h
        have hout_j : out[j]? = decomp[j]? := hpre j (by omega)
        refine ⟨hlen, fun i hi => hpre i (by omega), hp₁, hp₂, fun i hi => ?_, ?_⟩
        · rcases Nat.eq_or_lt_of_le hi with rfl | hi
          · rcases hz _ (Nat.le_refl _) with hd | hd <;> simp [nonZeroAt, hout_j, hd, hbit]
          · rw [hnz i hi]
            simp only [show i < j + 1 + m ↔ i < j + (m + 1) by omega]
        · rw [← hfilter]
          rcases hz j (Nat.le_refl _) with hd | hd
          · rw [← hout_j] at hd
            have hle : out.length ≤ j := List.getElem?_eq_none_iff.1 hd
            simp [List.drop_eq_nil_of_le hle, List.drop_eq_nil_of_le (Nat.le_succ_of_le hle)]
          · rw [← hout_j] at hd
            rw [filter_drop_of_getElem? hd]
            simp

/-- The decoded data below index `j` are those of `d`, and zero from `j` on. -/
def Filled (d : Bytes) (j : ℕ) (decomp : Bytes) : Prop :=
  ∀ i, decomp[i]? = (d[i]?).map fun x => if i < j then x else 0

theorem filled_replicate (d : Bytes) : Filled d 0 (List.replicate d.length 0) := fun i => by
  rw [List.getElem?_replicate]
  by_cases hi : i < d.length <;> simp [hi]

theorem Filled.eq {d decomp : Bytes} {j : ℕ} (h : Filled d j decomp) (hj : d.length ≤ j) : decomp = d := by
  apply List.ext_getElem?
  intro i
  rw [h i]
  by_cases hi : i < d.length
  · simp [List.getElem?_eq_getElem hi, show i < j by omega]
  · simp [List.getElem?_eq_none (Nat.le_of_not_lt hi)]

/-- A decoding loop over the bitset of `d`, from the input that holds the non-zero bytes of `d`
from index `j` on, fills in the rest of `d`. -/
theorem decodeLoop_fill {d : Bytes} (input : Bytes) (hbs : IsBitset d bs) (rest : Bytes) :
    ∀ (m j : ℕ) (decomp : Bytes) (ptr : ℕ), j + m = 8 * bs.length → Filled d j decomp →
      input.drop ptr = (d.drop j).filter (· ≠ 0) ++ rest →
      decodeLoop input bs (List.range' j m) decomp ptr =
        some (.ok (d, ptr + ((d.drop j).filter (· ≠ 0)).length))
  | 0, j, decomp, ptr, hj, hfill, _ => by
    have hle : d.length ≤ j := by have := hbs.length; omega
    simp [decodeLoop, hfill.eq hle, List.drop_eq_nil_of_le hle]
  | m + 1, j, decomp, ptr, hj, hfill, hinput => by
    have hj8 : j / 8 < bs.length := by omega
    rw [List.range'_succ]
    simp only [decodeLoop, List.getElem?_eq_getElem hj8]
    by_cases hbit : bit bs j = true
    · -- byte `j` of `d` is not zero: it is the next input byte
      obtain ⟨x, hx, hx0⟩ : ∃ x, d[j]? = some x ∧ x ≠ 0 := by
        rw [hbs.bit_eq, nonZeroAt] at hbit
        cases hd : d[j]? with
        | none => rw [hd] at hbit; cases hbit
        | some x => exact ⟨x, rfl, by simpa [hd] using hbit⟩
      rw [filter_drop_of_getElem? hx, if_pos hx0] at hinput ⊢
      have hp : ptr < input.length := by
        have := congrArg List.length hinput
        simp only [List.length_drop, List.length_append, List.length_cons] at this
        omega
      have hin : input[ptr] = x := by
        have := congrArg List.head? hinput
        rwa [List.head?_drop, List.getElem?_eq_getElem hp, List.singleton_append, List.cons_append,
          List.head?_cons, Option.some.injEq] at this
      have hdj : j < decomp.length := by
        have := hfill j
        rw [hx] at this
        exact (List.getElem?_eq_some_iff.1 (by simpa using this)).1
      have hfill' : Filled d (j + 1) (decomp.set j x) := fun i => by
        rw [List.getElem?_set]
        by_cases hij : j = i
        · subst hij
          simp [hdj, hx]
        · rw [if_neg hij, hfill i]
          congr 1
          funext y
          simp only [show i < j ↔ i < j + 1 by omega]
      have hinput' : input.drop (ptr + 1) = (d.drop (j + 1)).filter (· ≠ 0) ++ rest := by
        rw [← List.drop_drop, hinput]
        rfl
      rw [if_pos ((and_mask_ne_zero hj8).2 hbit), if_neg (by omega), if_neg (by omega),
        List.getElem?_eq_getElem hp, hin]
      simp only [if_neg hx0]
      rw [decodeLoop_fill input hbs rest m (j + 1) _ (ptr + 1) (by omega) hfill' hinput']
      simp only [List.singleton_append, List.length_cons]
      rw [Nat.add_assoc, Nat.add_comm 1]
    · -- byte `j` of `d` is zero or past its end: nothing is read
      have hnz : nonZeroAt d j = false := by rw [← hbs.bit_eq]; simpa using hbit
      have hdj : d[j]? = none ∨ d[j]? = some 0 := by
        cases hd : d[j]? with
        | none => exact .inl rfl
        | some y => exact .inr (by simpa [nonZeroAt, hd] using hnz)
      have hfill' : Filled d (j + 1) decomp := fun i => by
        rw [hfill i]
        by_cases hij : i = j
        · subst hij
          rcases hdj with hd | hd <;> simp [hd]
        · congr 1
          funext y
          simp only [show i < j ↔ i < j + 1 by omega]
      have hdrop : (d.drop j).filter (· ≠ 0) = (d.drop (j + 1)).filter (· ≠ 0) := by
        rcases hdj with hd | hd
        · have hle : d.length ≤ j := List.getElem?_eq_none_iff.1 hd
          simp [List.drop_eq_nil_of_le hle, List.drop_eq_nil_of_le (Nat.le_succ_of_le hle)]
        · rw [filter_drop_of_getElem? hd]
          simp
      rw [if_neg (fun hne => hbit ((and_mask_ne_zero hj8).1 hne)), hdrop]
      rw [hdrop] at hinput
      exact decodeLoop_fill input hbs rest m (j + 1) decomp ptr (by omega) hfill' hinput

/-! ## Round trip and canonical form -/

theorem bitsetDecodePartialBytes_zero (data : Bytes) : bitsetDecodePartialBytes data 0 = some (.ok ([], 0)) := by
  rw [bitsetDecodePartialBytes, if_pos rfl]

theorem bitsetDecodePartialBytes_nil {target : ℕ} (h : target ≠ 0) :
    bitsetDecodePartialBytes [] target = some (.ok (List.replicate target 0, 0)) := by
  rw [bitsetDecodePartialBytes, if_neg h]

theorem bitsetDecodePartialBytes_one (x : UInt8) (t : Bytes) :
    bitsetDecodePartialBytes (x :: t) 1 = some (.ok ([x], if x ≠ 0 then 1 else 0)) := by
  rw [bitsetDecodePartialBytes]
  simp

theorem bitsetDecodePartialBytes_of_two (x : UInt8) (t : Bytes) {target : ℕ} (h2 : 2 ≤ target) :
    bitsetDecodePartialBytes (x :: t) target =
      match bitsetDecodePartialBytes (x :: t) ((target + 7) / 8) with
      | none => none
      | some (.error err) => some (.error err)
      | some (.ok (nonZeroBitset, ptr)) =>
        decodeLoop (x :: t) nonZeroBitset (List.range (8 * nonZeroBitset.length)) (List.replicate target 0) ptr := by
  rw [bitsetDecodePartialBytes, if_neg (by omega)]
  simp only [if_neg (show target ≠ 1 by omega)]

/-- Data with a non-zero byte encodes to some bytes, which decode back to it whatever follows
them. -/
theorem decode_bitsetEncodeBytes (data : Bytes) (hd : data.filter (· ≠ 0) ≠ []) :
    ∃ out, bitsetEncodeBytes data = some out ∧ out ≠ [] ∧
      ∀ rest, bitsetDecodePartialBytes (out ++ rest) data.length = some (.ok (data, out.length)) := by
  match data, hd with
  | [], hd => exact absurd rfl hd
  | [b], hd =>
    have hb : b ≠ 0 := by simpa using hd
    refine ⟨[b], by rw [bitsetEncodeBytes_singleton, if_neg hb], List.cons_ne_nil _ _, fun rest => ?_⟩
    rw [List.singleton_append, List.length_singleton, bitsetDecodePartialBytes_one, if_pos hb]
  | a :: b :: r, hd =>
    -- the bitset has a non-zero byte and is shorter: it encodes and decodes back
    obtain ⟨bs, -, hbs⟩ := encodeLoop_isBitset (a :: b :: r)
    have hlt : bs.length < (a :: b :: r).length := by
      rw [hbs.length]
      simp only [List.length_cons]
      omega
    obtain ⟨ob, hob, hne, hdec⟩ := decode_bitsetEncodeBytes bs (hbs.filter_ne_nil hd)
    have henc := bitsetEncodeBytes_of_bitset (by simp) hbs
    rw [if_neg hd, hob, Option.map_some] at henc
    refine ⟨_, henc, by simp [hne], fun rest => ?_⟩
    obtain ⟨x, t, hxt⟩ : ∃ x t, ob ++ ((a :: b :: r).filter (· ≠ 0) ++ rest) = x :: t := by
      cases ob with
      | nil => exact absurd rfl hne
      | cons x t => exact ⟨x, _, rfl⟩
    have hbits := hdec ((a :: b :: r).filter (· ≠ 0) ++ rest)
    rw [hxt, hbs.length] at hbits
    rw [List.append_assoc, hxt, bitsetDecodePartialBytes_of_two x t (by simp), hbits]
    simp only
    rw [List.range_eq_range', ← hxt]
    have hfill := decodeLoop_fill (ob ++ ((a :: b :: r).filter (· ≠ 0) ++ rest)) hbs rest
      (8 * bs.length) 0 _ ob.length (by omega) (filled_replicate _) (by simp)
    rw [hfill]
    simp
termination_by data.length
decreasing_by
  all_goals simp_wf
  simp only [List.length_cons] at hlt ⊢
  omega

theorem decodeLoop_isSome {input : Bytes} : ∀ (is : List ℕ) (decomp : Bytes) (ptr : ℕ),
    (∀ i ∈ is, i / 8 < bs.length) → (decodeLoop input bs is decomp ptr).isSome
  | [], _, _, _ => rfl
  | i :: is, decomp, ptr, h => by
    have hi := h i List.mem_cons_self
    have ih : ∀ decomp ptr, (decodeLoop input bs is decomp ptr).isSome := fun decomp ptr =>
      decodeLoop_isSome is decomp ptr fun i hi => h i (List.mem_cons_of_mem _ hi)
    simp only [decodeLoop, List.getElem?_eq_getElem hi]
    split_ifs with _ hp
    · rfl
    · rfl
    · rw [List.getElem?_eq_getElem (by omega)]
      dsimp only
      split_ifs
      · rfl
      · exact ih _ _
    · exact ih _ _

/-- `bitsetDecodePartialBytes` never panics. -/
theorem bitsetDecodePartialBytes_isSome (data : Bytes) (target : ℕ) :
    (bitsetDecodePartialBytes data target).isSome := by
  rcases Nat.lt_or_ge target 2 with ht | ht
  · rcases data with _ | ⟨x, t⟩
    · rcases Nat.eq_zero_or_pos target with rfl | hpos
      · rw [bitsetDecodePartialBytes_zero]; rfl
      · rw [bitsetDecodePartialBytes_nil (by omega)]; rfl
    · obtain rfl | rfl : target = 0 ∨ target = 1 := by omega
      · rw [bitsetDecodePartialBytes_zero]; rfl
      · rw [bitsetDecodePartialBytes_one]; rfl
  · rcases data with _ | ⟨x, t⟩
    · rw [bitsetDecodePartialBytes_nil (by omega)]; rfl
    · have ih := bitsetDecodePartialBytes_isSome (x :: t) ((target + 7) / 8)
      rw [bitsetDecodePartialBytes_of_two x t ht]
      rcases hr : bitsetDecodePartialBytes (x :: t) ((target + 7) / 8) with _ | (err | ⟨bs, ptr⟩)
      · rw [hr] at ih; cases ih
      · rfl
      · exact decodeLoop_isSome _ _ _ fun i hi => by
          have := List.mem_range.1 hi
          omega
termination_by target

theorem isBitset_replicate (hd : data.filter (· ≠ 0) = []) :
    IsBitset data (List.replicate ((data.length + 7) / 8) 0) := by
  refine ⟨List.length_replicate, fun q => ?_⟩
  rw [bit_replicate_zero, eq_comm, nonZeroAt]
  cases hq : data[q]? with
  | none => rfl
  | some y =>
    have hy := (List.filter_eq_nil_iff.1 hd) y (List.mem_of_getElem? hq)
    simpa using hy

/-- A decoding that returns is the encoding of what it returns: it has the target size, and the
input it read encodes it. -/
theorem bitsetEncodeBytes_of_decode (data : Bytes) (target : ℕ) {out : Bytes} {p : ℕ}
    (h : bitsetDecodePartialBytes data target = some (.ok (out, p))) :
    out.length = target ∧ p ≤ data.length ∧ bitsetEncodeBytes out = some (data.take p) := by
  rcases data with _ | ⟨x, t⟩
  · -- no input: nothing, or zeros when some bytes are asked for
    rcases Nat.eq_zero_or_pos target with rfl | hpos
    · rw [bitsetDecodePartialBytes_zero] at h
      cases h
      exact ⟨rfl, Nat.le_refl _, bitsetEncodeBytes_nil⟩
    · rw [bitsetDecodePartialBytes_nil (by omega)] at h
      cases h
      exact ⟨List.length_replicate, Nat.le_refl _, bitsetEncodeBytes_of_zero (by simp)⟩
  rcases Nat.lt_or_ge target 2 with ht | ht
  · obtain rfl | rfl : target = 0 ∨ target = 1 := by omega
    · rw [bitsetDecodePartialBytes_zero] at h
      cases h
      exact ⟨rfl, Nat.zero_le _, bitsetEncodeBytes_nil⟩
    · rw [bitsetDecodePartialBytes_one] at h
      cases h
      refine ⟨rfl, by split_ifs <;> simp, ?_⟩
      rw [bitsetEncodeBytes_singleton]
      by_cases hx : x = 0 <;> simp [hx]
  · rw [bitsetDecodePartialBytes_of_two x t ht] at h
    rcases hr : bitsetDecodePartialBytes (x :: t) ((target + 7) / 8) with _ | (err | ⟨bs, p₀⟩)
    · rw [hr] at h; cases h
    · rw [hr] at h; cases h
    rw [hr] at h
    simp only at h
    -- the bitset is the encoding of its prefix of the input, and the loop distributes it
    obtain ⟨hbl, hp₀, hbenc⟩ := bitsetEncodeBytes_of_decode (x :: t) ((target + 7) / 8) hr
    rw [List.range_eq_range'] at h
    obtain ⟨hlen, -, hp₁, hp₂, hnz, hfilter⟩ := decodeLoop_spec (8 * bs.length) 0 _ p₀ out p
      (fun i _ => by rw [List.getElem?_replicate]; split_ifs <;> simp) hp₀ h
    rw [List.length_replicate] at hlen
    have hbits : IsBitset out bs := by
      refine ⟨by rw [hbl, hlen], fun q => ?_⟩
      rw [hnz q (Nat.zero_le _)]
      by_cases hq : q < 8 * bs.length
      · simp [hq]
      · simp [hq, bit_of_le (show bs.length ≤ q / 8 by omega)]
    refine ⟨hlen, hp₂, ?_⟩
    rw [bitsetEncodeBytes_of_bitset (by omega) hbits]
    by_cases hz : out.filter (· ≠ 0) = []
    · -- nothing non-zero: the bitset is zero, so neither it nor the loop read anything
      rw [if_pos hz]
      have hbs0 := hbits.unique (isBitset_replicate hz)
      rw [hbs0, bitsetEncodeBytes_of_zero (by simp)] at hbenc
      have hp₀0 : p₀ = 0 := by
        have := congrArg List.length (Option.some.inj hbenc)
        simp only [List.length_nil, List.length_take, List.length_cons] at this
        omega
      subst hp₀0
      rw [List.drop_zero, hz] at hfilter
      have hpp : p = 0 := by
        have := congrArg List.length hfilter
        simp only [List.length_nil, List.length_take, List.drop_zero, List.length_cons] at this
        omega
      rw [hpp]
      rfl
    · rw [List.drop_zero] at hfilter
      rw [if_neg hz, hbenc, Option.map_some, hfilter, ← List.take_add, Nat.add_sub_cancel' hp₁]
termination_by target

/-! ## Compression and decompression -/

/-- Decompressing the compression of data at its size gives it back. -/
theorem DecompressBytes_CompressBytes (d : Bytes) :
    ∃ c, CompressBytes d = some c ∧ c.length ≤ d.length ∧ DecompressBytes c d.length = some (.ok d) := by
  by_cases hd : d.filter (· ≠ 0) = []
  · -- zeroes compress to nothing, which decompresses to zeroes
    have henc := bitsetEncodeBytes_of_zero hd
    rcases d with _ | ⟨b, t⟩
    · exact ⟨[], by simp [CompressBytes], Nat.le_refl _, by simp [DecompressBytes]⟩
    · have hrep : b :: t = List.replicate (b :: t).length 0 := by
        rw [List.eq_replicate_iff]
        refine ⟨rfl, fun y hy => ?_⟩
        simpa using (List.filter_eq_nil_iff.1 hd) y hy
      refine ⟨[], by simp [CompressBytes, henc], Nat.zero_le _, ?_⟩
      simp only [DecompressBytes, bitsetDecodeBytes, List.length_nil, Int.toNat_natCast]
      rw [bitsetDecodePartialBytes_nil (by simp)]
      simp only [List.length_cons]
      rw [if_neg (by omega), if_neg (by omega)]
      simp only [Option.map_some, if_neg (show ¬ (0 : ℕ) ≠ 0 by simp)]
      rw [hrep]
      rfl
  · obtain ⟨out, henc, -, hdec⟩ := decode_bitsetEncodeBytes d hd
    by_cases hlt : out.length < d.length
    · -- the encoding is shorter and decodes back, reading all of itself
      refine ⟨out, by simp [CompressBytes, henc, hlt], Nat.le_of_lt hlt, ?_⟩
      have hdec' := hdec []
      rw [List.append_nil] at hdec'
      simp only [DecompressBytes, bitsetDecodeBytes, Int.toNat_natCast, hdec', Option.map_some]
      rw [if_neg (by omega), if_neg (by omega)]
      simp
    · exact ⟨d, by simp [CompressBytes, henc, hlt], Nat.le_refl _, by simp [DecompressBytes]⟩

/-- Decompression never panics, and what it returns has the target size and is the input or the
input's decompression. -/
theorem DecompressBytes_spec (c : Bytes) (n : ℤ) :
    (DecompressBytes c n).isSome ∧
      ∀ d, DecompressBytes c n = some (.ok d) → (d.length : ℤ) = n ∧ (c = d ∨ CompressBytes d = some c) := by
  unfold DecompressBytes
  split_ifs with hgt heq
  · exact ⟨rfl, fun d h => by cases h⟩
  · refine ⟨rfl, fun d h => ?_⟩
    cases h
    exact ⟨heq, .inl rfl⟩
  · refine ⟨by simp [bitsetDecodeBytes, bitsetDecodePartialBytes_isSome], fun d h => ?_⟩
    simp only [bitsetDecodeBytes, Option.map_eq_some_iff] at h
    obtain ⟨r, hr, hmap⟩ := h
    rcases r with err | ⟨out, size⟩
    · cases hmap
    · simp only at hmap
      split_ifs at hmap with hsize
      cases hmap
      obtain ⟨hlen, -, henc⟩ := bitsetEncodeBytes_of_decode c n.toNat hr
      rw [not_not] at hsize
      rw [hsize, List.take_length] at henc
      have hn : (d.length : ℤ) = n := by omega
      refine ⟨hn, .inr ?_⟩
      simp [CompressBytes, henc, show c.length < d.length by omega]

/-- Compression round-trips and never grows the data; decompression returns without panicking,
and what it returns has the target size and was given either as it is or as its compression. -/
theorem compress_roundtrip_canonical :
    (∀ d : Bytes, ∃ c, CompressBytes d = some c ∧ c.length ≤ d.length ∧
      DecompressBytes c d.length = some (.ok d)) ∧
    ∀ (c : Bytes) (n : ℤ), (DecompressBytes c n).isSome ∧
      ∀ d, DecompressBytes c n = some (.ok d) → (d.length : ℤ) = n ∧ (c = d ∨ CompressBytes d = some c) :=
  ⟨DecompressBytes_CompressBytes, DecompressBytes_spec⟩

end EthereumAI.Bitutil
