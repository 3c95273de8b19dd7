import Mathlib

/-! # Bits packed into bytes, most significant bit first

A byte list read as a bit string: bit `q` is bit `7 - q % 8` of byte `q / 8`, so
that position 0 is the high bit of the first byte. A write ORs a mask into one
byte, and a write past the end fails (`none`), as indexing a slice out of range
panics. The masks that select the bits of a byte from an offset on, or before
it, are evaluated once for the eight offsets.
-/

namespace EthereumAI.Lib.ByteBits

/-- Bit `q` of the byte list, `false` past its end. -/
def bit (bits : List UInt8) (q : ℕ) : Bool :=
  (bits.getD (q / 8) 0).toNat.testBit (7 - q % 8)

/-- `bits[i] |= mask`; an index past the end fails. -/
def orAt (bits : List UInt8) (i : ℕ) (mask : UInt8) : Option (List UInt8) :=
  if i < bits.length then some (bits.modify i (· ||| mask)) else none

theorem and_two_pow_eq_zero (n k : ℕ) : n &&& 2 ^ k = 0 ↔ n.testBit k = false := by
  constructor
  · intro h
    simpa [Nat.testBit_and, Nat.testBit_two_pow_self] using congrArg (Nat.testBit · k) h
  · intro h
    apply Nat.eq_of_testBit_eq
    intro i
    rw [Nat.testBit_and, Nat.testBit_two_pow, Nat.zero_testBit]
    by_cases hi : k = i
    · subst hi
      simp [h]
    · simp [hi]

/-! ## The masks of an offset in a byte -/

theorem highBit_toNat : ∀ r < 8, ((0x80 : UInt8) >>> r.toUInt8).toNat = 2 ^ (7 - r) := by
  decide

theorem testBit_highBit : ∀ r < 8, ∀ s < 8,
    ((0x80 : UInt8) >>> r.toUInt8).toNat.testBit (7 - s) = decide (r = s) := by
  decide

theorem testBit_fromBits : ∀ r < 8, ∀ s < 8,
    ((0xFF : UInt8) >>> r.toUInt8).toNat.testBit (7 - s) = decide (r ≤ s) := by
  decide

theorem testBit_beforeBits : ∀ r < 8, ∀ s < 8,
    (~~~((0xFF : UInt8) >>> r.toUInt8)).toNat.testBit (7 - s) = decide (s < r) := by
  decide

theorem and_highBit_eq_zero (b : UInt8) {s : ℕ} (hs : s < 8) :
    (b &&& (0x80 >>> s.toUInt8) == 0) = !b.toNat.testBit (7 - s) := by
  rw [Bool.eq_iff_iff, beq_iff_eq, ← UInt8.toNat_inj, UInt8.toNat_and, highBit_toNat s hs,
    UInt8.toNat_zero, and_two_pow_eq_zero]
  simp

theorem one_shiftLeft_eq : ∀ s < 8, (1 : UInt8) <<< (7 - s).toUInt8 = (0x80 : UInt8) >>> s.toUInt8 := by
  decide

theorem testBit_mask (i q : ℕ) :
    ((0x80 : UInt8) >>> (i % 8).toUInt8).toNat.testBit (7 - q % 8) = decide (i % 8 = q % 8) :=
  testBit_highBit _ (Nat.mod_lt _ (by decide)) _ (Nat.mod_lt _ (by decide))

/-! ## Reads and writes -/

variable {bits bits' : List UInt8} {i : ℕ} {mask : UInt8}

@[simp] theorem bit_replicate_zero (n q : ℕ) : bit (List.replicate n 0) q = false := by
  simp [bit, List.getD_eq_getElem?_getD, List.getElem?_replicate]
  split <;> simp

theorem orAt_isSome : (orAt bits i mask).isSome ↔ i < bits.length := by
  unfold orAt
  split <;> simp_all

theorem length_of_orAt (h : orAt bits i mask = some bits') : bits'.length = bits.length := by
  unfold orAt at h
  split at h
  · cases h
    exact List.length_modify ..
  · cases h

theorem bit_of_orAt (h : orAt bits i mask = some bits') (q : ℕ) :
    bit bits' q = (bit bits q || (q / 8 = i && mask.toNat.testBit (7 - q % 8))) := by
  unfold orAt at h
  split at h
  · rename_i hi
    cases h
    simp only [bit, List.getD_eq_getElem?_getD, List.getElem?_modify]
    by_cases hq : q / 8 = i
    · subst hq
      simp [List.getElem?_eq_getElem hi, UInt8.toNat_or, Nat.testBit_or]
    · simp [Ne.symm hq, hq]
  · cases h

theorem bit_orAt_mask (h : orAt bits (i / 8) (0x80 >>> (i % 8).toUInt8) = some bits') (q : ℕ) :
    bit bits' q = (bit bits q || decide (q = i)) := by
  rw [bit_of_orAt h, testBit_mask]
  congr 1
  have hqi : (q / 8 = i / 8 ∧ i % 8 = q % 8) ↔ q = i := by
    constructor
    · rintro ⟨h1, h2⟩
      omega
    · rintro rfl
      exact ⟨rfl, rfl⟩
  simp only [Bool.decide_and, ← hqi]

theorem bit_of_le (h : bits.length ≤ q / 8) : bit bits q = false := by
  simp [bit, List.getD_eq_getElem?_getD, List.getElem?_eq_none h]

theorem bit_eq_testBit {q : ℕ} (h : q / 8 < bits.length) :
    bit bits q = bits[q / 8].toNat.testBit (7 - q % 8) := by
  simp [bit, List.getD_eq_getElem?_getD, List.getElem?_eq_getElem h]

theorem ext_bit (hl : bits.length = bits'.length) (h : ∀ q, bit bits q = bit bits' q) : bits = bits' := by
  apply List.ext_getElem hl
  intro j h1 h2
  apply UInt8.toNat_inj.1
  apply Nat.eq_of_testBit_eq
  intro k
  by_cases hk : k < 8
  · -- bit `k` of byte `j` is bit `8 * j + 7 - k` of the list
    have hq := h (8 * j + (7 - k))
    have hdiv : (8 * j + (7 - k)) / 8 = j := by omega
    have hmod : 7 - (8 * j + (7 - k)) % 8 = k := by omega
    rw [bit_eq_testBit (by omega), bit_eq_testBit (by omega)] at hq
    simpa only [hdiv, hmod] using hq
  · -- a byte has no bit from 8 on
    have hlt : ∀ b : UInt8, b.toNat < 2 ^ k := fun b =>
      lt_of_lt_of_le b.toNat_lt (Nat.pow_le_pow_right (by decide) (by omega))
    rw [Nat.testBit_eq_false_of_lt (hlt _), Nat.testBit_eq_false_of_lt (hlt _)]

end EthereumAI.Lib.ByteBits
