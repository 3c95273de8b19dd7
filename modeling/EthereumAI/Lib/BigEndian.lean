import Mathlib

/-! # Big-endian bytes

The bytes of a number, the most significant first, and the number they write. Two byte strings
of one length compare, from their first byte on, as the numbers they write; and the bytes of an
exclusive or are the exclusive or of the bytes.
-/

namespace EthereumAI.Lib.BigEndian

/-- The number a byte string writes, the most significant byte first. -/
def value : List UInt8 → ℕ
  | [] => 0
  | b :: bs => b.toNat * 256 ^ bs.length + value bs

/-- The `k` low bytes of `x`, the most significant first. -/
def bytes (k x : ℕ) : List UInt8 := (List.range k).map fun i => (x >>> (8 * (k - 1 - i))).toUInt8

theorem value_lt : ∀ bs : List UInt8, value bs < 256 ^ bs.length
  | [] => by simp [value]
  | b :: bs => by
    have hb : b.toNat + 1 ≤ 256 := b.toNat_lt
    have ih := value_lt bs
    calc value (b :: bs) = b.toNat * 256 ^ bs.length + value bs := rfl
      _ < b.toNat * 256 ^ bs.length + 256 ^ bs.length := by omega
      _ = (b.toNat + 1) * 256 ^ bs.length := by rw [Nat.succ_mul]
      _ ≤ 256 * 256 ^ bs.length := Nat.mul_le_mul_right _ hb
      _ = 256 ^ (b :: bs).length := by rw [List.length_cons, Nat.pow_succ, Nat.mul_comm]

section Compare

variable {a b : UInt8} {as bs : List UInt8}

theorem value_cons_lt_cons (hl : as.length = bs.length) (h : a < b) : value (a :: as) < value (b :: bs) := by
  have hab : a.toNat + 1 ≤ b.toNat := UInt8.lt_iff_toNat_lt.mp h
  have has := value_lt as
  calc value (a :: as) = a.toNat * 256 ^ as.length + value as := rfl
    _ < (a.toNat + 1) * 256 ^ as.length := by rw [Nat.succ_mul]; omega
    _ ≤ b.toNat * 256 ^ bs.length := by rw [hl]; exact Nat.mul_le_mul_right _ hab
    _ ≤ value (b :: bs) := Nat.le_add_right _ _

theorem value_cons_lt_cons_iff (hl : as.length = bs.length) : value (a :: as) < value (a :: bs) ↔ value as < value bs := by
  simp only [value, hl]
  omega

end Compare

section Bytes

variable {k x y : ℕ}

@[simp]
theorem length_bytes : (bytes k x).length = k := by
  simp [bytes]

theorem bytes_succ : bytes (k + 1) x = (x >>> (8 * k)).toUInt8 :: bytes k x := by
  unfold bytes
  rw [List.range_succ_eq_map, List.map_cons, List.map_map, Nat.add_sub_cancel, Nat.sub_zero]
  congr 1
  apply List.map_congr_left
  intro i _
  rw [Function.comp_apply, Nat.succ_eq_add_one, Nat.sub_sub, Nat.add_comm 1 i]

theorem value_bytes : value (bytes k x) = x % 256 ^ k := by
  induction k with
  | zero => simp [bytes, value, Nat.mod_one]
  | succ k ih =>
    have hshift : x >>> (8 * k) = x / 256 ^ k := by
      rw [Nat.shiftRight_eq_div_pow, Nat.pow_mul]
    rw [bytes_succ, value, ih, length_bytes, hshift, Nat.mod_pow_succ, Nat.toUInt8, UInt8.toNat_ofNat',
      Nat.add_comm, Nat.mul_comm]

theorem toUInt8_xor (x y : ℕ) : x.toUInt8 ^^^ y.toUInt8 = (x ^^^ y).toUInt8 := by
  apply UInt8.toNat.inj
  rw [UInt8.toNat_xor]
  simp only [Nat.toUInt8, UInt8.toNat_ofNat']
  rw [Nat.xor_mod_two_pow]

theorem zipWith_xor_bytes : List.zipWith (· ^^^ ·) (bytes k x) (bytes k y) = bytes k (x ^^^ y) := by
  induction k with
  | zero => simp [bytes]
  | succ k ih => rw [bytes_succ, bytes_succ, bytes_succ, List.zipWith_cons_cons, ih, toUInt8_xor,
      Nat.shiftRight_xor_distrib]

theorem take_reverse_bytes {s : ℕ} (h : s ≤ k) : (bytes k x).reverse.take s = (bytes s x).reverse := by
  induction k with
  | zero => simp [Nat.le_zero.mp h, bytes]
  | succ k ih =>
    rcases Nat.lt_or_eq_of_le h with hs | rfl
    · rw [bytes_succ, List.reverse_cons, List.take_append_of_le_length (by simp; omega), ih (by omega)]
    · rw [List.take_of_length_le (by simp)]

end Bytes

end EthereumAI.Lib.BigEndian
