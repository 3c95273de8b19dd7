import Mathlib

/-! # Word helpers of `common/math`

`big.Int` values are modelled as integers. `U256` and `S256` move between
integers and 256-bit two's complement words, `Exp` is square-and-multiply over
the machine words of the exponent, and `Byte` reads a byte of a padded
big-endian encoding.
-/

namespace EthereumAI

section Bits

theorem two_mul_add_mod_two_mul (a b K : ℕ) (hb : b < 2) :
    (2 * a + b) % (2 * K) = 2 * (a % K) + b := by
  rcases Nat.eq_zero_or_pos K with rfl | hK
  · simp
  have hr := Nat.mod_lt a hK
  conv_lhs => rw [← Nat.div_add_mod a K]
  rw [show 2 * (K * (a / K) + a % K) + b = (2 * K) * (a / K) + (2 * (a % K) + b) by ring,
    Nat.mul_add_mod, Nat.mod_eq_of_lt (by omega)]

theorem ldiff_two_pow_sub_one (k m : ℕ) : Nat.ldiff (2 ^ k - 1) m = 2 ^ k - 1 - m % 2 ^ k := by
  induction k generalizing m with
  | zero => simp [Nat.ldiff]
  | succ k ih =>
    have hb : 2 ^ (k + 1) - 1 = Nat.bit true (2 ^ k - 1) := by
      rw [Nat.bit_val, pow_succ]; have := Nat.one_le_two_pow (n := k); simp; omega
    rw [hb, ← Nat.bit_testBit_zero_shiftRight_one m, Nat.ldiff_bit, ih, Nat.bit_val, Nat.bit_val,
      Nat.bit_val, pow_succ, mul_comm _ 2, two_mul_add_mod_two_mul _ _ _ (Bool.toNat_lt _)]
    have hr := Nat.mod_lt (m >>> 1) (Nat.two_pow_pos k)
    cases m.testBit 0 <;> simp <;> omega

theorem land_two_pow_sub_one (x : ℤ) (k : ℕ) :
    Int.land x ((2 ^ k - 1 : ℕ) : ℤ) = x % 2 ^ k := by
  have h1 := Nat.one_le_two_pow (n := k)
  cases x with
  | ofNat n => simp [Int.land, Nat.and_two_pow_sub_one_eq_mod]
  | negSucc n =>
    simp only [Int.land]
    have := Nat.mod_lt n (Nat.two_pow_pos k)
    rw [Int.negSucc_emod _ (by positivity), ldiff_two_pow_sub_one, Nat.cast_sub (by omega),
      Nat.cast_sub h1]
    push_cast; ring

theorem lor_lnot_two_pow_sub_one (x k : ℕ) :
    Int.lor x (Int.lnot ((2 ^ k - 1 : ℕ) : ℤ)) = ((x % 2 ^ k : ℕ) : ℤ) - 2 ^ k := by
  simp only [Int.lnot, Int.lor]
  have h1 := Nat.one_le_two_pow (n := k)
  have := Nat.mod_lt x (Nat.two_pow_pos k)
  rw [ldiff_two_pow_sub_one, Int.negSucc_eq, Nat.cast_sub (by omega), Nat.cast_sub h1]
  push_cast; ring

end Bits

/-- `tt255`, `tt256` and `tt256m1 = 2^256 - 1` of `common/math`. -/
def tt255 : ℤ := 2 ^ 255

def tt256 : ℤ := 2 ^ 256

def tt256m1 : ℤ := ((2 ^ 256 - 1 : ℕ) : ℤ)

/-- `U256` encodes as a 256 bit two's complement number: `x.And(x, tt256m1)`. -/
def U256 (x : ℤ) : ℤ := Int.land x tt256m1

/-- `S256` interprets `x` as a two's complement number. -/
def S256 (x : ℤ) : ℤ := if x < tt255 then x else x - tt256

theorem U256_eq (x : ℤ) : U256 x = x % 2 ^ 256 := land_two_pow_sub_one x 256

theorem U256_nonneg (x : ℤ) : 0 ≤ U256 x := by
  rw [U256_eq]; exact Int.emod_nonneg _ (by positivity)

theorem U256_lt (x : ℤ) : U256 x < 2 ^ 256 := by
  rw [U256_eq]; exact Int.emod_lt_of_pos _ (by positivity)

theorem U256_of_word {x : ℤ} (h0 : 0 ≤ x) (h1 : x < 2 ^ 256) : U256 x = x := by
  rw [U256_eq, Int.emod_eq_of_lt h0 h1]

theorem S256_eq_bmod {x : ℤ} (h0 : 0 ≤ x) (h1 : x < 2 ^ 256) : S256 x = Int.bmod x (2 ^ 256) := by
  have hm : x % ((2 ^ 256 : ℕ) : ℤ) = x := Int.emod_eq_of_lt h0 (by exact_mod_cast h1)
  unfold S256 tt255 tt256
  split
  · rw [Int.bmod_eq_emod_of_lt (by rw [hm]; push_cast; omega), hm]
  · rw [Int.bmod_neg _ _ (by rw [hm]; push_cast; omega), hm]; push_cast; ring

theorem U256_S256 {x : ℤ} (h0 : 0 ≤ x) (h1 : x < 2 ^ 256) : U256 (S256 x) = x := by
  rw [U256_eq, S256]
  split
  · exact Int.emod_eq_of_lt h0 h1
  · rw [tt256, Int.sub_emod_right, Int.emod_eq_of_lt h0 h1]

section Exp

/-- One machine word of `Exp`'s loop: `wordBits` rounds of square-and-multiply. -/
def expWord (word : ℕ) : ℕ → ℤ × ℤ → ℤ × ℤ
  | 0, acc => acc
  | i + 1, (result, base) =>
    let result := if word % 2 = 1 then U256 (result * base) else result
    expWord (word / 2) i (result, U256 (base * base))

/-- `Exp` implements exponentiation by squaring over `exponent.Bits()`, the
little-endian 64-bit words of the exponent. -/
def Exp (base exponent : ℤ) : ℤ :=
  ((Nat.digits (2 ^ 64) exponent.toNat).foldl (fun acc word => expWord word 64 acc) (1, base)).1

variable {r b : ℤ}

theorem expWord_spec (word n : ℕ) (hr : r % 2 ^ 256 = r) :
    (expWord word n (r, b)).1 = r * b ^ (word % 2 ^ n) % 2 ^ 256 ∧
      (expWord word n (r, b)).2 ≡ b ^ (2 ^ n) [ZMOD 2 ^ 256] := by
  induction n generalizing word r b with
  | zero =>
    simp only [expWord, pow_zero, Nat.mod_one, pow_one, mul_one]
    exact ⟨hr.symm, Int.ModEq.refl _⟩
  | succ n ih =>
    have hw : word % 2 ^ (n + 1) = word % 2 + 2 * (word / 2 % 2 ^ n) := by
      rw [pow_succ', Nat.mod_mul]
    have hr' : (if word % 2 = 1 then U256 (r * b) else r) % 2 ^ 256 =
        if word % 2 = 1 then U256 (r * b) else r := by
      split
      · rw [U256_eq, Int.emod_emod]
      · exact hr
    have hb2 : U256 (b * b) ≡ b ^ 2 [ZMOD 2 ^ 256] := by
      rw [U256_eq, sq]; exact Int.mod_modEq _ _
    have hr2 : (if word % 2 = 1 then U256 (r * b) else r) ≡ r * b ^ (word % 2) [ZMOD 2 ^ 256] := by
      rcases Nat.mod_two_eq_zero_or_one word with h | h
      · simp [h]
      · simp only [h, if_true, pow_one, U256_eq]; exact Int.mod_modEq _ _
    obtain ⟨h1, h2⟩ := ih (word / 2) hr' (b := U256 (b * b))
    simp only [expWord]
    refine ⟨?_, ?_⟩
    · rw [h1, hw, pow_add, pow_mul, ← mul_assoc]
      exact hr2.mul (hb2.pow _)
    · rw [show b ^ 2 ^ (n + 1) = (b ^ 2) ^ 2 ^ n by ring]
      exact h2.trans (hb2.pow _)

theorem foldl_expWord (ws : List ℕ) (hws : ∀ w ∈ ws, w < 2 ^ 64) (hr : r % 2 ^ 256 = r) :
    (ws.foldl (fun acc word => expWord word 64 acc) (r, b)).1 =
      r * b ^ Nat.ofDigits (2 ^ 64) ws % 2 ^ 256 := by
  induction ws generalizing r b with
  | nil => simpa using hr.symm
  | cons w ws ih =>
    obtain ⟨h1, h2⟩ := expWord_spec (b := b) w 64 hr
    have hr1 : (expWord w 64 (r, b)).1 % 2 ^ 256 = (expWord w 64 (r, b)).1 := by
      rw [h1, Int.emod_emod]
    rw [List.foldl_cons, ← Prod.mk.eta (p := expWord w 64 (r, b)),
      ih (fun v hv => hws v (List.mem_cons_of_mem _ hv)) hr1, h1,
      Nat.mod_eq_of_lt (hws w List.mem_cons_self), Nat.ofDigits_cons, pow_add, pow_mul]
    exact ((Int.mod_modEq _ _).mul (h2.pow _)).trans (by rw [mul_assoc])

theorem Exp_eq (b : ℤ) (e : ℕ) : Exp b e = b ^ e % 2 ^ 256 := by
  unfold Exp
  rw [Int.toNat_natCast, foldl_expWord _ (fun w hw => Nat.digits_lt_base (by norm_num) hw) (by decide),
    Nat.ofDigits_digits, one_mul]

end Exp

section Byte

/-- `bigEndianByteAt` returns the byte at position `n` counted from the least
significant end, read from the 64-bit words of `bigint.Bits()`. -/
def bigEndianByteAt (bigint : ℤ) (n : ℕ) : ℕ :=
  let words := Nat.digits (2 ^ 64) bigint.natAbs
  let i := n / 8
  if i ≥ words.length then 0 else (words.getD i 0 >>> (8 * (n % 8))) % 256

/-- `Byte` returns the byte at position `n` of the `padlength`-byte big-endian
encoding; `n = 0` is the most significant byte. -/
def Byte (bigint : ℤ) (padlength n : ℕ) : ℕ :=
  if n ≥ padlength then 0 else bigEndianByteAt bigint (padlength - 1 - n)

theorem bigEndianByteAt_eq (x n : ℕ) : bigEndianByteAt x n = x / 256 ^ n % 256 := by
  have hword : (Nat.digits (2 ^ 64) x).getD (n / 8) 0 >>> (8 * (n % 8)) % 256 =
      x / 256 ^ n % 256 := by
    have hn := Nat.div_add_mod n 8
    have hr := Nat.mod_lt n (show 8 > 0 by norm_num)
    rw [Nat.getD_digits _ _ (by norm_num), Nat.shiftRight_eq_div_pow, ← pow_mul,
      show 2 ^ 64 = 2 ^ (8 * (n % 8)) * 2 ^ (64 - 8 * (n % 8)) by rw [← pow_add]; congr 1; omega,
      Nat.mod_mul_right_div_self, Nat.div_div_eq_div_mul, ← pow_add,
      show 256 = 2 ^ 8 by norm_num, ← pow_mul,
      Nat.mod_mod_of_dvd _ (pow_dvd_pow 2 (by omega))]
    congr 3; omega
  unfold bigEndianByteAt
  simp only [Int.natAbs_natCast]
  split
  · -- beyond the last word the value has no bits left at this position
    rename_i h
    have hlt : x < (2 ^ 64) ^ (n / 8) :=
      lt_of_lt_of_le (Nat.lt_base_pow_length_digits (by norm_num)) (Nat.pow_le_pow_right (by norm_num) h)
    rw [← hword, List.getD_eq_default _ _ h]
    simp
  · exact hword

theorem Byte_eq (x padlength n : ℕ) (h : n < padlength) :
    Byte x padlength n = x / 256 ^ (padlength - 1 - n) % 256 := by
  rw [Byte, if_neg (by omega), bigEndianByteAt_eq]

end Byte

end EthereumAI
