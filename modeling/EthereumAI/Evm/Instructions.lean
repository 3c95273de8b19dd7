import EthereumAI.Common.Math

/-! # Arithmetic, comparison and bitwise instructions

The operand stack is a list of `big.Int` values with the top first, so that
`Back(n)` is its `n`-th element. Each `op…` pops and pushes as its Go body
does; `none` stands for popping an empty stack. The Yellow Paper and EIP-145
meaning of each instruction on 256-bit words is stated in `Yellow`, and each
instruction is proved to compute it, with one exception: `SAR` by 256 or
more of the word `0` pushes `2^256 - 1`, because `opSAR` tests
`value.Sign() > 0` where the EIP asks for a non-negative value.
-/

namespace EthereumAI.Evm

abbrev Stack := List ℤ

section Ops

def opAdd : Stack → Option Stack
  | x :: y :: st => some (U256 (x + y) :: st)
  | _ => none

def opSub : Stack → Option Stack
  | x :: y :: st => some (U256 (x - y) :: st)
  | _ => none

def opMul : Stack → Option Stack
  | x :: y :: st => some (U256 (x * y) :: st)
  | _ => none

def opDiv : Stack → Option Stack
  | x :: y :: st => some ((if y.sign ≠ 0 then U256 (x / y) else 0) :: st)
  | _ => none

def opSdiv : Stack → Option Stack
  | x :: y :: st =>
    let x := S256 x
    let y := S256 y
    if y.sign = 0 ∨ x.sign = 0 then some (0 :: st)
    else
      let res := if x.sign ≠ y.sign then -(|x| / |y|) else |x| / |y|
      some (U256 res :: st)
  | _ => none

def opMod : Stack → Option Stack
  | x :: y :: st => some ((if y.sign = 0 then 0 else U256 (x % y)) :: st)
  | _ => none

def opSmod : Stack → Option Stack
  | x :: y :: st =>
    let x := S256 x
    let y := S256 y
    if y.sign = 0 then some (0 :: st)
    else
      let res := if x.sign < 0 then -(|x| % |y|) else |x| % |y|
      some (U256 res :: st)
  | _ => none

def opExp : Stack → Option Stack
  | base :: exponent :: st => some (Exp base exponent :: st)
  | _ => none

/-- `SIGNEXTEND` pops the byte index `back` and, when it is below 31, pops the
value and pushes it sign-extended from bit `8 * back + 7`; otherwise the value
stays on the stack unchanged. -/
def opSignExtend : Stack → Option Stack
  | back :: st =>
    if back < 31 then
      match st with
      | num :: st =>
        let bit := back.toNat * 8 + 7
        let mask : ℤ := ((2 ^ bit - 1 : ℕ) : ℤ)
        let num := if num.testBit bit then Int.lor num (Int.lnot mask) else Int.land num mask
        some (U256 num :: st)
      | [] => none
    else some st
  | [] => none

def opNot : Stack → Option Stack
  | x :: st => some (U256 (Int.lnot x) :: st)
  | _ => none

def opLt : Stack → Option Stack
  | x :: y :: st => some ((if x < y then 1 else 0) :: st)
  | _ => none

def opGt : Stack → Option Stack
  | x :: y :: st => some ((if x > y then 1 else 0) :: st)
  | _ => none

/-- `SLT` compares the two operands with `tt255` to read their signs. -/
def opSlt : Stack → Option Stack
  | x :: y :: st =>
    let r : ℤ :=
      if tt255 ≤ x ∧ y < tt255 then 1
      else if x < tt255 ∧ tt255 ≤ y then 0
      else if x < y then 1 else 0
    some (r :: st)
  | _ => none

def opSgt : Stack → Option Stack
  | x :: y :: st =>
    let r : ℤ :=
      if tt255 ≤ x ∧ y < tt255 then 0
      else if x < tt255 ∧ tt255 ≤ y then 1
      else if x > y then 1 else 0
    some (r :: st)
  | _ => none

def opEq : Stack → Option Stack
  | x :: y :: st => some ((if x = y then 1 else 0) :: st)
  | _ => none

def opIszero : Stack → Option Stack
  | x :: st => some ((if x.sign > 0 then 0 else 1) :: st)
  | _ => none

def opAnd : Stack → Option Stack
  | x :: y :: st => some (Int.land x y :: st)
  | _ => none

def opOr : Stack → Option Stack
  | x :: y :: st => some (Int.lor x y :: st)
  | _ => none

def opXor : Stack → Option Stack
  | x :: y :: st => some (Int.xor x y :: st)
  | _ => none

def opByte : Stack → Option Stack
  | th :: val :: st => some ((if th < 32 then (Byte val 32 th.toNat : ℤ) else 0) :: st)
  | _ => none

def opAddmod : Stack → Option Stack
  | x :: y :: z :: st => some ((if z > 0 then U256 ((x + y) % z) else 0) :: st)
  | _ => none

def opMulmod : Stack → Option Stack
  | x :: y :: z :: st => some ((if z > 0 then U256 ((x * y) % z) else 0) :: st)
  | _ => none

/-- `SHL` leaves its result in the value's slot: `value.Lsh(value, n)`. -/
def opSHL : Stack → Option Stack
  | shift :: value :: st =>
    let shift := U256 shift
    let value := U256 value
    if shift ≥ 256 then some (0 :: st)
    else some (U256 (value * 2 ^ shift.toNat) :: st)
  | _ => none

def opSHR : Stack → Option Stack
  | shift :: value :: st =>
    let shift := U256 shift
    let value := U256 value
    if shift ≥ 256 then some (0 :: st)
    else some (U256 (value >>> shift.toNat) :: st)
  | _ => none

/-- `SAR` pops both operands, reads the value as signed with `S256`, and for a
shift of 256 or more pushes `0` when `value.Sign() > 0` and `-1` otherwise. -/
def opSAR : Stack → Option Stack
  | shift :: value :: st =>
    let shift := U256 shift
    let value := S256 value
    if shift ≥ 256 then
      let value : ℤ := if value.sign > 0 then 0 else -1
      some (U256 value :: st)
    else some (U256 (value >>> shift.toNat) :: st)
  | _ => none

end Ops

/-- A 256-bit word. -/
def IsWord (x : ℤ) : Prop := 0 ≤ x ∧ x < 2 ^ 256

/-! ### The Yellow Paper and EIP-145 meaning on words

Signed operands are read with `Int.bmod x (2^256)` and results are written
back modulo `2^256`; signed division and remainder truncate toward zero. -/

namespace Yellow

def add (a b : ℤ) : ℤ := (a + b) % 2 ^ 256
def sub (a b : ℤ) : ℤ := (a - b) % 2 ^ 256
def mul (a b : ℤ) : ℤ := (a * b) % 2 ^ 256
def div (a b : ℤ) : ℤ := if b = 0 then 0 else a / b
def sdiv (a b : ℤ) : ℤ := if b = 0 then 0 else (Int.bmod a (2 ^ 256)).tdiv (Int.bmod b (2 ^ 256)) % 2 ^ 256
def mod (a b : ℤ) : ℤ := if b = 0 then 0 else a % b
def smod (a b : ℤ) : ℤ := if b = 0 then 0 else (Int.bmod a (2 ^ 256)).tmod (Int.bmod b (2 ^ 256)) % 2 ^ 256
def addmod (a b n : ℤ) : ℤ := if n = 0 then 0 else (a + b) % n
def mulmod (a b n : ℤ) : ℤ := if n = 0 then 0 else (a * b) % n
def exp (a b : ℤ) : ℤ := a ^ b.toNat % 2 ^ 256
/-- The low `8 * (b + 1)` bits of `x` read as a signed number, as a word. -/
def signextend (b x : ℤ) : ℤ :=
  if b < 31 then Int.bmod x (2 ^ (8 * b.toNat + 8)) % 2 ^ 256 else x
def lt (a b : ℤ) : ℤ := if a < b then 1 else 0
def gt (a b : ℤ) : ℤ := if a > b then 1 else 0
def slt (a b : ℤ) : ℤ := if Int.bmod a (2 ^ 256) < Int.bmod b (2 ^ 256) then 1 else 0
def sgt (a b : ℤ) : ℤ := if Int.bmod a (2 ^ 256) > Int.bmod b (2 ^ 256) then 1 else 0
def eq (a b : ℤ) : ℤ := if a = b then 1 else 0
def iszero (a : ℤ) : ℤ := if a = 0 then 1 else 0
def and (a b : ℤ) : ℤ := (a.toNat &&& b.toNat : ℕ)
def or (a b : ℤ) : ℤ := (a.toNat ||| b.toNat : ℕ)
def xor (a b : ℤ) : ℤ := (a.toNat ^^^ b.toNat : ℕ)
def not (a : ℤ) : ℤ := 2 ^ 256 - 1 - a
/-- Byte `i` of the big-endian word `x`, byte `0` being the most significant. -/
def byte (i x : ℤ) : ℤ := if i < 32 then x / 256 ^ (31 - i.toNat) % 256 else 0
def shl (shift value : ℤ) : ℤ := if shift < 256 then value * 2 ^ shift.toNat % 2 ^ 256 else 0
def shr (shift value : ℤ) : ℤ := if shift < 256 then value / 2 ^ shift.toNat else 0
/-- Arithmetic shift: floor division of the signed value, so `0` or `-1` once
the shift reaches 256. -/
def sar (shift value : ℤ) : ℤ :=
  if shift < 256 then Int.bmod value (2 ^ 256) / 2 ^ shift.toNat % 2 ^ 256
  else if Int.bmod value (2 ^ 256) < 0 then 2 ^ 256 - 1 else 0

end Yellow

section Spec

theorem sign_abs_ediv {x y : ℤ} (hx : x ≠ 0) (hy : y ≠ 0) :
    (if x.sign ≠ y.sign then -(|x| / |y|) else |x| / |y|) = x.tdiv y := by
  rcases lt_or_gt_of_ne hx with hx | hx <;> rcases lt_or_gt_of_ne hy with hy | hy
  · rw [if_neg (by simp [Int.sign_eq_neg_one_of_neg hx, Int.sign_eq_neg_one_of_neg hy]),
      abs_of_neg hx, abs_of_neg hy, ← Int.neg_tdiv_neg, Int.tdiv_eq_ediv_of_nonneg (by omega)]
  · rw [if_pos (by simp [Int.sign_eq_neg_one_of_neg hx, Int.sign_eq_one_of_pos hy]),
      abs_of_neg hx, abs_of_pos hy, ← Int.tdiv_eq_ediv_of_nonneg (by omega), Int.neg_tdiv, neg_neg]
  · rw [if_pos (by simp [Int.sign_eq_one_of_pos hx, Int.sign_eq_neg_one_of_neg hy]),
      abs_of_pos hx, abs_of_neg hy, ← Int.tdiv_eq_ediv_of_nonneg hx.le, Int.tdiv_neg, neg_neg]
  · rw [if_neg (by simp [Int.sign_eq_one_of_pos hx, Int.sign_eq_one_of_pos hy]),
      abs_of_pos hx, abs_of_pos hy, Int.tdiv_eq_ediv_of_nonneg (by omega)]

theorem sign_abs_emod (x y : ℤ) :
    (if x.sign < 0 then -(|x| % |y|) else |x| % |y|) = x.tmod y := by
  rcases lt_or_ge x 0 with hx | hx
  · rw [if_pos (by simp [Int.sign_eq_neg_one_of_neg hx]), abs_of_neg hx, Int.emod_abs,
      ← Int.tmod_eq_emod_of_nonneg (by omega), Int.neg_tmod, neg_neg]
  · rw [if_neg (not_lt.mpr (Int.sign_nonneg_iff.mpr hx)), abs_of_nonneg hx, Int.emod_abs,
      Int.tmod_eq_emod_of_nonneg hx]

variable {a b c : ℤ} {st : Stack}

theorem IsWord.bmod_eq (ha : IsWord a) :
    Int.bmod a (2 ^ 256) = if a < 2 ^ 255 then a else a - 2 ^ 256 := by
  rw [← S256_eq_bmod ha.1 ha.2, S256, tt255, tt256]

theorem IsWord.bmod_eq_zero (ha : IsWord a) : Int.bmod a (2 ^ 256) = 0 ↔ a = 0 := by
  rw [ha.bmod_eq]; have := ha.2; split <;> omega

theorem opAdd_eq : opAdd (a :: b :: st) = some (Yellow.add a b :: st) := by
  simp [opAdd, Yellow.add, U256_eq]

theorem opSub_eq : opSub (a :: b :: st) = some (Yellow.sub a b :: st) := by
  simp [opSub, Yellow.sub, U256_eq]

theorem opMul_eq : opMul (a :: b :: st) = some (Yellow.mul a b :: st) := by
  simp [opMul, Yellow.mul, U256_eq]

theorem opDiv_eq (ha : IsWord a) (hb : IsWord b) :
    opDiv (a :: b :: st) = some (Yellow.div a b :: st) := by
  simp only [opDiv, Yellow.div, ne_eq, Int.sign_eq_zero_iff_zero]
  split_ifs with h
  · rfl
  · rw [U256_of_word (Int.ediv_nonneg ha.1 hb.1) (lt_of_le_of_lt (Int.ediv_le_self _ ha.1) ha.2)]

theorem opSdiv_eq (ha : IsWord a) (hb : IsWord b) :
    opSdiv (a :: b :: st) = some (Yellow.sdiv a b :: st) := by
  simp only [opSdiv, Yellow.sdiv, S256_eq_bmod ha.1 ha.2, S256_eq_bmod hb.1 hb.2,
    Int.sign_eq_zero_iff_zero, hb.bmod_eq_zero]
  by_cases hb0 : b = 0
  · simp [hb0]
  by_cases ha0 : Int.bmod a (2 ^ 256) = 0
  · rw [if_pos (Or.inr ha0), if_neg hb0, ha0, Int.zero_tdiv, Int.zero_emod]
  rw [if_neg (by tauto), if_neg hb0, sign_abs_ediv ha0 (by rwa [ne_eq, hb.bmod_eq_zero]), U256_eq]

theorem opMod_eq (hb : IsWord b) :
    opMod (a :: b :: st) = some (Yellow.mod a b :: st) := by
  simp only [opMod, Yellow.mod, Int.sign_eq_zero_iff_zero]
  split_ifs with h
  · rfl
  · have hb0 : 0 < b := lt_of_le_of_ne hb.1 (Ne.symm h)
    rw [U256_of_word (Int.emod_nonneg _ h) (lt_trans (Int.emod_lt_of_pos a hb0) hb.2)]

theorem opSmod_eq (ha : IsWord a) (hb : IsWord b) :
    opSmod (a :: b :: st) = some (Yellow.smod a b :: st) := by
  simp only [opSmod, Yellow.smod, S256_eq_bmod ha.1 ha.2, S256_eq_bmod hb.1 hb.2,
    Int.sign_eq_zero_iff_zero, hb.bmod_eq_zero]
  by_cases hb0 : b = 0
  · simp [hb0]
  · rw [if_neg hb0, if_neg hb0, sign_abs_emod, U256_eq]

theorem opExp_eq (hb : IsWord b) : opExp (a :: b :: st) = some (Yellow.exp a b :: st) := by
  obtain ⟨n, rfl⟩ := Int.eq_ofNat_of_zero_le hb.1
  simp [opExp, Yellow.exp, Exp_eq]

theorem signExtend_bits (n k : ℕ) :
    (if (n : ℤ).testBit k then Int.lor n (Int.lnot ((2 ^ k - 1 : ℕ) : ℤ))
      else Int.land n ((2 ^ k - 1 : ℕ) : ℤ)) = Int.bmod n (2 ^ (k + 1)) := by
  have hsplit : n % 2 ^ (k + 1) = n % 2 ^ k + 2 ^ k * (n / 2 ^ k % 2) := Nat.mod_pow_succ
  have hlt := Nat.mod_lt n (Nat.two_pow_pos k)
  have hbit : (n : ℤ).testBit k = decide (n / 2 ^ k % 2 = 1) := Nat.testBit_eq_decide_div_mod_eq
  have hhalf : (((2 ^ (k + 1) : ℕ) : ℤ) + 1) / 2 = ((2 ^ k : ℕ) : ℤ) := by
    rw [pow_succ]; push_cast; omega
  have hlow : (n : ℤ) % 2 ^ k = ((n % 2 ^ k : ℕ) : ℤ) := by push_cast; rfl
  have hpow : (2 : ℤ) ^ k = ((2 ^ k : ℕ) : ℤ) := by push_cast; rfl
  rw [Int.bmod_eq_emod, lor_lnot_two_pow_sub_one, land_two_pow_sub_one, hbit, hhalf, hlow, hpow,
    ← Int.natCast_emod, hsplit, pow_succ]
  generalize 2 ^ k = P at *
  generalize n % P = r at *
  rcases Nat.mod_two_eq_zero_or_one (n / P) with h | h <;> rw [h] <;> simp <;> omega

theorem opSignExtend_eq (hx : IsWord c) :
    opSignExtend (b :: c :: st) = some (Yellow.signextend b c :: st) := by
  obtain ⟨n, rfl⟩ := Int.eq_ofNat_of_zero_le hx.1
  by_cases h : b < 31
  · simp only [opSignExtend, Yellow.signextend, if_pos h]
    rw [signExtend_bits, U256_eq, show 8 * b.toNat + 8 = b.toNat * 8 + 7 + 1 by ring]
  · simp only [opSignExtend, Yellow.signextend, if_neg h]

theorem opNot_eq (ha : IsWord a) : opNot (a :: st) = some (Yellow.not a :: st) := by
  obtain ⟨n, rfl⟩ := Int.eq_ofNat_of_zero_le ha.1
  have h := ha.2
  simp only [opNot, Yellow.not, Int.lnot, U256_eq, Int.negSucc_eq]
  rw [show -((n : ℤ) + 1) = (2 ^ 256 - 1 - n) + (-1) * 2 ^ 256 by ring, Int.add_mul_emod_self_right,
    Int.emod_eq_of_lt (by omega) (by omega)]

theorem opLt_eq : opLt (a :: b :: st) = some (Yellow.lt a b :: st) := rfl

theorem opGt_eq : opGt (a :: b :: st) = some (Yellow.gt a b :: st) := rfl

theorem opEq_eq : opEq (a :: b :: st) = some (Yellow.eq a b :: st) := rfl

theorem opIszero_eq (ha : IsWord a) : opIszero (a :: st) = some (Yellow.iszero a :: st) := by
  have h := ha.1
  simp only [opIszero, Yellow.iszero, gt_iff_lt, Int.sign_pos_iff]
  split_ifs <;> first | rfl | omega

theorem opSlt_eq (ha : IsWord a) (hb : IsWord b) :
    opSlt (a :: b :: st) = some (Yellow.slt a b :: st) := by
  have h1 := ha.2; have h2 := hb.2; have h5 := ha.1; have h6 := hb.1
  simp only [opSlt, Yellow.slt, ha.bmod_eq, hb.bmod_eq, tt255]
  by_cases h3 : a < 2 ^ 255 <;> by_cases h4 : b < 2 ^ 255 <;>
    simp only [h3, h4, if_true, if_false, and_true, true_and, and_false, false_and] <;> split_ifs <;> first | rfl | omega

theorem opSgt_eq (ha : IsWord a) (hb : IsWord b) :
    opSgt (a :: b :: st) = some (Yellow.sgt a b :: st) := by
  have h1 := ha.2; have h2 := hb.2; have h5 := ha.1; have h6 := hb.1
  simp only [opSgt, Yellow.sgt, ha.bmod_eq, hb.bmod_eq, tt255]
  by_cases h3 : a < 2 ^ 255 <;> by_cases h4 : b < 2 ^ 255 <;>
    simp only [h3, h4, if_true, if_false, and_true, true_and, and_false, false_and] <;> split_ifs <;> first | rfl | omega

theorem opAnd_eq (ha : IsWord a) (hb : IsWord b) :
    opAnd (a :: b :: st) = some (Yellow.and a b :: st) := by
  obtain ⟨n, rfl⟩ := Int.eq_ofNat_of_zero_le ha.1
  obtain ⟨m, rfl⟩ := Int.eq_ofNat_of_zero_le hb.1
  rfl

theorem opOr_eq (ha : IsWord a) (hb : IsWord b) :
    opOr (a :: b :: st) = some (Yellow.or a b :: st) := by
  obtain ⟨n, rfl⟩ := Int.eq_ofNat_of_zero_le ha.1
  obtain ⟨m, rfl⟩ := Int.eq_ofNat_of_zero_le hb.1
  rfl

theorem opXor_eq (ha : IsWord a) (hb : IsWord b) :
    opXor (a :: b :: st) = some (Yellow.xor a b :: st) := by
  obtain ⟨n, rfl⟩ := Int.eq_ofNat_of_zero_le ha.1
  obtain ⟨m, rfl⟩ := Int.eq_ofNat_of_zero_le hb.1
  rfl

theorem opByte_eq (hb : IsWord b) :
    opByte (a :: b :: st) = some (Yellow.byte a b :: st) := by
  obtain ⟨n, rfl⟩ := Int.eq_ofNat_of_zero_le hb.1
  simp only [opByte, Yellow.byte]
  split_ifs with h
  · rw [Byte_eq _ _ _ (by omega)]; push_cast; congr 4
  · rfl

theorem opAddmod_eq (hc : IsWord c) :
    opAddmod (a :: b :: c :: st) = some (Yellow.addmod a b c :: st) := by
  simp only [opAddmod, Yellow.addmod]
  split_ifs with h1 h2 h2
  · omega
  · exact congrArg _ (congrArg (· :: st) (U256_of_word (Int.emod_nonneg _ (by omega))
      (lt_trans (Int.emod_lt_of_pos _ h1) hc.2)))
  · rfl
  · have := hc.1; omega

theorem opMulmod_eq (hc : IsWord c) :
    opMulmod (a :: b :: c :: st) = some (Yellow.mulmod a b c :: st) := by
  simp only [opMulmod, Yellow.mulmod]
  split_ifs with h1 h2 h2
  · omega
  · exact congrArg _ (congrArg (· :: st) (U256_of_word (Int.emod_nonneg _ (by omega))
      (lt_trans (Int.emod_lt_of_pos _ h1) hc.2)))
  · rfl
  · have := hc.1; omega

theorem opSHL_eq (ha : IsWord a) (hb : IsWord b) :
    opSHL (a :: b :: st) = some (Yellow.shl a b :: st) := by
  simp only [opSHL, Yellow.shl, U256_of_word ha.1 ha.2, U256_of_word hb.1 hb.2, U256_eq]
  split_ifs <;> first | rfl | omega

theorem opSHR_eq (ha : IsWord a) (hb : IsWord b) :
    opSHR (a :: b :: st) = some (Yellow.shr a b :: st) := by
  have hle : b / 2 ^ a.toNat ≤ b := Int.ediv_le_self _ hb.1
  have h0 : 0 ≤ b / 2 ^ a.toNat := Int.ediv_nonneg hb.1 (by positivity)
  simp only [opSHR, Yellow.shr, U256_of_word ha.1 ha.2, U256_of_word hb.1 hb.2,
    Int.shiftRight_eq_div_pow, Nat.cast_pow, Nat.cast_ofNat, U256_of_word h0 (lt_of_le_of_lt hle hb.2)]
  split_ifs <;> first | rfl | omega

theorem opSAR_eq (ha : IsWord a) (hb : IsWord b) (h : a < 256 ∨ b ≠ 0) :
    opSAR (a :: b :: st) = some (Yellow.sar a b :: st) := by
  simp only [opSAR, Yellow.sar, U256_of_word ha.1 ha.2, S256_eq_bmod hb.1 hb.2,
    Int.shiftRight_eq_div_pow, Nat.cast_pow, Nat.cast_ofNat, U256_eq, Int.sign_pos_iff, gt_iff_lt]
  by_cases hs : a < 256
  · rw [if_neg (not_le.mpr hs), if_pos hs]
  · have hb0 : Int.bmod b (2 ^ 256) ≠ 0 := by rw [ne_eq, hb.bmod_eq_zero]; omega
    rw [if_pos (not_lt.mp hs), if_neg hs]
    rcases lt_or_gt_of_ne hb0 with hn | hp
    · rw [if_neg (not_lt.mpr hn.le), if_pos hn]; norm_num
    · rw [if_pos hp, if_neg (not_lt.mpr hp.le)]; rfl

/-- Under EIP-145 the word `0` shifted right arithmetically by 256 is `0`, but
`opSAR` pushes `2^256 - 1`: `value.Sign() > 0` is false for zero. -/
theorem opSAR_zero_shift_256 : opSAR [256, 0] = some [2 ^ 256 - 1] ∧ Yellow.sar 256 0 = 0 := by
  constructor
  · simp only [opSAR, U256_eq, S256, tt255, tt256]
    norm_num
  · simp [Yellow.sar]

end Spec

end EthereumAI.Evm
