import Mathlib
import EthereumAI.Lib.BigEndian
import EthereumAI.Abi.Argument

/-! # The MODEXP precompile (`core/vm/contracts.go`, `core/vm/common.go`)

`bigModExp` reads three 32-byte lengths, then the base, the exponent and the modulus of those
lengths, all zero-padded on the right where the input ends. `RequiredGas` computes in big
integers and is EIP-198's price for every input. `Run` takes the lengths as `uint64`s, and
`getData`'s end `start + size` is a `uint64` sum: an exponent length that wraps it makes the
slice end before its start, and the precompile panics on an input EIP-198 prices below the
maximum gas (`Run_panics_below_max_gas`).

A panic is `none`. Go's `int(size)` of a `uint64` of 2^63 or more is negative, and padding to a
negative length leaves the slice as it is.
-/

namespace EthereumAI.Evm

open Lib.BigEndian

/-! ## The model -/

/-- `common.RightPadBytes` to `int(size)` bytes. -/
def padRight (slice : Bytes) (size : UInt64) : Bytes :=
  if size.toNat < 2 ^ 63 then Abi.RightPadBytes slice size.toNat else slice

/-- `common.LeftPadBytes` to `int(size)` bytes. -/
def padLeft (slice : Bytes) (size : UInt64) : Bytes :=
  if size.toNat < 2 ^ 63 then Abi.LeftPadBytes slice size.toNat else slice

/-- `getData`: `size` bytes from `start`, zero-padded. The end is computed in `uint64`. -/
def getData (data : Bytes) (start size : UInt64) : Option Bytes :=
  let length := data.length.toUInt64
  let start := if start > length then length else start
  let e := start + size
  let e := if e > length then length else e
  if e < start then none
  else some (padRight ((data.take e.toNat).drop start.toNat) size)

/-- `x.Bytes()` of a natural number: big-endian, without leading zeros. -/
def intBytes (x : ℕ) : Bytes := bytes ((x.size + 7) / 8) x

/-- `params.ModExpQuadCoeffDiv`. -/
def ModExpQuadCoeffDiv : ℕ := 20

/-- The multiplication complexity of `RequiredGas`'s `switch`. -/
def multComplexity (x : ℕ) : ℕ :=
  if x ≤ 64 then x * x
  else if x ≤ 1024 then x * x / 4 + (96 * x - 3072)
  else x * x / 16 + (480 * x - 199680)

/-- `bigModExp.RequiredGas`. -/
def RequiredGas (input : Bytes) : Option UInt64 := do
  let baseLen := value (← getData input 0 32)
  let expLen := value (← getData input 32 32)
  let modLen := value (← getData input 64 32)
  let input := if input.length > 96 then input.drop 96 else []
  -- the head 32 bytes of exp for the adjusted exponent length
  let expHead ←
    if input.length ≤ baseLen then pure 0
    else if expLen > 32 then value <$> getData input baseLen.toUInt64 32
    else value <$> getData input baseLen.toUInt64 expLen.toUInt64
  let msb := expHead.size - 1
  let adjExpLen := (if expLen > 32 then 8 * (expLen - 32) else 0) + msb
  let gas := multComplexity (max modLen baseLen) * max adjExpLen 1 / ModExpQuadCoeffDiv
  pure (if gas.size > 64 then (2 ^ 64 - 1 : ℕ).toUInt64 else gas.toUInt64)

/-- `bigModExp.Run`; its error is always `nil`. -/
def Run (input : Bytes) : Option Bytes := do
  let baseLen := (value (← getData input 0 32)).toUInt64
  let expLen := (value (← getData input 32 32)).toUInt64
  let modLen := (value (← getData input 64 32)).toUInt64
  let input := if input.length > 96 then input.drop 96 else []
  if baseLen = 0 ∧ modLen = 0 then return []
  let base := value (← getData input 0 baseLen)
  let exp := value (← getData input baseLen expLen)
  let mod := value (← getData input (baseLen + expLen) modLen)
  -- modulo 0 is undefined, return zero
  if mod.size = 0 then return padLeft [] modLen
  return padLeft (intBytes (base ^ exp % mod)) modLen

/-! ## `getData` when its end does not wrap -/

theorem rightPad_slice (data : Bytes) (start k : ℕ) :
    Abi.RightPadBytes ((data.take (min (min start data.length + k) data.length)).drop (min start data.length)) k =
      (data.drop start ++ List.replicate k 0).take k := by
  set s := min start data.length with hs
  have hdrop : data.drop start = data.drop s := by
    rcases le_total start data.length with h | h
    · rw [hs, Nat.min_eq_left h]
    · rw [hs, Nat.min_eq_right h, List.drop_eq_nil_of_le h, List.drop_eq_nil_of_le le_rfl]
  have htake : (data.take (min (s + k) data.length)).drop s = (data.drop s).take k := by
    rw [List.drop_take]
    exact List.take_eq_take_iff.mpr (by simp only [List.length_drop]; omega)
  rw [htake, hdrop, Abi.RightPadBytes, List.take_append, List.take_replicate]
  split_ifs with hk
  · -- the input holds all `k` bytes
    have h0 : k - (data.length - s) = 0 := by simp at hk; omega
    simp [h0]
  · -- past the end of the input, zeros
    have hlt : (data.drop s).length < k := by simp at hk ⊢; omega
    rw [List.take_of_length_le hlt.le, Nat.min_eq_left (Nat.sub_le k _)]

theorem toNat_clamp {x : UInt64} {n : ℕ} (hl : n < 2 ^ 64) :
    (if x > n.toUInt64 then n.toUInt64 else x).toNat = min x.toNat n := by
  have hn : n.toUInt64.toNat = n := by simp; omega
  split_ifs with h
  · simp only [gt_iff_lt, UInt64.lt_iff_toNat_lt, hn] at h
    rw [hn]
    omega
  · simp only [gt_iff_lt, UInt64.lt_iff_toNat_lt, hn] at h
    omega

theorem getData_eq {data : Bytes} {start size : UInt64} (hl : data.length < 2 ^ 64)
    (hs : start.toNat + size.toNat < 2 ^ 64) (hsz : size.toNat < 2 ^ 63) :
    getData data start size = some ((data.drop start.toNat ++ List.replicate size.toNat 0).take size.toNat) := by
  set s := if start > data.length.toUInt64 then data.length.toUInt64 else start with hsdef
  have hs' : s.toNat = min start.toNat data.length := toNat_clamp hl
  have he : (s + size).toNat = min start.toNat data.length + size.toNat := by
    rw [UInt64.toNat_add, hs', Nat.mod_eq_of_lt (by omega)]
  set e := if s + size > data.length.toUInt64 then data.length.toUInt64 else s + size with hedef
  have he' : e.toNat = min (min start.toNat data.length + size.toNat) data.length := by
    rw [hedef, toNat_clamp hl, he]
  have hse : ¬ e < s := by
    rw [UInt64.lt_iff_toNat_lt, he', hs']
    omega
  unfold getData
  simp only [← hsdef, ← hedef, if_neg hse, he', hs', padRight, if_pos hsz, rightPad_slice]

theorem getData_eq_none {data : Bytes} {start size : UInt64} (hl : data.length < 2 ^ 64)
    (hw : 2 ^ 64 ≤ min start.toNat data.length + size.toNat) : getData data start size = none := by
  set s := if start > data.length.toUInt64 then data.length.toUInt64 else start with hsdef
  have hs' : s.toNat = min start.toNat data.length := toNat_clamp hl
  have he : (s + size).toNat = min start.toNat data.length + size.toNat - 2 ^ 64 := by
    have hsz := size.toNat_lt
    rw [UInt64.toNat_add, hs', Nat.mod_eq_sub_mod hw, Nat.mod_eq_of_lt (by omega)]
  set e := if s + size > data.length.toUInt64 then data.length.toUInt64 else s + size with hedef
  have hse : e < s := by
    have hsz := size.toNat_lt
    rw [UInt64.lt_iff_toNat_lt, hedef, toNat_clamp hl, he, hs']
    omega
  unfold getData
  simp only [← hsdef, ← hedef, if_pos hse]

/-! ## EIP-198 -/

/-- `size` bytes of the input from `start`, zero-padded on the right, as a number. -/
def eipRead (input : Bytes) (start size : ℕ) : ℕ := value ((input.drop start ++ List.replicate size 0).take size)

/-- The price EIP-198 sets. -/
def eipGas (input : Bytes) : ℕ :=
  let baseLen := eipRead input 0 32
  let expLen := eipRead input 32 32
  let modLen := eipRead input 64 32
  let expHead := eipRead input (96 + baseLen) (min expLen 32)
  let adjExpLen := (if expLen > 32 then 8 * (expLen - 32) else 0) + (expHead.size - 1)
  min (2 ^ 64 - 1) (multComplexity (max modLen baseLen) * max adjExpLen 1 / ModExpQuadCoeffDiv)

/-- The output EIP-198 sets: `base ^ exp % mod` in `modLen` bytes, zero for a zero modulus. -/
def eipOutput (input : Bytes) : Bytes :=
  let baseLen := eipRead input 0 32
  let expLen := eipRead input 32 32
  let modLen := eipRead input 64 32
  let base := eipRead input 96 baseLen
  let exp := eipRead input (96 + baseLen) expLen
  let mod := eipRead input (96 + baseLen + expLen) modLen
  bytes modLen (if mod = 0 then 0 else base ^ exp % mod)

/-! ## `RequiredGas` is EIP-198's price -/

theorem value_replicate_zero : ∀ n, value (List.replicate n 0) = 0
  | 0 => rfl
  | n + 1 => by simp [List.replicate_succ, value, value_replicate_zero n]

theorem eipRead_drop (input : Bytes) (start size : ℕ) : eipRead (input.drop 96) start size = eipRead input (96 + start) size := by
  rw [eipRead, eipRead, List.drop_drop]

theorem eipRead_of_le {input : Bytes} {start : ℕ} (h : input.length ≤ start) (size : ℕ) : eipRead input start size = 0 := by
  rw [eipRead, List.drop_eq_nil_of_le h, List.nil_append, List.take_replicate, value_replicate_zero]

theorem value_getData {data : Bytes} {start size : ℕ} (hl : data.length < 2 ^ 63) (hs : start < 2 ^ 63)
    (hsz : size ≤ 32) : value <$> getData data start.toUInt64 size.toUInt64 = some (eipRead data start size) := by
  have hst : start.toUInt64.toNat = start := by simp; omega
  have hsz' : size.toUInt64.toNat = size := by simp; omega
  rw [getData_eq (by omega) (by omega) (by omega), hst, hsz']
  rfl

theorem expHead_bind {β : Type} {input : Bytes} (hl : input.length < 2 ^ 63) (baseLen expLen : ℕ)
    (k : ℕ → Option β) :
    (if (input.drop 96).length ≤ baseLen then (pure 0 : Option ℕ).bind k
      else if expLen > 32 then (value <$> getData (input.drop 96) baseLen.toUInt64 32).bind k
      else (value <$> getData (input.drop 96) baseLen.toUInt64 expLen.toUInt64).bind k) =
      k (eipRead input (96 + baseLen) (min expLen 32)) := by
  have hl' : (input.drop 96).length < 2 ^ 63 := by simp; omega
  split_ifs with hb he
  · rw [← eipRead_drop, eipRead_of_le hb]
    rfl
  · -- a long exponent: its first 32 bytes
    have h32 : value <$> getData (input.drop 96) baseLen.toUInt64 32 = some (eipRead (input.drop 96) baseLen 32) :=
      value_getData hl' (by omega) le_rfl
    rw [h32, ← eipRead_drop, Nat.min_eq_right he.le]
    rfl
  · -- a short exponent: all of it
    rw [value_getData hl' (by omega) (by omega), ← eipRead_drop, Nat.min_eq_left (by omega)]
    rfl

theorem capGas (gas : ℕ) :
    (if gas.size > 64 then (2 ^ 64 - 1 : ℕ).toUInt64 else gas.toUInt64) = (min (2 ^ 64 - 1) gas).toUInt64 := by
  split_ifs with h
  · rw [gt_iff_lt, Nat.lt_size] at h
    rw [Nat.min_eq_left (by omega)]
  · rw [gt_iff_lt, Nat.lt_size] at h
    rw [Nat.min_eq_right (by omega)]

theorem header_eq {input : Bytes} (hl : input.length < 2 ^ 63) :
    getData input 0 32 = some ((input.drop 0 ++ List.replicate 32 0).take 32) ∧
      getData input 32 32 = some ((input.drop 32 ++ List.replicate 32 0).take 32) ∧
      getData input 64 32 = some ((input.drop 64 ++ List.replicate 32 0).take 32) ∧
      (if input.length > 96 then input.drop 96 else []) = input.drop 96 := by
  refine ⟨getData_eq (by omega) (by decide) (by decide), getData_eq (by omega) (by decide) (by decide),
    getData_eq (by omega) (by decide) (by decide), ?_⟩
  split_ifs with h
  · rfl
  · rw [List.drop_eq_nil_of_le (by omega)]

theorem RequiredGas_eq (input : Bytes) (hl : input.length < 2 ^ 63) :
    RequiredGas input = some (eipGas input).toUInt64 := by
  obtain ⟨h0, h1, h2, hdrop⟩ := header_eq hl
  simp only [RequiredGas, h0, h1, h2, Option.bind_eq_bind, Option.bind_some, hdrop, expHead_bind hl, capGas]
  rfl

/-! ## `Run` when the exponent's end wraps -/

theorem getData_zero_isSome (data : Bytes) (size : UInt64) : (getData data 0 size).isSome := by
  simp only [getData, gt_iff_lt, UInt64.not_lt_zero, if_false, Option.isSome_some]

theorem Run_eq_none_of_wrap {input : Bytes} (hl : input.length < 2 ^ 63)
    (hlen : ¬ ((eipRead input 0 32).toUInt64 = 0 ∧ (eipRead input 64 32).toUInt64 = 0))
    (hw : 2 ^ 64 ≤ min (eipRead input 0 32 % 2 ^ 64) (input.length - 96) + eipRead input 32 32 % 2 ^ 64) :
    Run input = none := by
  obtain ⟨h0, h1, h2, hdrop⟩ := header_eq hl
  simp only [Run, h0, h1, h2, Option.bind_eq_bind, Option.bind_some, hdrop, ← eipRead.eq_1, if_neg hlen]
  obtain ⟨base, hbase⟩ :=
    Option.isSome_iff_exists.mp (getData_zero_isSome (input.drop 96) (eipRead input 0 32).toUInt64)
  have hexp : getData (input.drop 96) (eipRead input 0 32).toUInt64 (eipRead input 32 32).toUInt64 = none := by
    apply getData_eq_none (by simp; omega)
    simpa only [UInt64.toNat_ofNat', List.length_drop] using hw
  rw [hbase, Option.bind_some, hexp]
  rfl

/-- Base length 1, exponent length `2 ^ 64 - 1`, modulus length 1, and the base `2`. -/
def wrapInput : Bytes :=
  List.replicate 31 0 ++ [1] ++ List.replicate 24 0 ++ List.replicate 8 255 ++ List.replicate 31 0 ++ [1] ++ [2]

theorem Run_panics_below_max_gas :
    RequiredGas wrapInput = some 7378697629483820633 ∧ 7378697629483820633 < 2 ^ 64 - 1 ∧
      eipOutput wrapInput = [0] ∧ Run wrapInput = none := by
  have h0 : eipRead wrapInput 0 32 = 1 := by decide
  have h1 : eipRead wrapInput 32 32 = 2 ^ 64 - 1 := by decide
  have h2 : eipRead wrapInput 64 32 = 1 := by decide
  have hmod : eipRead wrapInput (96 + 1 + (2 ^ 64 - 1)) 1 = 0 := eipRead_of_le (by decide) 1
  refine ⟨by decide, by decide, ?_, ?_⟩
  · simp only [eipOutput, h0, h1, h2, hmod, if_true]
    rfl
  · -- the exponent ends at `1 + (2 ^ 64 - 1)`, which wraps to `0`
    exact Run_eq_none_of_wrap (by decide) (by rw [h0, h2]; decide) (by rw [h0, h1]; decide)

end EthereumAI.Evm
