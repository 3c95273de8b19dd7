import Mathlib
import EthereumAI.Common.Types

/-! # Difficulty adjustment (`consensus/eaiash/consensus.go`)

`CalcDifficulty` picks the rules of the block after the parent, Byzantium, Homestead or
Frontier, by the fork blocks of the chain configuration. Each rule moves the parent's difficulty
by a multiple of `parent.Difficulty / 2048` that falls as the block time grows: Frontier by one
step up or down around `DurationLimit`, Homestead by `1 - dt / 10` steps and Byzantium by
`1 - dt / 9` or `2 - dt / 9` steps with uncles, both at least `-99`. The result is held at
`MinimumDifficulty`, and the ice age adds `2 ^ (periodCount - 2)` once `periodCount` passes one;
Byzantium counts its periods from a block number three million lower.

The `big.Int` fields of the header are integers and `time` a natural number; `big.Int.Div` is
Euclidean division, which on a positive divisor is Lean's `/` on `ℤ`.
-/

namespace EthereumAI.Eaiash

/-- `params.DifficultyBoundDivisor`. -/
def DifficultyBoundDivisor : ℤ := 2048

/-- `params.MinimumDifficulty`. -/
def MinimumDifficulty : ℤ := 131072

/-- `params.DurationLimit`. -/
def DurationLimit : ℤ := 13

/-- `expDiffPeriod`. -/
def expDiffPeriod : ℤ := 100000

/-- `types.EmptyUncleHash`, the hash of the RLP encoding of no uncles. -/
def EmptyUncleHash : Hash := 0x1dcc4de8dec75d7aab85b567b6ccd41ad312451b948a7413f0a142fd40d49347

/-- The fields of `types.Header` the difficulty reads. -/
structure Header where
  Number : ℤ
  Time : ℤ
  Difficulty : ℤ
  UncleHash : Hash

/-- The fork blocks of `params.ChainConfig` that choose the rules; `nil` is `none`. -/
structure ChainConfig where
  HomesteadBlock : Option ℤ
  ByzantiumBlock : Option ℤ

/-- `isForked`. -/
def isForked (s : Option ℤ) (head : ℤ) : Bool :=
  match s with
  | none => false
  | some s => decide (s ≤ head)

/-- `ChainConfig.IsHomestead`. -/
def ChainConfig.IsHomestead (c : ChainConfig) (num : ℤ) : Bool := isForked c.HomesteadBlock num

/-- `ChainConfig.IsByzantium`. -/
def ChainConfig.IsByzantium (c : ChainConfig) (num : ℤ) : Bool := isForked c.ByzantiumBlock num

/-- `calcDifficultyByzantium`. -/
def calcDifficultyByzantium (time : ℕ) (parent : Header) : ℤ :=
  -- (2 if len(parent_uncles) else 1) - (block_timestamp - parent_timestamp) // 9
  let x := ((time : ℤ) - parent.Time) / 9
  let x := if parent.UncleHash = EmptyUncleHash then 1 - x else 2 - x
  let x := if x < -99 then -99 else x
  let y := parent.Difficulty / DifficultyBoundDivisor
  let x := parent.Difficulty + y * x
  let x := if x < MinimumDifficulty then MinimumDifficulty else x
  -- the ice age counts from three million blocks later
  let fakeBlockNumber := if parent.Number ≥ 2999999 then parent.Number - 2999999 else 0
  let periodCount := fakeBlockNumber / expDiffPeriod
  if periodCount > 1 then x + 2 ^ (periodCount - 2).toNat else x

/-- `calcDifficultyHomestead`. -/
def calcDifficultyHomestead (time : ℕ) (parent : Header) : ℤ :=
  -- 1 - (block_timestamp - parent_timestamp) // 10
  let x := 1 - ((time : ℤ) - parent.Time) / 10
  let x := if x < -99 then -99 else x
  let y := parent.Difficulty / DifficultyBoundDivisor
  let x := parent.Difficulty + y * x
  let x := if x < MinimumDifficulty then MinimumDifficulty else x
  let periodCount := (parent.Number + 1) / expDiffPeriod
  if periodCount > 1 then x + 2 ^ (periodCount - 2).toNat else x

/-- `calcDifficultyFrontier`. -/
def calcDifficultyFrontier (time : ℕ) (parent : Header) : ℤ :=
  let adjust := parent.Difficulty / DifficultyBoundDivisor
  let diff := if (time : ℤ) - parent.Time < DurationLimit then parent.Difficulty + adjust
    else parent.Difficulty - adjust
  let diff := if diff < MinimumDifficulty then MinimumDifficulty else diff
  let periodCount := (parent.Number + 1) / expDiffPeriod
  if periodCount > 1 then max (diff + 2 ^ (periodCount - 2).toNat) MinimumDifficulty else diff

/-- `CalcDifficulty`: the rules of the block after the parent. -/
def CalcDifficulty (config : ChainConfig) (time : ℕ) (parent : Header) : ℤ :=
  let next := parent.Number + 1
  if config.IsByzantium next then calcDifficultyByzantium time parent
  else if config.IsHomestead next then calcDifficultyHomestead time parent
  else calcDifficultyFrontier time parent

/-! ## The adjustment and the ice age -/

/-- The ice age of a period count: `2 ^ (periodCount - 2)` once it passes one. -/
def bomb (periodCount : ℤ) : ℤ := if periodCount > 1 then 2 ^ (periodCount - 2).toNat else 0

/-- The period count of the ice age under each rule. -/
def periodCount (config : ChainConfig) (parent : Header) : ℤ :=
  if config.IsByzantium (parent.Number + 1) then
    (if parent.Number ≥ 2999999 then parent.Number - 2999999 else 0) / expDiffPeriod
  else (parent.Number + 1) / expDiffPeriod

/-- The parent's difficulty moved by `a` steps of `parent.Difficulty / 2048`, held at the
minimum. -/
def adjusted (pd a : ℤ) : ℤ := max (pd + pd / DifficultyBoundDivisor * a) MinimumDifficulty

theorem bomb_nonneg (p : ℤ) : 0 ≤ bomb p := by
  unfold bomb
  split_ifs
  · exact pow_nonneg (by norm_num) _
  · exact le_refl 0

theorem add_bomb (x p : ℤ) : (if p > 1 then x + 2 ^ (p - 2).toNat else x) = x + bomb p := by
  unfold bomb
  split_ifs <;> simp

theorem max_neg99 (x : ℤ) : (if x < -99 then -99 else x) = max x (-99) := by
  split_ifs with h <;> omega

theorem max_min (x : ℤ) : (if x < MinimumDifficulty then MinimumDifficulty else x) = max x MinimumDifficulty := by
  split_ifs with h <;> omega

section Adjusted

variable {pd : ℤ}

theorem step_nonneg (hpd : MinimumDifficulty ≤ pd) : 0 ≤ pd / DifficultyBoundDivisor :=
  Int.ediv_nonneg (by unfold MinimumDifficulty at hpd; omega) (by decide)

theorem adjusted_mono (hpd : MinimumDifficulty ≤ pd) {a b : ℤ} (hab : a ≤ b) : adjusted pd a ≤ adjusted pd b := by
  unfold adjusted
  have := mul_le_mul_of_nonneg_left hab (step_nonneg hpd)
  exact max_le_max (by linarith) (le_refl _)

theorem adjusted_bounds (hpd : MinimumDifficulty ≤ pd) {a : ℤ} (ha : -99 ≤ a) (ha' : a ≤ 2) :
    pd - 99 * (pd / DifficultyBoundDivisor) ≤ adjusted pd a ∧ adjusted pd a ≤ pd + 2 * (pd / DifficultyBoundDivisor) := by
  have hy := step_nonneg hpd
  have hlo := mul_le_mul_of_nonneg_left ha hy
  have hhi := mul_le_mul_of_nonneg_left ha' hy
  unfold adjusted
  constructor
  · exact le_max_of_le_left (by linarith)
  · exact max_le (by linarith) (by linarith)

theorem min_le_adjusted (pd a : ℤ) : MinimumDifficulty ≤ adjusted pd a := le_max_right _ _

end Adjusted

/-! ## Each rule as an adjustment plus the ice age -/

theorem calcDifficultyByzantium_eq (time : ℕ) (parent : Header) :
    calcDifficultyByzantium time parent =
      adjusted parent.Difficulty
          (max ((if parent.UncleHash = EmptyUncleHash then 1 else 2) - ((time : ℤ) - parent.Time) / 9) (-99)) +
        bomb ((if parent.Number ≥ 2999999 then parent.Number - 2999999 else 0) / expDiffPeriod) := by
  unfold calcDifficultyByzantium
  simp only [add_bomb, max_neg99, max_min, adjusted]
  split_ifs <;> rfl

theorem calcDifficultyHomestead_eq (time : ℕ) (parent : Header) :
    calcDifficultyHomestead time parent =
      adjusted parent.Difficulty (max (1 - ((time : ℤ) - parent.Time) / 10) (-99)) +
        bomb ((parent.Number + 1) / expDiffPeriod) := by
  unfold calcDifficultyHomestead
  simp only [add_bomb, max_neg99, max_min, adjusted]

theorem calcDifficultyFrontier_eq (time : ℕ) (parent : Header) :
    calcDifficultyFrontier time parent =
      adjusted parent.Difficulty (if (time : ℤ) - parent.Time < DurationLimit then 1 else -1) +
        bomb ((parent.Number + 1) / expDiffPeriod) := by
  unfold calcDifficultyFrontier
  have hdiff : (if (if (time : ℤ) - parent.Time < DurationLimit then parent.Difficulty + parent.Difficulty / DifficultyBoundDivisor
      else parent.Difficulty - parent.Difficulty / DifficultyBoundDivisor) < MinimumDifficulty then MinimumDifficulty
      else if (time : ℤ) - parent.Time < DurationLimit then parent.Difficulty + parent.Difficulty / DifficultyBoundDivisor
      else parent.Difficulty - parent.Difficulty / DifficultyBoundDivisor) =
      adjusted parent.Difficulty (if (time : ℤ) - parent.Time < DurationLimit then 1 else -1) := by
    rw [max_min, adjusted]
    split_ifs
    · rw [mul_one]
    · rw [mul_neg_one, ← sub_eq_add_neg]
  dsimp only
  rw [hdiff]
  by_cases hp : (parent.Number + 1) / expDiffPeriod > 1
  · rw [if_pos hp, bomb, if_pos hp, max_eq_left]
    have := min_le_adjusted parent.Difficulty (if (time : ℤ) - parent.Time < DurationLimit then 1 else -1)
    have := pow_nonneg (show (0 : ℤ) ≤ 2 by norm_num) ((parent.Number + 1) / expDiffPeriod - 2).toNat
    linarith
  · rw [if_neg hp, bomb, if_neg hp, add_zero]

/-! ## Bounds -/

/-- The difficulty at two times, the second no earlier: above the minimum, no higher at the later
time, and within 99 steps below and two above the parent's difficulty once the ice age is taken
off. -/
structure Within (pd ice d₁ d₂ : ℤ) : Prop where
  min_le : MinimumDifficulty ≤ d₁
  antitone : d₂ ≤ d₁
  lower : pd - 99 * (pd / DifficultyBoundDivisor) ≤ d₁ - ice
  upper : d₁ - ice ≤ pd + 2 * (pd / DifficultyBoundDivisor)

theorem adjusted_within {pd a₁ a₂ ice : ℤ} (hpd : MinimumDifficulty ≤ pd) (hice : 0 ≤ ice)
    (ha : -99 ≤ a₁) (ha' : a₁ ≤ 2) (h₂₁ : a₂ ≤ a₁) :
    Within pd ice (adjusted pd a₁ + ice) (adjusted pd a₂ + ice) := by
  obtain ⟨hlo, hhi⟩ := adjusted_bounds hpd ha ha'
  constructor
  · linarith [min_le_adjusted pd a₁]
  · linarith [adjusted_mono hpd h₂₁]
  · rwa [add_sub_cancel_right]
  · rwa [add_sub_cancel_right]

section Rules

variable {parent : Header} {t₁ t₂ : ℕ}

theorem elapsed_mono {k : ℤ} (hk : 0 < k) (ht₁ : parent.Time ≤ t₁) (h : t₁ ≤ t₂) :
    0 ≤ ((t₁ : ℤ) - parent.Time) / k ∧ ((t₁ : ℤ) - parent.Time) / k ≤ ((t₂ : ℤ) - parent.Time) / k :=
  ⟨Int.ediv_nonneg (by omega) hk.le, Int.ediv_le_ediv hk (by omega)⟩

theorem sloped_within {c k ice : ℤ} (hpd : MinimumDifficulty ≤ parent.Difficulty) (hice : 0 ≤ ice) (hk : 0 < k)
    (hc : c ≤ 2) (ht₁ : parent.Time ≤ t₁) (h : t₁ ≤ t₂) :
    Within parent.Difficulty ice (adjusted parent.Difficulty (max (c - ((t₁ : ℤ) - parent.Time) / k) (-99)) + ice)
      (adjusted parent.Difficulty (max (c - ((t₂ : ℤ) - parent.Time) / k) (-99)) + ice) := by
  obtain ⟨h0, hle⟩ := elapsed_mono hk ht₁ h
  exact adjusted_within hpd hice (le_max_right _ _) (max_le (by omega) (by decide))
    (max_le_max (by omega) (le_refl _))

theorem calcDifficultyByzantium_within (hpd : MinimumDifficulty ≤ parent.Difficulty) (ht₁ : parent.Time ≤ t₁)
    (h : t₁ ≤ t₂) :
    Within parent.Difficulty (bomb ((if parent.Number ≥ 2999999 then parent.Number - 2999999 else 0) / expDiffPeriod))
      (calcDifficultyByzantium t₁ parent) (calcDifficultyByzantium t₂ parent) := by
  rw [calcDifficultyByzantium_eq, calcDifficultyByzantium_eq]
  have hc : (if parent.UncleHash = EmptyUncleHash then (1 : ℤ) else 2) ≤ 2 := by split_ifs <;> decide
  exact sloped_within hpd (bomb_nonneg _) (by decide) hc ht₁ h

theorem calcDifficultyHomestead_within (hpd : MinimumDifficulty ≤ parent.Difficulty) (ht₁ : parent.Time ≤ t₁)
    (h : t₁ ≤ t₂) :
    Within parent.Difficulty (bomb ((parent.Number + 1) / expDiffPeriod))
      (calcDifficultyHomestead t₁ parent) (calcDifficultyHomestead t₂ parent) := by
  rw [calcDifficultyHomestead_eq, calcDifficultyHomestead_eq]
  exact sloped_within hpd (bomb_nonneg _) (by decide) (by decide) ht₁ h

theorem calcDifficultyFrontier_within (hpd : MinimumDifficulty ≤ parent.Difficulty) (h : t₁ ≤ t₂) :
    Within parent.Difficulty (bomb ((parent.Number + 1) / expDiffPeriod))
      (calcDifficultyFrontier t₁ parent) (calcDifficultyFrontier t₂ parent) := by
  rw [calcDifficultyFrontier_eq, calcDifficultyFrontier_eq]
  have hstep : ∀ t : ℕ, -1 ≤ (if (t : ℤ) - parent.Time < DurationLimit then (1 : ℤ) else -1) ∧
      (if (t : ℤ) - parent.Time < DurationLimit then (1 : ℤ) else -1) ≤ 1 := by
    intro t
    split_ifs <;> decide
  have hmono : (if (t₂ : ℤ) - parent.Time < DurationLimit then (1 : ℤ) else -1) ≤
      (if (t₁ : ℤ) - parent.Time < DurationLimit then 1 else -1) := by
    split_ifs with h₂ h₁ <;> first | decide | omega
  exact adjusted_within hpd (bomb_nonneg _) (by linarith [(hstep t₁).1]) (by linarith [(hstep t₁).2]) hmono

end Rules

/-- The difficulty adjustment, for every chain configuration and so under each of its rules:
from a parent at the minimum difficulty or above, and at times no earlier than the parent's, it
is at least `MinimumDifficulty`, does not grow with the time, and lies between 99 steps of
`parent.Difficulty / 2048` below the parent's difficulty and two steps above it, once the ice
age of the rule is taken off. -/
theorem difficulty_bounded_monotone (config : ChainConfig) (parent : Header) (t₁ t₂ : ℕ)
    (hpd : MinimumDifficulty ≤ parent.Difficulty) (ht₁ : parent.Time ≤ t₁) (h : t₁ ≤ t₂) :
    MinimumDifficulty ≤ CalcDifficulty config t₁ parent ∧
      CalcDifficulty config t₂ parent ≤ CalcDifficulty config t₁ parent ∧
      parent.Difficulty - 99 * (parent.Difficulty / DifficultyBoundDivisor) ≤
        CalcDifficulty config t₁ parent - bomb (periodCount config parent) ∧
      CalcDifficulty config t₁ parent - bomb (periodCount config parent) ≤
        parent.Difficulty + 2 * (parent.Difficulty / DifficultyBoundDivisor) := by
  have hw : Within parent.Difficulty (bomb (periodCount config parent))
      (CalcDifficulty config t₁ parent) (CalcDifficulty config t₂ parent) := by
    unfold CalcDifficulty periodCount
    dsimp only
    by_cases hb : config.IsByzantium (parent.Number + 1)
    · rw [if_pos hb, if_pos hb, if_pos hb]
      exact calcDifficultyByzantium_within hpd ht₁ h
    rw [if_neg hb, if_neg hb, if_neg hb]
    by_cases hh : config.IsHomestead (parent.Number + 1)
    · rw [if_pos hh, if_pos hh]
      exact calcDifficultyHomestead_within hpd ht₁ h
    · rw [if_neg hh, if_neg hh]
      exact calcDifficultyFrontier_within hpd h
  exact ⟨hw.min_le, hw.antitone, hw.lower, hw.upper⟩

/-- Byzantium from block 4370000, a parent there without uncles, and blocks 5 and 40 seconds
after it. -/
theorem difficulty_bounded_monotone_byzantium :
    let config : ChainConfig := ⟨some 1150000, some 4370000⟩
    let parent : Header := ⟨4370000, 1500000000, 3000000000000000, EmptyUncleHash⟩
    (MinimumDifficulty ≤ parent.Difficulty ∧ parent.Time ≤ ((1500000005 : ℕ) : ℤ) ∧ 1500000005 ≤ 1500000040) ∧
      MinimumDifficulty ≤ CalcDifficulty config 1500000005 parent ∧
      CalcDifficulty config 1500000040 parent ≤ CalcDifficulty config 1500000005 parent ∧
      parent.Difficulty - 99 * (parent.Difficulty / DifficultyBoundDivisor) ≤
        CalcDifficulty config 1500000005 parent - bomb (periodCount config parent) ∧
      CalcDifficulty config 1500000005 parent - bomb (periodCount config parent) ≤
        parent.Difficulty + 2 * (parent.Difficulty / DifficultyBoundDivisor) := by
  intro config parent
  have hpd : MinimumDifficulty ≤ parent.Difficulty := by decide
  have ht : parent.Time ≤ ((1500000005 : ℕ) : ℤ) := by decide
  exact ⟨⟨hpd, ht, by decide⟩, difficulty_bounded_monotone config parent _ _ hpd ht (by decide)⟩

end EthereumAI.Eaiash
