import Mathlib
import EthereumAI.Common.Types

/-! # Memory expansion gas (`core/vm/gas_table.go`, `core/vm/memory.go`)

`memoryGasCost` charges for the words memory grows by: the fee of the new size,
`3 w + w² / 512` for `w` words, less the fee already charged, which the memory
keeps in `lastGasCost`. The interpreter charges the fee and then resizes memory to
the word-aligned size it asked for (`Interpreter.Run`).

Everything is computed in `uint64`. Below `2^32` words the square does not wrap and
the fee is the difference of the fees over the natural numbers, so that the fees
of a run add up to the fee of its last size. The size test admits `0xffffffffe0`
bytes, `2^35 - 1` words, whose square wraps: the fee charged for it is the wrong
number.
-/

namespace EthereumAI.Evm

/-- `params.MemoryGas`. -/
def MemoryGas : UInt64 := 3

/-- `params.QuadCoeffDiv`. -/
def QuadCoeffDiv : UInt64 := 512

/-- `Memory`: its bytes, and the fee charged for memory so far. -/
structure Memory where
  store : List UInt8
  lastGasCost : UInt64

/-- `Len`. -/
def Memory.Len (m : Memory) : ℕ := m.store.length

/-- `Resize`: zero bytes are added up to `size`; memory never shrinks. -/
def Memory.Resize (m : Memory) (size : UInt64) : Memory :=
  if m.Len < size.toNat then { m with store := m.store ++ List.replicate (size.toNat - m.Len) 0 } else m

/-- `toWordSize`: the size in 32-byte words, rounded up. -/
def toWordSize (size : UInt64) : UInt64 :=
  if size > (0xFFFFFFFFFFFFFFFF : UInt64) - 31 then (0xFFFFFFFFFFFFFFFF : UInt64) / 32 + 1
  else (size + 31) / 32

/-- `errGasUintOverflow`. -/
inductive GasError where
  | errGasUintOverflow
  deriving DecidableEq, Repr

/-- `memoryGasCost`: the fee for growing memory to `newMemSize` bytes, and the memory
with the new fee recorded. -/
def memoryGasCost (mem : Memory) (newMemSize : UInt64) : Except GasError (UInt64 × Memory) :=
  if newMemSize = 0 then .ok (0, mem)
  else if newMemSize > 0xffffffffe0 then .error .errGasUintOverflow
  else
    let newMemSizeWords := toWordSize newMemSize
    let newMemSize := newMemSizeWords * 32
    if newMemSize > UInt64.ofNat mem.Len then
      let square := newMemSizeWords * newMemSizeWords
      let linCoef := newMemSizeWords * MemoryGas
      let quadCoef := square / QuadCoeffDiv
      let newTotalFee := linCoef + quadCoef
      let fee := newTotalFee - mem.lastGasCost
      .ok (fee, { mem with lastGasCost := newTotalFee })
    else .ok (0, mem)

/-- The fee of `w` words of memory, over the natural numbers. -/
def memoryFee (w : ℕ) : ℕ := 3 * w + w ^ 2 / 512

/-- The memory step of `Interpreter.Run`: the size is rounded up to whole words,
charged for, and memory resized to it when it is not zero. Running out of gas is
not modelled here: the fee is what `UseGas` is asked for. -/
def expand (mem : Memory) (memSize : UInt64) : Except GasError (UInt64 × Memory) :=
  if 2 ^ 64 ≤ (toWordSize memSize).toNat * 32 then .error .errGasUintOverflow
  else
    let memorySize := toWordSize memSize * 32
    match memoryGasCost mem memorySize with
    | .error e => .error e
    | .ok (cost, mem) => .ok (cost, if memorySize > 0 then mem.Resize memorySize else mem)

/-- The fees of a run of memory steps, and the memory after it. -/
def expandAll (mem : Memory) : List UInt64 → Except GasError (List UInt64 × Memory)
  | [] => .ok ([], mem)
  | s :: ss =>
    match expand mem s with
    | .error e => .error e
    | .ok (fee, mem) =>
      match expandAll mem ss with
      | .error e => .error e
      | .ok (fees, mem) => .ok (fee :: fees, mem)

/-! ## Exact fees below `2^32` words -/

theorem memoryFee_mono {w w' : ℕ} (h : w ≤ w') : memoryFee w ≤ memoryFee w' := by
  unfold memoryFee
  have : w ^ 2 / 512 ≤ w' ^ 2 / 512 := Nat.div_le_div_right (Nat.pow_le_pow_left h 2)
  omega

theorem sq_lt_of_lt {w : ℕ} (h : w < 2 ^ 32) : w ^ 2 < 2 ^ 64 :=
  calc w ^ 2 < (2 ^ 32) ^ 2 := Nat.pow_lt_pow_left h (by omega)
    _ = 2 ^ 64 := by rw [← pow_mul]

theorem memoryFee_lt {w : ℕ} (h : w < 2 ^ 32) : memoryFee w < 2 ^ 64 := by
  unfold memoryFee
  have hsq := sq_lt_of_lt h
  generalize w ^ 2 = x at hsq ⊢
  omega

theorem toWordSize_toNat {size : UInt64} (h : size.toNat ≤ 0xffffffffe0) :
    (toWordSize size).toNat = (size.toNat + 31) / 32 := by
  unfold toWordSize
  rw [if_neg (by rw [gt_iff_lt, UInt64.lt_iff_toNat_lt]; simp only [UInt64.reduceSub, UInt64.reduceToNat]; omega)]
  rw [UInt64.toNat_div, UInt64.toNat_add, Nat.mod_eq_of_lt (by simp only [UInt64.reduceToNat]; omega)]
  rfl

/-- Memory has been charged for every word it holds, the fee recorded being the fee of
its size. -/
def Charged (mem : Memory) : Prop :=
  mem.Len % 32 = 0 ∧ mem.Len / 32 < 2 ^ 32 ∧ mem.lastGasCost.toNat = memoryFee (mem.Len / 32)

theorem Resize_Len (mem : Memory) (size : UInt64) : (mem.Resize size).Len = max mem.Len size.toNat := by
  unfold Memory.Resize Memory.Len
  split
  · simp only [List.length_append, List.length_replicate]
    omega
  · omega

@[simp] theorem Resize_lastGasCost (mem : Memory) (size : UInt64) :
    (mem.Resize size).lastGasCost = mem.lastGasCost := by
  unfold Memory.Resize
  split <;> rfl

theorem charged_resize {mem : Memory} {size : UInt64} {W : ℕ} (hsize : size.toNat = 32 * W)
    (hW : W < 2 ^ 32) (halign : mem.Len % 32 = 0) (hwords : mem.Len / 32 < 2 ^ 32)
    (hfee : mem.lastGasCost.toNat = memoryFee (max (mem.Len / 32) W)) : Charged (mem.Resize size) := by
  refine ⟨?_, ?_, ?_⟩
  · rw [Resize_Len, hsize]
    omega
  · rw [Resize_Len, hsize]
    omega
  · rw [Resize_lastGasCost, hfee, Resize_Len, hsize]
    congr 1
    omega

/-- Below `2^32` words, the fee is the fee of the new size less the fee of the old,
and resizing to the words asked for keeps memory charged. -/
theorem memoryGasCost_exact {mem : Memory} {size : UInt64} (hc : Charged mem) (hpos : size ≠ 0)
    (hsize : (size.toNat + 31) / 32 < 2 ^ 32) :
    ∃ fee mem', memoryGasCost mem size = .ok (fee, mem') ∧
      fee.toNat = memoryFee ((size.toNat + 31) / 32) - memoryFee (mem.Len / 32) ∧
      Charged (mem'.Resize (toWordSize size * 32)) := by
  obtain ⟨halign, hwords, hfee⟩ := hc
  have hw := @toWordSize_toNat size (by omega)
  set W := (size.toNat + 31) / 32 with hW
  have hW32 : (toWordSize size * 32).toNat = 32 * W := by
    rw [UInt64.toNat_mul, hw]
    simp only [UInt64.reduceToNat]
    rw [Nat.mod_eq_of_lt (by omega)]
    omega
  have hlenNat : (UInt64.ofNat mem.Len).toNat = mem.Len := UInt64.toNat_ofNat_of_lt' (by unfold UInt64.size; omega)
  unfold memoryGasCost
  rw [if_neg hpos, if_neg (by rw [gt_iff_lt, UInt64.lt_iff_toNat_lt]; simp only [UInt64.reduceToNat]; omega)]
  dsimp only
  by_cases hgrow : mem.Len / 32 < W
  · -- the new words are charged at the fee of the new size, less what was charged
    rw [if_pos (by rw [gt_iff_lt, UInt64.lt_iff_toNat_lt, hW32, hlenNat]; omega)]
    have hmono := memoryFee_mono (Nat.le_of_lt hgrow)
    have hlt := memoryFee_lt (w := W) hsize
    have hsq : (toWordSize size * toWordSize size).toNat = W ^ 2 := by
      rw [UInt64.toNat_mul, hw, ← pow_two, Nat.mod_eq_of_lt (sq_lt_of_lt hsize)]
    have htotal : (toWordSize size * MemoryGas + toWordSize size * toWordSize size / QuadCoeffDiv).toNat =
        memoryFee W := by
      rw [UInt64.toNat_add, UInt64.toNat_mul, UInt64.toNat_div, hsq, hw]
      simp only [MemoryGas, QuadCoeffDiv, UInt64.reduceToNat]
      unfold memoryFee at hlt ⊢
      generalize W ^ 2 = x at hlt ⊢
      rw [Nat.mod_eq_of_lt (by omega), Nat.mod_eq_of_lt (by omega)]
      omega
    refine ⟨_, _, rfl, ?_, charged_resize hW32 hsize halign hwords ?_⟩
    · rw [UInt64.toNat_sub_of_le _ _ (by rw [UInt64.le_iff_toNat_le, htotal, hfee]; exact hmono), htotal, hfee]
    · show _ = memoryFee (max (mem.Len / 32) W)
      rw [htotal, max_eq_right (Nat.le_of_lt hgrow)]
  · -- no new words: no fee, and the memory stays as it is
    rw [if_neg (by rw [gt_iff_lt, UInt64.lt_iff_toNat_lt, hW32, hlenNat]; omega)]
    have hmono := memoryFee_mono (show W ≤ mem.Len / 32 by omega)
    refine ⟨0, mem, rfl, by simp only [UInt64.reduceToNat]; omega, charged_resize hW32 hsize halign hwords ?_⟩
    rw [hfee, max_eq_left (by omega)]

theorem memoryGasCost_store {mem mem' : Memory} {size fee : UInt64}
    (h : memoryGasCost mem size = .ok (fee, mem')) : mem'.store = mem.store := by
  unfold memoryGasCost at h
  split_ifs at h
  · rw [← (Prod.mk.inj (Except.ok.inj h)).2]
  · dsimp only at h
    split_ifs at h <;> rw [← (Prod.mk.inj (Except.ok.inj h)).2]

theorem toWordSize_aligned {W : ℕ} (hW : W < 2 ^ 32) (size : UInt64) (hsize : size.toNat = 32 * W) :
    toWordSize size * 32 = size := by
  apply UInt64.toNat_inj.mp
  rw [UInt64.toNat_mul, toWordSize_toNat (by omega), hsize]
  simp only [UInt64.reduceToNat]
  rw [Nat.mod_eq_of_lt (by omega)]
  omega

/-- One memory step of the interpreter below `2^32` words charges the fee of the new
size less the fee of the old, and memory grows to the larger of the two. -/
theorem expand_exact {mem : Memory} {memSize : UInt64} (hc : Charged mem)
    (hsize : (memSize.toNat + 31) / 32 < 2 ^ 32) :
    ∃ fee mem', expand mem memSize = .ok (fee, mem') ∧
      fee.toNat = memoryFee ((memSize.toNat + 31) / 32) - memoryFee (mem.Len / 32) ∧
      Charged mem' ∧ mem'.Len / 32 = max (mem.Len / 32) ((memSize.toNat + 31) / 32) := by
  set W := (memSize.toNat + 31) / 32 with hW
  have hw := @toWordSize_toNat memSize (by omega)
  have hms : (toWordSize memSize * 32).toNat = 32 * W := by
    rw [UInt64.toNat_mul, hw]
    simp only [UInt64.reduceToNat]
    rw [Nat.mod_eq_of_lt (by omega)]
    omega
  unfold expand
  rw [if_neg (by rw [hw]; omega)]
  dsimp only
  by_cases hzero : W = 0
  · -- a zero size is free and memory is not resized
    have h0 : toWordSize memSize * 32 = 0 := UInt64.toNat_inj.mp (by rw [hms, hzero]; rfl)
    rw [h0, memoryGasCost, if_pos rfl]
    refine ⟨0, mem, rfl, ?_, hc, ?_⟩
    · rw [hzero, UInt64.toNat_zero]
      simp [memoryFee]
    · omega
  · obtain ⟨fee, mem₁, hcost, hfee, hch⟩ :=
      @memoryGasCost_exact _ (toWordSize memSize * 32) hc
        (fun h => hzero (by have := congrArg UInt64.toNat h; rw [hms, UInt64.toNat_zero] at this; omega))
        (by rw [hms]; omega)
    rw [hms, show (32 * W + 31) / 32 = W by omega] at hfee
    rw [toWordSize_aligned hsize _ hms] at hch
    have hpos : toWordSize memSize * 32 > 0 := by
      rw [gt_iff_lt, UInt64.lt_iff_toNat_lt, hms]
      simp only [UInt64.toNat_zero]
      omega
    rw [hcost]
    refine ⟨fee, _, rfl, hfee, by rwa [if_pos hpos], ?_⟩
    rw [if_pos hpos, Resize_Len, hms]
    -- the charge keeps the bytes of memory as they were
    rw [show mem₁.Len = mem.Len from congrArg List.length (memoryGasCost_store hcost)]
    omega

/-- Below `2^32` words, the fees of a run of memory steps add up to the fee of the final
size less the fee of the first. -/
theorem expandAll_fees : ∀ (sizes : List UInt64) {mem : Memory}, Charged mem →
    (∀ s ∈ sizes, (s.toNat + 31) / 32 < 2 ^ 32) →
    ∃ fees mem', expandAll mem sizes = .ok (fees, mem') ∧ Charged mem' ∧ mem.Len / 32 ≤ mem'.Len / 32 ∧
      (fees.map UInt64.toNat).sum = memoryFee (mem'.Len / 32) - memoryFee (mem.Len / 32)
  | [], mem, hc, _ => ⟨[], mem, rfl, hc, le_rfl, by simp⟩
  | s :: ss, mem, hc, hs => by
    obtain ⟨fee, mem₁, h₁, hfee, hc₁, hlen₁⟩ := expand_exact hc (hs s (List.mem_cons_self ..))
    obtain ⟨fees, mem₂, h₂, hc₂, hlen₂, hsum⟩ :=
      expandAll_fees ss hc₁ (fun s' h' => hs s' (List.mem_cons_of_mem _ h'))
    refine ⟨fee :: fees, mem₂, by rw [expandAll, h₁]; dsimp only; rw [h₂], hc₂, by omega, ?_⟩
    have hmono₁ := memoryFee_mono (show mem.Len / 32 ≤ mem₁.Len / 32 by omega)
    have hmono₂ := memoryFee_mono hlen₂
    have hfee' : fee.toNat = memoryFee (mem₁.Len / 32) - memoryFee (mem.Len / 32) := by
      rw [hfee, hlen₁]
      by_cases h : mem.Len / 32 ≤ (s.toNat + 31) / 32
      · rw [max_eq_right h]
      · rw [max_eq_left (by omega), Nat.sub_self]
        have := memoryFee_mono (show (s.toNat + 31) / 32 ≤ mem.Len / 32 by omega)
        omega
    rw [List.map_cons, List.sum_cons, hsum, hfee']
    omega

/-! ## Where the square wraps -/

/-- At the largest size the test admits, `0xffffffffe0` bytes or `2^35 - 1` words, the
square wraps: a fresh memory is charged `0x800017f7fffffd` gas, where the fee of
those words is `0x20000017f7fffffd`. -/
theorem memoryGasCost_wraps :
    memoryGasCost ⟨[], 0⟩ 0xffffffffe0 = .ok (0x800017f7fffffd, ⟨[], 0x800017f7fffffd⟩) ∧
    (toWordSize 0xffffffffe0).toNat = 2 ^ 35 - 1 ∧
    memoryFee (2 ^ 35 - 1) - memoryFee 0 = 0x20000017f7fffffd := by
  refine ⟨rfl, by decide, by decide⟩

end EthereumAI.Evm
