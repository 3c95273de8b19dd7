import Mathlib
import EthereumAI.Common.Types
import EthereumAI.Lib.ByteBits

/-! # JUMPDEST analysis (`core/vm/analysis.go`)

`codeBitmap` walks the code once and sets the bit of every byte of push data:
after a PUSHn it sets the next `n` bits, eight at a time with `set8` and then
one at a time with `set`. `has` accepts a jump destination when it lies in the
code, its byte is JUMPDEST and its bit is clear. Indexing a byte past the end of
the bit vector panics, which is `none` here.

What `has` accepts is compared with the instruction boundaries of the code,
`Boundary`: position 0, and after each instruction that starts inside the code,
the position past its immediate bytes.
-/

namespace EthereumAI.Evm

open Lib

/-- `PUSH1` (`opcodes.go`). -/
def PUSH1 : UInt8 := 0x60

/-- `PUSH32` (`opcodes.go`). -/
def PUSH32 : UInt8 := 0x7f

/-- `JUMPDEST` (`opcodes.go`). -/
def JUMPDEST : UInt8 := 0x5b

/-- `bitvec`: a bit for every byte of code, set where the byte is push data. -/
abbrev bitvec := List UInt8

namespace bitvec

/-- `set`: `bits[pos/8] |= 0x80 >> (pos % 8)`. -/
def set (bits : bitvec) (pos : ℕ) : Option bitvec :=
  ByteBits.orAt bits (pos / 8) (0x80 >>> (pos % 8).toUInt8)

/-- `set8`: the eight bits from `pos` on, over two bytes. -/
def set8 (bits : bitvec) (pos : ℕ) : Option bitvec := do
  let bits ← ByteBits.orAt bits (pos / 8) (0xFF >>> (pos % 8).toUInt8)
  ByteBits.orAt bits (pos / 8 + 1) (~~~(0xFF >>> (pos % 8).toUInt8))

/-- `codeSegment`: whether the bit of `pos` is clear. -/
def codeSegment (bits : bitvec) (pos : ℕ) : Option Bool :=
  if h : pos / 8 < bits.length then some (bits[pos / 8] &&& (0x80 >>> (pos % 8).toUInt8) == 0)
  else none

end bitvec

/-- The loop `for ; numbits >= 8; numbits -= 8 { bits.set8(pc); pc += 8 }`. -/
def setLoop8 (bits : bitvec) (pc numbits : ℕ) : Option (bitvec × ℕ × ℕ) :=
  if 8 ≤ numbits then do
    let bits ← bits.set8 pc
    setLoop8 bits (pc + 8) (numbits - 8)
  else some (bits, pc, numbits)
termination_by numbits

/-- The loop `for ; numbits > 0; numbits-- { bits.set(pc); pc++ }`. -/
def setLoop1 (bits : bitvec) (pc : ℕ) : ℕ → Option (bitvec × ℕ)
  | 0 => some (bits, pc)
  | n + 1 => do
    let bits ← bits.set pc
    setLoop1 bits (pc + 1) n

theorem setLoop8_pc {bits bits' : bitvec} {pc pc' n n' : ℕ} (h : setLoop8 bits pc n = some (bits', pc', n')) :
    pc' + n' = pc + n := by
  induction n using Nat.strong_induction_on generalizing bits pc with
  | _ n ih =>
    rw [setLoop8] at h
    split at h
    · obtain ⟨b, -, hb⟩ := Option.bind_eq_some_iff.mp h
      have := ih (n - 8) (by omega) hb
      omega
    · cases h
      rfl

theorem setLoop1_pc {bits bits' : bitvec} {pc pc' : ℕ} : ∀ {n}, setLoop1 bits pc n = some (bits', pc') →
    pc' = pc + n
  | 0, h => by cases h; rfl
  | n + 1, h => by
    obtain ⟨b, -, hb⟩ := Option.bind_eq_some_iff.mp h
    rw [setLoop1_pc hb]
    omega

/-- The loop of `codeBitmap` from `pc`: after PUSHn, the `n` bytes that follow are data. -/
def codeBitmapLoop (code : Bytes) (bits : bitvec) (pc : ℕ) : Option bitvec :=
  if h : pc < code.length then
    let op := code[pc]
    if PUSH1 ≤ op ∧ op ≤ PUSH32 then
      match h8 : setLoop8 bits (pc + 1) (op - PUSH1 + 1).toNat with
      | none => none
      | some (bits, pc₁, numbits) =>
        match h1 : setLoop1 bits pc₁ numbits with
        | none => none
        | some (bits, pc₂) => codeBitmapLoop code bits pc₂
    else codeBitmapLoop code bits (pc + 1)
  else some bits
termination_by code.length - pc
decreasing_by
  · have := setLoop8_pc h8
    have := setLoop1_pc h1
    omega
  · omega

/-- `codeBitmap`: the bit vector is four bytes longer than the code needs, for the
data of a PUSH32 at the end of the code. -/
def codeBitmap (code : Bytes) : Option bitvec :=
  codeBitmapLoop code (List.replicate (code.length / 8 + 1 + 4) 0) 0

/-- `destinations`: the bitmap of every code analysed, by code hash. -/
abbrev destinations := Hash → Option bitvec

/-- `has`: the destination lies in the code, its byte is JUMPDEST and it is not push
data. The code is analysed on its first use and the bitmap kept by its hash. -/
def destinations.has (d : destinations) (codehash : Hash) (code : Bytes) (dest : ℤ) :
    Option (Bool × destinations) :=
  let udest := dest.natAbs % 2 ^ 64
  if 63 ≤ Nat.size dest.natAbs ∨ code.length ≤ udest then some (false, d)
  else
    let analysed : Option (bitvec × destinations) :=
      match d codehash with
      | some m => some (m, d)
      | none => (codeBitmap code).map fun m => (m, Function.update d codehash (some m))
    analysed.bind fun (m, d) =>
      if code.getD udest 0 = JUMPDEST then (m.codeSegment udest).map (·, d) else some (false, d)

/-! ## Instruction boundaries -/

/-- The immediate bytes of an instruction: `n` after PUSHn. -/
def immediateSize (op : UInt8) : ℕ :=
  if PUSH1 ≤ op ∧ op ≤ PUSH32 then (op - PUSH1 + 1).toNat else 0

/-- Where instructions start when the code is read from position 0, each PUSHn
skipping its `n` immediate bytes, also past the end of the code. -/
inductive Boundary (code : Bytes) : ℕ → Prop
  | zero : Boundary code 0
  | next {pc : ℕ} (h : Boundary code pc) (hlt : pc < code.length) :
      Boundary code (pc + 1 + immediateSize (code.getD pc 0))

/-- Position `q` is an immediate byte of an instruction that starts in the code. -/
def IsData (code : Bytes) (q : ℕ) : Prop :=
  ∃ p, Boundary code p ∧ p < code.length ∧ p < q ∧ q ≤ p + immediateSize (code.getD p 0)

variable {code : Bytes}

theorem Boundary.next_le {p q : ℕ} (hp : Boundary code p) (hq : Boundary code q) (hpq : p < q) :
    p < code.length ∧ p + 1 + immediateSize (code.getD p 0) ≤ q := by
  induction q using Nat.strong_induction_on generalizing p with
  | _ q ih =>
    cases hq with
    | zero => omega
    | @next q₀ hq₀ hlt =>
      rcases lt_trichotomy p q₀ with hlt' | rfl | hgt
      · have := ih q₀ (by omega) hp hq₀ hlt'
        omega
      · exact ⟨hlt, le_rfl⟩
      · -- a boundary strictly inside the instruction at `q₀` contradicts the induction
        have := ih p (by omega) hq₀ hp hgt
        omega

theorem boundary_or_data : ∀ q < code.length, Boundary code q ∨ IsData code q := by
  intro q
  induction q with
  | zero => exact fun _ => .inl .zero
  | succ q ih =>
    intro hq
    rcases ih (by omega) with hb | ⟨p, hp, hplt, hpq, hqp⟩
    · -- the instruction at `q` either has no immediate bytes or covers `q + 1`
      by_cases himm : immediateSize (code.getD q 0) = 0
      · left
        have := Boundary.next hb (by omega)
        rwa [himm] at this
      · exact .inr ⟨q, hb, by omega, by omega, by omega⟩
    · by_cases hin : q + 1 ≤ p + immediateSize (code.getD p 0)
      · exact .inr ⟨p, hp, hplt, by omega, hin⟩
      · -- `q` was the last immediate byte of the instruction at `p`
        left
        have := Boundary.next hp hplt
        rwa [show p + 1 + immediateSize (code.getD p 0) = q + 1 by omega] at this

theorem boundary_iff_not_data {q : ℕ} (hq : q < code.length) : Boundary code q ↔ ¬ IsData code q := by
  constructor
  · rintro hb ⟨p, hp, -, hpq, hqp⟩
    have := Boundary.next_le hp hb hpq
    omega
  · intro hd
    exact (boundary_or_data q hq).resolve_right hd

/-! ## The bits `codeBitmap` sets -/

open ByteBits

theorem numbits_eq {op : UInt8} (h : PUSH1 ≤ op ∧ op ≤ PUSH32) :
    (op - PUSH1 + 1).toNat = op.toNat - 95 ∧ op.toNat - 95 ≤ 32 := by
  obtain ⟨h1, h2⟩ := h
  simp only [PUSH1, PUSH32, UInt8.le_iff_toNat_le] at h1 h2 ⊢
  rw [UInt8.toNat_add, UInt8.toNat_sub_of_le _ _ (UInt8.le_iff_toNat_le.mpr h1)]
  simp only [UInt8.reduceToNat] at h1 h2 ⊢
  omega

theorem immediateSize_le (op : UInt8) : immediateSize op ≤ 32 := by
  unfold immediateSize
  split
  · rename_i h
    exact (numbits_eq h).1 ▸ (numbits_eq h).2
  · omega

theorem set_spec {bits : bitvec} {pos : ℕ} (h : pos < 8 * bits.length) :
    ∃ bits', bits.set pos = some bits' ∧ bits'.length = bits.length ∧
      ∀ q, bit bits' q = (bit bits q || decide (q = pos)) := by
  obtain ⟨bits', hb⟩ := Option.isSome_iff_exists.mp (orAt_isSome.mpr (show pos / 8 < bits.length by omega))
  refine ⟨bits', hb, length_of_orAt hb, fun q => ?_⟩
  rw [bit_of_orAt hb, testBit_highBit _ (Nat.mod_lt _ (by omega)) _ (Nat.mod_lt _ (by omega))]
  congr 1
  rw [Bool.eq_iff_iff]
  simp only [Bool.and_eq_true, decide_eq_true_eq]
  omega

theorem set8_spec {bits : bitvec} {pos : ℕ} (h : pos + 8 < 8 * bits.length) :
    ∃ bits', bits.set8 pos = some bits' ∧ bits'.length = bits.length ∧
      ∀ q, bit bits' q = (bit bits q || decide (pos ≤ q ∧ q < pos + 8)) := by
  obtain ⟨b₁, h₁⟩ : ∃ b, orAt bits (pos / 8) (0xFF >>> (pos % 8).toUInt8) = some b :=
    Option.isSome_iff_exists.mp (orAt_isSome.mpr (by omega))
  have hl₁ := length_of_orAt h₁
  obtain ⟨b₂, h₂⟩ : ∃ b, orAt b₁ (pos / 8 + 1) (~~~(0xFF >>> (pos % 8).toUInt8)) = some b :=
    Option.isSome_iff_exists.mp (orAt_isSome.mpr (by omega))
  refine ⟨b₂, by simp [bitvec.set8, h₁, h₂], (length_of_orAt h₂).trans hl₁, fun q => ?_⟩
  have hr : pos % 8 < 8 := Nat.mod_lt _ (by omega)
  have hs : q % 8 < 8 := Nat.mod_lt _ (by omega)
  rw [bit_of_orAt h₂, bit_of_orAt h₁, testBit_fromBits _ hr _ hs, testBit_beforeBits _ hr _ hs,
    Bool.or_assoc]
  congr 1
  rw [Bool.eq_iff_iff]
  simp only [Bool.or_eq_true, Bool.and_eq_true, decide_eq_true_eq]
  omega

theorem setLoop1_spec : ∀ (n : ℕ) (bits : bitvec) (pc : ℕ), pc + n ≤ 8 * bits.length →
    ∃ bits', setLoop1 bits pc n = some (bits', pc + n) ∧ bits'.length = bits.length ∧
      ∀ q, bit bits' q = (bit bits q || decide (pc ≤ q ∧ q < pc + n))
  | 0, bits, pc, _ => ⟨bits, rfl, rfl, fun q => by simp⟩
  | n + 1, bits, pc, h => by
    obtain ⟨b, hb, hl, hbit⟩ := set_spec (show pc < 8 * bits.length by omega)
    obtain ⟨b', hb', hl', hbit'⟩ := setLoop1_spec n b (pc + 1) (by omega)
    refine ⟨b', ?_, hl'.trans hl, fun q => ?_⟩
    · rw [setLoop1, Option.bind_eq_bind, hb, Option.bind_some, hb', show pc + 1 + n = pc + (n + 1) by omega]
    · rw [hbit', hbit, Bool.or_assoc]
      congr 1
      rw [Bool.eq_iff_iff]
      simp only [Bool.or_eq_true, decide_eq_true_eq]
      omega

theorem setLoop8_spec (n : ℕ) : ∀ (bits : bitvec) (pc : ℕ), pc + n < 8 * bits.length →
    ∃ bits', setLoop8 bits pc n = some (bits', pc + n / 8 * 8, n % 8) ∧ bits'.length = bits.length ∧
      ∀ q, bit bits' q = (bit bits q || decide (pc ≤ q ∧ q < pc + n / 8 * 8)) := by
  induction n using Nat.strong_induction_on with
  | _ n ih =>
    intro bits pc h
    by_cases h8 : 8 ≤ n
    · obtain ⟨b, hb, hl, hbit⟩ := set8_spec (show pc + 8 < 8 * bits.length by omega)
      obtain ⟨b', hb', hl', hbit'⟩ := ih (n - 8) (by omega) b (pc + 8) (by omega)
      refine ⟨b', ?_, hl'.trans hl, fun q => ?_⟩
      · rw [setLoop8, if_pos h8, Option.bind_eq_bind, hb, Option.bind_some, hb']
        congr 3
        · omega
        · omega
      · rw [hbit', hbit, Bool.or_assoc]
        congr 1
        rw [Bool.eq_iff_iff]
        simp only [Bool.or_eq_true, decide_eq_true_eq]
        omega
    · refine ⟨bits, ?_, rfl, fun q => ?_⟩
      · rw [setLoop8, if_neg h8]
        congr 3
        · omega
        · omega
      · have : n / 8 * 8 = 0 := by omega
        simp [this]

/-- The bits set when the loop of `codeBitmap` stands at `pc`: the immediate bytes of
the instructions before `pc`. -/
def DataBefore (code : Bytes) (pc q : ℕ) : Prop :=
  ∃ p, Boundary code p ∧ p < pc ∧ p < code.length ∧ p < q ∧ q ≤ p + immediateSize (code.getD p 0)

theorem dataBefore_next {pc q : ℕ} (hb : Boundary code pc) (hlt : pc < code.length) :
    DataBefore code (pc + 1 + immediateSize (code.getD pc 0)) q ↔
      DataBefore code pc q ∨ (pc < q ∧ q ≤ pc + immediateSize (code.getD pc 0)) := by
  constructor
  · rintro ⟨p, hp, hpn, hpl, hpq, hqp⟩
    rcases lt_trichotomy p pc with h | rfl | h
    · exact .inl ⟨p, hp, h, hpl, hpq, hqp⟩
    · exact .inr ⟨hpq, hqp⟩
    · -- no instruction starts inside the one at `pc`
      have := Boundary.next_le hb hp h
      omega
  · rintro (⟨p, hp, hpn, hpl, hpq, hqp⟩ | ⟨hpq, hqp⟩)
    · exact ⟨p, hp, by omega, hpl, hpq, hqp⟩
    · exact ⟨pc, hb, by omega, hlt, hpq, hqp⟩

theorem dataBefore_end {pc q : ℕ} (hpc : code.length ≤ pc) : DataBefore code pc q ↔ IsData code q := by
  constructor
  · rintro ⟨p, hp, -, hpl, hpq, hqp⟩
    exact ⟨p, hp, hpl, hpq, hqp⟩
  · rintro ⟨p, hp, hpl, hpq, hqp⟩
    exact ⟨p, hp, by omega, hpl, hpq, hqp⟩

/-- The loop sets exactly the bits of push data, without a write past the bit vector
when it has room for 33 bits past the code. -/
theorem codeBitmapLoop_spec {L : ℕ} (hL : code.length + 33 ≤ 8 * L) (bits : bitvec) (pc : ℕ)
    (hlen : bits.length = L) (hb : Boundary code pc) (hinv : ∀ q, bit bits q = true ↔ DataBefore code pc q) :
    ∃ bits', codeBitmapLoop code bits pc = some bits' ∧ bits'.length = L ∧
      ∀ q, bit bits' q = true ↔ IsData code q := by
  induction hk : code.length - pc using Nat.strong_induction_on generalizing bits pc with
  | _ k ih =>
    by_cases hlt : pc < code.length
    · have hnext := Boundary.next hb hlt
      have hget : code.getD pc 0 = code[pc] := by simp [List.getD_eq_getElem?_getD, hlt]
      have himm := immediateSize_le (code.getD pc 0)
      rw [codeBitmapLoop, dif_pos hlt]
      dsimp only
      split_ifs with hpush
      · -- PUSHn: the loops set the `n` bits after `pc`
        have hn : immediateSize (code.getD pc 0) = (code[pc] - PUSH1 + 1).toNat := by
          rw [hget, immediateSize, if_pos hpush]
        rw [hn] at hnext himm
        generalize (code[pc] - PUSH1 + 1).toNat = n at hn hnext himm ⊢
        obtain ⟨b₁, h₁, hl₁, hbit₁⟩ := setLoop8_spec n bits (pc + 1) (by omega)
        obtain ⟨b₂, h₂, hl₂, hbit₂⟩ := setLoop1_spec (n % 8) b₁ (pc + 1 + n / 8 * 8) (by omega)
        obtain ⟨bits', hrun, hl', hbits'⟩ := ih _ (by omega) b₂ _ (by omega) hnext (fun q => by
          rw [← hn, dataBefore_next hb hlt, hn, hbit₂, hbit₁, Bool.or_eq_true, Bool.or_eq_true, hinv, or_assoc]
          simp only [decide_eq_true_eq]
          exact or_congr_right (by omega)) rfl
        refine ⟨bits', ?_, hl', hbits'⟩
        split
        · rename_i heq
          rw [h₁] at heq
          cases heq
        · rename_i b pc₁ numbits heq
          rw [h₁] at heq
          cases heq
          split
          · rename_i heq
            rw [h₂] at heq
            cases heq
          · rename_i b' pc₂ heq
            rw [h₂] at heq
            cases heq
            rwa [show pc + 1 + n / 8 * 8 + n % 8 = pc + 1 + n by omega]
      · -- any other opcode is one byte long
        have hn : immediateSize (code.getD pc 0) = 0 := by rw [hget, immediateSize, if_neg hpush]
        have hstep : ∀ q, DataBefore code (pc + 1) q ↔ DataBefore code pc q := fun q => by
          have := dataBefore_next (q := q) hb hlt
          rw [hn, Nat.add_zero] at this
          rw [this]
          exact or_iff_left (by omega)
        rw [hn, Nat.add_zero] at hnext
        exact ih _ (by omega) bits (pc + 1) hlen hnext (fun q => (hinv q).trans (hstep q).symm) rfl
    · rw [codeBitmapLoop, dif_neg hlt]
      exact ⟨bits, rfl, hlen, fun q => (hinv q).trans (dataBefore_end (by omega))⟩

theorem codeBitmap_spec (code : Bytes) :
    ∃ bits, codeBitmap code = some bits ∧ bits.length = code.length / 8 + 1 + 4 ∧
      ∀ q, bit bits q = true ↔ IsData code q :=
  codeBitmapLoop_spec (by omega) _ 0 List.length_replicate .zero (fun q => by
    simp only [bit_replicate_zero, Bool.false_eq_true, false_iff]
    rintro ⟨p, -, hp, -⟩
    omega)

theorem codeSegment_eq {bits : bitvec} {pos : ℕ} (h : pos / 8 < bits.length) :
    bits.codeSegment pos = some !bit bits pos := by
  rw [bitvec.codeSegment, dif_pos h, and_highBit_eq_zero _ (Nat.mod_lt _ (by omega))]
  simp [bit, List.getD_eq_getElem?_getD, h]

/-! ## Jump destinations -/

theorem has_of_outside {d : destinations} {codehash : Hash} {dest : ℕ} (hout : code.length ≤ dest) : d.has codehash code dest = some (false, d) := by
  unfold destinations.has
  dsimp only
  rw [Int.natAbs_natCast, if_pos]
  by_cases hd : dest < 2 ^ 62
  · rw [Nat.mod_eq_of_lt (show dest < 2 ^ 64 by omega)]
    exact .inr hout
  · have := Nat.lt_size.mpr (show 2 ^ 62 ≤ dest by omega)
    exact .inl (by omega)

/-- What `has` answers inside the code, from the bitmap it analyses. -/
theorem has_of_inside {d : destinations} {codehash : Hash} {dest : ℕ} {m : bitvec}
    (hlen : code.length ≤ 2 ^ 62) (hin : dest < code.length) (hm : codeBitmap code = some m)
    (hd : ∀ m', d codehash = some m' → codeBitmap code = some m') :
    ∃ d', d.has codehash code dest =
        (if code.getD dest 0 = JUMPDEST then (m.codeSegment dest).map (·, d') else some (false, d')) ∧
      ∀ m', d' codehash = some m' → codeBitmap code = some m' := by
  have hsize : Nat.size dest < 63 := by
    have := Nat.size_le.mpr (show dest < 2 ^ 62 by omega)
    omega
  unfold destinations.has
  dsimp only
  rw [Int.natAbs_natCast, Nat.mod_eq_of_lt (show dest < 2 ^ 64 by omega), if_neg (by omega)]
  cases hdc : d codehash with
  | none =>
    refine ⟨Function.update d codehash (some m), by simp [hm], fun m' h' => ?_⟩
    simp only [Function.update_self, Option.some.injEq] at h'
    rw [hm, h']
  | some m' =>
    have := hd m' hdc
    rw [hm, Option.some.injEq] at this
    subst this
    exact ⟨d, rfl, hd⟩

/-- With the bitmap of the code itself, `has` accepts exactly the JUMPDEST bytes that
start an instruction, and the map it returns holds that bitmap. -/
theorem has_iff_boundary (d : destinations) (codehash : Hash) (dest : ℕ) (hlen : code.length ≤ 2 ^ 62)
    (hd : ∀ m, d codehash = some m → codeBitmap code = some m) :
    ∃ b d', d.has codehash code dest = some (b, d') ∧
      (b = true ↔ ∃ h : dest < code.length, code[dest] = JUMPDEST ∧ Boundary code dest) ∧
      ∀ m, d' codehash = some m → codeBitmap code = some m := by
  by_cases hout : code.length ≤ dest
  · refine ⟨false, d, has_of_outside hout, ?_, hd⟩
    simp only [Bool.false_eq_true, false_iff, not_exists]
    intro h
    omega
  · have hin : dest < code.length := by omega
    obtain ⟨m, hm, hml, hmbit⟩ := codeBitmap_spec code
    obtain ⟨d', hhas, hd'⟩ := has_of_inside hlen hin hm hd
    have hget : code.getD dest 0 = code[dest] := by simp [List.getD_eq_getElem?_getD, hin]
    rw [hget] at hhas
    by_cases hj : code[dest] = JUMPDEST
    · -- a JUMPDEST byte is accepted when its bit is clear
      rw [if_pos hj, codeSegment_eq (by omega)] at hhas
      refine ⟨_, d', hhas, ?_, hd'⟩
      rw [Bool.not_eq_true', ← Bool.not_eq_true, hmbit, ← boundary_iff_not_data hin]
      exact ⟨fun h => ⟨hin, hj, h⟩, fun ⟨_, _, h⟩ => h⟩
    · rw [if_neg hj] at hhas
      refine ⟨false, d', hhas, ?_, hd'⟩
      simp only [Bool.false_eq_true, false_iff, not_exists, not_and]
      exact fun _ h => absurd h hj

/-- The JUMPDEST analysis is exact: `codeBitmap` stays inside the bit vector it
allocates, and for a code no longer than a Go slice can be, `has` with the code's
own bitmap accepts a destination exactly when it is a JUMPDEST byte of the code that
starts an instruction. -/
theorem jumpdest_analysis_exact (code : Bytes) :
    (∃ bits, codeBitmap code = some bits ∧ bits.length = code.length / 8 + 1 + 4) ∧
    (code.length ≤ 2 ^ 62 → ∀ (d : destinations) (codehash : Hash) (dest : ℕ),
      (∀ m, d codehash = some m → codeBitmap code = some m) →
      ∃ b d', d.has codehash code dest = some (b, d') ∧
        (b = true ↔ ∃ h : dest < code.length, code[dest] = JUMPDEST ∧ Boundary code dest) ∧
        ∀ m, d' codehash = some m → codeBitmap code = some m) := by
  refine ⟨?_, fun hlen d codehash dest hd => has_iff_boundary d codehash dest hlen hd⟩
  obtain ⟨bits, hbits, hlen, -⟩ := codeBitmap_spec code
  exact ⟨bits, hbits, hlen⟩

/-- `PUSH1 JUMPDEST`: the analysis of a two-byte code with a fresh map. -/
theorem jumpdest_analysis_push1 :
    ([0x60, 0x5b] : Bytes).length ≤ 2 ^ 62 ∧
    ∃ b d', destinations.has (fun _ => none) 0 [0x60, 0x5b] ((1 : ℕ) : ℤ) = some (b, d') ∧
      (b = true ↔ ∃ h : 1 < ([0x60, 0x5b] : Bytes).length,
        ([0x60, 0x5b] : Bytes)[1] = JUMPDEST ∧ Boundary [0x60, 0x5b] 1) ∧
      ∀ m, d' 0 = some m → codeBitmap [0x60, 0x5b] = some m :=
  ⟨by decide, (jumpdest_analysis_exact [0x60, 0x5b]).2 (by decide) (fun _ => none) 0 1 (fun _ h => nomatch h)⟩

end EthereumAI.Evm
