import EthereumAI.Evm.MemoryGas
import EthereumAI.Lib.Fuel

/-! # Gas of calls (`core/vm/gas.go`, `gas_table.go`, `instructions.go`, `evm.go`)

A call charges its caller a base cost and the gas it passes on, which `callGas`
computes (all but one 64th of what is left from EIP-150) and hands to the opcode in
`callGasTemp`; the opcode adds the stipend to a call that transfers value, and adds
back to the caller whatever the callee leaves. `CREATE` passes on all but one 64th
of the caller's gas from EIP-150.

A frame is what its code does with gas, instruction after instruction, as the code,
its input and the state decide: an instruction of some cost, a call or a create with
the frame of the code it runs, or the end of the frame. `run` is the gas accounting
of `Interpreter.Run` over it, and `Call` .. `Create` give back what the callee
leaves. Every code, input and state runs some frame, so what holds for every frame
holds for every code.
-/

namespace EthereumAI.Evm

/-- `params.CallStipend`. -/
def CallStipend : UInt64 := 2300

/-- `params.CallValueTransferGas`. -/
def CallValueTransferGas : UInt64 := 9000

/-- `params.CallNewAccountGas`. -/
def CallNewAccountGas : UInt64 := 25000

/-- `params.CallCreateDepth`. -/
def CallCreateDepth : ℕ := 1024

/-- `params.CreateDataGas`. -/
def CreateDataGas : UInt64 := 200

/-- `params.MaxCodeSize`. -/
def MaxCodeSize : ℕ := 24576

/-- `params.GasTable`, with the fields the calls read. -/
structure GasTable where
  Calls : UInt64
  CreateBySuicide : UInt64

/-- `params.GasTableHomestead`. -/
def GasTableHomestead : GasTable := ⟨40, 0⟩

/-- `params.GasTableEIP150`. -/
def GasTableEIP150 : GasTable := ⟨700, 25000⟩

/-- `params.GasTableEIP158`. -/
def GasTableEIP158 : GasTable := ⟨700, 25000⟩

/-- The fork rules of the block and the interpreter's `NoRecursion` setting. -/
structure Rules where
  IsHomestead : Bool
  IsEIP150 : Bool
  IsEIP158 : Bool
  IsByzantium : Bool
  NoRecursion : Bool

/-- `ChainConfig.GasTable`. -/
def Rules.GasTable (r : Rules) : GasTable :=
  if r.IsEIP158 then GasTableEIP158 else if r.IsEIP150 then GasTableEIP150 else GasTableHomestead

/-- `math.SafeAdd`: the sum and whether it overflowed. -/
def SafeAdd (x y : UInt64) : UInt64 × Bool := (x + y, y > 0xFFFFFFFFFFFFFFFF - x)

/-- `callGas`: the gas a call passes on. From EIP-150 (`CreateBySuicide > 0`) it is at most
all but one 64th of what is left after `base`, that subtraction being unsigned. -/
def callGas (gasTable : GasTable) (availableGas base : UInt64) (callCost : ℕ) : Except GasError UInt64 :=
  let availableGas := availableGas - base
  let gas := availableGas - availableGas / 64
  if gasTable.CreateBySuicide > 0 ∧ (callCost ≥ 2 ^ 64 ∨ gas.toNat < callCost) then .ok gas
  else if callCost ≥ 2 ^ 64 then .error .errGasUintOverflow
  else .ok callCost.toUInt64

/-- The stack operands and the state a call instruction's gas function reads. -/
structure CallArgs where
  /-- `stack.Back(0)`, the gas asked for. -/
  requested : ℕ
  /-- `stack.Back(2)` of `CALL` and `CALLCODE`, the value. -/
  value : ℕ
  /-- `StateDB.Exist` and `StateDB.Empty` of the callee. -/
  exist : Bool
  empty : Bool
  /-- The callee is a precompiled contract. -/
  precompile : Bool
  /-- `CanTransfer` of the value from the caller. -/
  canTransfer : Bool
  mem : Memory
  memorySize : UInt64

/-- The tail every call gas function shares: `callGas` of the base cost, stored in
`callGasTemp`, and added to the base cost with an overflow check. -/
def addCallGas (gt : GasTable) (contractGas gas : UInt64) (requested : ℕ) : Except GasError (UInt64 × UInt64) := do
  let callGasTemp ← callGas gt contractGas gas requested
  let (gas, overflow) := SafeAdd gas callGasTemp
  if overflow then throw .errGasUintOverflow
  pure (gas, callGasTemp)

/-- The memory fee of a call added to its base cost, with an overflow check. -/
def addMemoryGas (gas : UInt64) (a : CallArgs) : Except GasError UInt64 := do
  let (memoryGas, _) ← memoryGasCost a.mem a.memorySize
  let (gas, overflow) := SafeAdd gas memoryGas
  if overflow then throw .errGasUintOverflow
  pure gas

/-- `gasCall`: the cost and `callGasTemp`. -/
def gasCall (gt : GasTable) (eip158 : Bool) (contractGas : UInt64) (a : CallArgs) :
    Except GasError (UInt64 × UInt64) := do
  let transfersValue := a.value ≠ 0
  let gas := gt.Calls
  let gas := if eip158 then (if transfersValue ∧ a.empty then gas + CallNewAccountGas else gas)
    else if !a.exist then gas + CallNewAccountGas else gas
  let gas := if transfersValue then gas + CallValueTransferGas else gas
  let gas ← addMemoryGas gas a
  addCallGas gt contractGas gas a.requested

/-- `gasCallCode`. -/
def gasCallCode (gt : GasTable) (contractGas : UInt64) (a : CallArgs) : Except GasError (UInt64 × UInt64) := do
  let gas := gt.Calls
  let gas := if a.value ≠ 0 then gas + CallValueTransferGas else gas
  let gas ← addMemoryGas gas a
  addCallGas gt contractGas gas a.requested

/-- `gasDelegateCall`: the memory fee first, then the base cost. -/
def gasDelegateCall (gt : GasTable) (contractGas : UInt64) (a : CallArgs) : Except GasError (UInt64 × UInt64) := do
  let (gas, _) ← memoryGasCost a.mem a.memorySize
  let (gas, overflow) := SafeAdd gas gt.Calls
  if overflow then throw .errGasUintOverflow
  addCallGas gt contractGas gas a.requested

/-- `gasStaticCall`. -/
def gasStaticCall (gt : GasTable) (contractGas : UInt64) (a : CallArgs) : Except GasError (UInt64 × UInt64) :=
  gasDelegateCall gt contractGas a

/-- The call instructions. -/
inductive CallKind
  | CALL | CALLCODE | DELEGATECALL | STATICCALL
deriving DecidableEq, Repr

/-- How `Run` ended: without error, with `errExecutionReverted`, or with another error. -/
inductive Halt
  | stop | revert | error
deriving DecidableEq, Repr

/-- What a frame's code does with gas. -/
inductive Frame
  /-- the frame ends, returning `retLen` bytes -/
  | halt (how : Halt) (retLen : ℕ)
  /-- an instruction other than a call or a create, of cost `cost` or a gas error -/
  | op (cost : Except GasError UInt64) (next : Frame)
  /-- a call instruction, the callee running `callee` -/
  | call (kind : CallKind) (args : CallArgs) (callee : Frame) (next : Frame)
  /-- `CREATE`: the instruction's cost, whether the caller can pay the value and whether
  the new address collides, and the frame of the init code -/
  | create (cost : Except GasError UInt64) (canTransfer collision : Bool) (initCode : Frame) (next : Frame)

section Calls

variable (r : Rules)

/-- The gas function of a call instruction. -/
def callCost (kind : CallKind) (contractGas : UInt64) (a : CallArgs) : Except GasError (UInt64 × UInt64) :=
  match kind with
  | .CALL => gasCall r.GasTable r.IsEIP158 contractGas a
  | .CALLCODE => gasCallCode r.GasTable contractGas a
  | .DELEGATECALL => gasDelegateCall r.GasTable contractGas a
  | .STATICCALL => gasStaticCall r.GasTable contractGas a

/-- The gas `opCall` .. `opStaticCall` pass on: `callGasTemp`, with the stipend when `CALL`
or `CALLCODE` transfers value. -/
def passedGas (kind : CallKind) (a : CallArgs) (callGasTemp : UInt64) : UInt64 :=
  match kind with
  | .CALL | .CALLCODE => if a.value ≠ 0 then callGasTemp + CallStipend else callGasTemp
  | .DELEGATECALL | .STATICCALL => callGasTemp

/-- The gas the callee leaves to its caller, from how its `Run` ended: all of it for an
error other than `errExecutionReverted`. -/
def leftOver (result : Halt × UInt64 × ℕ) : UInt64 :=
  match result with
  | (.error, _, _) => 0
  | (_, gas, _) => gas

/-- The calls' shared frame: `gas` back at once when `NoRecursion` stops the call, above the
depth limit, or on the call's own early return; otherwise what the callee leaves. -/
def callFrame (depth : ℕ) (early : Bool) (gas : UInt64) (result : Halt × UInt64 × ℕ) : UInt64 :=
  if r.NoRecursion ∧ depth > 0 then gas
  else if depth > CallCreateDepth then gas
  else if early then gas
  else leftOver result

/-- `EVM.Call`: it returns early when the value cannot be paid, and for a missing account
that is no precompile, called without value from EIP-158. -/
def Call (depth : ℕ) (a : CallArgs) (gas : UInt64) (result : Halt × UInt64 × ℕ) : UInt64 :=
  callFrame r depth (!a.canTransfer || (!a.exist && !a.precompile && r.IsEIP158 && a.value == 0)) gas result

/-- `EVM.CallCode`. -/
def CallCode (depth : ℕ) (a : CallArgs) (gas : UInt64) (result : Halt × UInt64 × ℕ) : UInt64 :=
  callFrame r depth (!a.canTransfer) gas result

/-- `EVM.DelegateCall`. -/
def DelegateCall (depth : ℕ) (gas : UInt64) (result : Halt × UInt64 × ℕ) : UInt64 :=
  callFrame r depth false gas result

/-- `EVM.StaticCall`. -/
def StaticCall (depth : ℕ) (gas : UInt64) (result : Halt × UInt64 × ℕ) : UInt64 :=
  callFrame r depth false gas result

/-- The call of a call instruction. -/
def callOf (kind : CallKind) (depth : ℕ) (a : CallArgs) (gas : UInt64) (result : Halt × UInt64 × ℕ) : UInt64 :=
  match kind with
  | .CALL => Call r depth a gas result
  | .CALLCODE => CallCode r depth a gas result
  | .DELEGATECALL => DelegateCall r depth gas result
  | .STATICCALL => StaticCall r depth gas result

/-- The error of a creation once the code is deposited. -/
inductive CreateErr
  | none | reverted | codeStoreOutOfGas | other
deriving DecidableEq, Repr

/-- The code deposit of a creation whose init code ran: `len(ret) * CreateDataGas` when it ran
without error and the code is not too large, or `ErrCodeStoreOutOfGas` when the gas left
does not cover it. -/
def deposit (err : CreateErr) (maxCodeSizeExceeded : Bool) (contractGas : UInt64) (retLen : ℕ) :
    CreateErr × UInt64 :=
  if err = .none ∧ !maxCodeSizeExceeded then
    let createDataGas := retLen.toUInt64 * CreateDataGas
    if contractGas < createDataGas then (.codeStoreOutOfGas, contractGas) else (.none, contractGas - createDataGas)
  else (err, contractGas)

/-- The error of a creation from how its init code's `Run` ended. -/
def CreateErr.ofHalt : Halt → CreateErr
  | .stop => .none
  | .revert => .reverted
  | .error => .other

/-- What a creation leaves once its code is deposited: nothing after an error other than a
revert, a code store out of gas being no error before Homestead. -/
def createLeftOver (maxCodeSizeExceeded : Bool) : CreateErr × UInt64 → UInt64
  | (err, contractGas) =>
    if maxCodeSizeExceeded ∨ (err ≠ .none ∧ (r.IsHomestead ∨ err ≠ .codeStoreOutOfGas)) then
      if err ≠ .reverted then 0 else contractGas
    else contractGas

/-- `EVM.Create` by its gas: `gas` back when the depth limit, the value or `NoRecursion`
stop it, nothing on an address collision, and otherwise what the init code leaves once
the code deposit is paid. -/
def Create (depth : ℕ) (canTransfer collision : Bool) (gas : UInt64) (result : Halt × UInt64 × ℕ) : UInt64 :=
  if depth > CallCreateDepth then gas
  else if !canTransfer then gas
  else if collision then 0
  else if r.NoRecursion ∧ depth > 0 then gas
  else
    match result with
    | (how, contractGas, retLen) =>
      let maxCodeSizeExceeded := r.IsEIP158 && decide (retLen > MaxCodeSize)
      createLeftOver r maxCodeSizeExceeded (deposit (.ofHalt how) maxCodeSizeExceeded contractGas retLen)

/-- The gas `opCreate` passes on: all of `contract.Gas`, less one 64th from EIP-150. -/
def createGas (contractGas : UInt64) : UInt64 :=
  if r.IsEIP150 then contractGas - contractGas / 64 else contractGas

/-- The gas accounting of `Interpreter.Run` at call depth `depth`: how the frame ends,
`contract.Gas` at its end, and the length of what it returns. An instruction whose cost
is more than the gas left ends it with `ErrOutOfGas`. -/
def run (depth : ℕ) : Frame → UInt64 → Halt × UInt64 × ℕ
  | .halt how retLen, gas => (how, gas, retLen)
  | .op cost next, gas =>
    match cost with
    | .error _ => (.error, gas, 0)
    | .ok cost => if gas < cost then (.error, gas, 0) else run depth next (gas - cost)
  | .call kind a callee next, gas =>
    match callCost r kind gas a with
    | .error _ => (.error, gas, 0)
    | .ok (cost, callGasTemp) =>
      if gas < cost then (.error, gas, 0) else
      let passed := passedGas kind a callGasTemp
      let returnGas := callOf r kind depth a passed (run (depth + 1) callee passed)
      run depth next (gas - cost + returnGas)
  | .create cost canTransfer collision initCode next, gas =>
    match cost with
    | .error _ => (.error, gas, 0)
    | .ok cost =>
      if gas < cost then (.error, gas, 0) else
      let passed := createGas r (gas - cost)
      let returnGas := Create r depth canTransfer collision passed (run (depth + 1) initCode passed)
      run depth next (gas - cost - passed + returnGas)

/-- The values `contract.Gas` takes while `run` executes a frame from `gas`: one constructor
for each instruction that goes on, as `run` computes its gas. -/
inductive Visits (depth : ℕ) : Frame → UInt64 → UInt64 → Prop
  | here (f : Frame) (gas : UInt64) : Visits depth f gas gas
  | op {cost : UInt64} {next : Frame} {gas g : UInt64} (hle : ¬gas < cost)
      (h : Visits depth next (gas - cost) g) : Visits depth (.op (.ok cost) next) gas g
  | call {kind : CallKind} {a : CallArgs} {callee next : Frame} {gas g cost callGasTemp : UInt64}
      (hc : callCost r kind gas a = .ok (cost, callGasTemp)) (hle : ¬gas < cost)
      (h : Visits depth next (gas - cost + callOf r kind depth a (passedGas kind a callGasTemp)
        (run r (depth + 1) callee (passedGas kind a callGasTemp))) g) :
      Visits depth (.call kind a callee next) gas g
  | create {cost : UInt64} {canTransfer collision : Bool} {initCode next : Frame} {gas g : UInt64}
      (hle : ¬gas < cost)
      (h : Visits depth next (gas - cost - createGas r (gas - cost) + Create r depth canTransfer collision
        (createGas r (gas - cost)) (run r (depth + 1) initCode (createGas r (gas - cost)))) g) :
      Visits depth (.create (.ok cost) canTransfer collision initCode next) gas g

end Calls

/-! ## Gas passed on is gas charged -/

section Lemmas

variable {r : Rules}

theorem SafeAdd_toNat {x y : UInt64} (h : (SafeAdd x y).2 = false) :
    (SafeAdd x y).1.toNat = x.toNat + y.toNat := by
  unfold SafeAdd at *
  have hx : x ≤ 0xFFFFFFFFFFFFFFFF := UInt64.le_iff_toNat_le.mpr (by have := x.toNat_lt; simp; omega)
  simp only [decide_eq_false_iff_not, gt_iff_lt, UInt64.lt_iff_toNat_lt,
    UInt64.toNat_sub_of_le _ _ hx, UInt64.reduceToNat] at h
  have := UInt64.toNat_lt x
  rw [UInt64.toNat_add]
  omega

theorem addCallGas_toNat {gt : GasTable} {contractGas gas cost callGasTemp : UInt64} {requested : ℕ}
    (h : addCallGas gt contractGas gas requested = .ok (cost, callGasTemp)) :
    cost.toNat = gas.toNat + callGasTemp.toNat := by
  unfold addCallGas at h
  obtain ⟨cgt, -, h⟩ := Lib.except_bind_eq_ok.mp h
  dsimp only at h
  split at h
  · cases h
  · rename_i hov
    cases h
    exact SafeAdd_toNat (Bool.not_eq_true _ ▸ hov)

theorem addMemoryGas_toNat {gas gas' : UInt64} {a : CallArgs} (h : addMemoryGas gas a = .ok gas') :
    gas.toNat ≤ gas'.toNat := by
  unfold addMemoryGas at h
  obtain ⟨⟨memoryGas, _⟩, -, h⟩ := Lib.except_bind_eq_ok.mp h
  dsimp only at h
  split at h
  · cases h
  · rename_i hov
    cases h
    rw [SafeAdd_toNat (Bool.not_eq_true _ ▸ hov)]
    omega

theorem GasTable_Calls (r : Rules) : r.GasTable.Calls.toNat ≤ 700 := by
  unfold Rules.GasTable
  split_ifs <;> decide

theorem passedGas_le {kind : CallKind} {a : CallArgs} {callGasTemp : UInt64} :
    (passedGas kind a callGasTemp).toNat ≤
      callGasTemp.toNat + (match kind with
        | .CALL | .CALLCODE => if a.value ≠ 0 then 9000 else 0
        | .DELEGATECALL | .STATICCALL => 0) := by
  cases kind <;> unfold passedGas <;> dsimp only
  all_goals first
    | omega
    | split
      · rw [UInt64.toNat_add]
        simp only [CallStipend, UInt64.reduceToNat]
        omega
      · omega

/-- A call instruction passes on at most what it charged: the stipend is paid for by the
value transfer fee. -/
theorem passedGas_le_cost {kind : CallKind} {gas cost callGasTemp : UInt64} {a : CallArgs}
    (hc : callCost r kind gas a = .ok (cost, callGasTemp)) :
    (passedGas kind a callGasTemp).toNat ≤ cost.toNat := by
  have hp := @passedGas_le kind a callGasTemp
  have hCalls := GasTable_Calls r
  cases kind with
  | CALL =>
    unfold callCost gasCall at hc
    obtain ⟨gas', hm, hc⟩ := Lib.except_bind_eq_ok.mp hc
    have hm := addMemoryGas_toNat hm
    have hc := addCallGas_toNat hc
    dsimp only at hp hm
    -- the base cost of each case: the table's `Calls`, the new account fee, the value fee
    split_ifs at hm hp <;>
      (try simp only [UInt64.toNat_add, CallNewAccountGas, CallValueTransferGas, UInt64.reduceToNat] at hm) <;>
      omega
  | CALLCODE =>
    unfold callCost gasCallCode at hc
    obtain ⟨gas', hm, hc⟩ := Lib.except_bind_eq_ok.mp hc
    have hm := addMemoryGas_toNat hm
    have hc := addCallGas_toNat hc
    dsimp only at hp hm
    split_ifs at hm hp <;>
      (try simp only [UInt64.toNat_add, CallValueTransferGas, UInt64.reduceToNat] at hm) <;>
      omega
  | DELEGATECALL | STATICCALL =>
    unfold callCost at hc
    try unfold gasStaticCall at hc
    unfold gasDelegateCall at hc
    obtain ⟨_, -, hc⟩ := Lib.except_bind_eq_ok.mp hc
    dsimp only at hc
    split at hc
    · cases hc
    · have hc := addCallGas_toNat hc
      dsimp only at hp
      omega

/-! ## A frame never ends with more gas than it started with -/

theorem sub_toNat_le {gas cost : UInt64} (hlt : ¬gas < cost) : (gas - cost).toNat ≤ gas.toNat := by
  rw [UInt64.lt_iff_toNat_lt] at hlt
  rw [UInt64.toNat_sub_of_le _ _ (UInt64.le_iff_toNat_le.mpr (by omega))]
  omega

theorem refund_le {gas cost ret : UInt64} (hlt : ¬gas < cost) (hret : ret.toNat ≤ cost.toNat) :
    (gas - cost + ret).toNat ≤ gas.toNat := by
  have hle : cost.toNat ≤ gas.toNat := by
    rw [UInt64.lt_iff_toNat_lt] at hlt
    omega
  rw [UInt64.toNat_add, UInt64.toNat_sub_of_le _ _ (UInt64.le_iff_toNat_le.mpr hle)]
  have := Nat.mod_le (gas.toNat - cost.toNat + ret.toNat) UInt64.size
  omega

theorem leftOver_le (result : Halt × UInt64 × ℕ) : (leftOver result).toNat ≤ result.2.1.toNat := by
  unfold leftOver
  split <;> simp

theorem callFrame_le {depth : ℕ} {early : Bool} {gas : UInt64} {result : Halt × UInt64 × ℕ}
    (h : result.2.1.toNat ≤ gas.toNat) : (callFrame r depth early gas result).toNat ≤ gas.toNat := by
  unfold callFrame
  split_ifs
  · exact Nat.le_refl _
  · exact Nat.le_refl _
  · exact Nat.le_refl _
  · exact Nat.le_trans (leftOver_le result) h

theorem callOf_le {kind : CallKind} {depth : ℕ} {a : CallArgs} {gas : UInt64} {result : Halt × UInt64 × ℕ}
    (h : result.2.1.toNat ≤ gas.toNat) : (callOf r kind depth a gas result).toNat ≤ gas.toNat := by
  cases kind <;> exact callFrame_le h

theorem deposit_le (err : CreateErr) (maxCodeSizeExceeded : Bool) (contractGas : UInt64) (retLen : ℕ) :
    (deposit err maxCodeSizeExceeded contractGas retLen).2.toNat ≤ contractGas.toNat := by
  unfold deposit
  dsimp only
  split_ifs with _ hlt
  · exact Nat.le_refl _
  · rw [UInt64.lt_iff_toNat_lt] at hlt
    rw [UInt64.toNat_sub_of_le _ _ (UInt64.le_iff_toNat_le.mpr (by omega))]
    omega
  · exact Nat.le_refl _

theorem createLeftOver_le (m : Bool) (d : CreateErr × UInt64) : (createLeftOver r m d).toNat ≤ d.2.toNat := by
  obtain ⟨err, contractGas⟩ := d
  unfold createLeftOver
  dsimp only
  split_ifs <;> simp

theorem Create_le {depth : ℕ} {canTransfer collision : Bool} {gas : UInt64} {result : Halt × UInt64 × ℕ}
    (h : result.2.1.toNat ≤ gas.toNat) : (Create r depth canTransfer collision gas result).toNat ≤ gas.toNat := by
  obtain ⟨how, contractGas, retLen⟩ := result
  unfold Create
  split_ifs
  · exact Nat.le_refl _
  · exact Nat.le_refl _
  · simp
  · exact Nat.le_refl _
  · exact Nat.le_trans (createLeftOver_le _ _) (Nat.le_trans (deposit_le _ _ _ _) h)

theorem createGas_le (gas : UInt64) : (createGas r gas).toNat ≤ gas.toNat := by
  unfold createGas
  split
  · have h64 : (gas / 64).toNat = gas.toNat / 64 := by rw [UInt64.toNat_div]; rfl
    rw [UInt64.toNat_sub_of_le _ _ (UInt64.le_iff_toNat_le.mpr (by omega))]
    omega
  · exact Nat.le_refl _

theorem call_step_le {kind : CallKind} {a : CallArgs} {callee : Frame} {depth : ℕ}
    {gas cost callGasTemp : UInt64} (hc : callCost r kind gas a = .ok (cost, callGasTemp)) (hlt : ¬gas < cost)
    (hrun : ∀ g, (run r (depth + 1) callee g).2.1.toNat ≤ g.toNat) :
    (gas - cost + callOf r kind depth a (passedGas kind a callGasTemp)
      (run r (depth + 1) callee (passedGas kind a callGasTemp))).toNat ≤ gas.toNat :=
  refund_le hlt (Nat.le_trans (callOf_le (hrun _)) (passedGas_le_cost hc))

theorem createGas_refund_le {gas cost ret : UInt64} (hlt : ¬gas < cost)
    (hret : ret.toNat ≤ (createGas r (gas - cost)).toNat) :
    (gas - cost - createGas r (gas - cost) + ret).toNat ≤ gas.toNat := by
  have hpass : ¬gas - cost < createGas r (gas - cost) := by
    rw [UInt64.lt_iff_toNat_lt]
    have := createGas_le (r := r) (gas - cost)
    omega
  exact Nat.le_trans (refund_le hpass hret) (sub_toNat_le hlt)

theorem create_step_le {canTransfer collision : Bool} {initCode : Frame} {depth : ℕ} {gas cost : UInt64}
    (hlt : ¬gas < cost) (hrun : ∀ g, (run r (depth + 1) initCode g).2.1.toNat ≤ g.toNat) :
    (gas - cost - createGas r (gas - cost) + Create r depth canTransfer collision
      (createGas r (gas - cost)) (run r (depth + 1) initCode (createGas r (gas - cost)))).toNat ≤ gas.toNat :=
  createGas_refund_le hlt (Create_le (hrun _))

/-- `Run` ends a frame with at most the gas it started with. -/
theorem run_le (depth : ℕ) (f : Frame) (gas : UInt64) : (run r depth f gas).2.1.toNat ≤ gas.toNat := by
  induction f generalizing depth gas with
  | halt how retLen => exact Nat.le_refl _
  | op cost next ih =>
    unfold run
    split
    · exact Nat.le_refl _
    · split_ifs with hlt
      · exact Nat.le_refl _
      · exact Nat.le_trans (ih _ _) (sub_toNat_le hlt)
  | call kind a callee next ihc ihn =>
    unfold run
    split
    · exact Nat.le_refl _
    · rename_i cost callGasTemp hc
      split_ifs with hlt
      · exact Nat.le_refl _
      · exact Nat.le_trans (ihn _ _) (call_step_le hc hlt (ihc _))
  | create cost canTransfer collision initCode next ihi ihn =>
    unfold run
    split
    · exact Nat.le_refl _
    · split_ifs with hlt
      · exact Nat.le_refl _
      · exact Nat.le_trans (ihn _ _) (create_step_le hlt (ihi _))

theorem Visits_le {depth : ℕ} {f : Frame} {gas g : UInt64} (h : Visits r depth f gas g) : g.toNat ≤ gas.toNat := by
  induction h with
  | here => exact Nat.le_refl _
  | op hlt _ ih => exact Nat.le_trans ih (sub_toNat_le hlt)
  | call hc hlt _ ih => exact Nat.le_trans ih (call_step_le hc hlt (run_le _ _))
  | create hlt _ ih => exact Nat.le_trans ih (create_step_le hlt (run_le _ _))

end Lemmas

/-- `Call`, `CallCode`, `DelegateCall`, `StaticCall` and `Create` give their caller back at
most the gas they were given, whatever the callee's code does and at every depth, and
while a frame runs `contract.Gas` never exceeds its value at the frame's start. -/
theorem calls_never_create_gas (r : Rules) (depth : ℕ) (a : CallArgs) (canTransfer collision : Bool)
    (callee : Frame) (gas : UInt64) :
    Call r depth a gas (run r (depth + 1) callee gas) ≤ gas ∧
      CallCode r depth a gas (run r (depth + 1) callee gas) ≤ gas ∧
      DelegateCall r depth gas (run r (depth + 1) callee gas) ≤ gas ∧
      StaticCall r depth gas (run r (depth + 1) callee gas) ≤ gas ∧
      Create r depth canTransfer collision gas (run r (depth + 1) callee gas) ≤ gas ∧
      ∀ g, Visits r (depth + 1) callee gas g → g ≤ gas := by
  have hrun := run_le (r := r) (depth + 1) callee gas
  refine ⟨?_, ?_, ?_, ?_, ?_, fun g h => UInt64.le_iff_toNat_le.mpr (Visits_le h)⟩
  all_goals apply UInt64.le_iff_toNat_le.mpr
  · exact callFrame_le hrun
  · exact callFrame_le hrun
  · exact callFrame_le hrun
  · exact callFrame_le hrun
  · exact Create_le hrun

/-- A callee that spends 3 of 10 gas and stops has 7 left on its way. -/
theorem calls_never_create_gas_spend :
    Visits ⟨true, true, true, true, false⟩ 1 (.op (.ok 3) (.halt .stop 0)) 10 7 ∧ (7 : UInt64) ≤ 10 :=
  have h : Visits ⟨true, true, true, true, false⟩ 1 (.op (.ok 3) (.halt .stop 0)) 10 7 := .op (by decide) (.here _ _)
  ⟨h, (calls_never_create_gas ⟨true, true, true, true, false⟩ 0 ⟨0, 0, true, false, false, true, ⟨[], 0⟩, 0⟩
    true false (.op (.ok 3) (.halt .stop 0)) 10).2.2.2.2.2 7 h⟩

end EthereumAI.Evm
