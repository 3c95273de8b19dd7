import EthereumAI.Evm.CallGas
import EthereumAI.State.Growth

/-! # Calls and creations on the state (`core/vm/evm.go`, `core/evm.go`, `core/vm/instructions.go`)

`EVM.Call`, `CallCode`, `DelegateCall`, `StaticCall` and `Create` on the `StateDB`: the
depth and value checks, the snapshot, the creation of the account and the value
transfer, the frame of the code, and the revert to the snapshot when the frame fails.
What a frame's code does is a `Trace`, one constructor for each kind of instruction
that reads or writes the state or the gas, with the operands the code computed: every
code, input and state runs some trace, so what holds for every trace holds for every
code. `Interpreter.Run` runs a trace; its calls and creations run the traces of their
callees one level deeper.

A frame also returns the self-destructs to self it kept, a ghost of the proofs that the
code does not keep: for each `SELFDESTRUCT` naming its own contract as beneficiary that
no revert undid, the contract and the balance it held. Such a `SELFDESTRUCT` credits
the balance to the contract and then clears it, so that balance is gone.

The gas functions' reads of `Exist` and `Empty` are taken from the state without their
loading into the caches, which changes no view. The interpreter's read-only flag is a
parameter of `Run`: `StaticCall` sets it for its callee, every other call passes it on,
and `enforceRestrictions` refuses a write in read-only mode before the instruction runs.
-/

namespace EthereumAI.Evm

open State

/-- The state reads and writes of an instruction other than a call, `CREATE` or
`SELFDESTRUCT`, its gas function's included: the reads of `BALANCE`, `EXTCODESIZE`,
`EXTCODECOPY`, `SLOAD` and of the gas functions, `SSTORE` and its refund, `LOG`, and the
preimage `SHA3` records. -/
inductive Effect
  | read (q : Query)
  | SetState (key value : Hash)
  | AddRefund (gas : UInt64)
  | AddLog (log : Log)
  | AddPreimage (hash : Hash) (preimage : Bytes)

/-- The method an effect calls in the frame of the contract at `self`, whose storage
`SSTORE` writes. -/
def Effect.op (self : Address) : Effect → Op
  | .read q => .read q
  | .SetState key value => .SetState self key value
  | .AddRefund gas => .AddRefund gas
  | .AddLog log => .AddLog log
  | .AddPreimage hash preimage => .AddPreimage hash preimage

/-- Whether an effect writes: `SSTORE` sets a slot and may take a refund, `LOG0` .. `LOG4`
add a log, and the gas function of `SELFDESTRUCT` takes its refund. -/
def Effect.writes : Effect → Bool
  | .SetState .. | .AddRefund _ | .AddLog _ => true
  | .read _ | .AddPreimage .. => false

/-- The operands of a call instruction: the address called, the gas asked for and the
value from the stack, and the memory its gas function reads. -/
structure CallOperands where
  toAddr : Address
  requested : ℕ
  value : ℕ
  mem : Memory
  memorySize : UInt64

/-- What a frame's code does with the state and the gas, instruction after instruction. -/
inductive Trace
  /-- `STOP`, `RETURN`, `REVERT` or an error ends the frame, returning `ret` -/
  | halt (how : Halt) (ret : Bytes)
  /-- an instruction other than a call, `CREATE` or `SELFDESTRUCT`: its effects, then its
  cost or a gas error -/
  | op (effects : List Effect) (cost : Except GasError UInt64) (next : Trace)
  /-- a call instruction, the callee running `callee` -/
  | call (kind : CallKind) (operands : CallOperands) (callee : Trace) (next : Trace)
  /-- `CREATE` of cost `cost`, with the value from the stack, the init code running `initCode` -/
  | create (cost : Except GasError UInt64) (value : ℕ) (initCode : Trace) (next : Trace)
  /-- `SELFDESTRUCT`, which ends the frame; its gas and refund are an `op` before it -/
  | selfdestruct (beneficiary : Address)

namespace Trace

/-- `operation.writes` of the instruction a trace starts with: the jump table marks `SSTORE`,
`LOG0` .. `LOG4`, `CREATE` and `SELFDESTRUCT`. The gas function of a `SELFDESTRUCT` is an
`op` before it, which writes when it takes the refund. -/
def writes : Trace → Bool
  | .op effects _ _ => effects.any Effect.writes
  | .create .. | .selfdestruct _ => true
  | .halt .. | .call .. => false

/-- The value operand, `stack.Back(2)`, of the `CALL` a trace starts with; `0` for any other
instruction. -/
def callValue : Trace → ℕ
  | .call .CALL o _ _ => o.value
  | _ => 0

end Trace

/-- How a frame ended, `contract.Gas` at its end, what it returned, the state, and the
self-destructs to self it kept. -/
structure Outcome where
  how : Halt
  gas : UInt64
  ret : Bytes
  state : StateDB
  burnt : List (Address × ℤ)

/-- The errors of `EVM.Call` .. `EVM.Create`; `other` is an error of the callee's `Run`. -/
inductive VmError
  | ErrDepth
  | ErrInsufficientBalance
  | ErrContractAddressCollision
  | ErrCodeStoreOutOfGas
  | errMaxCodeSizeExceeded
  | errExecutionReverted
  | other
deriving DecidableEq, Repr

/-- What `EVM.Call` .. `EVM.Create` return: the callee's return data, the gas left, the
error, the state, and the self-destructs to self kept. `Create`'s address is left out. -/
structure Returned where
  ret : Bytes
  gas : UInt64
  err : Option VmError
  state : StateDB
  burnt : List (Address × ℤ)

section Exec

variable (r : Rules) (db : Database)

/-- `CanTransfer`: the balance of `addr` covers `amount`. -/
def CanTransfer (s : StateDB) (addr : Address) (amount : ℕ) : Bool × StateDB :=
  let (balance, s) := s.GetBalance db addr
  (decide ((amount : ℤ) ≤ balance), s)

/-- `Transfer`. -/
def Transfer (s : StateDB) (sender recipient : Address) (amount : ℕ) : StateDB :=
  (s.SubBalance db sender amount).AddBalance db recipient amount

/-- `contract.SetCallCode` reads the code hash and the code of `addr`. -/
def loadCode (s : StateDB) (addr : Address) : StateDB :=
  let (_, s) := s.GetCodeHash db addr
  (s.GetCode db addr).2

/-- The end the calls share once the callee's frame ran: on an error the state goes back
to `snapshot`, and all gas is used up unless the callee reverted. -/
def settle (snapshot : ℕ) (o : Outcome) : Option Returned :=
  match o.how with
  | .stop => some ⟨o.ret, o.gas, none, o.state, o.burnt⟩
  | .revert => (o.state.RevertToSnapshot db snapshot).map fun s => ⟨o.ret, o.gas, some .errExecutionReverted, s, []⟩
  | .error => (o.state.RevertToSnapshot db snapshot).map fun s => ⟨o.ret, 0, some .other, s, []⟩

/-- The error `Create` returns once the code is deposited. -/
def CreateErr.toVmError (maxCodeSizeExceeded : Bool) : CreateErr → Option VmError
  | .none => if maxCodeSizeExceeded then some .errMaxCodeSizeExceeded else Option.none
  | .reverted => some .errExecutionReverted
  | .codeStoreOutOfGas => some .ErrCodeStoreOutOfGas
  | .other => some .other

namespace EVM

variable (precompiled : Address → Bool) (CreateAddress : Address → UInt64 → Address)

/-- `EVM.Call` at depth `depth`, `run` being the frame of the code at `addr` from a gas and
a state; `precompiled` tells the addresses of the precompiled contracts. -/
def Call (depth : ℕ) (caller addr : Address) (gas : UInt64) (value : ℕ)
    (run : UInt64 → StateDB → Option Outcome) (s : StateDB) : Option Returned :=
  if r.NoRecursion ∧ depth > 0 then some ⟨[], gas, none, s, []⟩
  else if depth > CallCreateDepth then some ⟨[], gas, some .ErrDepth, s, []⟩
  else
    let (canTransfer, s) := CanTransfer db s caller value
    if !canTransfer then some ⟨[], gas, some .ErrInsufficientBalance, s, []⟩
    else
      let (snapshot, s) := s.Snapshot
      let (exist, s) := s.Exist db addr
      if !exist ∧ !precompiled addr ∧ r.IsEIP158 ∧ value = 0 then some ⟨[], gas, none, s, []⟩
      else
        let s := if exist then s else s.CreateAccount db addr
        let s := Transfer db s caller addr value
        (run gas (loadCode db s addr)).bind (settle db snapshot)

/-- `EVM.CallCode`: the code of `addr` runs on the caller's account, and no value moves. -/
def CallCode (depth : ℕ) (caller addr : Address) (gas : UInt64) (value : ℕ)
    (run : UInt64 → StateDB → Option Outcome) (s : StateDB) : Option Returned :=
  if r.NoRecursion ∧ depth > 0 then some ⟨[], gas, none, s, []⟩
  else if depth > CallCreateDepth then some ⟨[], gas, some .ErrDepth, s, []⟩
  else
    let (canTransfer, s) := CanTransfer db s caller value
    if !canTransfer then some ⟨[], gas, some .ErrInsufficientBalance, s, []⟩
    else
      let (snapshot, s) := s.Snapshot
      (run gas (loadCode db s addr)).bind (settle db snapshot)

/-- `EVM.DelegateCall`. -/
def DelegateCall (depth : ℕ) (addr : Address) (gas : UInt64)
    (run : UInt64 → StateDB → Option Outcome) (s : StateDB) : Option Returned :=
  if r.NoRecursion ∧ depth > 0 then some ⟨[], gas, none, s, []⟩
  else if depth > CallCreateDepth then some ⟨[], gas, some .ErrDepth, s, []⟩
  else
    let (snapshot, s) := s.Snapshot
    (run gas (loadCode db s addr)).bind (settle db snapshot)

/-- The interpreter's read-only flag while `EVM.StaticCall` runs its callee, and once it
returned: the call sets the flag when it is clear, and its deferred function then clears
it again. -/
def staticReadOnly (readOnly : Bool) : Bool × Bool :=
  if !readOnly then (true, false) else (readOnly, readOnly)

/-- `EVM.StaticCall`: on the state it is `DelegateCall`, its callee running in read-only
mode. -/
def StaticCall (depth : ℕ) (addr : Address) (gas : UInt64) (readOnly : Bool)
    (run : Bool → UInt64 → StateDB → Option Outcome) (s : StateDB) : Option Returned :=
  DelegateCall r db depth addr gas (run (staticReadOnly readOnly).1) s

/-- `EVM.Create`, `CreateAddress` being `crypto.CreateAddress` and `run` the frame of the
init code at the new address. -/
def Create (depth : ℕ) (caller : Address) (gas : UInt64) (value : ℕ)
    (run : Address → UInt64 → StateDB → Option Outcome) (s : StateDB) : Option Returned :=
  if depth > CallCreateDepth then some ⟨[], gas, some .ErrDepth, s, []⟩
  else
    let (canTransfer, s) := CanTransfer db s caller value
    if !canTransfer then some ⟨[], gas, some .ErrInsufficientBalance, s, []⟩
    else
      let (nonce, s) := s.GetNonce db caller
      let s := s.SetNonce db caller (nonce + 1)
      let contractAddr := CreateAddress caller nonce
      let (contractHash, s) := s.GetCodeHash db contractAddr
      let (contractNonce, s) := s.GetNonce db contractAddr
      if contractNonce ≠ 0 ∨ (contractHash ≠ 0 ∧ contractHash ≠ db.emptyCodeHash) then
        some ⟨[], 0, some .ErrContractAddressCollision, s, []⟩
      else
        let (snapshot, s) := s.Snapshot
        let s := s.CreateAccount db contractAddr
        let s := if r.IsEIP158 then s.SetNonce db contractAddr 1 else s
        let s := Transfer db s caller contractAddr value
        if r.NoRecursion ∧ depth > 0 then some ⟨[], gas, none, s, []⟩
        else
          (run contractAddr gas s).bind fun o =>
            let maxCodeSizeExceeded := r.IsEIP158 && decide (o.ret.length > MaxCodeSize)
            let (err, contractGas) := deposit (.ofHalt o.how) maxCodeSizeExceeded o.gas o.ret.length
            -- the code is stored when the deposit is paid
            let s := if err = .none ∧ !maxCodeSizeExceeded then o.state.SetCode db contractAddr (some o.ret)
              else o.state
            let leftOver := createLeftOver r maxCodeSizeExceeded (err, contractGas)
            if maxCodeSizeExceeded ∨ (err ≠ .none ∧ (r.IsHomestead ∨ err ≠ .codeStoreOutOfGas)) then
              (s.RevertToSnapshot db snapshot).map fun s =>
                ⟨o.ret, leftOver, err.toVmError maxCodeSizeExceeded, s, []⟩
            else some ⟨o.ret, leftOver, err.toVmError maxCodeSizeExceeded, s, o.burnt⟩

/-- The call a call instruction makes: the callee runs on the account called, or on the
caller's for `CALLCODE` and `DELEGATECALL`, with the read-only flag of the interpreter. -/
def callOf (kind : CallKind) (depth : ℕ) (readOnly : Bool) (self : Address) (o : CallOperands)
    (gas : UInt64) (run : Bool → Address → UInt64 → StateDB → Option Outcome) (s : StateDB) :
    Option Returned :=
  match kind with
  | .CALL => Call r db precompiled depth self o.toAddr gas o.value (run readOnly o.toAddr) s
  | .CALLCODE => CallCode r db depth self o.toAddr gas o.value (run readOnly self) s
  | .DELEGATECALL => DelegateCall r db depth o.toAddr gas (run readOnly self) s
  | .STATICCALL => StaticCall r db depth o.toAddr gas readOnly (fun ro => run ro o.toAddr) s

/-- The interpreter's read-only flag once the call of a call instruction returned: only
`StaticCall` touches it. -/
def readOnlyAfter (kind : CallKind) (readOnly : Bool) : Bool :=
  match kind with
  | .STATICCALL => (staticReadOnly readOnly).2
  | _ => readOnly

end EVM

namespace Interpreter

variable (precompiled : Address → Bool) (CreateAddress : Address → UInt64 → Address)

/-- The stack operands and the state a call instruction's gas function reads. -/
def callArgs (s : StateDB) (self : Address) (o : CallOperands) : CallArgs :=
  ⟨o.requested, o.value, (s.Exist db o.toAddr).1, (s.Empty db o.toAddr).1, precompiled o.toAddr,
    (CanTransfer db s self o.value).1, o.mem, o.memorySize⟩

/-- `Interpreter.enforceRestrictions`: whether, from Byzantium and in read-only mode, the
instruction a trace starts with fails with `errWriteProtection`, as one that writes or a
`CALL` that transfers value does. -/
def enforceRestrictions (readOnly : Bool) (trace : Trace) : Bool :=
  r.IsByzantium && readOnly && (trace.writes || decide (trace.callValue > 0))

/-- `Interpreter.Run` on a trace, in the frame of the contract at `self` at call depth
`depth`, with the interpreter's read-only flag `readOnly`; `none` when a revert panics.
An instruction whose cost is more than the gas left ends the frame with `ErrOutOfGas`,
and a call instruction adds to `contract.Gas` what the callee leaves. -/
def Run (depth : ℕ) (readOnly : Bool) (self : Address) (trace : Trace) (gas : UInt64) (s : StateDB) :
    Option Outcome :=
  -- `errWriteProtection` comes before the instruction's gas and its effects
  if enforceRestrictions r readOnly trace then some ⟨.error, gas, [], s, []⟩ else
  match trace with
  | .halt how ret => some ⟨how, gas, ret, s, []⟩
  | .op effects cost next =>
    (s.run db (effects.map (Effect.op self))).bind fun s =>
      match cost with
      | .error _ => some ⟨.error, gas, [], s, []⟩
      | .ok cost =>
        if gas < cost then some ⟨.error, gas, [], s, []⟩ else Run depth readOnly self next (gas - cost) s
  | .selfdestruct beneficiary =>
    -- `opSuicide`
    let (balance, s) := s.GetBalance db self
    let s := s.AddBalance db beneficiary balance
    let (_, s) := s.Suicide db self
    some ⟨.stop, gas, [], s, if beneficiary = self then [(self, balance)] else []⟩
  | .call kind o callee next =>
    let a := callArgs db precompiled s self o
    match callCost r kind gas a with
    | .error _ => some ⟨.error, gas, [], s, []⟩
    | .ok (cost, callGasTemp) =>
      if gas < cost then some ⟨.error, gas, [], s, []⟩ else
      (EVM.callOf r db precompiled kind depth readOnly self o (passedGas kind a callGasTemp)
          (fun ro addr g s => Run (depth + 1) ro addr callee g s) s).bind fun c =>
        (Run depth (EVM.readOnlyAfter kind readOnly) self next (gas - cost + c.gas) c.state).map
          fun out => { out with burnt := c.burnt ++ out.burnt }
  | .create cost value initCode next =>
    match cost with
    | .error _ => some ⟨.error, gas, [], s, []⟩
    | .ok cost =>
      if gas < cost then some ⟨.error, gas, [], s, []⟩ else
      let passed := createGas r (gas - cost)
      (EVM.Create r db CreateAddress depth self passed value
          (fun addr g s => Run (depth + 1) readOnly addr initCode g s) s).bind fun c =>
        (Run depth readOnly self next (gas - cost - passed + c.gas) c.state).map fun out =>
          { out with burnt := c.burnt ++ out.burnt }

end Interpreter

end Exec

/-! ## Frames move no ether -/

/-- What a frame does to the state: `t` is reached from `s` through the state's methods,
the revisions valid in `s` stay valid below those it adds, and the sum of all balances
drops by the balances in `burnt`. -/
structure Conserves (db : Database) (s t : StateDB) (burnt : List (Address × ℤ)) : Prop where
  reaches : StateDB.Reaches db s t
  revisions : s.validRevisions <+: t.validRevisions
  total : (t.view db).totalBalance = (s.view db).totalBalance - (burnt.map Prod.snd).sum

namespace Conserves

variable {db : Database} {s t u : StateDB}

theorem refl (s : StateDB) : Conserves db s s [] := ⟨.refl s, List.prefix_refl _, by simp⟩

theorem trans {b₁ b₂ : List (Address × ℤ)} (h₁ : Conserves db s t b₁)
    (h₂ : Conserves db t u b₂) :
    Conserves db s u (b₁ ++ b₂) := by
  refine ⟨h₁.reaches.trans h₂.reaches, h₁.revisions.trans h₂.revisions, ?_⟩
  rw [h₂.total, h₁.total, List.map_append, List.sum_append]
  omega

theorem consistent {b : List (Address × ℤ)} (h : Conserves db s t b) (hs : s.Consistent db) :
    t.Consistent db :=
  h.reaches.consistent hs

theorem nil_trans {b : List (Address × ℤ)} (h₁ : Conserves db s t []) (h₂ : Conserves db t u b) :
    Conserves db s u b := by
  simpa using h₁.trans h₂

theorem trans_nil {b : List (Address × ℤ)} (h₁ : Conserves db s t b) (h₂ : Conserves db t u []) :
    Conserves db s u b := by
  simpa using h₁.trans h₂

theorem of_mutation (hs : s.Consistent db) (op : Op) (hop : op.IsMutation) (h : s.step db op = some t)
    (hb : (t.view db).balance = (s.view db).balance) : Conserves db s t [] := by
  refine ⟨.of_step op h, StateDB.validRevisions_of_mutation hs.objects hop h ▸ List.prefix_refl _, ?_⟩
  rw [totalBalance_congr hb]
  simp

theorem read (hs : s.Consistent db) (q : Query) : Conserves db s (s.read db q) [] :=
  of_mutation hs (.read q) trivial rfl (StateDB.read_balance hs.objects.keyed q)

theorem SetNonce (hs : s.Consistent db) (addr : Address) (nonce : UInt64) :
    Conserves db s (s.SetNonce db addr nonce) [] :=
  of_mutation hs (.SetNonce addr nonce) trivial rfl (StateDB.SetNonce_balance hs.objects.keyed addr nonce)

theorem SetCode (hs : s.Consistent db) (addr : Address) (code : Option Bytes) :
    Conserves db s (s.SetCode db addr code) [] :=
  of_mutation hs (.SetCode addr code) trivial rfl (StateDB.SetCode_balance hs.objects.keyed addr code)

theorem CreateAccount (hs : s.Consistent db) (addr : Address) :
    Conserves db s (s.CreateAccount db addr) [] :=
  of_mutation hs (.CreateAccount addr) trivial rfl (StateDB.CreateAccount_balance hs.objects.keyed addr)

theorem Snapshot (s : StateDB) : Conserves db s s.Snapshot.2 [] :=
  ⟨.of_step .Snapshot rfl, List.prefix_append _ _, by simp [StateDB.Snapshot_view]⟩

theorem Transfer (hs : s.Consistent db) (sender recipient : Address) (amount : ℕ) :
    Conserves db s (Transfer db s sender recipient amount) [] := by
  have hsub : s.step db (.SubBalance sender amount) = some (s.SubBalance db sender amount) := rfl
  have hadd : (s.SubBalance db sender amount).step db (.AddBalance recipient amount) =
      some (Evm.Transfer db s sender recipient amount) := rfl
  have hs' := StateDB.step_consistent hs hsub
  refine ⟨(StateDB.Reaches.of_step _ hsub).trans (.of_step _ hadd), ?_, ?_⟩
  · rw [StateDB.validRevisions_of_mutation hs'.objects (by exact trivial) hadd,
      StateDB.validRevisions_of_mutation hs.objects (by exact trivial) hsub]
  · rw [Evm.Transfer, StateDB.AddBalance_total hs'.objects.keyed, StateDB.SubBalance_total hs.objects.keyed]
    simp

theorem loadCode (hs : s.Consistent db) (addr : Address) : Conserves db s (Evm.loadCode db s addr) [] :=
  (read hs (.GetCodeHash addr)).nil_trans (read ((read hs _).consistent hs) (.GetCode addr))

theorem effect (hs : s.Consistent db) (self : Address) (e : Effect) (h : s.step db (e.op self) = some t) :
    Conserves db s t [] := by
  cases e with
  | read q =>
    cases h
    exact read hs q
  | SetState key value =>
    cases h
    exact of_mutation hs (.SetState self key value) trivial rfl
      (StateDB.SetState_balance hs.objects.keyed self key value)
  | AddRefund gas =>
    cases h
    exact of_mutation hs (.AddRefund gas) trivial rfl (StateDB.AddRefund_balance gas)
  | AddLog log =>
    cases h
    exact of_mutation hs (.AddLog log) trivial rfl (StateDB.AddLog_balance log)
  | AddPreimage hash preimage =>
    cases h
    exact of_mutation hs (.AddPreimage hash preimage) trivial rfl (StateDB.AddPreimage_balance hash preimage)

theorem effects (self : Address) :
    ∀ (es : List Effect) (s t : StateDB), s.Consistent db →
      s.run db (es.map (Effect.op self)) = some t → Conserves db s t []
  | [], s, t, _, h => by
    cases h
    exact refl s
  | e :: es, s, t, hs, h => by
    simp only [List.map_cons, StateDB.run, List.foldlM_cons] at h
    obtain ⟨u, hu, h⟩ := Option.bind_eq_some_iff.mp h
    have h₁ := effect hs self e hu
    exact h₁.nil_trans (effects self es u t (h₁.consistent hs) h)

/-- `opSuicide` credits the contract's balance to the beneficiary and clears the contract:
the balance is gone exactly when the beneficiary is the contract itself. -/
theorem selfdestruct (hs : s.Consistent db) (self beneficiary : Address) :
    Conserves db s
      (((s.read db (.GetBalance self)).AddBalance db beneficiary ((s.view db).balance self)).Suicide db self).2
      (if beneficiary = self then [(self, (s.view db).balance self)] else []) := by
  set b := (s.view db).balance self
  set s₁ := s.read db (.GetBalance self)
  set s₂ := s₁.AddBalance db beneficiary b
  have h₁ : s.step db (.read (.GetBalance self)) = some s₁ := rfl
  have h₂ : s₁.step db (.AddBalance beneficiary b) = some s₂ := rfl
  have h₃ : s₂.step db (.Suicide self) = some (s₂.Suicide db self).2 := rfl
  have hs₁ := StateDB.step_consistent hs h₁
  have hs₂ := StateDB.step_consistent hs₁ h₂
  have hv₁ : s₁.view db = s.view db := (StateDB.read_spec db hs.objects.keyed _).1
  have hb₂ : (s₂.view db).balance self = if beneficiary = self then b + b else b := by
    rw [StateDB.AddBalance_balance hs₁.objects.keyed, hv₁]
    by_cases h : beneficiary = self
    · subst h
      simp [b]
    · simp [Function.update_of_ne (Ne.symm h), h, b]
  refine ⟨((StateDB.Reaches.of_step _ h₁).trans (.of_step _ h₂)).trans (.of_step _ h₃), ?_, ?_⟩
  · rw [StateDB.validRevisions_of_mutation hs₂.objects (by exact trivial) h₃,
      StateDB.validRevisions_of_mutation hs₁.objects (by exact trivial) h₂,
      StateDB.validRevisions_of_mutation hs.objects (by exact trivial) h₁]
  · rw [StateDB.Suicide_total hs₂.objects.keyed, StateDB.AddBalance_total hs₁.objects.keyed, hb₂,
      hv₁]
    split_ifs <;> simp

end Conserves

/-! ## Reverting and settling a call -/

section Settle

variable {db : Database} {s t u : StateDB}

theorem revert_restores (hs : s.Consistent db) (hr : StateDB.Reaches db s.Snapshot.2 t)
    (hrev : s.Snapshot.2.validRevisions <+: t.validRevisions)
    (h : t.RevertToSnapshot db s.Snapshot.1 = some u) :
    StateDB.Reaches db s u ∧ u.validRevisions = s.validRevisions ∧ u.view db = s.view db := by
  have hinv := hs.snapshotInv.run hr.choose_spec
  have hvalid : s.Snapshot.1 ∈ t.validRevisions.map Revision.id := by
    obtain ⟨rest, hrest⟩ := hrev
    rw [← hrest]
    simp [StateDB.Snapshot]
  obtain ⟨hview, hvr⟩ := hinv.revertToSnapshot_view (fun r hr => (hs.bounded r hr).1) hvalid h
  exact ⟨((StateDB.Reaches.of_step .Snapshot rfl).trans hr).trans (.of_step (.RevertToSnapshot _) h),
    hvr, hview⟩

theorem revert_conserves (hs : s.Consistent db) {b : List (Address × ℤ)}
    (ht : Conserves db s.Snapshot.2 t b)
    (h : t.RevertToSnapshot db s.Snapshot.1 = some u) : Conserves db s u [] := by
  obtain ⟨hr, hvr, hview⟩ := revert_restores hs ht.reaches ht.revisions h
  refine ⟨hr, hvr ▸ List.prefix_refl _, ?_⟩
  rw [totalBalance_congr (congrArg View.balance hview)]
  simp

theorem settle_conserves (hs : s.Consistent db) {o : Outcome} {c : Returned}
    (ho : Conserves db s.Snapshot.2 o.state o.burnt) (h : settle db s.Snapshot.1 o = some c) :
    Conserves db s c.state c.burnt ∧ c.gas.toNat ≤ o.gas.toNat := by
  unfold settle at h
  split at h
  · cases h
    exact ⟨(Conserves.Snapshot s).nil_trans ho, le_rfl⟩
  · obtain ⟨u, hu, rfl⟩ := Option.map_eq_some_iff.mp h
    exact ⟨revert_conserves hs ho hu, le_rfl⟩
  · obtain ⟨u, hu, rfl⟩ := Option.map_eq_some_iff.mp h
    exact ⟨revert_conserves hs ho hu, by simp⟩

end Settle

/-! ## Calls and creations move no ether -/

/-- A frame that, from every consistent state, does what `Conserves` says and ends with no
more gas than it was given. -/
def FrameOK (db : Database) (run : UInt64 → StateDB → Option Outcome) : Prop :=
  ∀ gas s o, s.Consistent db → run gas s = some o → Conserves db s o.state o.burnt ∧ o.gas.toNat ≤ gas.toNat

section Calls

variable {r : Rules} {db : Database} {precompiled : Address → Bool} {s : StateDB} {c : Returned}

theorem frame_conserves {run : UInt64 → StateDB → Option Outcome} (hrun : FrameOK db run)
    (hs : s.Consistent db) {t : StateDB} (ht : Conserves db s.Snapshot.2 t []) {gas : UInt64}
    (h : (run gas t).bind (settle db s.Snapshot.1) = some c) :
    Conserves db s c.state c.burnt ∧ c.gas.toNat ≤ gas.toNat := by
  obtain ⟨o, ho, hc⟩ := Option.bind_eq_some_iff.mp h
  obtain ⟨hrun₁, hgas₁⟩ := hrun _ _ _ (ht.consistent ((Conserves.Snapshot s).consistent hs)) ho
  obtain ⟨hc₁, hgas₂⟩ := settle_conserves hs (ht.nil_trans hrun₁) hc
  exact ⟨hc₁, le_trans hgas₂ hgas₁⟩

theorem CanTransfer_eq (s : StateDB) (addr : Address) (amount : ℕ) :
    CanTransfer db s addr amount =
      (decide ((amount : ℤ) ≤ (s.view db).balance addr), s.read db (.GetBalance addr)) := by
  rw [CanTransfer, StateDB.GetBalance_eq]

/-- A call that returned at once, with the state `t`, all its gas and no self-destruct. -/
structure Returned.AtOnce (c : Returned) (t : StateDB) (gas : UInt64) : Prop where
  state : c.state = t
  gas : c.gas = gas
  burnt : c.burnt = []

theorem Returned.AtOnce.conserves {t : StateDB} {gas : UInt64} (hc : c.AtOnce t gas)
    (ht : Conserves db s t []) : Conserves db s c.state c.burnt ∧ c.gas.toNat ≤ gas.toNat := by
  rw [hc.state, hc.burnt, hc.gas]
  exact ⟨ht, le_rfl⟩

/-- What `EVM.Call` can do: return at once, before or after reading the caller's balance or
after the snapshot and the read of `Exist`; or make the missing account called, move the
value and settle the callee's frame. -/
theorem Call_cases {run : UInt64 → StateDB → Option Outcome} {depth : ℕ} {caller addr : Address}
    {gas : UInt64} {value : ℕ} (h : EVM.Call r db precompiled depth caller addr gas value run s = some c) :
    c.AtOnce s gas ∨ ∃ s₁, s₁ = s.read db (.GetBalance caller) ∧ (c.AtOnce s₁ gas ∨
      ∃ s₃, s₃ = s₁.Snapshot.2.read db (.Exist addr) ∧ (c.AtOnce s₃ gas ∨
        ∃ s₄, (s₄ = s₃ ∨ (s₃.accountView db addr = none ∧ s₄ = s₃.CreateAccount db addr)) ∧
          (run gas (loadCode db (Transfer db s₄ caller addr value) addr)).bind
            (settle db s₁.Snapshot.1) = some c)) := by
  unfold EVM.Call at h
  rw [CanTransfer_eq] at h
  dsimp only at h
  rw [← Prod.eta (s.read db (.GetBalance caller)).Snapshot] at h
  dsimp only at h
  rw [← Prod.eta ((s.read db (.GetBalance caller)).Snapshot.2.Exist db addr)] at h
  dsimp only at h
  split_ifs at h with hrec hdepth htransfer hskip hexist
  -- `NoRecursion`, the depth limit and the value return at once, as does a missing account
  -- called without value from EIP-158
  · cases h
    exact .inl ⟨rfl, rfl, rfl⟩
  · cases h
    exact .inl ⟨rfl, rfl, rfl⟩
  · cases h
    exact .inr ⟨_, rfl, .inl ⟨rfl, rfl, rfl⟩⟩
  · cases h
    exact .inr ⟨_, rfl, .inr ⟨_, rfl, .inl ⟨rfl, rfl, rfl⟩⟩⟩
  · exact .inr ⟨_, rfl, .inr ⟨_, rfl, .inr ⟨_, .inl rfl, h⟩⟩⟩
  · -- `Exist` found nothing and left the state as it was
    obtain ⟨hsame, hnone⟩ := StateDB.Exist_of_false (Bool.eq_false_iff.mpr hexist)
    have hread : ((s.read db (.GetBalance caller)).Snapshot.2.read db (.Exist addr)).accountView db addr =
        none := by
      rw [StateDB.read, hsame]
      exact hnone
    exact .inr ⟨_, rfl, .inr ⟨_, rfl, .inr ⟨_, .inr ⟨hread, rfl⟩, h⟩⟩⟩

theorem CallCode_cases {run : UInt64 → StateDB → Option Outcome} {depth : ℕ} {caller addr : Address}
    {gas : UInt64} {value : ℕ} (h : EVM.CallCode r db depth caller addr gas value run s = some c) :
    c.AtOnce s gas ∨ ∃ s₁, s₁ = s.read db (.GetBalance caller) ∧ (c.AtOnce s₁ gas ∨
      (run gas (loadCode db s₁.Snapshot.2 addr)).bind (settle db s₁.Snapshot.1) = some c) := by
  unfold EVM.CallCode at h
  rw [CanTransfer_eq] at h
  dsimp only at h
  rw [← Prod.eta (s.read db (.GetBalance caller)).Snapshot] at h
  dsimp only at h
  split_ifs at h
  · cases h
    exact .inl ⟨rfl, rfl, rfl⟩
  · cases h
    exact .inl ⟨rfl, rfl, rfl⟩
  · cases h
    exact .inr ⟨_, rfl, .inl ⟨rfl, rfl, rfl⟩⟩
  · exact .inr ⟨_, rfl, .inr h⟩

theorem DelegateCall_cases {run : UInt64 → StateDB → Option Outcome} {depth : ℕ} {addr : Address}
    {gas : UInt64} (h : EVM.DelegateCall r db depth addr gas run s = some c) :
    c.AtOnce s gas ∨ (run gas (loadCode db s.Snapshot.2 addr)).bind (settle db s.Snapshot.1) = some c := by
  unfold EVM.DelegateCall at h
  rw [← Prod.eta s.Snapshot] at h
  dsimp only at h
  split_ifs at h
  · cases h
    exact .inl ⟨rfl, rfl, rfl⟩
  · cases h
    exact .inl ⟨rfl, rfl, rfl⟩
  · exact .inr h

theorem Call_conserves {run : UInt64 → StateDB → Option Outcome} (hrun : FrameOK db run)
    (hs : s.Consistent db) {depth : ℕ} {caller addr : Address} {gas : UInt64} {value : ℕ}
    (h : EVM.Call r db precompiled depth caller addr gas value run s = some c) :
    Conserves db s c.state c.burnt ∧ c.gas.toNat ≤ gas.toNat := by
  rcases Call_cases h with hc | ⟨s₁, rfl, h⟩
  · exact hc.conserves (.refl s)
  have h₁ := Conserves.read hs (.GetBalance caller)
  have hs₂ := (Conserves.Snapshot _).consistent (h₁.consistent hs)
  have h₃ := Conserves.read hs₂ (.Exist addr)
  rcases h with hc | ⟨s₃, rfl, hc | ⟨s₄, hs₄, h⟩⟩
  · exact hc.conserves h₁
  · exact hc.conserves (h₁.nil_trans ((Conserves.Snapshot _).nil_trans h₃))
  have h₄ : Conserves db (s.read db (.GetBalance caller)).Snapshot.2 s₄ [] := by
    rcases hs₄ with rfl | ⟨-, rfl⟩
    · exact h₃
    · exact h₃.nil_trans (.CreateAccount (h₃.consistent hs₂) addr)
  have h₅ := h₄.nil_trans (Conserves.Transfer (h₄.consistent hs₂) caller addr value)
  obtain ⟨hc₁, hgas⟩ :=
    frame_conserves hrun (h₁.consistent hs) (h₅.nil_trans (Conserves.loadCode (h₅.consistent hs₂) addr)) h
  exact ⟨h₁.nil_trans hc₁, hgas⟩

theorem CallCode_conserves {run : UInt64 → StateDB → Option Outcome} (hrun : FrameOK db run)
    (hs : s.Consistent db) {depth : ℕ} {caller addr : Address} {gas : UInt64} {value : ℕ}
    (h : EVM.CallCode r db depth caller addr gas value run s = some c) :
    Conserves db s c.state c.burnt ∧ c.gas.toNat ≤ gas.toNat := by
  rcases CallCode_cases h with hc | ⟨s₁, rfl, hc | h⟩
  · exact hc.conserves (.refl s)
  · exact hc.conserves (.read hs _)
  · have h₁ := Conserves.read hs (.GetBalance caller)
    have hs₁ := h₁.consistent hs
    obtain ⟨hc₁, hgas⟩ :=
      frame_conserves hrun hs₁ (Conserves.loadCode ((Conserves.Snapshot _).consistent hs₁) addr) h
    exact ⟨h₁.nil_trans hc₁, hgas⟩

theorem DelegateCall_conserves {run : UInt64 → StateDB → Option Outcome} (hrun : FrameOK db run)
    (hs : s.Consistent db) {depth : ℕ} {addr : Address} {gas : UInt64}
    (h : EVM.DelegateCall r db depth addr gas run s = some c) :
    Conserves db s c.state c.burnt ∧ c.gas.toNat ≤ gas.toNat := by
  rcases DelegateCall_cases h with hc | h
  · exact hc.conserves (.refl s)
  · exact frame_conserves hrun hs (Conserves.loadCode ((Conserves.Snapshot s).consistent hs) addr) h

theorem Create_conserves {CreateAddress : Address → UInt64 → Address}
    {run : Address → UInt64 → StateDB → Option Outcome} (hrun : ∀ addr, FrameOK db (run addr))
    (hs : s.Consistent db) {depth : ℕ} {caller : Address} {gas : UInt64} {value : ℕ}
    (h : EVM.Create r db CreateAddress depth caller gas value run s = some c) :
    Conserves db s c.state c.burnt ∧ c.gas.toNat ≤ gas.toNat := by
  unfold EVM.Create at h
  split at h
  · cases h
    exact ⟨.refl s, le_rfl⟩
  rw [CanTransfer_eq] at h
  dsimp only at h
  set s₁ := s.read db (.GetBalance caller)
  have h₁ := Conserves.read hs (.GetBalance caller)
  split at h
  · cases h
    exact ⟨h₁, le_rfl⟩
  rw [← Prod.eta (s₁.GetNonce db caller)] at h
  dsimp only at h
  set nonce := (s₁.GetNonce db caller).1
  set contractAddr := CreateAddress caller nonce
  -- the nonce of the caller goes up and the new address is read before the snapshot
  have h₅ : Conserves db s ((((s₁.GetNonce db caller).2.SetNonce db caller (nonce + 1)).GetCodeHash db
      contractAddr).2.GetNonce db contractAddr).2 [] := by
    have h₂ := h₁.nil_trans (Conserves.read (h₁.consistent hs) (.GetNonce caller))
    have h₃ := h₂.nil_trans (Conserves.SetNonce (h₂.consistent hs) caller (nonce + 1))
    have h₄ := h₃.nil_trans (Conserves.read (h₃.consistent hs) (.GetCodeHash contractAddr))
    exact h₄.nil_trans (Conserves.read (h₄.consistent hs) (.GetNonce contractAddr))
  set s₅ := ((((s₁.GetNonce db caller).2.SetNonce db caller (nonce + 1)).GetCodeHash db
      contractAddr).2.GetNonce db contractAddr).2
  have hs₅ := h₅.consistent hs
  set s₆ := s₅.Snapshot.2
  have hs₆ := (Conserves.Snapshot s₅).consistent hs₅
  -- the new account, its nonce from EIP-158, and the value
  have h₈ : Conserves db s₆
      (if r.IsEIP158 = true then (s₆.CreateAccount db contractAddr).SetNonce db contractAddr 1
      else s₆.CreateAccount db contractAddr) [] := by
    have h₇ := Conserves.CreateAccount hs₆ contractAddr
    split
    · exact h₇.nil_trans (.SetNonce (h₇.consistent hs₆) contractAddr 1)
    · exact h₇
  have h₉ := h₈.nil_trans (Conserves.Transfer (h₈.consistent hs₆) caller contractAddr value)
  split at h
  · cases h
    exact ⟨h₅, by simp⟩
  split at h
  · cases h
    exact ⟨h₅.nil_trans ((Conserves.Snapshot s₅).nil_trans h₉), le_rfl⟩
  obtain ⟨o, ho, h⟩ := Option.bind_eq_some_iff.mp h
  obtain ⟨hrun₁, hgas₁⟩ := hrun contractAddr _ _ _ (h₉.consistent hs₆) ho
  -- the code deposit: the code is stored, or the state stays
  set m := r.IsEIP158 && decide (o.ret.length > MaxCodeSize)
  set d := deposit (.ofHalt o.how) m o.gas o.ret.length
  have hgas : (createLeftOver r m (d.1, d.2)).toNat ≤ gas.toNat :=
    le_trans (createLeftOver_le m _) (le_trans (deposit_le _ _ _ _) hgas₁)
  have hrun₂ := h₉.nil_trans hrun₁
  have hcode : Conserves db s₆
      (if d.1 = .none ∧ (!m) = true then o.state.SetCode db contractAddr (some o.ret) else o.state)
      o.burnt := by
    split
    · exact hrun₂.trans_nil (.SetCode (hrun₂.consistent hs₆) contractAddr _)
    · exact hrun₂
  split at h
  · obtain ⟨u, hu, rfl⟩ := Option.map_eq_some_iff.mp h
    exact ⟨h₅.nil_trans (revert_conserves hs₅ hcode hu), hgas⟩
  · cases h
    exact ⟨h₅.nil_trans ((Conserves.Snapshot s₅).nil_trans hcode), hgas⟩

theorem callOf_conserves {run : Bool → Address → UInt64 → StateDB → Option Outcome}
    (hrun : ∀ ro addr, FrameOK db (run ro addr))
    (hs : s.Consistent db) {kind : CallKind} {depth : ℕ} {readOnly : Bool} {self : Address}
    {o : CallOperands} {gas : UInt64}
    (h : EVM.callOf r db precompiled kind depth readOnly self o gas run s = some c) :
    Conserves db s c.state c.burnt ∧ c.gas.toNat ≤ gas.toNat := by
  cases kind with
  | CALL => exact Call_conserves (hrun _ _) hs h
  | CALLCODE => exact CallCode_conserves (hrun _ _) hs h
  | DELEGATECALL => exact DelegateCall_conserves (hrun _ _) hs h
  | STATICCALL => exact DelegateCall_conserves (hrun _ _) hs h

/-- Every frame, whatever its code, its read-only flag and at every depth, is a run of the
state's methods that keeps the revisions it found and moves the sum of balances only by
the self-destructs to self it kept, and it ends with no more gas than it started with. -/
theorem Run_conserves (CreateAddress : Address → UInt64 → Address) (trace : Trace) :
    ∀ depth readOnly self,
      FrameOK db (Interpreter.Run r db precompiled CreateAddress depth readOnly self trace) := by
  induction trace with
  | halt how ret =>
    intro depth readOnly self gas s o hs h
    rw [Interpreter.Run] at h
    split at h <;> cases h <;> exact ⟨.refl s, le_rfl⟩
  | op effects cost next ih =>
    intro depth readOnly self gas s o hs h
    rw [Interpreter.Run] at h
    split at h
    · cases h
      exact ⟨.refl s, le_rfl⟩
    obtain ⟨s₁, he, h⟩ := Option.bind_eq_some_iff.mp h
    have h₁ := Conserves.effects self effects s s₁ hs he
    split at h
    · cases h
      exact ⟨h₁, le_rfl⟩
    · split_ifs at h with hlt
      · cases h
        exact ⟨h₁, le_rfl⟩
      · obtain ⟨h₂, hgas⟩ := ih depth readOnly self _ _ _ (h₁.consistent hs) h
        exact ⟨h₁.nil_trans h₂, le_trans hgas (sub_toNat_le hlt)⟩
  | selfdestruct beneficiary =>
    intro depth readOnly self gas s o hs h
    rw [Interpreter.Run] at h
    split at h
    · cases h
      exact ⟨.refl s, le_rfl⟩
    simp only [StateDB.GetBalance_eq] at h
    cases h
    exact ⟨Conserves.selfdestruct hs self beneficiary, le_rfl⟩
  | call kind o callee next ihc ihn =>
    intro depth readOnly self gas s out hs h
    rw [Interpreter.Run] at h
    split at h
    · cases h
      exact ⟨.refl s, le_rfl⟩
    dsimp only at h
    split at h
    · cases h
      exact ⟨.refl s, le_rfl⟩
    · rename_i cost callGasTemp hcost
      split_ifs at h with hlt
      · cases h
        exact ⟨.refl s, le_rfl⟩
      obtain ⟨c, hc, h⟩ := Option.bind_eq_some_iff.mp h
      obtain ⟨out', hout, rfl⟩ := Option.map_eq_some_iff.mp h
      obtain ⟨h₁, hgas₁⟩ := callOf_conserves (fun ro addr => ihc (depth + 1) ro addr) hs hc
      obtain ⟨h₂, hgas₂⟩ := ihn depth _ self _ _ _ (h₁.consistent hs) hout
      exact ⟨h₁.trans h₂,
        le_trans hgas₂ (refund_le hlt (le_trans hgas₁ (passedGas_le_cost hcost)))⟩
  | create cost value initCode next ihi ihn =>
    intro depth readOnly self gas s out hs h
    rw [Interpreter.Run.eq_def] at h
    split at h
    · cases h
      exact ⟨.refl s, le_rfl⟩
    dsimp only at h
    split at h
    · cases h
      exact ⟨.refl s, le_rfl⟩
    · rename_i cost
      split_ifs at h with hlt
      · cases h
        exact ⟨.refl s, le_rfl⟩
      obtain ⟨c, hc, h⟩ := Option.bind_eq_some_iff.mp h
      obtain ⟨out', hout, rfl⟩ := Option.map_eq_some_iff.mp h
      obtain ⟨h₁, hgas₁⟩ := Create_conserves (fun addr => ihi (depth + 1) readOnly addr) hs hc
      obtain ⟨h₂, hgas₂⟩ := ihn depth readOnly self _ _ _ (h₁.consistent hs) hout
      exact ⟨h₁.trans h₂, le_trans hgas₂ (createGas_refund_le hlt hgas₁)⟩

end Calls

end EthereumAI.Evm
