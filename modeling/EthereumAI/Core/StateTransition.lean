import EthereumAI.Evm.Calls
import EthereumAI.Lib.Fuel

/-! # Applying a message (`core/state_transition.go`, `core/gaspool.go`)

`ApplyMessage` checks the sender's nonce, buys the message's gas from the sender at its
price out of the block's gas pool, pays the intrinsic gas, and runs the creation or the
call at depth 0, the sender's nonce going up first for a call. It then refunds the
sender the gas left and the refund counter, capped at half the gas used, returns that
gas to the pool, and pays the coinbase for the gas used.

The code of the callee, or the init code, runs a `Trace`; `ApplyMessage` is `none` where
the code panics (a revert to a snapshot that is not valid, a gas pool pushed above
`uint64`). A failed check reports the state from before its own reads, which differs
from the code's only in what the caches hold: a caller drops that state.
-/

namespace EthereumAI.Core

open State Evm

/-- `params.TxGas`. -/
def TxGas : UInt64 := 21000

/-- `params.TxGasContractCreation`. -/
def TxGasContractCreation : UInt64 := 53000

/-- `params.TxDataZeroGas`. -/
def TxDataZeroGas : UInt64 := 4

/-- `params.TxDataNonZeroGas`. -/
def TxDataNonZeroGas : UInt64 := 68

/-- The errors `TransitionDb` returns. -/
inductive TransitionError
  | ErrNonceTooHigh
  | ErrNonceTooLow
  | errInsufficientBalanceForGas
  | ErrGasLimitReached
  | ErrOutOfGas
  | ErrInsufficientBalance
deriving DecidableEq, Repr

/-- `Message`; `To` is `none` for a contract creation. -/
structure Message where
  From : Address
  To : Option Address
  GasPrice : ℕ
  Gas : UInt64
  Value : ℕ
  Nonce : UInt64
  CheckNonce : Bool
  Data : Bytes

/-- `GasPool`. -/
abbrev GasPool := UInt64

/-- `GasPool.AddGas`; `none` where it panics. -/
def GasPool.AddGas (gp : GasPool) (amount : UInt64) : Option GasPool :=
  if gp > 0xFFFFFFFFFFFFFFFF - amount then none else some (gp + amount)

/-- `GasPool.SubGas`. -/
def GasPool.SubGas (gp : GasPool) (amount : UInt64) : Except TransitionError GasPool :=
  if gp < amount then .error .ErrGasLimitReached else .ok (gp - amount)

/-- `IntrinsicGas`: the gas a message pays before its code runs. -/
def IntrinsicGas (data : Bytes) (contractCreation homestead : Bool) : Except TransitionError UInt64 :=
  let gas := if contractCreation && homestead then TxGasContractCreation else TxGas
  if data.length > 0 then
    -- zero and non-zero bytes are priced differently, and no sum may pass `uint64`
    let nz : UInt64 := (data.countP (· != 0)).toUInt64
    if (0xFFFFFFFFFFFFFFFF - gas) / TxDataNonZeroGas < nz then .error .ErrOutOfGas else
    let gas := gas + nz * TxDataNonZeroGas
    let z := data.length.toUInt64 - nz
    if (0xFFFFFFFFFFFFFFFF - gas) / TxDataZeroGas < z then .error .ErrOutOfGas else
    .ok (gas + z * TxDataZeroGas)
  else .ok gas

/-- `StateTransition`, with the `StateDB` of its EVM. -/
structure StateTransition where
  gp : GasPool
  msg : Message
  gas : UInt64
  gasPrice : ℕ
  initialGas : UInt64
  value : ℕ
  data : Bytes
  state : StateDB

/-- `NewStateTransition`. -/
def NewStateTransition (msg : Message) (gp : GasPool) (state : StateDB) : StateTransition :=
  ⟨gp, msg, 0, msg.GasPrice, 0, msg.Value, msg.Data, state⟩

/-- What `ApplyMessage` returns, `ret`, `usedGas`, `failed` and `err`, with the state and
the gas pool it leaves and the self-destructs to self its frames kept. -/
structure Applied where
  ret : Bytes
  usedGas : UInt64
  failed : Bool
  err : Option TransitionError
  state : StateDB
  gp : GasPool
  burnt : List (Address × ℤ)

namespace StateTransition

section Methods

variable (db : Database) (st : StateTransition)

/-- `useGas`. -/
def useGas (amount : UInt64) : Except TransitionError StateTransition :=
  if st.gas < amount then .error .ErrOutOfGas else .ok { st with gas := st.gas - amount }

/-- `buyGas`: the sender pays for the message's gas at its price. -/
def buyGas : Except TransitionError StateTransition :=
  let mgval := st.msg.Gas.toNat * st.gasPrice
  let (balance, state) := st.state.GetBalance db st.msg.From
  if balance < mgval then .error .errInsufficientBalanceForGas else
  match st.gp.SubGas st.msg.Gas with
  | .error err => .error err
  | .ok gp =>
    .ok { st with gp, gas := st.gas + st.msg.Gas, initialGas := st.msg.Gas,
                  state := state.SubBalance db st.msg.From mgval }

/-- `preCheck`. -/
def preCheck : Except TransitionError StateTransition :=
  if st.msg.CheckNonce then
    let (nonce, state) := st.state.GetNonce db st.msg.From
    if nonce < st.msg.Nonce then .error .ErrNonceTooHigh
    else if nonce > st.msg.Nonce then .error .ErrNonceTooLow
    else { st with state }.buyGas db
  else st.buyGas db

/-- `gasUsed`. -/
def gasUsed : UInt64 := st.initialGas - st.gas

/-- `refundGas`: the gas left and the refund counter, capped at half the gas used, go back
to the sender at the message's price and to the gas pool. -/
def refundGas : Option StateTransition :=
  let refund := st.gasUsed / 2
  let refund := if refund > st.state.GetRefund then st.state.GetRefund else refund
  let st := { st with gas := st.gas + refund }
  let remaining := st.gas.toNat * st.gasPrice
  let state := st.state.AddBalance db st.msg.From remaining
  (st.gp.AddGas st.gas).map fun gp => { st with state, gp }

/-- What `TransitionDb` returns on an error. -/
def fail (err : TransitionError) : Applied := ⟨[], 0, false, some err, st.state, st.gp, []⟩

end Methods

section Transition

variable (r : Rules) (db : Database) (precompiled : Address → Bool)
  (CreateAddress : Address → UInt64 → Address) (coinbase : Address) (code : Trace)

/-- The `evm.Create` or `evm.Call` of `TransitionDb`, at depth 0; the code of the new
contract or of the account called runs `code`. -/
def execute (st : StateTransition) : Option Returned :=
  let sender := st.msg.From
  match st.msg.To with
  | none =>
    EVM.Create r db CreateAddress 0 sender st.gas st.value
      (fun addr => Interpreter.Run r db precompiled CreateAddress 1 false addr code) st.state
  | some recipient =>
    -- increment the nonce for the next transaction
    let (nonce, state) := st.state.GetNonce db sender
    let state := state.SetNonce db sender (nonce + 1)
    EVM.Call r db precompiled 0 sender recipient st.gas st.value
      (Interpreter.Run r db precompiled CreateAddress 1 false recipient code) state

/-- `TransitionDb`, with `IsHomestead` of the block's rules and `coinbase` its `Coinbase`. -/
def TransitionDb (st : StateTransition) : Option Applied :=
  match st.preCheck db with
  | .error err => some (st.fail err)
  | .ok st =>
    -- pay intrinsic gas
    match IntrinsicGas st.data st.msg.To.isNone r.IsHomestead >>= st.useGas with
    | .error err => some (st.fail err)
    | .ok st =>
      (st.execute r db precompiled CreateAddress code).bind fun c =>
        let st := { st with gas := c.gas, state := c.state }
        -- the only consensus error: the first value transfer may never fail
        if c.err = some .ErrInsufficientBalance then some (st.fail .ErrInsufficientBalance)
        else (st.refundGas db).map fun st =>
          ⟨c.ret, st.gasUsed, c.err.isSome, none,
            st.state.AddBalance db coinbase (st.gasUsed.toNat * st.gasPrice), st.gp, c.burnt⟩

end Transition

end StateTransition

/-- `ApplyMessage`. -/
def ApplyMessage (r : Rules) (db : Database) (precompiled : Address → Bool)
    (CreateAddress : Address → UInt64 → Address) (coinbase : Address) (code : Trace)
    (msg : Message) (gp : GasPool) (state : StateDB) : Option Applied :=
  (NewStateTransition msg gp state).TransitionDb r db precompiled CreateAddress coinbase code

/-! ## Messages move no ether -/

/-- `t` is reached from `s` by the state's methods, and the sum of all balances moved by
`delta`. -/
structure Moves (db : Database) (s t : StateDB) (delta : ℤ) : Prop where
  reaches : StateDB.Reaches db s t
  total : (t.view db).totalBalance = (s.view db).totalBalance + delta

namespace Moves

variable {db : Database} {s t u : StateDB}

theorem trans {d₁ d₂ : ℤ} (h₁ : Moves db s t d₁) (h₂ : Moves db t u d₂) :
    Moves db s u (d₁ + d₂) :=
  ⟨h₁.reaches.trans h₂.reaches, by rw [h₂.total, h₁.total, add_assoc]⟩

theorem of_conserves {b : List (Address × ℤ)} (h : Conserves db s t b) :
    Moves db s t (-(b.map Prod.snd).sum) :=
  ⟨h.reaches, by rw [h.total, sub_eq_add_neg]⟩

theorem consistent {d : ℤ} (h : Moves db s t d) (hs : s.Consistent db) : t.Consistent db :=
  h.reaches.consistent hs

theorem AddBalance (hs : s.Consistent db) (addr : Address) (amount : ℤ) :
    Moves db s (s.AddBalance db addr amount) amount :=
  ⟨.of_step (.AddBalance addr amount) rfl, StateDB.AddBalance_total hs.objects.keyed addr amount⟩

theorem SubBalance (hs : s.Consistent db) (addr : Address) (amount : ℤ) :
    Moves db s (s.SubBalance db addr amount) (-amount) :=
  ⟨.of_step (.SubBalance addr amount) rfl, by
    rw [StateDB.SubBalance_total hs.objects.keyed addr amount, sub_eq_add_neg]⟩

end Moves

namespace StateTransition

section Specs

variable {db : Database} {st st' : StateTransition}

theorem useGas_eq {amount : UInt64} (h : st.useGas amount = .ok st') :
    amount ≤ st.gas ∧ st' = { st with gas := st.gas - amount } := by
  unfold useGas at h
  split at h
  · cases h
  · cases h
    exact ⟨UInt64.not_lt.mp ‹_›, rfl⟩

theorem buyGas_spec (hs : st.state.Consistent db) (h : st.buyGas db = .ok st') :
    ∃ gp state, st' = { st with gp, gas := st.gas + st.msg.Gas, initialGas := st.msg.Gas, state } ∧
      Moves db st.state state (-(st.msg.Gas.toNat * st.gasPrice : ℕ)) := by
  unfold buyGas at h
  rw [StateDB.GetBalance_eq] at h
  dsimp only at h
  split at h
  · cases h
  split at h
  · cases h
  cases h
  have hr := Moves.of_conserves (Conserves.read hs (.GetBalance st.msg.From))
  refine ⟨_, _, rfl, ?_⟩
  simpa using hr.trans (Moves.SubBalance (hr.consistent hs) st.msg.From _)

theorem preCheck_spec (hs : st.state.Consistent db) (h : st.preCheck db = .ok st') :
    ∃ gp state, st' = { st with gp, gas := st.gas + st.msg.Gas, initialGas := st.msg.Gas, state } ∧
      Moves db st.state state (-(st.msg.Gas.toNat * st.gasPrice : ℕ)) := by
  unfold preCheck at h
  split at h
  · -- the nonce's read loads the sender's object before `buyGas`
    rw [← Prod.eta (st.state.GetNonce db st.msg.From)] at h
    dsimp only at h
    split at h
    · cases h
    split at h
    · cases h
    have hr := Moves.of_conserves (Conserves.read hs (.GetNonce st.msg.From))
    obtain ⟨gp, state, rfl, hm⟩ := buyGas_spec (hr.consistent hs) h
    exact ⟨gp, state, rfl, by simpa using hr.trans hm⟩
  · exact buyGas_spec hs h

theorem refund_add_le {gas initialGas refund : UInt64} (hg : gas ≤ initialGas)
    (hr : refund ≤ (initialGas - gas) / 2) : (gas + refund).toNat ≤ initialGas.toNat := by
  have hsub : (initialGas - gas).toNat = initialGas.toNat - gas.toNat := UInt64.toNat_sub_of_le _ _ hg
  have hr' := UInt64.le_iff_toNat_le.mp hr
  have hg' := UInt64.le_iff_toNat_le.mp hg
  have hlt := UInt64.toNat_lt initialGas
  rw [UInt64.toNat_div, hsub] at hr'
  rw [UInt64.toNat_add]
  simp only [UInt64.reduceToNat] at hr'
  omega

theorem refundGas_spec (h : st.refundGas db = some st') :
    ∃ refund gp, refund ≤ st.gasUsed / 2 ∧
      st' = { st with gas := st.gas + refund, gp,
                      state := st.state.AddBalance db st.msg.From
                        ((st.gas + refund).toNat * st.gasPrice) } := by
  unfold refundGas at h
  obtain ⟨gp, -, rfl⟩ := Option.map_eq_some_iff.mp h
  refine ⟨_, gp, ?_, rfl⟩
  split
  · exact UInt64.le_of_lt ‹_›
  · exact UInt64.le_refl _

/-- The refund to the sender and the payment to `coinbase` together return the price of
the gas bought, and the gas used is at most the gas bought. -/
theorem refundGas_pays (coinbase : Address) (hs : st.state.Consistent db) (hg : st.gas ≤ st.initialGas)
    (h : st.refundGas db = some st') :
    st'.gasUsed ≤ st.initialGas ∧
      Moves db st.state (st'.state.AddBalance db coinbase (st'.gasUsed.toNat * st'.gasPrice))
        (st.initialGas.toNat * st.gasPrice : ℕ) := by
  obtain ⟨refund, gp, hr, rfl⟩ := refundGas_spec h
  have hle := refund_add_le hg hr
  have hused : (st.initialGas - (st.gas + refund)).toNat = st.initialGas.toNat - (st.gas + refund).toNat :=
    UInt64.toNat_sub_of_le _ _ (UInt64.le_iff_toNat_le.mpr hle)
  have h₁ := Moves.AddBalance hs st.msg.From ((st.gas + refund).toNat * st.gasPrice)
  have h₂ := Moves.AddBalance (h₁.consistent hs) coinbase
    ((st.initialGas - (st.gas + refund)).toNat * st.gasPrice)
  have hsum : (st.gas + refund).toNat * st.gasPrice +
      (st.initialGas - (st.gas + refund)).toNat * st.gasPrice = st.initialGas.toNat * st.gasPrice := by
    rw [hused, ← Nat.add_mul, Nat.add_sub_cancel' hle]
  refine ⟨UInt64.le_iff_toNat_le.mpr (by rw [gasUsed, hused]; omega), ?_⟩
  have h₃ := h₁.trans h₂
  rw [← hsum]
  exact_mod_cast h₃

end Specs

section Transition

variable {r : Rules} {db : Database} {precompiled : Address → Bool}
  {CreateAddress : Address → UInt64 → Address} {code : Trace} {st : StateTransition} {c : Returned}

theorem execute_conserves (hs : st.state.Consistent db)
    (h : st.execute r db precompiled CreateAddress code = some c) :
    Conserves db st.state c.state c.burnt ∧ c.gas.toNat ≤ st.gas.toNat := by
  unfold execute at h
  split at h
  · exact Create_conserves (fun addr => Run_conserves CreateAddress code 1 false addr) hs h
  · -- the nonce of the sender goes up before the call
    dsimp only at h
    rw [← Prod.eta (st.state.GetNonce db st.msg.From)] at h
    dsimp only at h
    have h₁ := Conserves.read hs (.GetNonce st.msg.From)
    have h₂ := Conserves.SetNonce (h₁.consistent hs) st.msg.From
      ((st.state.GetNonce db st.msg.From).1 + 1)
    obtain ⟨h₃, hgas⟩ :=
      Call_conserves (Run_conserves CreateAddress code 1 false _) (h₂.consistent (h₁.consistent hs)) h
    exact ⟨h₁.nil_trans (h₂.nil_trans h₃), hgas⟩

end Transition

end StateTransition

/-- A message applied without error uses at most its gas and creates no ether: the sum of
all balances afterwards is the sum before less, for each self-destruct to self that no
revert undid, the balance its contract held then. What the sender pays for the gas, what
it gets back and what the coinbase gets cancel out. -/
theorem ApplyMessage_conserves_ether (r : Rules) (db : Database) (precompiled : Address → Bool)
    (CreateAddress : Address → UInt64 → Address) (coinbase : Address) (code : Trace)
    (history : List Op) (s : StateDB) (msg : Message) (gp : GasPool) (res : Applied)
    (hs : StateDB.New.run db history = some s)
    (h : ApplyMessage r db precompiled CreateAddress coinbase code msg gp s = some res)
    (herr : res.err = none) :
    res.usedGas ≤ msg.Gas ∧
      ∑ a, (res.state.GetBalance db a).1 = ∑ a, (s.GetBalance db a).1 - (res.burnt.map Prod.snd).sum := by
  have hc : s.Consistent db := StateDB.run_consistent (StateDB.New_consistent db) hs
  unfold ApplyMessage StateTransition.TransitionDb at h
  split at h
  · cases h
    cases herr
  rename_i st₁ h₁
  obtain ⟨gp₁, s₁, rfl, hm₁⟩ := StateTransition.preCheck_spec hc h₁
  split at h
  · cases h
    cases herr
  rename_i st₂ h₂
  -- the intrinsic gas is paid out of the gas bought
  obtain ⟨gas, -, h₂⟩ := Lib.except_bind_eq_ok.mp h₂
  obtain ⟨hle, rfl⟩ := StateTransition.useGas_eq h₂
  obtain ⟨c, hc₁, h⟩ := Option.bind_eq_some_iff.mp h
  obtain ⟨hcon, hgas⟩ := StateTransition.execute_conserves (hm₁.consistent hc) hc₁
  split at h
  · cases h
    cases herr
  obtain ⟨st₃, h₃, rfl⟩ := Option.map_eq_some_iff.mp h
  -- the frame leaves at most the gas left after the intrinsic gas
  have hg : c.gas ≤ msg.Gas := by
    have := sub_toNat_le (UInt64.not_lt.mpr hle)
    simp only [NewStateTransition, UInt64.zero_add] at hgas this
    exact UInt64.le_iff_toNat_le.mpr (le_trans hgas this)
  have hcons := hcon.consistent (hm₁.consistent hc)
  obtain ⟨hused, hm₃⟩ := StateTransition.refundGas_pays coinbase hcons hg h₃
  have hm := (hm₁.trans (Moves.of_conserves hcon)).trans hm₃
  refine ⟨hused, ?_⟩
  simp only [StateDB.GetBalance_fst]
  show View.totalBalance _ = View.totalBalance _ - _
  rw [hm.total]
  dsimp only [NewStateTransition]
  omega

/-- A message from `1` sending 5 to a new account `2` whose code self-destructs to itself:
the 5 are burnt, and the 21000 gas bought at price 1 go to the coinbase `7`. -/
theorem ApplyMessage_conserves_ether_selfdestruct :
    ∃ s res, StateDB.New.run StateDB.memDatabase [.AddBalance 1 100000] = some s ∧
      ApplyMessage ⟨true, true, true, true, false⟩ StateDB.memDatabase (fun _ => false) (fun _ _ => 9) 7
        (.selfdestruct 2) ⟨1, some 2, 1, 21000, 5, 0, true, []⟩ 21000 s = some res ∧ res.err = none ∧
      res.burnt = [(2, 5)] ∧ res.usedGas ≤ 21000 ∧
      ∑ a, (res.state.GetBalance StateDB.memDatabase a).1 =
        ∑ a, (s.GetBalance StateDB.memDatabase a).1 - (res.burnt.map Prod.snd).sum := by
  refine ⟨_, _, rfl, rfl, rfl, rfl, ?_⟩
  exact ApplyMessage_conserves_ether ⟨true, true, true, true, false⟩ StateDB.memDatabase (fun _ => false)
    (fun _ _ => 9) 7 (.selfdestruct 2) [.AddBalance 1 100000] _ ⟨1, some 2, 1, 21000, 5, 0, true, []⟩
    21000 _ rfl rfl (by rfl)

end EthereumAI.Core
