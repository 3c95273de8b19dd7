import EthereumAI.Core.StateTransition

/-! # Applying a transaction (`core/state_processor.go`)

`ApplyTransaction` applies the message of a transaction out of the block's gas pool and, when
`ApplyMessage` returns no error, adds the gas used to the block's `usedGas`. On an error it
returns at once and `usedGas` is as it was; the gas pool is not. `buyGas` takes the message's
gas from the pool before the intrinsic gas is paid and before the value is moved, and
`TransitionDb` returns those two errors without `refundGas`, so the pool stays short by all the
gas the message bought.

The receipt, and the finalisation of the state, are left out: only the gas is followed here.
-/

namespace EthereumAI.Core

open State Evm

/-- `ApplyTransaction`, from the message `tx.AsMessage` makes, with `author` the coinbase of
the block: the gas used or the error, with the gas pool and `usedGas` after the call. -/
def ApplyTransaction (r : Rules) (db : Database) (precompiled : Address → Bool)
    (CreateAddress : Address → UInt64 → Address) (author : Address) (code : Trace)
    (msg : Message) (gp : GasPool) (state : StateDB) (usedGas : UInt64) :
    Option (Except TransitionError UInt64 × GasPool × UInt64) :=
  (ApplyMessage r db precompiled CreateAddress author code msg gp state).map fun res =>
    match res.err with
    | some err => (.error err, res.gp, usedGas)
    | none => (.ok res.usedGas, res.gp, usedGas + res.usedGas)

namespace StateTransition

variable {db : Database} {st st' : StateTransition}

theorem buyGas_gp (h : st.buyGas db = .ok st') : st.msg.Gas ≤ st.gp ∧ st'.gp = st.gp - st.msg.Gas := by
  unfold buyGas at h
  dsimp only at h
  split at h
  · cases h
  split at h
  · cases h
  rename_i gp hsub
  cases h
  unfold GasPool.SubGas at hsub
  split at hsub
  · cases hsub
  · cases hsub
    exact ⟨UInt64.not_lt.mp ‹_›, rfl⟩

theorem preCheck_gp (h : st.preCheck db = .ok st') : st.msg.Gas ≤ st.gp ∧ st'.gp = st.gp - st.msg.Gas := by
  unfold preCheck at h
  split at h
  · -- the nonce is read before `buyGas`
    rw [← Prod.eta (st.state.GetNonce db st.msg.From)] at h
    dsimp only at h
    split at h
    · cases h
    split at h
    · cases h
    have hb := buyGas_gp h
    exact hb
  · exact buyGas_gp h

end StateTransition

section Errors

variable {r : Rules} {db : Database} {precompiled : Address → Bool}
  {CreateAddress : Address → UInt64 → Address} {coinbase : Address} {code : Trace}
  {msg : Message} {gp : GasPool} {state : StateDB} {res : Applied}

/-- A message that fails leaves the gas pool as it was when a check before `buyGas` fails,
and short by the message's gas when the intrinsic gas or the value transfer fails. -/
theorem ApplyMessage_error_gp {err : TransitionError}
    (h : ApplyMessage r db precompiled CreateAddress coinbase code msg gp state = some res)
    (herr : res.err = some err) :
    res.gp = gp ∨ (msg.Gas ≤ gp ∧ res.gp = gp - msg.Gas) := by
  unfold ApplyMessage StateTransition.TransitionDb at h
  split at h
  · -- the nonce or the balance for the gas
    cases h
    exact .inl rfl
  rename_i st₁ h₁
  obtain ⟨hle, hgp⟩ := StateTransition.preCheck_gp h₁
  have hbought : msg.Gas ≤ gp ∧ st₁.gp = gp - msg.Gas := ⟨hle, hgp⟩
  right
  split at h
  · -- the intrinsic gas
    cases h
    exact hbought
  rename_i st₂ h₂
  obtain ⟨gas, -, h₂⟩ := Lib.except_bind_eq_ok.mp h₂
  obtain ⟨-, rfl⟩ := StateTransition.useGas_eq h₂
  obtain ⟨c, -, h⟩ := Option.bind_eq_some_iff.mp h
  split at h
  · -- the value transfer
    cases h
    exact hbought
  · obtain ⟨st₃, -, rfl⟩ := Option.map_eq_some_iff.mp h
    cases herr

theorem ApplyTransaction_error {err : TransitionError} {usedGas usedGas' : UInt64} {gp' : GasPool}
    (h : ApplyTransaction r db precompiled CreateAddress coinbase code msg gp state usedGas =
      some (.error err, gp', usedGas')) :
    usedGas' = usedGas ∧ (gp' = gp ∨ (msg.Gas ≤ gp ∧ gp' = gp - msg.Gas)) := by
  unfold ApplyTransaction at h
  obtain ⟨res, hres, h⟩ := Option.map_eq_some_iff.mp h
  cases herr : res.err with
  | none =>
    rw [herr] at h
    cases h
  | some e =>
    rw [herr] at h
    cases h
    exact ⟨rfl, ApplyMessage_error_gp hres herr⟩

end Errors

/-- Account `1` holds 10 and sends 20 to account `2` at gas price 0 with 21000 gas, out of a
block gas pool of 50000. The balance check of `buyGas` passes (the gas costs nothing), the
pool gives 21000, the intrinsic gas takes it all, and the transfer fails: the transaction is
refused with `ErrInsufficientBalance`, and the pool is left at 29000. -/
theorem ApplyTransaction_failed_keeps_gas :
    ∃ s, StateDB.New.run StateDB.memDatabase [.AddBalance 1 10] = some s ∧
      ApplyTransaction ⟨true, true, true, true, false⟩ StateDB.memDatabase (fun _ => false) (fun _ _ => 9) 7
        (.halt .stop []) ⟨1, some 2, 0, 21000, 20, 0, true, []⟩ 50000 s 0 =
        some (.error .ErrInsufficientBalance, 29000, 0) :=
  ⟨_, rfl, rfl⟩

end EthereumAI.Core
