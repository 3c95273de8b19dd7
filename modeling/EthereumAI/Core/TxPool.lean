import EthereumAI.Core.TxList
import EthereumAI.Core.TxPricedList
import EthereumAI.Core.StateTransition

/-! # Admitting a transaction to the pool (`core/tx_pool.go`)

`add` refuses a known transaction, then one that fails `validateTx`. When the pool is full it
refuses a remote transaction no dearer than the cheapest in the pool, and otherwise evicts the
cheapest remote ones to make room. Only then does it look at the sender's lists: a transaction at
a nonce already pending replaces the pending one if its price is bumped enough and is refused
otherwise, and any other goes to the sender's queue, under the same rule.

So an error can come after the eviction: on a full pool a replacement refused for its price has
already cost the pool the transactions evicted for it. Every other error leaves the pool's
transactions, its lists and its locals as they were, the price heap losing at most stale
entries.

The state database is read through the sender's nonce and balance; `pendingState`, the managed
state of the pending nonces, is a map of the nonces set over those of the state.
-/

namespace EthereumAI.Core

open EthereumAI.Types EthereumAI.Lib

/-- The errors of `validateTx` and `add`. -/
inductive PoolError
  | ErrInvalidSender
  | ErrNonceTooLow
  | ErrUnderpriced
  | ErrReplaceUnderpriced
  | ErrInsufficientFunds
  | ErrIntrinsicGas
  | ErrGasLimit
  | ErrNegativeValue
  | ErrOversizedData
  /-- `vm.ErrOutOfGas`, from `IntrinsicGas`. -/
  | ErrOutOfGas
  /-- `fmt.Errorf("known transaction: %x", hash)`. -/
  | knownTransaction (hash : Hash)
deriving DecidableEq, Repr

/-- `%x` of a hash: its 32 bytes as 64 lowercase hexadecimal digits. -/
def hashHex (hash : Hash) : String :=
  String.ofList ((List.range 64).reverse.map fun i => Nat.digitChar (hash.val / 16 ^ i % 16))

def PoolError.Error : PoolError → String
  | .ErrInvalidSender => "invalid sender"
  | .ErrNonceTooLow => "nonce too low"
  | .ErrUnderpriced => "transaction underpriced"
  | .ErrReplaceUnderpriced => "replacement transaction underpriced"
  | .ErrInsufficientFunds => "insufficient funds for gas * price + value"
  | .ErrIntrinsicGas => "intrinsic gas too low"
  | .ErrGasLimit => "exceeds block gas limit"
  | .ErrNegativeValue => "negative value"
  | .ErrOversizedData => "oversized data"
  | .ErrOutOfGas => "out of gas"
  | .knownTransaction hash => "known transaction: " ++ hashHex hash

/-- The fields of `TxPoolConfig` that `add` reads. -/
structure TxPoolConfig where
  PriceBump : UInt64
  GlobalSlots : UInt64
  GlobalQueue : UInt64

/-- `TxPool`: the state `add` reads and writes. `codec` is the signer and the hashing,
`currentNonce` and `currentBalance` read `currentState`. -/
structure TxPool where
  config : TxPoolConfig
  codec : TxCodec
  gasPrice : ℤ
  currentMaxGas : UInt64
  homestead : Bool
  currentNonce : Address → UInt64
  currentBalance : Address → ℤ
  pendingState : AList (fun _ : Address => UInt64)
  locals : accountSet
  pending : AList (fun _ : Address => txList)
  queue : AList (fun _ : Address => txList)
  beats : AList (fun _ : Address => ℕ)
  all : AList (fun _ : Hash => Transaction)
  priced : txPricedList

def accountSet.add (as : accountSet) (addr : Address) : accountSet :=
  if as.contains addr then as else ⟨addr :: as.accounts⟩

namespace TxPool

/-- `pendingState.GetNonce`. -/
def pendingNonce (pool : TxPool) (addr : Address) : UInt64 :=
  (pool.pendingState.lookup addr).getD (pool.currentNonce addr)

/-- The sender of a transaction already validated; Go's `from, _ :=` gives the zero address where
recovery fails. -/
def senderOf (pool : TxPool) (tx : Transaction) : Address := (pool.codec.Sender tx).getD 0

/-- `validateTx`, its checks in the order of the source. -/
def validateTx (pool : TxPool) (tx : Transaction) (isLocal : Bool) : Except PoolError Unit := do
  if pool.codec.Size tx > 32 * 1024 then throw .ErrOversizedData
  if tx.Value < 0 then throw .ErrNegativeValue
  if pool.currentMaxGas < tx.Gas then throw .ErrGasLimit
  let some addr := pool.codec.Sender tx | throw .ErrInvalidSender
  -- the account may be local even if the transaction arrived from the network
  let isLocal := isLocal || pool.locals.contains addr
  if !isLocal && pool.gasPrice > tx.GasPrice then throw .ErrUnderpriced
  if pool.currentNonce addr > tx.Nonce then throw .ErrNonceTooLow
  if pool.currentBalance addr < tx.Cost then throw .ErrInsufficientFunds
  match IntrinsicGas tx.Data tx.To.isNone pool.homestead with
  | .error _ => throw .ErrOutOfGas
  | .ok intrGas => if tx.Gas < intrGas then throw .ErrIntrinsicGas

/-- The pool after `delete(pool.all, old.Hash())` and `pool.priced.Removed()`. -/
def dropReplaced (pool : TxPool) (old : Transaction) : TxPool :=
  let all := pool.all.erase (pool.codec.Hash old)
  { pool with all, priced := pool.priced.Removed all }

/-- `enqueueTx`: the sender's queue is made if there is none, and the transaction goes in if it
is new at its nonce or replaces for a bumped price. -/
def enqueueTx (pool : TxPool) (hash : Hash) (tx : Transaction) : TxPool × Except PoolError Bool :=
  let addr := pool.senderOf tx
  let pool := if pool.queue.lookup addr = none then
      { pool with queue := pool.queue.insert addr (newTxList false) } else pool
  let list := (pool.queue.lookup addr).getD (newTxList false)
  let r := list.Add tx pool.config.PriceBump
  if !r.2.1 then (pool, .error .ErrReplaceUnderpriced) else
  let pool := { pool with queue := pool.queue.insert addr r.1 }
  let pool := match r.2.2 with
    | some old => pool.dropReplaced old
    | none => pool
  let pool := if (pool.all.lookup hash).isNone then
      { pool with all := pool.all.insert hash tx, priced := pool.priced.Put tx } else pool
  (pool, .ok r.2.2.isSome)

/-- The queue part of `removeTx`. -/
def removeFromQueue (pool : TxPool) (addr : Address) (tx : Transaction) : TxPool :=
  match pool.queue.lookup addr with
  | none => pool
  | some future =>
    let future := (future.Remove tx).1
    if future.Empty then { pool with queue := pool.queue.erase addr }
    else { pool with queue := pool.queue.insert addr future }

/-- `removeTx`: out of the map of all transactions, then out of the sender's pending list, the
transactions it invalidates going back to the queue and the pending nonce down to the removed
one's, or else out of the sender's queue. -/
def removeTx (pool : TxPool) (hash : Hash) (outofbound : Bool) : TxPool :=
  match pool.all.lookup hash with
  | none => pool
  | some tx =>
    let addr := pool.senderOf tx
    let all := pool.all.erase hash
    let pool := { pool with all }
    let pool := if outofbound then { pool with priced := pool.priced.Removed all } else pool
    match pool.pending.lookup addr with
    | some pending =>
      let r := pending.Remove tx
      if r.2.1 then
        let pool := if r.1.Empty then
            { pool with pending := pool.pending.erase addr, beats := pool.beats.erase addr }
          else { pool with pending := pool.pending.insert addr r.1 }
        let pool := r.2.2.foldl (fun pool tx => (pool.enqueueTx (pool.codec.Hash tx) tx).1) pool
        if pool.pendingNonce addr > tx.Nonce then
          { pool with pendingState := pool.pendingState.insert addr tx.Nonce } else pool
      else pool.removeFromQueue addr tx
    | none => pool.removeFromQueue addr tx

/-- Whether the pool holds as many transactions as its slots: `uint64(len(pool.all))` against
`GlobalSlots + GlobalQueue` in `uint64`. -/
def full (pool : TxPool) : Bool :=
  decide (UInt64.ofNat pool.all.keys.length ≥ pool.config.GlobalSlots + pool.config.GlobalQueue)

/-- How many `Discard` is asked for: `len(pool.all) - int(GlobalSlots + GlobalQueue - 1)`. -/
def discardCount (pool : TxPool) : ℤ :=
  pool.all.keys.length - int64 (pool.config.GlobalSlots + pool.config.GlobalQueue - 1).toNat

/-- The full-pool part of `add`: refuse a remote transaction no dearer than the cheapest, or evict
the cheapest remote ones. -/
def makeRoom (pool : TxPool) (tx : Transaction) (isLocal : Bool) : TxPool × Option PoolError :=
  if !pool.full then (pool, none) else
  let u := if !isLocal then pool.priced.Underpriced pool.codec pool.all tx pool.locals
    else (pool.priced, false)
  let pool := { pool with priced := u.1 }
  if u.2 then (pool, some .ErrUnderpriced) else
  let d := pool.priced.Discard pool.codec pool.all pool.discardCount pool.locals
  let pool := { pool with priced := d.1 }
  (d.2.foldl (fun pool tx => pool.removeTx (pool.codec.Hash tx) false) pool, none)

/-- The end of `add` for a transaction that replaces no pending one: into the queue, and a local
sender into the locals. -/
def enqueueAdded (pool : TxPool) (hash : Hash) (tx : Transaction) (isLocal : Bool) :
    TxPool × Except PoolError Bool :=
  match pool.enqueueTx hash tx with
  | (pool, .error err) => (pool, .error err)
  | (pool, .ok replace) =>
    ((if isLocal then { pool with locals := pool.locals.add (pool.senderOf tx) } else pool), .ok replace)

/-- The part of `add` after the room is made: replace the pending transaction at the nonce, or
else enqueue. -/
def addToLists (pool : TxPool) (hash : Hash) (tx : Transaction) (isLocal : Bool) :
    TxPool × Except PoolError Bool :=
  let addr := pool.senderOf tx
  match pool.pending.lookup addr with
  | some list =>
    if list.Overlaps tx then
      let r := list.Add tx pool.config.PriceBump
      if !r.2.1 then (pool, .error .ErrReplaceUnderpriced) else
      let pool := { pool with pending := pool.pending.insert addr r.1 }
      let pool := match r.2.2 with
        | some old => pool.dropReplaced old
        | none => pool
      ({ pool with all := pool.all.insert hash tx, priced := pool.priced.Put tx }, .ok r.2.2.isSome)
    else pool.enqueueAdded hash tx isLocal
  | none => pool.enqueueAdded hash tx isLocal

/-- `add`: the pool, and whether an old transaction was replaced or the error. -/
def add (pool : TxPool) (tx : Transaction) (isLocal : Bool) : TxPool × Except PoolError Bool :=
  let hash := pool.codec.Hash tx
  if (pool.all.lookup hash).isSome then (pool, .error (.knownTransaction hash)) else
  match pool.validateTx tx isLocal with
  | .error err => (pool, .error err)
  | .ok () =>
    match pool.makeRoom tx isLocal with
    | (pool, some err) => (pool, .error err)
    | (pool, none) => pool.addToLists hash tx isLocal

/-! ## What an error leaves -/

section Errors

variable (pool : TxPool) (tx : Transaction) (isLocal : Bool)

theorem makeRoom_of_not_full (h : pool.full = false) : pool.makeRoom tx isLocal = (pool, none) := by
  simp [makeRoom, h]

theorem makeRoom_error {err : PoolError} (h : (pool.makeRoom tx isLocal).2 = some err) :
    err = .ErrUnderpriced ∧ ∃ priced : txPricedList, (pool.makeRoom tx isLocal).1 = { pool with priced } ∧
      (priced.items.filter (isLive pool.codec pool.all)).Perm
        (pool.priced.items.filter (isLive pool.codec pool.all)) := by
  unfold makeRoom at h ⊢
  by_cases hf : pool.full = true
  swap
  · simp [hf] at h
  by_cases hl : isLocal = true
  · simp [hf, hl] at h
  by_cases hu : (pool.priced.Underpriced pool.codec pool.all tx pool.locals).2 = true
  · simp only [hf, hl, hu, Bool.not_true, Bool.not_false, if_true, if_false, Bool.false_eq_true] at h ⊢
    exact ⟨(Option.some.inj h).symm, _, rfl, txPricedList.Underpriced_live _ _ _ _ _⟩
  · simp [hf, hl, hu] at h

theorem enqueueTx_error (hash : Hash) {err : PoolError} (h : (pool.enqueueTx hash tx).2 = .error err) :
    err = .ErrReplaceUnderpriced ∧ (pool.enqueueTx hash tx).1 = pool := by
  unfold enqueueTx at h ⊢
  cases hq : pool.queue.lookup (pool.senderOf tx) with
  | none =>
    have hadd := txList.Add_of_get_none (newTxList false) tx pool.config.PriceBump rfl
    simp [hq, hadd] at h
  | some list =>
    simp only [hq, reduceCtorEq, if_false, Option.getD_some] at h ⊢
    split_ifs at h ⊢
    exact ⟨by cases h; rfl, rfl⟩

theorem enqueueAdded_error (hash : Hash) {err : PoolError} (h : (pool.enqueueAdded hash tx isLocal).2 = .error err) :
    err = .ErrReplaceUnderpriced ∧ (pool.enqueueAdded hash tx isLocal).1 = pool := by
  unfold enqueueAdded at h ⊢
  rcases he : pool.enqueueTx hash tx with ⟨pool', _ | replace⟩
  · rw [he] at h
    have hq : (pool.enqueueTx hash tx).2 = .error err := by rw [he]; exact h
    have hpool := enqueueTx_error pool tx hash hq
    rw [he] at hpool
    exact hpool
  · rw [he] at h
    simp at h

theorem addToLists_error (hash : Hash) {err : PoolError} (h : (pool.addToLists hash tx isLocal).2 = .error err) :
    err = .ErrReplaceUnderpriced ∧ (pool.addToLists hash tx isLocal).1 = pool := by
  unfold addToLists at h ⊢
  cases hp : pool.pending.lookup (pool.senderOf tx) with
  | none =>
    simp only [hp] at h ⊢
    exact enqueueAdded_error pool tx isLocal hash h
  | some list =>
    simp only [hp] at h ⊢
    split_ifs at h ⊢ with ho hr
    · exact ⟨by cases h; rfl, rfl⟩
    · exact enqueueAdded_error pool tx isLocal hash h

/-- An error from `add` leaves the pool's transactions, its pending and queued lists, its locals
and the live entries of its price heap as they were, unless the pool was full and the error is a
refused replacement: that one comes after the eviction. -/
theorem add_error {err : PoolError} (h : (pool.add tx isLocal).2 = .error err) :
    ((pool.add tx isLocal).1.all = pool.all ∧ (pool.add tx isLocal).1.pending = pool.pending ∧
      (pool.add tx isLocal).1.queue = pool.queue ∧ (pool.add tx isLocal).1.locals = pool.locals ∧
      ((pool.add tx isLocal).1.priced.items.filter (isLive pool.codec pool.all)).Perm
        (pool.priced.items.filter (isLive pool.codec pool.all))) ∨
    (pool.full = true ∧ err = .ErrReplaceUnderpriced) := by
  unfold add at h ⊢
  dsimp only at h ⊢
  split_ifs at h ⊢
  · exact .inl ⟨rfl, rfl, rfl, rfl, .refl _⟩
  cases hv : pool.validateTx tx isLocal with
  | error e => exact .inl ⟨rfl, rfl, rfl, rfl, .refl _⟩
  | ok u =>
    rw [hv] at h
    rcases hm : pool.makeRoom tx isLocal with ⟨pool₁, _ | e⟩
    · -- room made: an error is the lists', after which the pool is the one with room
      rw [hm] at h
      obtain ⟨herr, hpool⟩ := addToLists_error pool₁ tx isLocal _ h
      rw [hpool]
      by_cases hf : pool.full = true
      · exact .inr ⟨hf, herr⟩
      · rw [makeRoom_of_not_full pool tx isLocal (by simpa using hf)] at hm
        cases hm
        exact .inl ⟨rfl, rfl, rfl, rfl, .refl _⟩
    · -- refused for the price
      obtain ⟨-, priced, hp, hlive⟩ :=
        makeRoom_error pool tx isLocal (show (pool.makeRoom tx isLocal).2 = some e by rw [hm])
      rw [hm] at hp
      cases hp
      exact .inl ⟨rfl, rfl, rfl, rfl, hlive⟩

end Errors

end TxPool

/-! ## An eviction for a refused replacement

Two slots and a full pool: account 1 pays 1 at nonce 0, account 2 pays 10 at nonce 0. Account 2
sends a transaction at nonce 0 for 5. It is dearer than the cheapest in the pool, so account 1's
transaction is evicted, and then it is refused, as it does not bump account 2's price by 10%.
The pool has lost account 1's transaction to a transaction it did not take.
-/

def evictedTx : Transaction := ⟨0, 1, 21000, some 0, 0, [], 1, 1, 0⟩
def keptTx : Transaction := ⟨0, 10, 21000, some 0, 0, [], 2, 2, 0⟩
def refusedTx : Transaction := ⟨0, 5, 21000, some 0, 0, [], 2, 3, 0⟩

def fullPool : TxPool where
  config := ⟨10, 1, 1⟩
  codec := rvCodec
  gasPrice := 1
  currentMaxGas := 8000000
  homestead := true
  currentNonce := fun _ => 0
  currentBalance := fun _ => 10 ^ 18
  pendingState := ∅
  locals := ⟨[]⟩
  pending := AList.insert (β := fun _ : Address => txList) 1 ((newTxList true).Add evictedTx 10).1
    (AList.insert 2 ((newTxList true).Add keptTx 10).1 ∅)
  queue := ∅
  beats := ∅
  all := AList.insert (β := fun _ : Hash => Transaction) 1 evictedTx (AList.insert 2 keptTx ∅)
  priced := txPricedList.run rvCodec [.Put evictedTx, .Put keptTx] newTxPricedList

theorem add_evicts_then_refuses :
    fullPool.full = true ∧
    (fullPool.add refusedTx false).2 = .error .ErrReplaceUnderpriced ∧
    fullPool.all.lookup 1 = some evictedTx ∧ (fullPool.add refusedTx false).1.all.lookup 1 = none ∧
    (fullPool.pending.lookup 1).isSome ∧ (fullPool.add refusedTx false).1.pending.lookup 1 = none :=
  ⟨rfl, rfl, rfl, rfl, rfl, rfl⟩

end EthereumAI.Core
