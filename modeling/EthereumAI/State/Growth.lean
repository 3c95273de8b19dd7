import EthereumAI.State.Ledger

/-! # Views that only grow

What the methods that write no slot, log, refund, balance, nonce or code do to the state
as the accessors see it. A value transfer of nothing still finds or creates the objects
at both of its ends, and `CreateAccount` makes a missing account: a missing account may
appear, as the empty one `createObject` makes, and `SHA3` may record preimages, but every
account there stays as it is, and so do the refund counter and the logs.
-/

namespace EthereumAI.State

/-- The account `createObject` makes, as the accessors see it: no balance, nonce or code,
not self-destructed, with the storage of the zero root. -/
def AccountView.created (db : Database) : AccountView :=
  { balance := 0, nonce := 0, codeHash := db.emptyCodeHash, code := none,
    codeSize := db.ContractCodeSize db.emptyCodeHash, suicided := false, storage := db.storage 0 }

/-- `w` is `v` with perhaps some missing accounts now there as `createObject` makes them,
and perhaps more preimages. -/
structure View.Grows (db : Database) (v w : View) : Prop where
  accounts : ∀ a, w.accounts a = v.accounts a ∨
    (v.accounts a = none ∧ w.accounts a = some (AccountView.created db))
  refund : w.refund = v.refund
  logs : w.logs = v.logs
  logSize : w.logSize = v.logSize

namespace View.Grows

variable {db : Database} {u v w : View}

theorem refl (v : View) : Grows db v v := ⟨fun _ => .inl rfl, rfl, rfl, rfl⟩

theorem of_eq (h : w = v) : Grows db v w := by
  subst h
  exact refl w

theorem trans (h₁ : Grows db u v) (h₂ : Grows db v w) : Grows db u w := by
  refine ⟨fun a => ?_, h₂.refund.trans h₁.refund, h₂.logs.trans h₁.logs, h₂.logSize.trans h₁.logSize⟩
  rcases h₂.accounts a with h | ⟨hv, hw⟩
  · rw [h]
    exact h₁.accounts a
  · -- an account created in the second step was missing before the first
    have hu : u.accounts a = none := by
      rcases h₁.accounts a with h | ⟨hu, -⟩
      · rw [← h, hv]
      · exact hu
    exact .inr ⟨hu, hw⟩

theorem create {a : Address} (ha : v.accounts a = none) :
    Grows db v { v with accounts := Function.update v.accounts a (some (AccountView.created db)) } := by
  refine ⟨fun b => ?_, rfl, rfl, rfl⟩
  by_cases h : b = a
  · subst h
    exact .inr ⟨ha, Function.update_self ..⟩
  · exact .inl (Function.update_of_ne h ..)

theorem account_eq (h : Grows db v w) {a : Address} {acc : AccountView} (ha : v.accounts a = some acc) :
    w.accounts a = some acc := by
  rcases h.accounts a with h | ⟨hn, -⟩
  · rw [h, ha]
  · rw [ha] at hn
    cases hn

theorem balance (h : Grows db v w) : w.balance = v.balance := by
  funext a
  rcases h.accounts a with h | ⟨hv, hw⟩
  · simp only [View.balance, h]
  · simp [View.balance, hv, hw, AccountView.created]

end View.Grows

namespace StateDB

variable {db : Database} {s : StateDB}

theorem Exist_fst (s : StateDB) (addr : Address) : (s.Exist db addr).1 = ((s.view db).accounts addr).isSome :=
  congrArg (fun o => Observation.Exist o addr) (observe_eq db s)

theorem createObject_fst_view (s : StateDB) (addr : Address) :
    (s.createObject db addr).1.view db = AccountView.created db := by
  simp [createObject_fst, StateObject.view, StateObject.newObject, StateObject.setNonce, codeOf,
    codeSizeOf, AccountView.created]

theorem getStateObject_of_none {addr : Address} (h : s.accountView db addr = none) :
    s.getStateObject db addr = (none, s) := by
  rcases getStateObject_cases db s addr with ⟨hg, -⟩ | ⟨obj, hg, hso, hd⟩ | ⟨data, hso, hd, -⟩
  · exact hg
  · simp [accountView, hso, hd] at h
  · simp [accountView, hso, loadView, hd] at h

theorem Exist_of_false {addr : Address} (h : (s.Exist db addr).1 = false) :
    (s.Exist db addr).2 = s ∧ s.accountView db addr = none := by
  have hnone : (s.getStateObject db addr).1 = none := by
    simpa [Exist] using h
  exact getStateObject_none db hnone

theorem createObject_view {addr : Address} (h : s.accountView db addr = none) :
    (s.createObject db addr).2.2.view db =
      { s.view db with accounts := Function.update (s.accountView db) addr (some (AccountView.created db)) } := by
  have hnew : (s.createObject db addr).1.view db = AccountView.created db := createObject_fst_view s addr
  simp only [createObject, getStateObject_of_none h] at hnew ⊢
  rw [view_setStateObject, appendJournal_accountView, appendJournal_view]
  simp only [objectView, StateObject.newObject, StateObject.setNonce, Bool.false_eq_true, if_false] at hnew ⊢
  rw [hnew]

theorem CreateAccount_grows {addr : Address} (h : s.accountView db addr = none) :
    (s.view db).Grows db ((s.CreateAccount db addr).view db) := by
  have hc : s.CreateAccount db addr = (s.createObject db addr).2.2 := by
    simp [CreateAccount, createObject, getStateObject_of_none h]
  rw [hc, createObject_view h]
  exact View.Grows.create h

theorem GetOrNewStateObject_grows (addr : Address) :
    (s.view db).Grows db ((s.GetOrNewStateObject db addr).2.view db) := by
  rcases getStateObject_cases db s addr with ⟨hg, hv⟩ | ⟨obj, hg, -, hd⟩ | ⟨data, -, -, hg⟩
  · -- a missing account is created
    have hc : (s.GetOrNewStateObject db addr).2 = (s.createObject db addr).2.2 := by
      simp [GetOrNewStateObject, hg]
    rw [hc, createObject_view hv]
    exact View.Grows.create hv
  · simp only [GetOrNewStateObject, hg, hd, Bool.false_eq_true, if_false]
    exact View.Grows.refl _
  · -- an account of the trie is made live, which the view already showed
    have hspec := (getStateObject_spec db s addr).2
    simp only [GetOrNewStateObject, hg, StateObject.newObject, Bool.false_eq_true, if_false]
    rw [hg] at hspec
    exact View.Grows.of_eq hspec

theorem AddBalance_zero_grows (addr : Address) : (s.view db).Grows db ((s.AddBalance db addr 0).view db) := by
  have ht : ∀ (obj : StateObject) (t : StateDB), (obj.AddBalance db t 0).view db = t.view db := by
    intro obj t
    simp only [StateObject.AddBalance, if_true]
    split_ifs
    · exact touch_view obj t
    · rfl
  simp only [AddBalance, ht]
  exact GetOrNewStateObject_grows addr

theorem SubBalance_zero_grows (addr : Address) : (s.view db).Grows db ((s.SubBalance db addr 0).view db) := by
  simp only [SubBalance, StateObject.SubBalance, if_true]
  exact GetOrNewStateObject_grows addr

theorem AddPreimage_grows (hash : Hash) (preimage : Bytes) :
    (s.view db).Grows db ((s.AddPreimage hash preimage).view db) := by
  unfold AddPreimage
  split <;> exact ⟨fun _ => .inl rfl, rfl, rfl, rfl⟩

end StateDB

end EthereumAI.State
