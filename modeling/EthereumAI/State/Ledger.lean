import Mathlib
import EthereumAI.State.Snapshot

/-! # Balances

`GetBalance` answers from the view: the balance of the account, `0` for a missing
one. Each mutator moves the balances as its name says: `AddBalance` and
`SubBalance` change one balance by the amount, `Suicide` clears one, and the other
mutators, the reads and `Snapshot` change none; reverting to a snapshot gives back
the balances it saw. So the sum of all balances moves by the amount of `AddBalance`
and `SubBalance` only, and drops by the balance `Suicide` clears.
-/

namespace EthereumAI.State

/-- The balance `GetBalance` answers from a view, `0` for a missing account. -/
def View.balance (v : View) (addr : Address) : ℤ := ((v.accounts addr).map AccountView.balance).getD 0

/-- The sum of the balances of all accounts. -/
def View.totalBalance (v : View) : ℤ := ∑ a, v.balance a

theorem sum_update {α : Type} [Fintype α] [DecidableEq α] (f : α → ℤ) (a : α) (x : ℤ) :
    ∑ i, Function.update f a x i = ∑ i, f i - f a + x := by
  rw [Finset.sum_update_of_mem (Finset.mem_univ a), Finset.sdiff_singleton_eq_erase,
    ← Finset.add_sum_erase Finset.univ f (Finset.mem_univ a)]
  omega

theorem totalBalance_update {v w : View} {addr : Address} {x : ℤ}
    (h : w.balance = Function.update v.balance addr x) :
    w.totalBalance = v.totalBalance - v.balance addr + x := by
  unfold View.totalBalance
  rw [h, sum_update]

theorem totalBalance_congr {v w : View} (h : w.balance = v.balance) : w.totalBalance = v.totalBalance := by
  unfold View.totalBalance
  rw [h]

namespace StateDB

variable {db : Database}

theorem GetBalance_fst (s : StateDB) (addr : Address) : (s.GetBalance db addr).1 = (s.view db).balance addr :=
  getStateObject_field db s (·.data.Balance) AccountView.balance (fun _ => rfl) 0 addr

theorem GetBalance_eq (s : StateDB) (addr : Address) :
    s.GetBalance db addr = ((s.view db).balance addr, s.read db (.GetBalance addr)) := by
  rw [← GetBalance_fst]
  rfl

theorem balance_of_accountView_none {s : StateDB} {addr : Address} (h : s.accountView db addr = none) :
    (s.view db).balance addr = 0 := by
  simp [View.balance, view, h]

theorem balance_setStateObject (s : StateDB) {o : StateObject} (hd : o.deleted = false) :
    ((s.setStateObject o).view db).balance =
      Function.update ((s.view db).balance) o.address o.data.Balance := by
  funext a
  rw [view_setStateObject]
  by_cases h : a = o.address
  · subst h
    simp [View.balance, objectView, hd, StateObject.view]
  · simp [View.balance, Function.update_of_ne h, view]

/-- The object `GetOrNewStateObject` returns lives at `addr` with the balance the view
shows there, and finding or creating it changes no balance. -/
theorem GetOrNewStateObject_balance {s t : StateDB} {obj : StateObject} (hk : s.Keyed) {addr : Address}
    (h : s.GetOrNewStateObject db addr = (obj, t)) :
    (t.view db).balance = (s.view db).balance ∧ obj.data.Balance = (s.view db).balance addr ∧
      obj.address = addr ∧ obj.deleted = false := by
  rcases getStateObject_cases db s addr with ⟨hg, hv⟩ | ⟨o, hg, hso, hd⟩ | ⟨data, hso, hdb, hg⟩
  · -- a missing account: a new object of balance `0` is created
    have h0 := balance_of_accountView_none hv
    simp only [GetOrNewStateObject, createObject, hg, Prod.mk.injEq] at h
    obtain ⟨rfl, rfl⟩ := h
    rw [balance_setStateObject, appendJournal_view]
    · exact ⟨Function.update_eq_self_iff.mpr h0.symm, h0.symm, rfl, rfl⟩
    · rfl
  · -- a live object, returned as it is
    have hacc : s.accountView db addr = some (o.view db) := by simp [accountView, hso, hd]
    simp only [GetOrNewStateObject, hg, hd, Bool.false_eq_true, if_false, Prod.mk.injEq] at h
    obtain ⟨rfl, rfl⟩ := h
    exact ⟨rfl, by simp [View.balance, view, hacc, StateObject.view], hk addr _ hso, hd⟩
  · -- an account of the trie, made live
    have hspec := getStateObject_spec db s addr
    rw [hg] at hspec
    simp only [GetOrNewStateObject, hg, StateObject.newObject, Bool.false_eq_true, if_false,
      Prod.mk.injEq] at h
    obtain ⟨rfl, rfl⟩ := h
    refine ⟨congrArg View.balance hspec.2, ?_, rfl, rfl⟩
    simp [View.balance, view, ← hspec.1, StateObject.view, StateObject.newObject]

theorem balance_writeBack {s t : StateDB} {obj o : StateObject} (hk : s.Keyed) {addr : Address}
    (h : s.GetOrNewStateObject db addr = (obj, t)) (e : JournalEntry) (hb : o.data.Balance = obj.data.Balance)
    (ha : o.address = obj.address) (hd : o.deleted = obj.deleted) :
    (((t.appendJournal e).setStateObject o).view db).balance = (s.view db).balance := by
  obtain ⟨ht, hob, hoa, hod⟩ := GetOrNewStateObject_balance hk h
  rw [balance_setStateObject _ (hd.trans hod), appendJournal_view, ht, ha, hb, hoa, hob,
    Function.update_eq_self]

theorem balance_SetBalance {s t : StateDB} {obj : StateObject} (hk : s.Keyed) {addr : Address}
    (h : s.GetOrNewStateObject db addr = (obj, t)) (x : ℤ) :
    ((obj.SetBalance t x).view db).balance = Function.update ((s.view db).balance) addr x := by
  obtain ⟨hb, -, ha, hd⟩ := GetOrNewStateObject_balance hk h
  rw [StateObject.SetBalance, balance_setStateObject, appendJournal_view, hb]
  · exact congrArg (fun a => Function.update _ a _) ha
  · exact hd

theorem touch_view (o : StateObject) (s : StateDB) : (o.touch s).view db = s.view db := by
  unfold StateObject.touch
  split_ifs <;> rfl

section Mutators

variable {s : StateDB}

theorem AddBalance_balance (hk : s.Keyed) (addr : Address) (amount : ℤ) :
    ((s.AddBalance db addr amount).view db).balance =
      Function.update ((s.view db).balance) addr ((s.view db).balance addr + amount) := by
  rcases hg : s.GetOrNewStateObject db addr with ⟨obj, t⟩
  obtain ⟨hb, hob, -, -⟩ := GetOrNewStateObject_balance hk hg
  simp only [AddBalance, hg, StateObject.AddBalance]
  by_cases h0 : amount = 0
  · -- nothing to add: at most a touch, which changes no balance
    have ht : ((if obj.empty db then obj.touch t else t).view db) = t.view db := by
      split_ifs
      · exact touch_view obj t
      · rfl
    rw [if_pos h0, ht, hb, h0, add_zero, Function.update_eq_self]
  · rw [if_neg h0, balance_SetBalance hk hg, hob]

theorem SubBalance_balance (hk : s.Keyed) (addr : Address) (amount : ℤ) :
    ((s.SubBalance db addr amount).view db).balance =
      Function.update ((s.view db).balance) addr ((s.view db).balance addr - amount) := by
  rcases hg : s.GetOrNewStateObject db addr with ⟨obj, t⟩
  obtain ⟨hb, hob, -, -⟩ := GetOrNewStateObject_balance hk hg
  simp only [SubBalance, hg, StateObject.SubBalance]
  by_cases h0 : amount = 0
  · rw [if_pos h0, hb, h0, sub_zero, Function.update_eq_self]
  · rw [if_neg h0, balance_SetBalance hk hg, hob]

theorem SetNonce_balance (hk : s.Keyed) (addr : Address) (nonce : UInt64) :
    ((s.SetNonce db addr nonce).view db).balance = (s.view db).balance := by
  rcases hg : s.GetOrNewStateObject db addr with ⟨obj, t⟩
  simp only [SetNonce, hg, StateObject.SetNonce]
  exact balance_writeBack hk hg _ rfl rfl rfl

theorem SetCode_balance (hk : s.Keyed) (addr : Address) (code : Option Bytes) :
    ((s.SetCode db addr code).view db).balance = (s.view db).balance := by
  rcases hg : s.GetOrNewStateObject db addr with ⟨obj, t⟩
  obtain ⟨-, ha, hd, hdata⟩ := StateObject.Code_snd db obj
  simp only [SetCode, hg, StateObject.SetCode]
  exact balance_writeBack hk hg _ (by show (obj.Code db).2.data.Balance = _; rw [hdata]) ha hd

theorem SetState_balance (hk : s.Keyed) (addr : Address) (key value : Hash) :
    ((s.SetState db addr key value).view db).balance = (s.view db).balance := by
  rcases hg : s.GetOrNewStateObject db addr with ⟨obj, t⟩
  obtain ⟨-, ha, hd, hdata⟩ := StateObject.GetState_snd db obj key
  simp only [SetState, hg, StateObject.SetState]
  exact balance_writeBack hk hg _ (by show (obj.GetState db key).2.data.Balance = _; rw [hdata]) ha hd

theorem Suicide_balance (hk : s.Keyed) (addr : Address) :
    (((s.Suicide db addr).2).view db).balance = Function.update ((s.view db).balance) addr 0 := by
  have hspec := getStateObject_spec db s addr
  unfold Suicide
  rcases hg : s.getStateObject db addr with ⟨_ | obj, t⟩
  · obtain ⟨ht, hv⟩ := @getStateObject_none db s addr (by rw [hg])
    rw [hg] at ht
    subst ht
    exact (Function.update_eq_self_iff.mpr (balance_of_accountView_none hv).symm).symm
  · have hobj : (s.getStateObject db addr).1 = some obj := by rw [hg]
    obtain ⟨-, ha, hd⟩ := getStateObject_live db hk hobj
    rw [hg] at hspec
    simp only
    rw [balance_setStateObject, appendJournal_view, hspec.2]
    · exact congrArg (fun a => Function.update _ a _) ha
    · exact hd

theorem CreateAccount_balance (hk : s.Keyed) (addr : Address) :
    ((s.CreateAccount db addr).view db).balance = (s.view db).balance := by
  have hspec := getStateObject_spec db s addr
  unfold CreateAccount createObject
  rcases hg : s.getStateObject db addr with ⟨_ | prev, t⟩ <;> rw [hg] at hspec <;> simp only at hspec ⊢
  · obtain ⟨ht, hv⟩ := @getStateObject_none db s addr (by rw [hg])
    rw [hg] at ht
    subst ht
    rw [balance_setStateObject, appendJournal_view]
    · exact Function.update_eq_self_iff.mpr (balance_of_accountView_none hv).symm
    · rfl
  · have hb : prev.data.Balance = (s.view db).balance addr := by
      simp [View.balance, view, ← hspec.1, StateObject.view]
    rw [balance_setStateObject, balance_setStateObject, appendJournal_view, hspec.2]
    · simp only [StateObject.setBalance, StateObject.setNonce, StateObject.newObject,
        Function.update_idem, hb, Function.update_eq_self]
    all_goals rfl

theorem read_balance (hk : s.Keyed) (q : Query) : ((s.read db q).view db).balance = (s.view db).balance := by
  rw [(read_spec db hk q).1]

theorem AddRefund_balance (gas : UInt64) : ((s.AddRefund gas).view db).balance = (s.view db).balance := rfl

theorem AddLog_balance (log : Log) : ((s.AddLog log).view db).balance = (s.view db).balance := rfl

theorem AddPreimage_balance (hash : Hash) (preimage : Bytes) :
    ((s.AddPreimage hash preimage).view db).balance = (s.view db).balance := by
  unfold AddPreimage
  split <;> rfl

theorem Snapshot_view : (s.Snapshot.2.view db) = s.view db := rfl

theorem AddBalance_total (hk : s.Keyed) (addr : Address) (amount : ℤ) :
    ((s.AddBalance db addr amount).view db).totalBalance = (s.view db).totalBalance + amount := by
  rw [totalBalance_update (AddBalance_balance hk addr amount)]
  omega

theorem SubBalance_total (hk : s.Keyed) (addr : Address) (amount : ℤ) :
    ((s.SubBalance db addr amount).view db).totalBalance = (s.view db).totalBalance - amount := by
  rw [totalBalance_update (SubBalance_balance hk addr amount)]
  omega

theorem Suicide_total (hk : s.Keyed) (addr : Address) :
    (((s.Suicide db addr).2).view db).totalBalance = (s.view db).totalBalance - (s.view db).balance addr := by
  rw [totalBalance_update (Suicide_balance hk addr)]
  omega

end Mutators

/-! ## Runs of the methods -/

/-- `t` is reached from `s` by a run of the state's methods. -/
def Reaches (db : Database) (s t : StateDB) : Prop := ∃ ops, s.run db ops = some t

theorem Reaches.refl (s : StateDB) : Reaches db s s := ⟨[], rfl⟩

theorem Reaches.trans {s t u : StateDB} (h₁ : Reaches db s t) (h₂ : Reaches db t u) : Reaches db s u := by
  obtain ⟨ops, h₁⟩ := h₁
  obtain ⟨ops', h₂⟩ := h₂
  exact ⟨ops ++ ops', by simp only [run, List.foldlM_append] at *; rw [h₁]; exact h₂⟩

theorem Reaches.of_step {s t : StateDB} (op : Op) (h : s.step db op = some t) : Reaches db s t :=
  ⟨[op], by simp [run, h]⟩

theorem validRevisions_of_mutation {s t : StateDB} (hs : s.ObjectsConsistent db) {op : Op}
    (hop : op.IsMutation)
    (h : s.step db op = some t) : t.validRevisions = s.validRevisions := by
  obtain ⟨_, hj, -⟩ := step_methodSpec hs hop h
  exact hj.validRevisions

theorem Reaches.consistent {s t : StateDB} (h : Reaches db s t) (hs : s.Consistent db) : t.Consistent db :=
  run_consistent hs h.choose_spec

end StateDB

end EthereumAI.State
