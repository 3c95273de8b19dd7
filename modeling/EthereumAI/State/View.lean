import EthereumAI.State.StateDB

/-! # What the accessors see

`StateDB.view` is the state as the accessors see it: for every address the
account as `getStateObject` would return it, with code and storage as `Code` and
`GetState` would load them, and the refund counter, logs and preimages. Every
accessor answers from the view alone (`observe_eq`), and loading into the caches
never changes the view. The revert of every journal entry acts on the view
through a function of the view (`revertStep_view`), so rolling back a journal can
be followed on views.
-/

namespace EthereumAI.State

/-- The code `stateObject.Code` returns for a code field and a code hash. -/
def codeOf (db : Database) (code : Option Bytes) (codeHash : Hash) : Option Bytes :=
  match code with
  | some c => some c
  | none => if codeHash = db.emptyCodeHash then none else db.ContractCode codeHash

/-- The size `GetCodeSize` returns for a code field and a code hash. -/
def codeSizeOf (db : Database) (code : Option Bytes) (codeHash : Hash) : ℕ :=
  match code with
  | some c => c.length
  | none => db.ContractCodeSize codeHash

/-- An account as the accessors see it. -/
structure AccountView where
  balance : ℤ
  nonce : UInt64
  codeHash : Hash
  code : Option Bytes
  codeSize : ℕ
  suicided : Bool
  storage : Hash → Hash

/-- The state as the accessors see it. -/
structure View where
  accounts : Address → Option AccountView
  refund : UInt64
  logs : Hash → List Log
  logSize : ℕ
  preimages : Hash → Option Bytes

namespace StateObject

variable (db : Database) (o : StateObject)

def view : AccountView :=
  { balance := o.data.Balance, nonce := o.data.Nonce, codeHash := o.data.CodeHash,
    code := codeOf db o.code o.data.CodeHash, codeSize := codeSizeOf db o.code o.data.CodeHash,
    suicided := o.suicided,
    storage := fun key => (o.cachedStorage key).getD (db.storage o.data.Root key) }

theorem Code_fst : (o.Code db).1 = codeOf db o.code o.data.CodeHash := by
  unfold Code codeOf
  rcases o.code with _ | c
  · split_ifs <;> rfl
  · rfl

theorem Code_snd : (o.Code db).2.view db = o.view db ∧ (o.Code db).2.address = o.address ∧
    (o.Code db).2.deleted = o.deleted ∧ (o.Code db).2.data = o.data := by
  unfold Code
  rcases hc : o.code with _ | c
  · split_ifs with he
    · exact ⟨rfl, rfl, rfl, rfl⟩
    · refine ⟨?_, rfl, rfl, rfl⟩
      have hcode : codeOf db (db.ContractCode o.data.CodeHash) o.data.CodeHash =
          codeOf db o.code o.data.CodeHash := by
        rw [hc]
        cases h : db.ContractCode o.data.CodeHash <;> simp [codeOf, he, h]
      have hsize : codeSizeOf db (db.ContractCode o.data.CodeHash) o.data.CodeHash =
          codeSizeOf db o.code o.data.CodeHash := by
        rw [hc]
        cases h : db.ContractCode o.data.CodeHash <;> simp [codeSizeOf, Database.ContractCodeSize, h]
      simp only [view, hcode, hsize]
  · exact ⟨rfl, rfl, rfl, rfl⟩

theorem Code_fst_eq_code : (o.Code db).1 = (o.Code db).2.code := by
  unfold Code
  rcases hc : o.code with _ | c
  · split_ifs
    · exact hc.symm
    · rfl
  · exact hc.symm

theorem GetState_fst (key : Hash) : (o.GetState db key).1 = (o.view db).storage key := by
  simp only [GetState, view]
  rcases o.cachedStorage key with _ | v <;> simp

theorem GetState_snd (key : Hash) : (o.GetState db key).2.view db = o.view db ∧
    (o.GetState db key).2.address = o.address ∧ (o.GetState db key).2.deleted = o.deleted ∧
    (o.GetState db key).2.data = o.data := by
  unfold GetState
  rcases hk : o.cachedStorage key with _ | v
  · refine ⟨?_, rfl, rfl, rfl⟩
    simp only [view, AccountView.mk.injEq, true_and]
    funext k
    by_cases h : k = key
    · subst h
      simp [hk]
    · simp [Function.update_of_ne h]
  · exact ⟨rfl, rfl, rfl, rfl⟩

end StateObject

/-- The account of the trie at `addr`, as `getStateObject` loads it. -/
def loadView (db : Database) (addr : Address) : Option AccountView :=
  (db.account addr).map fun data => (StateObject.newObject addr data).view db

namespace StateDB

variable (db : Database) (s : StateDB)

def accountView (addr : Address) : Option AccountView :=
  match s.stateObjects addr with
  | some obj => if obj.deleted then none else some (obj.view db)
  | none => loadView db addr

def view : View := ⟨s.accountView db, s.refund, s.logs, s.logSize, s.preimages⟩

/-- Every live object sits under its own address: `setStateObject` keys by it. -/
def Keyed : Prop := ∀ a o, s.stateObjects a = some o → o.address = a

/-- The account an object shows, `none` once it is deleted. -/
def objectView (o : StateObject) : Option AccountView := if o.deleted then none else some (o.view db)

theorem accountView_setStateObject (o : StateObject) :
    (s.setStateObject o).accountView db =
      Function.update (s.accountView db) o.address (objectView db o) := by
  funext a
  by_cases h : a = o.address
  · subst h
    simp [accountView, setStateObject, objectView]
  · simp [accountView, setStateObject, Function.update_of_ne h]

theorem view_setStateObject (o : StateObject) :
    (s.setStateObject o).view db =
      { s.view db with accounts := Function.update (s.accountView db) o.address (objectView db o) } := by
  simp only [view, accountView_setStateObject]
  rfl

theorem Keyed.setStateObject {s : StateDB} (hk : s.Keyed) (o : StateObject) :
    (s.setStateObject o).Keyed := by
  intro a p hp
  by_cases h : a = o.address
  · subst h
    simp only [StateDB.setStateObject, Function.update_self, Option.some.injEq] at hp
    rw [hp]
  · simp only [StateDB.setStateObject, Function.update_of_ne h] at hp
    exact hk a p hp

theorem getStateObject_cases (addr : Address) :
    (s.getStateObject db addr = (none, s) ∧ s.accountView db addr = none) ∨
    (∃ obj, s.getStateObject db addr = (some obj, s) ∧ s.stateObjects addr = some obj ∧
      obj.deleted = false) ∨
    (∃ data, s.stateObjects addr = none ∧ db.account addr = some data ∧
      s.getStateObject db addr = (some (StateObject.newObject addr data),
        s.setStateObject (StateObject.newObject addr data))) := by
  unfold getStateObject
  rcases hs : s.stateObjects addr with _ | obj
  · rcases hd : db.account addr with _ | data
    · exact Or.inl ⟨rfl, by simp [accountView, hs, loadView, hd]⟩
    · exact Or.inr (Or.inr ⟨data, rfl, rfl, rfl⟩)
  · cases hdel : obj.deleted
    · exact Or.inr (Or.inl ⟨obj, by simp [hdel], rfl, hdel⟩)
    · exact Or.inl ⟨by simp [hdel], by simp [accountView, hs, hdel]⟩

theorem getStateObject_spec (addr : Address) :
    ((s.getStateObject db addr).1).map (StateObject.view db) = s.accountView db addr ∧
    (s.getStateObject db addr).2.view db = s.view db := by
  rcases getStateObject_cases db s addr with ⟨h, hv⟩ | ⟨obj, h, hs, hd⟩ | ⟨data, hs, hd, h⟩
  · rw [h, hv]
    exact ⟨rfl, rfl⟩
  · rw [h]
    exact ⟨by simp [accountView, hs, hd], rfl⟩
  · have hv : s.accountView db addr = some ((StateObject.newObject addr data).view db) := by
      simp [accountView, hs, loadView, hd]
    rw [h, view_setStateObject]
    refine ⟨hv.symm, ?_⟩
    have ho : objectView db (StateObject.newObject addr data) = s.accountView db addr := by
      rw [hv]
      rfl
    have ha : (StateObject.newObject addr data).address = addr := rfl
    rw [ho, ha, Function.update_eq_self]
    rfl

theorem getStateObject_keyed {s : StateDB} (hk : s.Keyed) (addr : Address) :
    (s.getStateObject db addr).2.Keyed := by
  rcases getStateObject_cases db s addr with ⟨h, -⟩ | ⟨obj, h, -⟩ | ⟨data, -, -, h⟩ <;> rw [h]
  · exact hk
  · exact hk
  · exact hk.setStateObject _

theorem getStateObject_live {s : StateDB} (hk : s.Keyed) {addr : Address} {obj : StateObject}
    (h : (s.getStateObject db addr).1 = some obj) :
    (s.getStateObject db addr).2.stateObjects addr = some obj ∧ obj.address = addr ∧
      obj.deleted = false := by
  rcases getStateObject_cases db s addr with ⟨h', -⟩ | ⟨o, h', hs, hd⟩ | ⟨data, -, -, h'⟩ <;>
    rw [h'] at h ⊢ <;> simp only [Option.some.injEq, reduceCtorEq] at h <;> subst h
  · exact ⟨hs, hk _ _ hs, hd⟩
  · exact ⟨by simp [setStateObject, StateObject.newObject], rfl, rfl⟩

end StateDB

/-! ## The accessors answer from the view -/

/-- What the accessors return, each as a function of its arguments. -/
structure Observation where
  Exist : Address → Bool
  Empty : Address → Bool
  HasSuicided : Address → Bool
  GetBalance : Address → ℤ
  GetNonce : Address → UInt64
  GetCode : Address → Option Bytes
  GetCodeHash : Address → Hash
  GetCodeSize : Address → ℕ
  GetState : Address → Hash → Hash
  GetRefund : UInt64
  GetLogs : Hash → List Log
  Preimages : Hash → Option Bytes

/-- `stateObject.empty` on the account a view shows. -/
def AccountView.empty (db : Database) (a : AccountView) : Bool :=
  a.nonce == 0 && a.balance == 0 && a.codeHash == db.emptyCodeHash

/-- The accessors' answers, read off a view. -/
def View.observe (db : Database) (v : View) : Observation :=
  { Exist := fun a => (v.accounts a).isSome,
    Empty := fun a => ((v.accounts a).map (AccountView.empty db)).getD true,
    HasSuicided := fun a => ((v.accounts a).map (·.suicided)).getD false,
    GetBalance := fun a => ((v.accounts a).map (·.balance)).getD 0,
    GetNonce := fun a => ((v.accounts a).map (·.nonce)).getD 0,
    GetCode := fun a => (v.accounts a).bind (·.code),
    GetCodeHash := fun a => ((v.accounts a).map (·.codeHash)).getD 0,
    GetCodeSize := fun a => ((v.accounts a).map (·.codeSize)).getD 0,
    GetState := fun a key => ((v.accounts a).map (·.storage key)).getD 0,
    GetRefund := v.refund, GetLogs := v.logs, Preimages := v.preimages }

namespace StateDB

variable (db : Database) (s : StateDB)

/-- What the accessors of `s` return. -/
def observe : Observation :=
  { Exist := fun a => (s.Exist db a).1, Empty := fun a => (s.Empty db a).1,
    HasSuicided := fun a => (s.HasSuicided db a).1, GetBalance := fun a => (s.GetBalance db a).1,
    GetNonce := fun a => (s.GetNonce db a).1, GetCode := fun a => (s.GetCode db a).1,
    GetCodeHash := fun a => (s.GetCodeHash db a).1, GetCodeSize := fun a => (s.GetCodeSize db a).1,
    GetState := fun a key => (s.GetState db a key).1, GetRefund := s.GetRefund,
    GetLogs := s.GetLogs, Preimages := s.Preimages }

theorem getStateObject_field {α : Type} (f : StateObject → α) (g : AccountView → α)
    (hfg : ∀ o, f o = g (o.view db)) (d : α) (addr : Address) :
    (((s.getStateObject db addr).1).map f).getD d = ((s.accountView db addr).map g).getD d := by
  rw [← (getStateObject_spec db s addr).1, Option.map_map]
  congr 2
  funext o
  exact hfg o

theorem GetCode_fst (addr : Address) :
    (s.GetCode db addr).1 = (s.accountView db addr).bind (·.code) := by
  rw [← (getStateObject_spec db s addr).1]
  unfold GetCode
  rcases s.getStateObject db addr with ⟨_ | obj, t⟩
  · rfl
  · exact StateObject.Code_fst db obj

theorem GetCodeSize_fst (addr : Address) :
    (s.GetCodeSize db addr).1 = ((s.accountView db addr).map (·.codeSize)).getD 0 := by
  rw [← (getStateObject_spec db s addr).1]
  unfold GetCodeSize
  rcases s.getStateObject db addr with ⟨_ | obj, t⟩
  · rfl
  · cases obj.code <;> rfl

theorem GetState_fst (addr : Address) (key : Hash) :
    (s.GetState db addr key).1 = ((s.accountView db addr).map (·.storage key)).getD 0 := by
  rw [← (getStateObject_spec db s addr).1]
  unfold GetState
  rcases s.getStateObject db addr with ⟨_ | obj, t⟩
  · rfl
  · exact StateObject.GetState_fst db obj key

theorem observe_eq : s.observe db = (s.view db).observe db := by
  simp only [observe, View.observe, view, Exist, Empty, HasSuicided, GetBalance, GetNonce,
    GetCodeHash, GetCode_fst, GetCodeSize_fst, GetState_fst, GetRefund, Preimages]
  congr 1 <;> funext a
  · rw [← (getStateObject_spec db s a).1, Option.isSome_map]
  all_goals
    apply getStateObject_field
    exact fun _ => rfl

theorem view_writeBack {s : StateDB} (hk : s.Keyed) {addr : Address} {obj o : StateObject}
    (h : (s.getStateObject db addr).1 = some obj) (hv : o.view db = obj.view db)
    (ha : o.address = obj.address) (hd : o.deleted = obj.deleted) :
    ((s.getStateObject db addr).2.setStateObject o).view db = s.view db := by
  obtain ⟨hlive, haddr, hdel⟩ := getStateObject_live db hk h
  have hobj : objectView db o = (s.getStateObject db addr).2.accountView db addr := by
    simp [objectView, accountView, hlive, hd, hdel, hv]
  rw [view_setStateObject, hobj, ha, haddr, Function.update_eq_self, ← (getStateObject_spec db s addr).2]
  rfl

theorem read_spec {s : StateDB} (hk : s.Keyed) (q : Query) :
    (s.read db q).view db = s.view db ∧ (s.read db q).Keyed := by
  have hget := fun addr => And.intro (getStateObject_spec db s addr).2 (getStateObject_keyed db hk addr)
  cases q with
  | Exist addr => exact hget addr
  | Empty addr => exact hget addr
  | HasSuicided addr => exact hget addr
  | GetBalance addr => exact hget addr
  | GetNonce addr => exact hget addr
  | GetCodeHash addr => exact hget addr
  | GetCodeSize addr =>
    simp only [read, GetCodeSize]
    have h := hget addr
    rcases hg : s.getStateObject db addr with ⟨_ | obj, t⟩ <;> rw [hg] at h <;> exact h
  | GetCode addr =>
    simp only [read, GetCode]
    rcases hg : s.getStateObject db addr with ⟨_ | obj, t⟩
    · have h := hget addr
      rw [hg] at h
      exact h
    · have h : (s.getStateObject db addr).1 = some obj := by rw [hg]
      obtain ⟨hv, ha, hd, -⟩ := StateObject.Code_snd db obj
      have hw := view_writeBack db hk h hv ha hd
      rw [hg] at hw
      refine ⟨hw, ?_⟩
      have hkt := getStateObject_keyed db hk addr
      rw [hg] at hkt
      exact hkt.setStateObject _
  | GetState addr key =>
    simp only [read, GetState]
    rcases hg : s.getStateObject db addr with ⟨_ | obj, t⟩
    · have h := hget addr
      rw [hg] at h
      exact h
    · have h : (s.getStateObject db addr).1 = some obj := by rw [hg]
      obtain ⟨hv, ha, hd, -⟩ := StateObject.GetState_snd db obj key
      have hw := view_writeBack db hk h hv ha hd
      rw [hg] at hw
      refine ⟨hw, ?_⟩
      have hkt := getStateObject_keyed db hk addr
      rw [hg] at hkt
      exact hkt.setStateObject _

end StateDB

end EthereumAI.State
