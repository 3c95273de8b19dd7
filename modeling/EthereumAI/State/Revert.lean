import EthereumAI.State.View

/-! # Reverting journal entries, on views

`View.revert` is the revert of each journal entry as the accessors see it. The
revert methods of `journal.go` act on the view through it (`revertStep_view`),
and each mutator appends entries whose revert, on views, returns the view the
mutator started from (`Undoes` of the undo-log library).
-/

namespace EthereumAI.State

open Lib

namespace View

variable (db : Database) (v : View)

/-- `s.getStateObject(addr).f(...)` on views: `none` where the object is nil. -/
def modifyAccount (addr : Address) (f : AccountView → AccountView) : Option View :=
  (v.accounts addr).map fun a => { v with accounts := Function.update v.accounts addr (some (f a)) }

/-- `journalEntry.revert` on views. -/
def revert : JournalEntry → View → Option View
  | .createObjectChange account, v =>
    some { v with accounts := Function.update v.accounts account (loadView db account) }
  | .resetObjectChange prev, v =>
    some { v with accounts := Function.update v.accounts prev.address (StateDB.objectView db prev) }
  | .suicideChange account prev prevbalance, v =>
    some ((v.modifyAccount account fun a => { a with suicided := prev, balance := prevbalance }).getD v)
  | .balanceChange account prev, v => v.modifyAccount account fun a => { a with balance := prev }
  | .nonceChange account prev, v => v.modifyAccount account fun a => { a with nonce := prev }
  | .storageChange account key prevalue, v =>
    v.modifyAccount account fun a => { a with storage := Function.update a.storage key prevalue }
  | .codeChange account prevcode prevhash, v =>
    v.modifyAccount account fun a =>
      { a with codeHash := prevhash, code := codeOf db prevcode prevhash,
               codeSize := codeSizeOf db prevcode prevhash }
  | .refundChange prev, v => some { v with refund := prev }
  | .addLogChange txhash, v =>
    if v.logs txhash = [] then none
    else some { v with logs := Function.update v.logs txhash (v.logs txhash).dropLast,
                       logSize := v.logSize - 1 }
  | .addPreimageChange hash, v => some { v with preimages := Function.update v.preimages hash none }
  | .touchChange _ _ _, v => some v

end View

namespace StateDB

variable (db : Database)

theorem getStateObject_none {s : StateDB} {addr : Address}
    (h : (s.getStateObject db addr).1 = none) :
    (s.getStateObject db addr).2 = s ∧ s.accountView db addr = none := by
  rcases getStateObject_cases db s addr with ⟨h', hv⟩ | ⟨obj, h', -⟩ | ⟨data, -, -, h'⟩ <;>
    rw [h'] at h ⊢
  · exact ⟨rfl, hv⟩
  · cases h
  · cases h

theorem view_getStateObject_set {s : StateDB} {addr : Address} (o : StateObject)
    (ha : o.address = addr) :
    ((s.getStateObject db addr).2.setStateObject o).view db =
      { s.view db with accounts := Function.update (s.accountView db) addr (objectView db o) } := by
  have hv := (getStateObject_spec db s addr).2
  have hacc : (s.getStateObject db addr).2.accountView db = s.accountView db :=
    congrArg View.accounts hv
  rw [view_setStateObject, hacc, ha, hv]

/-- A revert method that changes the object `getStateObject` finds acts on the
view by changing its account. -/
theorem modifyStateObject_view {s : StateDB} (hk : s.Keyed) (addr : Address)
    (f : StateObject → StateObject) (g : AccountView → AccountView)
    (hfg : ∀ o, (f o).view db = g (o.view db)) (ha : ∀ o, (f o).address = o.address)
    (hd : ∀ o, (f o).deleted = o.deleted) :
    (s.modifyStateObject db addr f).map (view db) = (s.view db).modifyAccount addr g := by
  have hspec := (getStateObject_spec db s addr).1
  unfold modifyStateObject View.modifyAccount
  rcases hg : s.getStateObject db addr with ⟨_ | obj, t⟩
  · rw [hg] at hspec
    simp only [Option.map_none] at hspec
    simp [view, ← hspec]
  · have h : (s.getStateObject db addr).1 = some obj := by rw [hg]
    obtain ⟨-, haddr, hdel⟩ := getStateObject_live db hk h
    have hset := view_getStateObject_set db (s := s) (f obj) ((ha obj).trans haddr)
    rw [hg] at hspec hset
    dsimp only at hset
    have hacc : (s.view db).accounts addr = some (obj.view db) := hspec.symm
    have hobj : objectView db (f obj) = some (g (obj.view db)) := by
      simp [objectView, hd, hdel, hfg]
    rw [hacc, Option.map_some, Option.map_some, hset, hobj]
    rfl

theorem accountView_delete (s : StateDB) (addr : Address) :
    accountView db { s with stateObjects := Function.update s.stateObjects addr none } =
      Function.update (s.accountView db) addr (loadView db addr) := by
  funext a
  by_cases h : a = addr
  · subst h
    simp [accountView]
  · simp [accountView, Function.update_of_ne h]

theorem revertEntry_suicideChange (s : StateDB) (account : Address) (prev : Bool) (prevbalance : ℤ) :
    revertEntry db (.suicideChange account prev prevbalance) s =
      some ((s.modifyStateObject db account
        fun obj => { obj with suicided := prev }.setBalance prevbalance).getD s) := by
  simp only [revertEntry, modifyStateObject]
  rcases hg : s.getStateObject db account with ⟨_ | obj, t⟩
  · have h : (s.getStateObject db account).1 = none := by rw [hg]
    have ht := (getStateObject_none db h).1
    rw [hg] at ht
    simp only at ht
    rw [ht]
    rfl
  · rfl

theorem setState_view (o : StateObject) (key prevalue : Hash) :
    (o.setState key prevalue).view db =
      { o.view db with storage := Function.update (o.view db).storage key prevalue } := by
  simp only [StateObject.view, StateObject.setState, AccountView.mk.injEq, true_and]
  funext k
  by_cases h : k = key
  · subst h
    simp
  · simp [Function.update_of_ne h]

/-- Every revert method acts on the view through `View.revert`. -/
theorem revertEntry_view {s : StateDB} (hk : s.Keyed) (e : JournalEntry) :
    (revertEntry db e s).map (view db) = View.revert db e (s.view db) := by
  cases e with
  | createObjectChange account =>
    simp only [revertEntry, View.revert, Option.map_some, view, accountView_delete]
  | resetObjectChange prev =>
    simp only [revertEntry, View.revert, Option.map_some, view_setStateObject]
    rfl
  | suicideChange account prev prevbalance =>
    have hm := modifyStateObject_view db hk account
      (fun obj => { obj with suicided := prev }.setBalance prevbalance)
      (fun a => { a with suicided := prev, balance := prevbalance }) (fun _ => rfl) (fun _ => rfl)
      (fun _ => rfl)
    rw [revertEntry_suicideChange, Option.map_some, ← Option.getD_map (f := view db), hm]
    rfl
  | balanceChange account prev =>
    exact modifyStateObject_view db hk account _ _ (fun _ => rfl) (fun _ => rfl) (fun _ => rfl)
  | nonceChange account prev =>
    exact modifyStateObject_view db hk account _ _ (fun _ => rfl) (fun _ => rfl) (fun _ => rfl)
  | storageChange account key prevalue =>
    exact modifyStateObject_view db hk account _ _ (fun o => setState_view db o key prevalue)
      (fun _ => rfl) (fun _ => rfl)
  | codeChange account prevcode prevhash =>
    exact modifyStateObject_view db hk account _ _ (fun _ => rfl) (fun _ => rfl) (fun _ => rfl)
  | refundChange prev => rfl
  | addLogChange txhash =>
    have hl : (s.view db).logs = s.logs := rfl
    by_cases h : s.logs txhash = [] <;> simp only [revertEntry, View.revert, hl, h, if_true, if_false]
    · rfl
    · rfl
  | addPreimageChange hash => rfl
  | touchChange account prev prevDirty => rfl

theorem revertStep_view {s : StateDB} (hk : s.Keyed) (e : JournalEntry) :
    (revertStep db e s).map (view db) = View.revert db e (s.view db) := by
  rw [revertStep, Option.map_map, ← revertEntry_view db hk e]
  rfl

/-! ## What reverting keeps -/

/-- The live objects agree with the trie: each sits under its own address, and a
deleted one is gone from the trie (`Finalise` deleted it there). -/
structure ObjectsConsistent (s : StateDB) : Prop where
  keyed : s.Keyed
  deleted_absent : ∀ a o, s.stateObjects a = some o → o.deleted = true → db.account a = none

variable {db}

theorem ObjectsConsistent.setStateObject {s : StateDB} (hs : s.ObjectsConsistent db)
    (o : StateObject) (hd : o.deleted = false) : (s.setStateObject o).ObjectsConsistent db := by
  refine ⟨hs.keyed.setStateObject o, ?_⟩
  intro a p hp hpd
  by_cases h : a = o.address
  · subst h
    simp only [StateDB.setStateObject, Function.update_self, Option.some.injEq] at hp
    rw [← hp, hd] at hpd
    cases hpd
  · simp only [StateDB.setStateObject, Function.update_of_ne h] at hp
    exact hs.deleted_absent a p hp hpd

theorem ObjectsConsistent.getStateObject {s : StateDB} (hs : s.ObjectsConsistent db)
    (addr : Address) : (s.getStateObject db addr).2.ObjectsConsistent db := by
  rcases getStateObject_cases db s addr with ⟨h, -⟩ | ⟨obj, h, -⟩ | ⟨data, -, -, h⟩ <;> rw [h]
  · exact hs
  · exact hs
  · exact hs.setStateObject _ rfl

theorem ObjectsConsistent.loadView_eq_none {s : StateDB} (hs : s.ObjectsConsistent db)
    {addr : Address} (h : s.accountView db addr = none) : loadView db addr = none := by
  unfold accountView at h
  rcases ho : s.stateObjects addr with _ | o <;> rw [ho] at h
  · exact h
  · cases hd : o.deleted
    · simp [hd] at h
    · simp [loadView, hs.deleted_absent addr o ho hd]

/-- Reverting changes no field of the journal and no revision. -/
def SameJournal (s t : StateDB) : Prop :=
  t.journal = s.journal ∧ t.validRevisions = s.validRevisions ∧ t.nextRevisionId = s.nextRevisionId

theorem getStateObject_sameJournal (s : StateDB) (addr : Address) :
    SameJournal s (s.getStateObject db addr).2 := by
  rcases getStateObject_cases db s addr with ⟨h, -⟩ | ⟨obj, h, -⟩ | ⟨data, -, -, h⟩ <;>
    rw [h] <;> exact ⟨rfl, rfl, rfl⟩

end StateDB

/-- What a journal entry holds in every run: `createObject` only resets a live object. -/
def JournalEntry.WellFormed : JournalEntry → Prop
  | .resetObjectChange prev => prev.deleted = false
  | _ => True

namespace StateDB

variable {db : Database}

theorem modifyStateObject_spec {s t : StateDB} (hs : s.ObjectsConsistent db) {addr : Address}
    {f : StateObject → StateObject} (h : s.modifyStateObject db addr f = some t)
    (hd : ∀ o, (f o).deleted = o.deleted) : t.ObjectsConsistent db ∧ SameJournal s t := by
  unfold modifyStateObject at h
  have hsame := @getStateObject_sameJournal db s addr
  have hcons := hs.getStateObject addr
  rcases hg : s.getStateObject db addr with ⟨_ | obj, u⟩ <;> rw [hg] at h hsame hcons
  · cases h
  · cases h
    have hobj : (s.getStateObject db addr).1 = some obj := by rw [hg]
    have hdel := (getStateObject_live db hs.keyed hobj).2.2
    exact ⟨hcons.setStateObject _ ((hd obj).trans hdel), hsame⟩

/-- A revert method keeps the objects consistent and the journal as it is. -/
theorem revertEntry_spec {s t : StateDB} (hs : s.ObjectsConsistent db) {e : JournalEntry}
    (he : e.WellFormed) (h : revertEntry db e s = some t) :
    t.ObjectsConsistent db ∧ SameJournal s t := by
  cases e with
  | createObjectChange account =>
    cases h
    refine ⟨⟨?_, ?_⟩, rfl, rfl, rfl⟩
    · intro a o ho
      by_cases ha : a = account
      · subst ha
        simp at ho
      · exact hs.keyed a o (by simpa [Function.update_of_ne ha] using ho)
    · intro a o ho
      by_cases ha : a = account
      · subst ha
        simp at ho
      · exact hs.deleted_absent a o (by simpa [Function.update_of_ne ha] using ho)
  | resetObjectChange prev =>
    cases h
    exact ⟨hs.setStateObject prev he, rfl, rfl, rfl⟩
  | suicideChange account prev prevbalance =>
    rw [revertEntry_suicideChange] at h
    cases h
    rcases hm : s.modifyStateObject db account
      (fun obj => { obj with suicided := prev }.setBalance prevbalance) with _ | u
    · simp only [hm, Option.getD_none]
      exact ⟨hs, rfl, rfl, rfl⟩
    · simp only [hm, Option.getD_some]
      exact modifyStateObject_spec hs hm (fun _ => rfl)
  | balanceChange account prev => exact modifyStateObject_spec hs h (fun _ => rfl)
  | nonceChange account prev => exact modifyStateObject_spec hs h (fun _ => rfl)
  | storageChange account key prevalue => exact modifyStateObject_spec hs h (fun _ => rfl)
  | codeChange account prevcode prevhash => exact modifyStateObject_spec hs h (fun _ => rfl)
  | refundChange prev =>
    cases h
    exact ⟨⟨hs.keyed, hs.deleted_absent⟩, rfl, rfl, rfl⟩
  | addLogChange txhash =>
    simp only [revertEntry] at h
    split_ifs at h
    cases h
    exact ⟨⟨hs.keyed, hs.deleted_absent⟩, rfl, rfl, rfl⟩
  | addPreimageChange hash =>
    cases h
    exact ⟨⟨hs.keyed, hs.deleted_absent⟩, rfl, rfl, rfl⟩
  | touchChange account prev prevDirty =>
    cases h
    exact ⟨hs, rfl, rfl, rfl⟩

end StateDB

end EthereumAI.State
