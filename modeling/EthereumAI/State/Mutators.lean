import EthereumAI.State.Revert

/-! # Every mutator can be undone

`Journalled db s t es` says what a mutator did going from `s` to `t`: it
appended the entries `es` to the journal and counted their accounts dirty
(`ripemd` possibly once more), left the revisions alone, and reverting `es`
on views gives back the view of `s`. Journalled steps compose, and every
mutator of `StateDB` is one.
-/

namespace EthereumAI.State

open Lib

theorem Journal.count_append (es fs : List JournalEntry) (a : Address) :
    Journal.count (es ++ fs) a = Journal.count es a + Journal.count fs a :=
  List.countP_append

theorem Journal.append_dirties (j : Journal) (e : JournalEntry) (a : Address) :
    (j.append e).dirties a = j.dirties a + Journal.count [e] a := by
  unfold Journal.append Journal.count
  rcases hd : e.dirtied with _ | b
  · simp [hd]
  · by_cases h : a = b
    · subst h
      simp [hd]
    · have hne : (some b == some a) = false := by simp [Ne.symm h]
      simp [hd, Function.update_of_ne h, hne]

namespace View

theorem modifyAccount_update (v : View) (addr : Address) {a b : AccountView}
    (g : AccountView → AccountView) (ha : v.accounts addr = some a) (hg : g b = a) :
    modifyAccount { v with accounts := Function.update v.accounts addr (some b) } addr g = some v := by
  simp only [modifyAccount, Function.update_self, Option.map_some, Function.update_idem, hg, ← ha,
    Function.update_eq_self]

end View

namespace StateDB

variable {db : Database}

@[simp] theorem appendJournal_view (s : StateDB) (e : JournalEntry) :
    (s.appendJournal e).view db = s.view db := rfl

@[simp] theorem appendJournal_accountView (s : StateDB) (e : JournalEntry) :
    (s.appendJournal e).accountView db = s.accountView db := rfl

theorem ObjectsConsistent.appendJournal {s : StateDB} (hs : s.ObjectsConsistent db)
    (e : JournalEntry) : (s.appendJournal e).ObjectsConsistent db :=
  ⟨hs.keyed, hs.deleted_absent⟩

/-- A mutator's effect on the journal, the revisions and the view. -/
structure Journalled (db : Database) (s t : StateDB) (es : List JournalEntry) : Prop where
  entries : t.journal.entries = s.journal.entries ++ es
  wellFormed : ∀ e ∈ es, e.WellFormed
  dirties : ∀ a, a ≠ ripemd → t.journal.dirties a = s.journal.dirties a + Journal.count es a
  ripemd_dirties : s.journal.dirties ripemd + Journal.count es ripemd ≤ t.journal.dirties ripemd
  validRevisions : t.validRevisions = s.validRevisions
  nextRevisionId : t.nextRevisionId = s.nextRevisionId
  undoes : Undoes (View.revert db) es (t.view db) (s.view db)

theorem Journalled.nil {s t : StateDB} (h : SameJournal s t) (hv : t.view db = s.view db) :
    Journalled db s t [] := by
  obtain ⟨hj, hr, hn⟩ := h
  refine ⟨by simp [hj], by simp, fun a _ => by simp [hj, Journal.count], by simp [hj, Journal.count],
    hr, hn, ?_⟩
  rw [hv]
  exact undoes_nil _

theorem Journalled.trans {s t u : StateDB} {es fs : List JournalEntry}
    (h₁ : Journalled db s t es) (h₂ : Journalled db t u fs) : Journalled db s u (es ++ fs) := by
  refine ⟨by rw [h₂.entries, h₁.entries, List.append_assoc], ?_, ?_, ?_,
    h₂.validRevisions.trans h₁.validRevisions, h₂.nextRevisionId.trans h₁.nextRevisionId,
    h₁.undoes.append h₂.undoes⟩
  · intro e he
    rcases List.mem_append.mp he with he | he
    · exact h₁.wellFormed e he
    · exact h₂.wellFormed e he
  · intro a ha
    rw [h₂.dirties a ha, h₁.dirties a ha, Journal.count_append]
    omega
  · have h₁r := h₁.ripemd_dirties
    have h₂r := h₂.ripemd_dirties
    rw [Journal.count_append]
    omega

theorem journalled_append {s t : StateDB} (e : JournalEntry) (he : e.WellFormed)
    (hj : t.journal = s.journal.append e) (hr : t.validRevisions = s.validRevisions)
    (hn : t.nextRevisionId = s.nextRevisionId) (hrev : View.revert db e (t.view db) = some (s.view db)) :
    Journalled db s t [e] := by
  refine ⟨by simp [hj, Journal.append], by simpa using he, fun a _ => ?_, ?_, hr, hn, ?_⟩
  · rw [hj, Journal.append_dirties]
  · rw [hj, Journal.append_dirties]
  · unfold Undoes
    rw [undoAll_singleton]
    exact hrev

theorem journalled_set {s : StateDB} {obj o : StateObject} (e : JournalEntry) (he : e.WellFormed)
    (hlive : s.accountView db obj.address = some (obj.view db)) (ha : o.address = obj.address)
    (hd : o.deleted = false) (g : AccountView → AccountView) (hg : g (o.view db) = obj.view db)
    (hrev : ∀ v : View, View.revert db e v = v.modifyAccount obj.address g) :
    Journalled db s ((s.appendJournal e).setStateObject o) [e] := by
  refine journalled_append (t := (s.appendJournal e).setStateObject o) e he rfl rfl rfl ?_
  have hobj : objectView db o = some (o.view db) := by simp [objectView, hd]
  rw [hrev, view_setStateObject, appendJournal_accountView, hobj, ha]
  exact View.modifyAccount_update (s.view db) obj.address g hlive hg

/-- The methods run on an object that the view shows under its address. -/
def IsLive (db : Database) (s : StateDB) (obj : StateObject) : Prop :=
  s.accountView db obj.address = some (obj.view db) ∧ obj.deleted = false

/-- A method that appends entries and writes a live object back keeps the objects
consistent and is journalled. -/
def MethodSpec (db : Database) (s t : StateDB) : Prop :=
  ∃ es, Journalled db s t es ∧ t.ObjectsConsistent db

end StateDB

/-! ## The journalling methods of a live object -/

namespace StateObject

open StateDB

variable {db : Database} {s : StateDB} {obj : StateObject}

theorem SetBalance_spec (hs : s.ObjectsConsistent db) (hl : IsLive db s obj) (amount : ℤ) :
    MethodSpec db s (obj.SetBalance s amount) :=
  ⟨_, journalled_set _ trivial hl.1 rfl hl.2 (fun a => { a with balance := obj.data.Balance }) rfl
      (fun _ => rfl),
    (hs.appendJournal _).setStateObject _ hl.2⟩

theorem SetNonce_spec (hs : s.ObjectsConsistent db) (hl : IsLive db s obj) (nonce : UInt64) :
    MethodSpec db s (obj.SetNonce s nonce) :=
  ⟨_, journalled_set _ trivial hl.1 rfl hl.2 (fun a => { a with nonce := obj.data.Nonce }) rfl
      (fun _ => rfl),
    (hs.appendJournal _).setStateObject _ hl.2⟩

/-- `touch` changes nothing the accessors see; for `ripemd` it counts one dirty
mark more than its entry. -/
theorem touch_spec (hs : s.ObjectsConsistent db) : MethodSpec db s (obj.touch s) := by
  have hview : (obj.touch s).view db = s.view db := by
    unfold StateObject.touch
    split_ifs <;> rfl
  have hjournal : ∃ extra, (obj.touch s).journal =
      { s.journal.append (.touchChange obj.address false false) with
        dirties := fun a => (s.journal.append (.touchChange obj.address false false)).dirties a +
          if obj.address = ripemd ∧ a = ripemd then extra else 0 } ∧ 0 ≤ extra := by
    unfold StateObject.touch
    split_ifs with hr
    · refine ⟨1, ?_, by omega⟩
      simp only [appendJournal, Journal.dirty, hr, true_and]
      congr 1
      funext a
      by_cases ha : a = ripemd
      · subst ha
        simp
      · simp [ha]
    · exact ⟨0, by simp [appendJournal, hr], le_refl 0⟩
  obtain ⟨extra, hj, hextra⟩ := hjournal
  refine ⟨[.touchChange obj.address false false], ⟨?_, by simp [JournalEntry.WellFormed], ?_, ?_,
    ?_, ?_, ?_⟩, ?_⟩
  · simp [hj, Journal.append]
  · intro a ha
    simp [hj, Journal.append_dirties, ha]
  · by_cases hr : obj.address = ripemd <;> simp [hj, Journal.append_dirties, hr]
    omega
  · unfold StateObject.touch
    split_ifs <;> rfl
  · unfold StateObject.touch
    split_ifs <;> rfl
  · rw [hview]
    rfl
  · unfold StateObject.touch
    split_ifs
    · exact ⟨hs.keyed, hs.deleted_absent⟩
    · exact hs.appendJournal _

theorem AddBalance_spec (hs : s.ObjectsConsistent db) (hl : IsLive db s obj) (amount : ℤ) :
    MethodSpec db s (obj.AddBalance db s amount) := by
  unfold StateObject.AddBalance
  split_ifs
  · exact touch_spec hs
  · exact ⟨[], Journalled.nil ⟨rfl, rfl, rfl⟩ rfl, hs⟩
  · exact SetBalance_spec hs hl _

theorem SubBalance_spec (hs : s.ObjectsConsistent db) (hl : IsLive db s obj) (amount : ℤ) :
    MethodSpec db s (obj.SubBalance s amount) := by
  unfold StateObject.SubBalance
  split_ifs
  · exact ⟨[], Journalled.nil ⟨rfl, rfl, rfl⟩ rfl, hs⟩
  · exact SetBalance_spec hs hl _

theorem SetCode_spec (hs : s.ObjectsConsistent db) (hl : IsLive db s obj) (codeHash : Hash)
    (code : Option Bytes) : MethodSpec db s (obj.SetCode db s codeHash code) := by
  obtain ⟨hv, ha, hd, -⟩ := StateObject.Code_snd db obj
  have hl' : s.accountView db (obj.Code db).2.address = some ((obj.Code db).2.view db) := by
    rw [hv, ha]
    exact hl.1
  refine ⟨_, journalled_set _ trivial hl' rfl (hd.trans hl.2)
    (fun a => { a with codeHash := (obj.Code db).2.data.CodeHash,
                       code := codeOf db (obj.Code db).1 (obj.Code db).2.data.CodeHash,
                       codeSize := codeSizeOf db (obj.Code db).1 (obj.Code db).2.data.CodeHash }) ?_
    (fun _ => rfl), (hs.appendJournal _).setStateObject _ (hd.trans hl.2)⟩
  rw [StateObject.Code_fst_eq_code]
  rfl

theorem SetState_spec (hs : s.ObjectsConsistent db) (hl : IsLive db s obj) (key value : Hash) :
    MethodSpec db s (obj.SetState db s key value) := by
  obtain ⟨hv, ha, hd, -⟩ := StateObject.GetState_snd db obj key
  have hl' : s.accountView db (obj.GetState db key).2.address = some ((obj.GetState db key).2.view db) := by
    rw [hv, ha]
    exact hl.1
  have heq : obj.SetState db s key value =
      (s.appendJournal (.storageChange (obj.GetState db key).2.address key (obj.GetState db key).1)).setStateObject
        ((obj.GetState db key).2.setState key value) := rfl
  rw [heq]
  refine ⟨_, journalled_set _ trivial hl' rfl (hd.trans hl.2)
    (fun a => { a with storage := Function.update a.storage key (obj.GetState db key).1 }) ?_
    (fun _ => rfl), (hs.appendJournal _).setStateObject _ (hd.trans hl.2)⟩
  have hP : (obj.GetState db key).1 = ((obj.GetState db key).2.view db).storage key := by
    rw [StateObject.GetState_fst, hv]
  rw [setState_view, hP]
  generalize (obj.GetState db key).2.view db = V
  simp only [Function.update_idem, Function.update_eq_self]

end StateObject

namespace StateDB

variable {db : Database}

/-! ## Finding or creating the object of an address -/

theorem setStateObject_setStateObject (s : StateDB) {o o' : StateObject} (h : o.address = o'.address) :
    (s.setStateObject o).setStateObject o' = s.setStateObject o' := by
  simp [setStateObject, h, Function.update_idem]

theorem setStateObject_of_live {s : StateDB} {o : StateObject} (h : s.stateObjects o.address = some o) :
    s.setStateObject o = s := by
  simp only [setStateObject, ← h, Function.update_eq_self]

theorem createObject_fst (s : StateDB) (addr : Address) :
    (s.createObject db addr).1 = (StateObject.newObject addr ⟨0, 0, 0, db.emptyCodeHash⟩).setNonce 0 :=
  rfl

theorem createObject_live (s : StateDB) (addr : Address) :
    (s.createObject db addr).2.2.stateObjects addr = some (s.createObject db addr).1 := by
  unfold createObject
  rcases s.getStateObject db addr with ⟨_ | prev, t⟩ <;> simp [setStateObject, StateObject.newObject,
    StateObject.setNonce]

/-- `createObject`, followed by any change to the new object: one entry, whose
revert shows the account as it was before. -/
theorem createObject_spec {s : StateDB} (hs : s.ObjectsConsistent db) (addr : Address)
    (o : StateObject) (ha : o.address = addr) (hd : o.deleted = false) :
    MethodSpec db s ((s.createObject db addr).2.2.setStateObject o) := by
  have hsame := @getStateObject_sameJournal db s addr
  have hspec := getStateObject_spec db s addr
  have hcons := hs.getStateObject addr
  have hnew : (s.createObject db addr).1.address = o.address := ha.symm
  unfold createObject at hnew ⊢
  rcases hg : s.getStateObject db addr with ⟨_ | prev, t⟩ <;> rw [hg] at hsame hspec hcons hnew <;>
    simp only at hsame hspec hcons hnew
  · obtain ⟨ht, hv⟩ := @getStateObject_none db s addr (by rw [hg])
    rw [hg] at ht
    subst ht
    rw [setStateObject_setStateObject _ hnew]
    refine ⟨_, journalled_append (t := (t.appendJournal (.createObjectChange addr)).setStateObject o)
      (.createObjectChange addr) trivial rfl rfl rfl ?_, (hs.appendJournal _).setStateObject o hd⟩
    have hload := hs.loadView_eq_none hv
    rw [view_setStateObject, appendJournal_accountView, ha]
    simp only [View.revert, Function.update_idem, hload, ← hv, Function.update_eq_self]
    rfl
  · have hprev : (s.getStateObject db addr).1 = some prev := by rw [hg]
    obtain ⟨-, hpa, hpd⟩ := getStateObject_live db hs.keyed hprev
    have hacc : t.accountView db addr = some (prev.view db) := by
      have h2 : t.accountView db = s.accountView db := congrArg View.accounts hspec.2
      rw [h2, ← hspec.1]
      rfl
    rw [setStateObject_setStateObject _ hnew]
    refine ⟨_, (Journalled.nil hsame hspec.2).trans (journalled_append
      (t := (t.appendJournal (.resetObjectChange prev)).setStateObject o) (.resetObjectChange prev)
      hpd rfl rfl rfl ?_),
      (hcons.appendJournal _).setStateObject o hd⟩
    rw [view_setStateObject, appendJournal_accountView, ha]
    simp only [View.revert, hpa, Function.update_idem, objectView, hpd, Bool.false_eq_true, if_false,
      ← hacc, Function.update_eq_self]
    rfl

theorem GetOrNewStateObject_spec {s : StateDB} (hs : s.ObjectsConsistent db) (addr : Address) :
    MethodSpec db s (s.GetOrNewStateObject db addr).2 ∧
      IsLive db (s.GetOrNewStateObject db addr).2 (s.GetOrNewStateObject db addr).1 := by
  have hsame := @getStateObject_sameJournal db s addr
  have hspec := getStateObject_spec db s addr
  have hcons := hs.getStateObject addr
  unfold GetOrNewStateObject
  rcases hg : s.getStateObject db addr with ⟨_ | obj, t⟩ <;> rw [hg] at hsame hspec hcons
  · obtain ⟨ht, -⟩ := @getStateObject_none db s addr (by rw [hg])
    rw [hg] at ht
    subst ht
    have hlive := @createObject_live db t addr
    have hself := setStateObject_of_live (s := (t.createObject db addr).2.2)
      (o := (t.createObject db addr).1) hlive
    refine ⟨?_, ?_, rfl⟩
    · rw [← hself]
      exact createObject_spec hs addr _ rfl rfl
    · simp [accountView, createObject_fst, hlive, StateObject.newObject, StateObject.setNonce]
  · have hobj : (s.getStateObject db addr).1 = some obj := by rw [hg]
    obtain ⟨hl, ha, hd⟩ := getStateObject_live db hs.keyed hobj
    rw [hg] at hl
    simp only at hl hsame hspec hcons
    simp only [hd, Bool.false_eq_true, if_false]
    exact ⟨⟨[], Journalled.nil hsame hspec.2, hcons⟩, by simp [accountView, ha, hl, hd], hd⟩

/-! ## The mutators -/

theorem withStateObject_spec {s : StateDB} (hs : s.ObjectsConsistent db) (addr : Address)
    {M : StateObject → StateDB → StateDB}
    (hM : ∀ t obj, t.ObjectsConsistent db → IsLive db t obj → MethodSpec db t (M obj t)) :
    MethodSpec db s (M (s.GetOrNewStateObject db addr).1 (s.GetOrNewStateObject db addr).2) := by
  obtain ⟨⟨es, hj, hc⟩, hl⟩ := GetOrNewStateObject_spec hs addr
  obtain ⟨fs, hj', hc'⟩ := hM _ _ hc hl
  exact ⟨es ++ fs, hj.trans hj', hc'⟩

variable {s : StateDB}

theorem SetBalance_spec (hs : s.ObjectsConsistent db) (addr : Address) (amount : ℤ) :
    MethodSpec db s (s.SetBalance db addr amount) :=
  withStateObject_spec hs addr fun _ _ ht hl => StateObject.SetBalance_spec ht hl amount

theorem AddBalance_spec (hs : s.ObjectsConsistent db) (addr : Address) (amount : ℤ) :
    MethodSpec db s (s.AddBalance db addr amount) :=
  withStateObject_spec hs addr fun _ _ ht hl => StateObject.AddBalance_spec ht hl amount

theorem SubBalance_spec (hs : s.ObjectsConsistent db) (addr : Address) (amount : ℤ) :
    MethodSpec db s (s.SubBalance db addr amount) :=
  withStateObject_spec hs addr fun _ _ ht hl => StateObject.SubBalance_spec ht hl amount

theorem SetNonce_spec (hs : s.ObjectsConsistent db) (addr : Address) (nonce : UInt64) :
    MethodSpec db s (s.SetNonce db addr nonce) :=
  withStateObject_spec hs addr fun _ _ ht hl => StateObject.SetNonce_spec ht hl nonce

theorem SetCode_spec (hs : s.ObjectsConsistent db) (addr : Address) (code : Option Bytes) :
    MethodSpec db s (s.SetCode db addr code) :=
  withStateObject_spec hs addr fun _ _ ht hl => StateObject.SetCode_spec ht hl _ code

theorem SetState_spec (hs : s.ObjectsConsistent db) (addr : Address) (key value : Hash) :
    MethodSpec db s (s.SetState db addr key value) :=
  withStateObject_spec hs addr fun _ _ ht hl => StateObject.SetState_spec ht hl key value

/-- `Suicide` journals the flag and the balance it clears. -/
theorem Suicide_spec (hs : s.ObjectsConsistent db) (addr : Address) :
    MethodSpec db s (s.Suicide db addr).2 := by
  have hsame := @getStateObject_sameJournal db s addr
  have hspec := getStateObject_spec db s addr
  have hcons := hs.getStateObject addr
  unfold Suicide
  rcases hg : s.getStateObject db addr with ⟨_ | obj, t⟩ <;> rw [hg] at hsame hspec hcons <;>
    simp only at hsame hspec hcons
  · exact ⟨[], Journalled.nil hsame hspec.2, hcons⟩
  · have hobj : (s.getStateObject db addr).1 = some obj := by rw [hg]
    obtain ⟨-, ha, hd⟩ := getStateObject_live db hs.keyed hobj
    have hacc : (t.view db).accounts addr = some (obj.view db) := by
      rw [hspec.2]
      exact hspec.1.symm
    let e := JournalEntry.suicideChange addr obj.suicided obj.data.Balance
    refine ⟨_, (Journalled.nil hsame hspec.2).trans (journalled_append
      (t := (t.appendJournal e).setStateObject (obj.markSuicided.setBalance 0)) e trivial rfl rfl rfl ?_),
      (hcons.appendJournal _).setStateObject _ hd⟩
    have hobj' : objectView db (obj.markSuicided.setBalance 0) =
        some ((obj.markSuicided.setBalance 0).view db) := by
      simp [objectView, StateObject.markSuicided, StateObject.setBalance, hd]
    have hset := View.modifyAccount_update (t.view db) addr
      (fun a => { a with suicided := obj.suicided, balance := obj.data.Balance }) hacc
      (b := (obj.markSuicided.setBalance 0).view db) rfl
    have hva : (t.view db).accounts = t.accountView db := rfl
    rw [hva] at hset
    rw [view_setStateObject, appendJournal_accountView, hobj', appendJournal_view]
    simp only [View.revert, e]
    rw [show (obj.markSuicided.setBalance 0).address = addr from ha, hset]
    rfl

theorem CreateAccount_spec (hs : s.ObjectsConsistent db) (addr : Address) :
    MethodSpec db s (s.CreateAccount db addr) := by
  have hlive := @createObject_live db s addr
  have hfst := @createObject_fst db s addr
  have hspec := createObject_spec hs addr
  unfold CreateAccount
  rcases hc : s.createObject db addr with ⟨new, _ | prev, t⟩ <;> rw [hc] at hlive hspec hfst <;>
    simp only at hlive hspec hfst
  all_goals
    have hna : new.address = addr := by rw [hfst]; rfl
    have hnd : new.deleted = false := by rw [hfst]; rfl
  · rw [← setStateObject_of_live (s := t) (o := new) (by rw [hna]; exact hlive)]
    exact hspec new hna hnd
  · exact hspec _ hna hnd

theorem AddRefund_spec (hs : s.ObjectsConsistent db) (gas : UInt64) :
    MethodSpec db s (s.AddRefund gas) :=
  ⟨_, journalled_append (.refundChange s.refund) trivial rfl rfl rfl rfl, ⟨hs.keyed, hs.deleted_absent⟩⟩

theorem AddLog_spec (hs : s.ObjectsConsistent db) (log : Log) :
    MethodSpec db s (s.AddLog log) := by
  refine ⟨_, journalled_append (.addLogChange s.thash) trivial rfl rfl rfl ?_, ⟨hs.keyed, hs.deleted_absent⟩⟩
  simp only [View.revert, view, AddLog, appendJournal, Function.update_self, List.append_eq_nil_iff,
    List.cons_ne_self, and_false, if_false, List.dropLast_concat, Function.update_idem,
    Function.update_eq_self, Nat.add_sub_cancel]
  rfl

theorem AddPreimage_spec (hs : s.ObjectsConsistent db) (hash : Hash) (preimage : Bytes) :
    MethodSpec db s (s.AddPreimage hash preimage) := by
  unfold AddPreimage
  rcases hp : s.preimages hash with _ | p
  · refine ⟨_, journalled_append (.addPreimageChange hash) trivial rfl rfl rfl ?_,
      ⟨hs.keyed, hs.deleted_absent⟩⟩
    simp only [View.revert, view, appendJournal, Function.update_idem, ← hp, Function.update_eq_self]
    rfl
  · exact ⟨[], Journalled.nil ⟨rfl, rfl, rfl⟩ rfl, hs⟩

end StateDB

end EthereumAI.State
