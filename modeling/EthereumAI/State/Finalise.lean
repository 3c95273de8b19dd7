import EthereumAI.State.Snapshot

/-! # Finalising a transaction (`StateDB.Finalise`)

`Finalise` visits the addresses whose dirty counter is set, deletes from the account trie those
whose live object has self-destructed or, with `deleteEmptyObjects`, is empty, writes the others
back, and clears the journal. In a consistent state the counter of an address other than
`ripemd` counts its entries still in the journal, so `Finalise` visits exactly the addresses such
an entry dirties. `resetObjectChange` dirties none: when `CreateAccount` replaces a live account,
that is the only entry it appends, and `Finalise` neither deletes nor writes the new account.
-/

namespace EthereumAI.State

namespace StateDB

variable (db : Database) (updateRoot : StateObject → Hash)

/-- One turn of the loop of `Finalise` at a live object: what it leaves in the account trie, and
the object after. `updateRoot` is the root of the storage trie once the object's dirty storage
is written to it; the storage trie itself is not modelled. -/
def finaliseObject (deleteEmptyObjects : Bool) (obj : StateObject) : Option Account × StateObject :=
  if obj.suicided || (deleteEmptyObjects && obj.empty db) then (none, { obj with deleted := true })
  else
    let obj := { obj with data := { obj.data with Root := updateRoot obj } }
    (some obj.data, obj)

/-- `Finalise`, with the account trie it writes as the database after it. Go ranges over the keys
of `dirties`, the addresses of a counter other than zero, in no fixed order; a turn reads and
writes its own address only, so the loop is the same at every address, and a dirty address with
no live object is skipped. -/
def Finalise (deleteEmptyObjects : Bool) (s : StateDB) : Database × StateDB :=
  let turn (a : Address) : Option (Option Account × StateObject) :=
    if s.journal.dirties a = 0 then none
    else (s.stateObjects a).map (finaliseObject db updateRoot deleteEmptyObjects)
  ({ db with account := fun a => match turn a with
      | some (acc, _) => acc
      | none => db.account a },
   { s with
     stateObjects := fun a => match turn a with
       | some (_, obj) => some obj
       | none => s.stateObjects a
     -- `clearJournalAndRefund`
     journal := ⟨[], fun _ => 0⟩
     validRevisions := []
     refund := 0 })

variable {db} {s : StateDB} {del : Bool}

theorem Finalise_account (a : Address) :
    (s.Finalise db updateRoot del).1.account a =
      if s.journal.dirties a = 0 then db.account a
      else match s.stateObjects a with
        | some obj => (finaliseObject db updateRoot del obj).1
        | none => db.account a := by
  unfold Finalise
  by_cases h : s.journal.dirties a = 0
  · simp only [h, if_true]
  · simp only [h, if_false]
    rcases s.stateObjects a with _ | obj <;> rfl

theorem Finalise_account_of_consistent (hs : s.Consistent db) {a : Address} (ha : a ≠ ripemd) :
    (s.Finalise db updateRoot del).1.account a =
      if Journal.count s.journal.entries a = 0 then db.account a
      else match s.stateObjects a with
        | some obj => (finaliseObject db updateRoot del obj).1
        | none => db.account a := by
  have hcount : s.journal.dirties a = 0 ↔ Journal.count s.journal.entries a = 0 := by
    rw [hs.dirties a ha]
    omega
  rw [Finalise_account]
  simp only [hcount]

theorem finaliseObject_fst_eq_none (obj : StateObject) :
    (finaliseObject db updateRoot del obj).1 = none ↔ obj.suicided = true ∨ (del = true ∧ obj.empty db = true) := by
  unfold finaliseObject
  by_cases h : (obj.suicided || (del && obj.empty db)) = true
  · rw [if_pos h]
    simpa using h
  · rw [if_neg h]
    simp only [reduceCtorEq, false_iff]
    simpa using h

theorem Finalise_run {s t : StateDB} (hs : s.Consistent db) {ops : List Op} (h : s.run db ops = some t)
    {a : Address} (ha : a ≠ ripemd) :
    (Journal.count t.journal.entries a = 0 → (t.Finalise db updateRoot del).1.account a = db.account a) ∧
    ∀ obj, t.stateObjects a = some obj → Journal.count t.journal.entries a ≠ 0 →
      ((t.Finalise db updateRoot del).1.account a = none ↔ obj.suicided = true ∨ (del = true ∧ obj.empty db = true)) ∧
      (¬(obj.suicided = true ∨ (del = true ∧ obj.empty db = true)) →
        (t.Finalise db updateRoot del).1.account a = some { obj.data with Root := updateRoot obj }) := by
  have ht := run_consistent hs h
  constructor
  · intro h0
    rw [Finalise_account_of_consistent updateRoot ht ha, if_pos h0]
  · intro obj hobj h0
    rw [Finalise_account_of_consistent updateRoot ht ha, if_neg h0, hobj]
    refine ⟨finaliseObject_fst_eq_none updateRoot obj, fun hkeep => ?_⟩
    have hb : (obj.suicided || (del && obj.empty db)) = false := by
      simpa using hkeep
    simp only [finaliseObject, hb, Bool.false_eq_true, if_false]

/-! ## Replacing a live account -/

theorem CreateAccount_dirties {a : Address} {prev : StateObject} (h : (s.getStateObject db a).1 = some prev) :
    (s.CreateAccount db a).journal.dirties = s.journal.dirties := by
  unfold CreateAccount createObject
  rw [← Prod.eta (s.getStateObject db a), h]
  dsimp only
  have hj : ((s.getStateObject db a).2).journal = s.journal := by
    unfold getStateObject
    split
    · rfl
    · split <;> rfl
  simp only [appendJournal, setStateObject, Journal.append, JournalEntry.dirtied, hj]

/-- An account of nonce 5 and no balance or code, alone in the trie. -/
def oneAccountDatabase : Database :=
  ⟨fun a => if a = 1 then some ⟨5, 0, 0, keccakEmpty⟩ else none, fun _ _ => 0, fun _ => none, fun _ => keccakEmpty⟩

/-- `CreateAccount 1` replaces the account of nonce 5 by an empty one, and journals only the
reset; `Finalise(true)` then neither deletes the empty account nor writes it back, and the trie
keeps nonce 5. -/
theorem Finalise_skips_recreated_account :
    ∃ t obj, New.run oneAccountDatabase [.CreateAccount 1] = some t ∧ t.stateObjects 1 = some obj ∧
      obj.empty oneAccountDatabase = true ∧ obj.suicided = false ∧ t.journal.entries.length = 1 ∧
      ∀ updateRoot : StateObject → Hash,
        (t.Finalise oneAccountDatabase updateRoot true).1.account 1 = some ⟨5, 0, 0, keccakEmpty⟩ :=
  ⟨_, _, rfl, rfl, by decide, rfl, rfl, fun _ => rfl⟩

end StateDB

end EthereumAI.State
