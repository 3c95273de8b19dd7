import EthereumAI.State.Object
import EthereumAI.Lib.Journal

/-! # StateDB operations (`core/state/statedb.go`, `state_object.go`, `journal.go`)

Every operation takes the backing `Database` and returns the new `StateDB` with
its result. Lookups cache what they load, so the accessors change the state too.
A panic of the Go code (a nil state object dereferenced while reverting, an
unknown revision id) is `none`.
-/

namespace EthereumAI.State

/-- `ripemd`, the precompile at address 3 whose touches are kept dirty. -/
def ripemd : Address := 3

namespace StateDB

variable (db : Database) (s : StateDB)

def setStateObject (object : StateObject) : StateDB :=
  { s with stateObjects := Function.update s.stateObjects object.address (some object) }

def appendJournal (entry : JournalEntry) : StateDB := { s with journal := s.journal.append entry }

/-- `getStateObject`: the live object, else the account of the trie, made live;
`none` for a deleted or missing account. -/
def getStateObject (addr : Address) : Option StateObject × StateDB :=
  match s.stateObjects addr with
  | some obj => (if obj.deleted then none else some obj, s)
  | none =>
    match db.account addr with
    | none => (none, s)
    | some data =>
      let obj := StateObject.newObject addr data
      (some obj, s.setStateObject obj)

/-- `createObject`: a fresh object replaces whatever lives at `addr`; the
previous object is returned next to the new one. -/
def createObject (addr : Address) : StateObject × Option StateObject × StateDB :=
  let (prev, s) := s.getStateObject db addr
  let newobj := (StateObject.newObject addr ⟨0, 0, 0, db.emptyCodeHash⟩).setNonce 0
  let s := match prev with
    | none => s.appendJournal (.createObjectChange addr)
    | some prev => s.appendJournal (.resetObjectChange prev)
  (newobj, prev, s.setStateObject newobj)

def GetOrNewStateObject (addr : Address) : StateObject × StateDB :=
  let (stateObject, s) := s.getStateObject db addr
  let (newobj, _, s') := s.createObject db addr
  match stateObject with
  | some obj => if obj.deleted then (newobj, s') else (obj, s)
  | none => (newobj, s')

end StateDB

/-! ## The journalling methods of a live state object -/

namespace StateObject

variable (db : Database) (o : StateObject) (s : StateDB)

def SetBalance (amount : ℤ) : StateDB :=
  (s.appendJournal (.balanceChange o.address o.data.Balance)).setStateObject (o.setBalance amount)

/-- `touch`: an entry with no effect, and for `ripemd` one more dirty mark. -/
def touch : StateDB :=
  let s := s.appendJournal (.touchChange o.address false false)
  if o.address = ripemd then { s with journal := s.journal.dirty o.address } else s

def AddBalance (amount : ℤ) : StateDB :=
  if amount = 0 then (if o.empty db then o.touch s else s)
  else o.SetBalance s (o.data.Balance + amount)

def SubBalance (amount : ℤ) : StateDB :=
  if amount = 0 then s else o.SetBalance s (o.data.Balance - amount)

def SetNonce (nonce : UInt64) : StateDB :=
  (s.appendJournal (.nonceChange o.address o.data.Nonce)).setStateObject (o.setNonce nonce)

/-- `SetCode` journals the code as `Code` returns it, loading it first. -/
def SetCode (codeHash : Hash) (code : Option Bytes) : StateDB :=
  let (prevcode, o) := o.Code db
  (s.appendJournal (.codeChange o.address prevcode o.data.CodeHash)).setStateObject
    (o.setCode codeHash code)

/-- `SetState` journals the slot as `GetState` returns it, loading it first. -/
def SetState (key value : Hash) : StateDB :=
  let (prevalue, o) := o.GetState db key
  (s.appendJournal (.storageChange o.address key prevalue)).setStateObject (o.setState key value)

end StateObject

namespace StateDB

variable (db : Database) (s : StateDB)

/-! ## Mutators -/

def AddBalance (addr : Address) (amount : ℤ) : StateDB :=
  let (obj, s) := s.GetOrNewStateObject db addr
  obj.AddBalance db s amount

def SubBalance (addr : Address) (amount : ℤ) : StateDB :=
  let (obj, s) := s.GetOrNewStateObject db addr
  obj.SubBalance s amount

def SetBalance (addr : Address) (amount : ℤ) : StateDB :=
  let (obj, s) := s.GetOrNewStateObject db addr
  obj.SetBalance s amount

def SetNonce (addr : Address) (nonce : UInt64) : StateDB :=
  let (obj, s) := s.GetOrNewStateObject db addr
  obj.SetNonce s nonce

def SetCode (addr : Address) (code : Option Bytes) : StateDB :=
  let (obj, s) := s.GetOrNewStateObject db addr
  obj.SetCode db s (db.keccak (code.getD [])) code

def SetState (addr : Address) (key value : Hash) : StateDB :=
  let (obj, s) := s.GetOrNewStateObject db addr
  obj.SetState db s key value

def Suicide (addr : Address) : Bool × StateDB :=
  match s.getStateObject db addr with
  | (none, s) => (false, s)
  | (some obj, s) =>
    let s := s.appendJournal (.suicideChange addr obj.suicided obj.data.Balance)
    (true, s.setStateObject (obj.markSuicided.setBalance 0))

/-- `CreateAccount` carries the balance of a previous object over. -/
def CreateAccount (addr : Address) : StateDB :=
  match s.createObject db addr with
  | (new, some prev, s) => s.setStateObject (new.setBalance prev.data.Balance)
  | (_, none, s) => s

def AddRefund (gas : UInt64) : StateDB :=
  { s.appendJournal (.refundChange s.refund) with refund := s.refund + gas }

def AddLog (log : Log) : StateDB :=
  let s := s.appendJournal (.addLogChange s.thash)
  let log := { log with TxHash := s.thash, BlockHash := s.bhash, TxIndex := s.txIndex,
                        Index := s.logSize }
  { s with logs := Function.update s.logs s.thash (s.logs s.thash ++ [log]),
           logSize := s.logSize + 1 }

def AddPreimage (hash : Hash) (preimage : Bytes) : StateDB :=
  match s.preimages hash with
  | some _ => s
  | none =>
    { s.appendJournal (.addPreimageChange hash) with
      preimages := Function.update s.preimages hash (some preimage) }

/-! ## Accessors -/

def Exist (addr : Address) : Bool × StateDB :=
  let (obj, s) := s.getStateObject db addr
  (obj.isSome, s)

def Empty (addr : Address) : Bool × StateDB :=
  let (obj, s) := s.getStateObject db addr
  ((obj.map (·.empty db)).getD true, s)

def GetBalance (addr : Address) : ℤ × StateDB :=
  let (obj, s) := s.getStateObject db addr
  ((obj.map (·.data.Balance)).getD 0, s)

def GetNonce (addr : Address) : UInt64 × StateDB :=
  let (obj, s) := s.getStateObject db addr
  ((obj.map (·.data.Nonce)).getD 0, s)

def GetCode (addr : Address) : Option Bytes × StateDB :=
  match s.getStateObject db addr with
  | (some obj, s) => ((obj.Code db).1, s.setStateObject (obj.Code db).2)
  | (none, s) => (none, s)

def GetCodeSize (addr : Address) : ℕ × StateDB :=
  match s.getStateObject db addr with
  | (some obj, s) =>
    (match obj.code with
      | some code => code.length
      | none => db.ContractCodeSize obj.data.CodeHash, s)
  | (none, s) => (0, s)

def GetCodeHash (addr : Address) : Hash × StateDB :=
  let (obj, s) := s.getStateObject db addr
  ((obj.map (·.data.CodeHash)).getD 0, s)

def GetState (addr : Address) (bhash : Hash) : Hash × StateDB :=
  match s.getStateObject db addr with
  | (some obj, s) => ((obj.GetState db bhash).1, s.setStateObject (obj.GetState db bhash).2)
  | (none, s) => (0, s)

def HasSuicided (addr : Address) : Bool × StateDB :=
  let (obj, s) := s.getStateObject db addr
  ((obj.map (·.suicided)).getD false, s)

def GetRefund : UInt64 := s.refund

def GetLogs (hash : Hash) : List Log := s.logs hash

def Preimages : Hash → Option Bytes := s.preimages

/-! ## Reverting -/

/-- `s.getStateObject(addr).f(...)` in a revert method: a nil object is dereferenced,
which panics. -/
def modifyStateObject (addr : Address) (f : StateObject → StateObject) : Option StateDB :=
  match s.getStateObject db addr with
  | (some obj, s) => some (s.setStateObject (f obj))
  | (none, _) => none

/-- `journalEntry.revert`. -/
def revertEntry : JournalEntry → StateDB → Option StateDB
  | .createObjectChange account, s =>
    some { s with stateObjects := Function.update s.stateObjects account none }
  | .resetObjectChange prev, s => some (s.setStateObject prev)
  | .suicideChange account prev prevbalance, s =>
    match s.getStateObject db account with
    | (some obj, s) => some (s.setStateObject ({ obj with suicided := prev }.setBalance prevbalance))
    | (none, s) => some s
  | .balanceChange account prev, s => s.modifyStateObject db account (·.setBalance prev)
  | .nonceChange account prev, s => s.modifyStateObject db account (·.setNonce prev)
  | .storageChange account key prevalue, s =>
    s.modifyStateObject db account (·.setState key prevalue)
  | .codeChange account prevcode prevhash, s =>
    s.modifyStateObject db account (·.setCode prevhash prevcode)
  | .refundChange prev, s => some { s with refund := prev }
  -- `logs[:len(logs)-1]` panics on an empty list; the length-one case deletes the
  -- key, which reads back as the empty list
  | .addLogChange txhash, s =>
    if s.logs txhash = [] then none
    else some { s with logs := Function.update s.logs txhash (s.logs txhash).dropLast,
                       logSize := s.logSize - 1 }
  | .addPreimageChange hash, s => some { s with preimages := Function.update s.preimages hash none }
  | .touchChange _ _ _, s => some s

/-- One iteration of the loop of `journal.revert`: undo the entry, then drop its dirty mark. -/
def revertStep (entry : JournalEntry) (s : StateDB) : Option StateDB :=
  (revertEntry db entry s).map fun s =>
    { s with journal := { s.journal with dirties := Journal.undirty s.journal.dirties entry } }

/-- `journal.revert`: undo the entries from `snapshot` on, newest first, then cut them off. -/
def revertJournal (snapshot : ℕ) : Option StateDB :=
  (Lib.undoAll (revertStep db) (s.journal.entries.drop snapshot) s).map fun t =>
    { t with journal := { t.journal with entries := s.journal.entries.take snapshot } }

def Snapshot : ℕ × StateDB :=
  let id := s.nextRevisionId
  (id, { s with nextRevisionId := id + 1,
                validRevisions := s.validRevisions ++ [⟨id, s.journal.length⟩] })

/-- `RevertToSnapshot`. `sort.Search` returns the first index whose id is at
least `revid`, which is `findIdx` on the increasing ids of `validRevisions`. -/
def RevertToSnapshot (revid : ℕ) : Option StateDB :=
  let idx := s.validRevisions.findIdx (fun r => decide (revid ≤ r.id))
  match s.validRevisions[idx]? with
  | none => none
  | some r =>
    if r.id ≠ revid then none
    else (s.revertJournal db r.journalIndex).map fun t =>
      { t with validRevisions := s.validRevisions.take idx }

end StateDB

/-! ## Runs -/

/-- The accessors, run for their effect on the caches. -/
inductive Query where
  | Exist (addr : Address)
  | Empty (addr : Address)
  | HasSuicided (addr : Address)
  | GetBalance (addr : Address)
  | GetNonce (addr : Address)
  | GetCode (addr : Address)
  | GetCodeHash (addr : Address)
  | GetCodeSize (addr : Address)
  | GetState (addr : Address) (key : Hash)

/-- The calls a run is made of: the mutators, snapshots and reverts, and reads. -/
inductive Op where
  | SetBalance (addr : Address) (amount : ℤ)
  | AddBalance (addr : Address) (amount : ℤ)
  | SubBalance (addr : Address) (amount : ℤ)
  | SetNonce (addr : Address) (nonce : UInt64)
  | SetCode (addr : Address) (code : Option Bytes)
  | SetState (addr : Address) (key value : Hash)
  | CreateAccount (addr : Address)
  | Suicide (addr : Address)
  | AddRefund (gas : UInt64)
  | AddLog (log : Log)
  | AddPreimage (hash : Hash) (preimage : Bytes)
  | Snapshot
  | RevertToSnapshot (revid : ℕ)
  | read (q : Query)

namespace StateDB

variable (db : Database)

/-- The state after a read. -/
def read (s : StateDB) : Query → StateDB
  | .Exist addr => (s.Exist db addr).2
  | .Empty addr => (s.Empty db addr).2
  | .HasSuicided addr => (s.HasSuicided db addr).2
  | .GetBalance addr => (s.GetBalance db addr).2
  | .GetNonce addr => (s.GetNonce db addr).2
  | .GetCode addr => (s.GetCode db addr).2
  | .GetCodeHash addr => (s.GetCodeHash db addr).2
  | .GetCodeSize addr => (s.GetCodeSize db addr).2
  | .GetState addr key => (s.GetState db addr key).2

def step (s : StateDB) : Op → Option StateDB
  | .SetBalance addr amount => some (s.SetBalance db addr amount)
  | .AddBalance addr amount => some (s.AddBalance db addr amount)
  | .SubBalance addr amount => some (s.SubBalance db addr amount)
  | .SetNonce addr nonce => some (s.SetNonce db addr nonce)
  | .SetCode addr code => some (s.SetCode db addr code)
  | .SetState addr key value => some (s.SetState db addr key value)
  | .CreateAccount addr => some (s.CreateAccount db addr)
  | .Suicide addr => some (s.Suicide db addr).2
  | .AddRefund gas => some (s.AddRefund gas)
  | .AddLog log => some (s.AddLog log)
  | .AddPreimage hash preimage => some (s.AddPreimage hash preimage)
  | .Snapshot => some s.Snapshot.2
  | .RevertToSnapshot revid => s.RevertToSnapshot db revid
  | .read q => some (s.read db q)

/-- A run: `none` when a call panics. -/
def run (s : StateDB) (ops : List Op) : Option StateDB := ops.foldlM (step db) s

end StateDB

end EthereumAI.State
