import EthereumAI.Common.Types

/-! # State objects and the journal (`core/state`)

The data of a `StateDB`: its live state objects, the journal of undo entries,
the revision stack, logs, preimages and the refund counter, over a backing
`Database` that is read and never written here (`Finalise` and `Commit` are not
modelled). Go pointers to state objects become values: a method that mutates an
object returns it, and its caller writes it back under its address, which is
where the pointer lives in `stateObjects`.
-/

namespace EthereumAI.State

/-- `state.Account`. The code hash is a `Hash`: every account the state writes
carries a 32-byte one. -/
structure Account where
  Nonce : UInt64
  Balance : ℤ
  Root : Hash
  CodeHash : Hash
  deriving DecidableEq, Repr

/-- The backing database, read only: the account trie decoded, the value of a
storage slot in the storage trie of a given root, contract code by its hash
(`none` for the nil slice of a failed lookup), and `crypto.Keccak256Hash`. -/
structure Database where
  account : Address → Option Account
  storage : Hash → Hash → Hash
  ContractCode : Hash → Option Bytes
  keccak : Bytes → Hash

namespace Database

variable (db : Database)

/-- `emptyCodeHash`, the hash of the empty code. -/
def emptyCodeHash : Hash := db.keccak []

/-- `cachingDB.ContractCodeSize`: the length of the stored code, `0` when it is missing. -/
def ContractCodeSize (codeHash : Hash) : ℕ := ((db.ContractCode codeHash).getD []).length

end Database

/-- `stateObject`, without the fields that only `Finalise` and `Commit` read
(`dirtyStorage`, `dirtyCode`, the opened storage trie and the error). -/
structure StateObject where
  address : Address
  data : Account
  code : Option Bytes
  cachedStorage : Hash → Option Hash
  suicided : Bool
  deleted : Bool

namespace StateObject

/-- `newObject`; the nil balance and code hash of `Account{}` are passed in as `0`
and `emptyCodeHash`, which is what `newObject` turns them into. -/
def newObject (address : Address) (data : Account) : StateObject :=
  { address, data, code := none, cachedStorage := fun _ => none, suicided := false, deleted := false }

variable (db : Database) (o : StateObject)

/-- `stateObject.empty`, the EIP-161 emptiness test. -/
def empty : Bool := o.data.Nonce == 0 && o.data.Balance == 0 && o.data.CodeHash == db.emptyCodeHash

def setBalance (amount : ℤ) : StateObject := { o with data := { o.data with Balance := amount } }

def setNonce (nonce : UInt64) : StateObject := { o with data := { o.data with Nonce := nonce } }

def setCode (codeHash : Hash) (code : Option Bytes) : StateObject :=
  { o with code := code, data := { o.data with CodeHash := codeHash } }

def setState (key value : Hash) : StateObject :=
  { o with cachedStorage := Function.update o.cachedStorage key (some value) }

def markSuicided : StateObject := { o with suicided := true }

/-- `stateObject.Code`: the code, loaded from the database and cached on first use. -/
def Code : Option Bytes × StateObject :=
  match o.code with
  | some c => (some c, o)
  | none =>
    if o.data.CodeHash = db.emptyCodeHash then (none, o)
    else
      let code := db.ContractCode o.data.CodeHash
      (code, { o with code := code })

/-- `stateObject.GetState`: the storage value, loaded from the storage trie and
cached on first use. -/
def GetState (key : Hash) : Hash × StateObject :=
  match o.cachedStorage key with
  | some value => (value, o)
  | none =>
    let value := db.storage o.data.Root key
    (value, { o with cachedStorage := Function.update o.cachedStorage key (some value) })

end StateObject

/-- `types.Log`. -/
structure Log where
  Address : EthereumAI.Address
  Topics : List Hash
  Data : Bytes
  BlockNumber : UInt64
  TxHash : Hash
  TxIndex : ℕ
  BlockHash : Hash
  Index : ℕ
  Removed : Bool
  deriving DecidableEq

/-- The entries of the journal, one constructor per Go entry type. -/
inductive JournalEntry where
  | createObjectChange (account : Address)
  | resetObjectChange (prev : StateObject)
  | suicideChange (account : Address) (prev : Bool) (prevbalance : ℤ)
  | balanceChange (account : Address) (prev : ℤ)
  | nonceChange (account : Address) (prev : UInt64)
  | storageChange (account : Address) (key prevalue : Hash)
  | codeChange (account : Address) (prevcode : Option Bytes) (prevhash : Hash)
  | refundChange (prev : UInt64)
  | addLogChange (txhash : Hash)
  | addPreimageChange (hash : Hash)
  | touchChange (account : Address) (prev prevDirty : Bool)

namespace JournalEntry

/-- `journalEntry.dirtied`. -/
def dirtied : JournalEntry → Option Address
  | createObjectChange account => some account
  | resetObjectChange _ => none
  | suicideChange account _ _ => some account
  | balanceChange account _ => some account
  | nonceChange account _ => some account
  | storageChange account _ _ => some account
  | codeChange account _ _ => some account
  | refundChange _ => none
  | addLogChange _ => none
  | addPreimageChange _ => none
  | touchChange account _ _ => some account

end JournalEntry

/-- `journal`; a counter missing from the Go map reads as `0`. -/
structure Journal where
  entries : List JournalEntry
  dirties : Address → ℤ

namespace Journal

variable (j : Journal)

/-- `journal.append`. -/
def append (entry : JournalEntry) : Journal :=
  { entries := j.entries ++ [entry],
    dirties := match entry.dirtied with
      | some addr => Function.update j.dirties addr (j.dirties addr + 1)
      | none => j.dirties }

/-- `journal.dirty`, the RIPEMD hack: a dirty mark with no entry behind it. -/
def dirty (addr : Address) : Journal :=
  { j with dirties := Function.update j.dirties addr (j.dirties addr + 1) }

def length : ℕ := j.entries.length

/-- The counter update of `journal.revert` for one entry; deleting a counter that
reaches zero is reading it back as `0`. -/
def undirty (dirties : Address → ℤ) (entry : JournalEntry) : Address → ℤ :=
  match entry.dirtied with
  | some addr => Function.update dirties addr (dirties addr - 1)
  | none => dirties

/-- How many entries of a journal dirty `addr`. -/
def count (entries : List JournalEntry) (addr : Address) : ℕ :=
  entries.countP (fun e => e.dirtied == some addr)

end Journal

/-- `revision`. -/
structure Revision where
  id : ℕ
  journalIndex : ℕ
  deriving DecidableEq, Repr

/-- `StateDB`, without its trie handle, error and `stateObjectsDirty` (read only
by `Finalise` and `Commit`). -/
structure StateDB where
  stateObjects : Address → Option StateObject
  refund : UInt64
  thash : Hash
  bhash : Hash
  txIndex : ℕ
  logs : Hash → List Log
  logSize : ℕ
  preimages : Hash → Option Bytes
  journal : Journal
  validRevisions : List Revision
  nextRevisionId : ℕ

end EthereumAI.State
