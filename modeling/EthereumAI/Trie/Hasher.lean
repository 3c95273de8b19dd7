import EthereumAI.Trie.Node
import EthereumAI.Trie.Database
import EthereumAI.Rlp.Item

/-! # Hashing trie nodes (`trie/hasher.go`)

`hash` collapses a node: its children are replaced by their hashes, or kept
embedded when their encoding is shorter than a hash, and short node keys are
written in the compact encoding. The collapsed node is encoded and hashed, and
with a database it is stored there. The node is returned again with the hash
cached in its flags, and clean when it was stored.

Keccak-256 is a parameter. `rlp.Encode` of a node writes the RLP item of its
Go value: a short node is the list of its two fields, a full node the list of its
seventeen children (`EncodeRLP`), hash and value nodes are strings, and the nil
interface is the empty list. The leaf callback of `Commit` is not modelled: the
hasher is used with none, and then it returns no errors.
-/

namespace EthereumAI.Trie

open Rlp

mutual
/-- The RLP item of a node. -/
def node.item : node → Item
  | .nil => .list []
  | .fullNode cs _ => .list (node.items cs)
  | .shortNode k v _ => .list [.str k, v.item]
  | .hashNode h => .str h
  | .valueNode v => .str v

def node.items : List node → List Item
  | [] => []
  | n :: ns => n.item :: node.items ns
end

/-- `rlp.Encode` of a node. -/
def encodeNode (n : node) : Bytes := n.item.encode

/-- `cache`: the cached hash and whether the node is dirty; hash and value nodes
have no cache and count as dirty. -/
def node.cache : node → Option Bytes × Bool
  | .fullNode _ f => (f.hash, f.dirty)
  | .shortNode _ _ f => (f.hash, f.dirty)
  | _ => (none, true)

/-- `canUnload`: clean and of a generation at least `cachelimit` behind. -/
def nodeFlag.canUnload (f : nodeFlag) (cachegen cachelimit : UInt16) : Bool :=
  !f.dirty && cachegen - f.gen ≥ cachelimit

def node.canUnload (n : node) (cachegen cachelimit : UInt16) : Bool :=
  match n with
  | .fullNode _ f => f.canUnload cachegen cachelimit
  | .shortNode _ _ f => f.canUnload cachegen cachelimit
  | _ => false

def node.isNil : node → Bool
  | .nil => true
  | _ => false

def node.isValue : node → Bool
  | .valueNode _ => true
  | _ => false

structure hasher where
  cachegen : UInt16
  cachelimit : UInt16

namespace hasher

variable (keccak : Bytes → Bytes) (h : hasher)

/-- `store`: a node whose encoding is shorter than a hash stays embedded in its
parent, unless `force`; any other is replaced by its hash (the cached one if
there is one) and, given a database, written to it. -/
def store (n : node) (db : Option Database) (force : Bool) : node × Option Database :=
  match n with
  | .nil | .hashNode _ => (n, db)
  | _ =>
    let enc := encodeNode n
    if enc.length < 32 ∧ !force then (n, db)
    else
      let hash := n.cache.1.getD (keccak enc)
      (.hashNode hash, db.map fun db => db.insert hash enc)

/-- The start of `hash`: a node with a cached hash is not hashed again when no
database is given, when it can be unloaded (it is replaced by its hash), or when
it is clean. -/
def cachedResult (n : node) (db : Option Database) : Option (node × node) :=
  match n.cache with
  | (some hash, dirty) =>
    if db.isNone then some (.hashNode hash, n)
    else if n.canUnload h.cachegen h.cachelimit then some (.hashNode hash, .hashNode hash)
    else if !dirty then some (.hashNode hash, n)
    else none
  | (none, _) => none

/-- The end of `hash`: store the collapsed node and cache its hash in the node
returned; it is clean when it was stored. -/
def finish (collapsed cached : node) (db₀ db : Option Database) (force : Bool) :
    node × node × Option Database :=
  let (hashed, db) := store keccak collapsed db force
  let cachedHash := match hashed with
    | .hashNode hash => some hash
    | _ => none
  let setFlags (f : nodeFlag) : nodeFlag :=
    { f with hash := cachedHash, dirty := if db₀.isSome then false else f.dirty }
  let cached := match cached with
    | .shortNode k v f => .shortNode k v (setFlags f)
    | .fullNode cs f => .fullNode cs (setFlags f)
    | c => c
  (hashed, cached, db)

/-- A short node with its child hashed: the collapsed node has the compact key
and an empty string for a nil child. -/
def shortChildren (k : Bytes) (f : nodeFlag) (collapsedVal cachedVal : node) : node × node :=
  (.shortNode (hexToCompact k) (if collapsedVal.isNil then .valueNode [] else collapsedVal) f,
    .shortNode k cachedVal f)

mutual
/-- `hash`; `none` is the panic of calling `cache` on a nil child. -/
def hash : node → Option Database → Bool → Option (node × node × Option Database)
  | .nil, _, _ => none
  | .shortNode k v f, db, force =>
    match h.cachedResult (.shortNode k v f) db with
    | some (hashed, cached) => some (hashed, cached, db)
    | none => do
      let (cv, chv, db') ← if v.isValue then pure (v, v, db) else hash v db false
      let (collapsed, cached) := shortChildren k f cv chv
      pure (finish keccak collapsed cached db db' force)
  | .fullNode cs f, db, force =>
    match h.cachedResult (.fullNode cs f) db with
    | some (hashed, cached) => some (hashed, cached, db)
    | none => do
      let (ccs, chcs, db') ← hashList 0 cs db
      pure (finish keccak (.fullNode ccs f) (.fullNode chcs f) db db' force)
  | n, db, force =>
    -- hash and value nodes have no children and no cached hash
    let (hashed, db') := store keccak n db force
    some (hashed, n, db')

/-- The loop of `hashChildren` over the children of a full node from index `i`:
the first sixteen are hashed, an empty one is an empty string in the collapsed
node; the value slot is kept as it is. -/
def hashList : ℕ → List node → Option Database → Option (List node × List node × Option Database)
  | _, [], db => some ([], [], db)
  | i, c :: cs, db =>
    if i < 16 then
      if c.isNil then do
        let (ccs, chcs, db') ← hashList (i + 1) cs db
        pure (.valueNode [] :: ccs, c :: chcs, db')
      else do
        let (cc, chc, db₁) ← hash c db false
        let (ccs, chcs, db₂) ← hashList (i + 1) cs db₁
        pure (cc :: ccs, chc :: chcs, db₂)
    else do
      let (ccs, chcs, db') ← hashList (i + 1) cs db
      pure ((if c.isNil then .valueNode [] else c) :: ccs, c :: chcs, db')
end

/-- `hashChildren`: the collapsed node and the node with its children's hashes
cached. -/
def hashChildren (original : node) (db : Option Database) : Option (node × node × Option Database) :=
  match original with
  | .shortNode k v f => do
    let (cv, chv, db') ← if v.isValue then pure (v, v, db) else h.hash keccak v db false
    let (collapsed, cached) := shortChildren k f cv chv
    pure (collapsed, cached, db')
  | .fullNode cs f => do
    let (ccs, chcs, db') ← h.hashList keccak 0 cs db
    pure (.fullNode ccs f, .fullNode chcs f, db')
  | n => some (n, n, db)

/-- `hash` is the source's sequence: the cache, else `hashChildren`, `store` and
the flags. -/
theorem hash_eq (n : node) (db : Option Database) (force : Bool) (hn : n.isNil = false) :
    h.hash keccak n db force =
      (match h.cachedResult n db with
      | some (hashed, cached) => some (hashed, cached, db)
      | none => do
        let (collapsed, cached, db') ← h.hashChildren keccak n db
        pure (finish keccak collapsed cached db db' force)) := by
  cases n with
  | nil => cases hn
  | shortNode k v f =>
    rw [hash]
    cases h.cachedResult (.shortNode k v f) db with
    | some r => rfl
    | none =>
      simp only [hashChildren]
      cases v.isValue
      · cases h.hash keccak v db false <;>
          simp only [Bool.false_eq_true, if_false, Option.pure_def, Option.bind_eq_bind, Option.bind_some,
            Option.bind_none]
      · rfl
  | fullNode cs f =>
    rw [hash]
    cases h.cachedResult (.fullNode cs f) db with
    | some r => rfl
    | none =>
      simp only [hashChildren]
      cases h.hashList keccak 0 cs db <;> rfl
  | hashNode hh => rfl
  | valueNode v => rfl

end hasher

end EthereumAI.Trie
