import EthereumAI.Common.Types

/-! # The trie node database (`trie/database.go`)

Nodes are kept in memory by hash, in front of a disk database. `insert` keeps
the first blob stored under a hash and ignores later ones; `Node` looks in
memory first. This is the database as the trie reads it; the reference counts that
garbage collection works with are in `Trie.Refcount`, whose `Database.toTrie` is
this view of it.
-/

namespace EthereumAI.Trie

structure Database where
  /-- `nodes`: the blob of every node cached in memory, by hash -/
  nodes : Bytes → Option Bytes
  /-- `diskdb.Get` -/
  diskdb : Bytes → Option Bytes

namespace Database

/-- `NewDatabase` over a disk database. -/
def New (diskdb : Bytes → Option Bytes) : Database := ⟨fun _ => none, diskdb⟩

/-- `Node`: the cached blob, else the disk's. -/
def Node (db : Database) (hash : Bytes) : Option Bytes :=
  match db.nodes hash with
  | some blob => some blob
  | none => db.diskdb hash

/-- `insert`: a node already known is left as it is. -/
def insert (db : Database) (hash blob : Bytes) : Database :=
  match db.nodes hash with
  | some _ => db
  | none => { db with nodes := Function.update db.nodes hash (some blob) }

/-- `db'` holds every node `db` holds, with the same blob. -/
def Extends (db db' : Database) : Prop := ∀ h b, db.Node h = some b → db'.Node h = some b

theorem Extends.refl (db : Database) : Extends db db := fun _ _ h => h

theorem Extends.trans {db₁ db₂ db₃ : Database} (h₁ : Extends db₁ db₂) (h₂ : Extends db₂ db₃) :
    Extends db₁ db₃ := fun h b hb => h₂ h b (h₁ h b hb)

theorem Node_insert_self (db : Database) (hash blob : Bytes) (h : db.nodes hash = none) :
    (db.insert hash blob).Node hash = some blob := by
  simp [insert, h, Node]

theorem Node_insert_ne (db : Database) {hash blob h : Bytes} (hne : h ≠ hash) :
    (db.insert hash blob).Node h = db.Node h := by
  unfold insert
  split
  · rfl
  · simp [Node, Function.update_of_ne hne]

theorem extends_insert (db : Database) (hash blob : Bytes)
    (hdisk : db.nodes hash = none → ∀ b, db.diskdb hash = some b → b = blob) :
    Extends db (db.insert hash blob) := by
  intro h b hb
  by_cases hh : h = hash
  · subst hh
    cases hn : db.nodes h with
    | some b' => simp [insert, hn, hb]
    | none =>
      rw [Node_insert_self db h blob hn]
      simp only [Node, hn] at hb
      rw [hdisk hn b hb]
  · rw [Node_insert_ne db hh, hb]

theorem Node_insert (db : Database) (hash blob : Bytes) :
    (db.insert hash blob).Node hash = some blob ∨ (db.insert hash blob).Node hash = db.nodes hash := by
  unfold insert
  split
  · rename_i b hb
    right
    simp [Node, hb]
  · left
    simp [Node]

end Database

end EthereumAI.Trie
