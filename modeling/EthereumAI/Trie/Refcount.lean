import Mathlib
import EthereumAI.Lib.AListValues
import EthereumAI.Trie.Trie
import EthereumAI.Lib.Journal

/-! # Reference counting in the trie node cache (`trie/database.go`)

The memory layer of the trie database caches nodes by hash. Each cached node counts its
parents, the live nodes that reference it, and maps its children to the number of references it
holds; the meta-root under the zero hash holds the roots of the live tries. `Reference` adds an
edge (several only from the meta-root), `Dereference` removes one and deletes a node whose count
drops to zero, cascading into its children, and `Commit` writes a trie to disk and drops its
nodes from the cache.

A Go map is an association list (`AList`) whose entries are in the order a `range` visits
them; a pointer to a cached node is its hash, and a write through it is an `insert` of the
updated node. `StorageSize` is a float that only ever holds sums of integers here, an `ℤ`.
The three walks recurse without a bound of their own (they would not stop on a cycle of
hashes); the model gives each a fuel argument, and running out is `none`, as the nil-pointer
panic of a parent that is not cached is. Preimages and the statistics of the collector are
left out: no operation here reads them. -/

namespace EthereumAI.Trie.Refcount

/-- `cachedNode`. -/
structure cachedNode where
  blob : Bytes
  parents : ℤ
  children : AList (fun _ : Bytes => ℤ)

/-- `Database`: the persistent store, the cached nodes and their total size. -/
structure Database where
  diskdb : AList (fun _ : Bytes => Bytes)
  nodes : AList (fun _ : Bytes => cachedNode)
  nodesSize : ℤ

/-- `common.HashLength`. -/
def HashLength : ℕ := 32

/-- `NewDatabase`: the meta-root alone. -/
def NewDatabase (diskdb : AList (fun _ : Bytes => Bytes)) : Database :=
  ⟨diskdb, (∅ : AList (fun _ : Bytes => cachedNode)).insert zeroHash ⟨[], 0, ∅⟩, 0⟩

/-- A write through the pointer to the cached node `hash`. -/
def modify (nodes : AList (fun _ : Bytes => cachedNode)) (hash : Bytes) (f : cachedNode → cachedNode) :
    AList (fun _ : Bytes => cachedNode) :=
  match nodes.lookup hash with
  | none => nodes
  | some n => nodes.insert hash (f n)

/-- The value of a key of a Go map of counters, zero when it is missing. -/
def count (m : AList (fun _ : Bytes => ℤ)) (k : Bytes) : ℤ := (m.lookup k).getD 0

namespace Database

/-- `insert`: a node that is not cached yet, with no parents and no children. -/
def insert (db : Database) (hash blob : Bytes) : Database :=
  if hash ∈ db.nodes then db
  else { db with nodes := db.nodes.insert hash ⟨blob, 0, ∅⟩,
                 nodesSize := db.nodesSize + (HashLength + blob.length) }

/-- `reference`: a child that is not cached was pulled from disk and is skipped; an edge that
exists is counted again only from the meta-root. -/
def reference (db : Database) (child parent : Bytes) : Option Database :=
  match db.nodes.lookup child with
  | none => some db
  | some _ =>
    match db.nodes.lookup parent with
    | none => none
    | some p =>
      if child ∈ p.children ∧ parent ≠ zeroHash then some db
      else
        -- node.parents++, then db.nodes[parent].children[child]++
        let nodes := modify db.nodes child fun n => { n with parents := n.parents + 1 }
        some { db with nodes := modify nodes parent fun p =>
          { p with children := p.children.insert child (count p.children child + 1) } }

/-- `dereference`: take the edge off the parent's map, and delete a cached child that has no
parents left, after its own children. -/
def dereference : ℕ → Database → Bytes → Bytes → Option Database
  | 0, _, _, _ => none
  | fuel + 1, db, child, parent =>
    match db.nodes.lookup parent with
    | none => none
    | some p =>
      let c := count p.children child - 1
      let p := { p with children := if c = 0 then p.children.erase child else p.children.insert child c }
      let db := { db with nodes := db.nodes.insert parent p }
      -- a child that is not cached was committed before
      match db.nodes.lookup child with
      | none => some db
      | some node =>
        let node := { node with parents := node.parents - 1 }
        let db := { db with nodes := db.nodes.insert child node }
        if node.parents = 0 then
          match node.children.keys.foldlM (fun db hash => dereference fuel db hash child) db with
          | none => none
          | some db => some { db with nodes := db.nodes.erase child,
                                      nodesSize := db.nodesSize - (HashLength + node.blob.length) }
        else some db

/-- `commit`: write a cached node to disk after its children. -/
def commit : ℕ → Database → Bytes → Option Database
  | 0, _, _ => none
  | fuel + 1, db, hash =>
    match db.nodes.lookup hash with
    | none => some db
    | some node =>
      match node.children.keys.foldlM (fun db child => commit fuel db child) db with
      | none => none
      | some db => some { db with diskdb := db.diskdb.insert hash node.blob }

/-- `uncache`: drop a committed node and its subtries from the cache. -/
def uncache : ℕ → Database → Bytes → Option Database
  | 0, _, _ => none
  | fuel + 1, db, hash =>
    match db.nodes.lookup hash with
    | none => some db
    | some node =>
      match node.children.keys.foldlM (fun db child => uncache fuel db child) db with
      | none => none
      | some db => some { db with nodes := db.nodes.erase hash,
                                  nodesSize := db.nodesSize - (HashLength + node.blob.length) }

/-- `Commit`: write the trie under `node` to disk, then uncache it. -/
def Commit (fuel : ℕ) (db : Database) (node : Bytes) : Option Database := do
  let db ← db.commit fuel node
  db.uncache fuel node

end Database

/-- The operations on the database. -/
inductive Op where
  | Insert (hash blob : Bytes)
  | Reference (child parent : Bytes)
  | Dereference (child parent : Bytes)
  | Commit (node : Bytes)

/-- One operation; `none` is a panic or the fuel running out. -/
def Op.apply (fuel : ℕ) (db : Database) : Op → Option Database
  | .Insert hash blob => some (db.insert hash blob)
  | .Reference child parent => db.reference child parent
  | .Dereference child parent => db.dereference fuel child parent
  | .Commit node => db.Commit fuel node

/-- A sequence of operations. -/
def run (fuel : ℕ) (db : Database) (ops : List Op) : Option Database := ops.foldlM (Op.apply fuel) db

/-! ## What the counters should be -/

/-- The references to `h` the cached nodes hold: one from each node whose map has it, and as
many as the meta-root counts. -/
def refCount (db : Database) (h : Bytes) : ℤ :=
  (db.nodes.entries.map fun e =>
    if e.1 = zeroHash then count e.2.children h else if h ∈ e.2.children then 1 else 0).sum

/-- The size the cached nodes other than the meta-root take. -/
def cachedSize (db : Database) : ℤ :=
  (db.nodes.entries.map fun e => if e.1 = zeroHash then 0 else (HashLength + e.2.blob.length : ℤ)).sum

/-- The counters agree with the maps. -/
structure Consistent (db : Database) : Prop where
  parents : ∀ h n, h ≠ zeroHash → db.nodes.lookup h = some n → n.parents = refCount db h
  size : db.nodesSize = cachedSize db

/-! ## The operations that keep the counters

`Insert` of a hash no cached node references and every `Reference` keep the counters
consistent. Every counter is a sum over the entries of the cache, so an update of one entry
changes it by what that entry adds. -/

open Lib

/-- The references to `h` that the cached node `p` holds. -/
def refFrom (h p : Bytes) (pn : cachedNode) : ℤ :=
  if p = zeroHash then count pn.children h else if h ∈ pn.children then 1 else 0

/-- The size a cached node takes. -/
def entrySize (p : Bytes) (pn : cachedNode) : ℤ := if p = zeroHash then 0 else HashLength + pn.blob.length

theorem refCount_eq (db : Database) (h : Bytes) :
    refCount db h = (db.nodes.entries.map fun e => refFrom h e.1 e.2).sum := rfl

theorem cachedSize_eq (db : Database) : cachedSize db = (db.nodes.entries.map fun e => entrySize e.1 e.2).sum := rfl

theorem lookup_modify (nodes : AList (fun _ : Bytes => cachedNode)) (hash k : Bytes) (f : cachedNode → cachedNode) :
    (modify nodes hash f).lookup k = if k = hash then (nodes.lookup hash).map f else nodes.lookup k := by
  unfold modify
  cases hn : nodes.lookup hash with
  | none =>
    split_ifs with hk
    · rw [hk, hn]
      rfl
    · rfl
  | some n =>
    split_ifs with hk
    · rw [hk, AList.lookup_insert]
      rfl
    · rw [AList.lookup_insert_ne hk]

theorem sum_modify (F : Bytes → cachedNode → ℤ) {nodes : AList (fun _ : Bytes => cachedNode)} {hash : Bytes}
    {n : cachedNode} (hn : nodes.lookup hash = some n) (f : cachedNode → cachedNode) :
    ((modify nodes hash f).entries.map fun e => F e.1 e.2).sum =
      (nodes.entries.map fun e => F e.1 e.2).sum + (F hash (f n) - F hash n) := by
  unfold modify
  rw [hn, sum_entries_insert, sum_entries_of_lookup F hn]
  omega

theorem count_insert_ne {m : AList (fun _ : Bytes => ℤ)} {k h : Bytes} (hne : h ≠ k) (c : ℤ) :
    count (m.insert k c) h = count m h := by
  rw [count, AList.lookup_insert_ne hne, count]

theorem refFrom_insert_ne {h k : Bytes} (hne : h ≠ k) (p : Bytes) (pn : cachedNode) (c : ℤ) :
    refFrom h p { pn with children := pn.children.insert k c } = refFrom h p pn := by
  simp only [refFrom, count_insert_ne hne, AList.mem_insert, hne, false_or]

theorem refFrom_insert_self {child parent : Bytes} {pn : cachedNode}
    (hnew : parent ≠ zeroHash → child ∉ pn.children) :
    refFrom child parent { pn with children := pn.children.insert child (count pn.children child + 1) } =
      refFrom child parent pn + 1 := by
  by_cases hp : parent = zeroHash
  · simp [refFrom, hp, count]
  · simp [refFrom, hp, hnew hp]

theorem NewDatabase_consistent (diskdb : AList (fun _ : Bytes => Bytes)) : Consistent (NewDatabase diskdb) where
  parents h n hz hn := by
    unfold NewDatabase at hn
    dsimp only at hn
    rw [AList.lookup_insert_ne hz] at hn
    cases hn
  size := by
    simp [NewDatabase, cachedSize]

/-- `insert` of a hash no cached node references keeps the counters. -/
theorem Consistent.insert {db : Database} (hc : Consistent db) (hroot : zeroHash ∈ db.nodes) (hash blob : Bytes)
    (hfresh : hash ∉ db.nodes → refCount db hash = 0) : Consistent (db.insert hash blob) := by
  unfold Database.insert
  split_ifs with hmem
  · exact hc
  have hne : hash ≠ zeroHash := fun h => hmem (h ▸ hroot)
  have href : ∀ h, refCount ⟨db.diskdb, db.nodes.insert hash ⟨blob, 0, ∅⟩, db.nodesSize + (HashLength + blob.length)⟩ h =
      refCount db h := by
    intro h
    rw [refCount_eq, sum_entries_insert_of_not_mem _ _ hmem, ← refCount_eq]
    simp [refFrom, hne]
  constructor
  · intro h n hz hn
    rw [href]
    by_cases hh : h = hash
    · subst hh
      simp only [AList.lookup_insert, Option.some.injEq] at hn
      subst hn
      exact (hfresh hmem).symm
    · rw [AList.lookup_insert_ne hh] at hn
      exact hc.parents h n hz hn
  · rw [cachedSize_eq, sum_entries_insert_of_not_mem _ _ hmem, ← cachedSize_eq, ← hc.size]
    simp only [entrySize, if_neg hne]
    omega

/-- Every `reference` keeps the counters: the child counts one parent more exactly when the
parent's map gains a reference to it. -/
theorem Consistent.reference {db db' : Database} (hc : Consistent db) {child parent : Bytes}
    (h : db.reference child parent = some db') : Consistent db' := by
  unfold Database.reference at h
  cases hcn : db.nodes.lookup child with
  | none =>
    rw [hcn] at h
    cases h
    exact hc
  | some cn =>
    cases hp : db.nodes.lookup parent with
    | none => rw [hcn, hp] at h; cases h
    | some p =>
      rw [hcn, hp] at h
      dsimp only at h
      by_cases hedge : child ∈ p.children ∧ parent ≠ zeroHash
      · rw [if_pos hedge] at h
        cases h
        exact hc
      rw [if_neg hedge] at h
      cases h
      -- the child's counter goes up first; the parent, read again, then gains the edge
      obtain ⟨p₁, hp₁, hch, hblob, hpar⟩ : ∃ p₁, (modify db.nodes child fun n => { n with parents := n.parents + 1 }).lookup
          parent = some p₁ ∧ p₁.children = p.children ∧ p₁.blob = p.blob ∧
          p₁.parents = if parent = child then p.parents + 1 else p.parents := by
        rw [lookup_modify]
        by_cases hpc : parent = child
        · subst hpc
          rw [hp] at hcn
          cases hcn
          simp [hp]
        · simp [hpc, hp]
      have hnew : parent ≠ zeroHash → child ∉ p₁.children := fun hz hmem => hedge ⟨hch ▸ hmem, hz⟩
      have hdelta : ∀ h, refCount ⟨db.diskdb, modify (modify db.nodes child fun n => { n with parents := n.parents + 1 })
          parent (fun p => { p with children := p.children.insert child (count p.children child + 1) }), db.nodesSize⟩ h =
          refCount db h + if h = child then 1 else 0 := by
        intro h
        rw [refCount_eq, sum_modify _ hp₁, sum_modify _ hcn, ← refCount_eq]
        by_cases hh : h = child
        · subst hh
          rw [refFrom_insert_self hnew, if_pos rfl]
          simp only [refFrom]
          omega
        · rw [refFrom_insert_ne hh, if_neg hh]
          simp only [refFrom]
          omega
      constructor
      · intro h n hz hn
        rw [hdelta]
        rw [lookup_modify] at hn
        by_cases hhp : h = parent
        · -- the parent: its counter moved only if it is the child
          subst hhp
          rw [if_pos rfl, hp₁, Option.map_some, Option.some.injEq] at hn
          subst hn
          show p₁.parents = _
          rw [hpar, hc.parents h p hz hp]
          split_ifs <;> omega
        · rw [if_neg hhp, lookup_modify] at hn
          by_cases hhc : h = child
          · subst hhc
            rw [if_pos rfl, hcn, Option.map_some, Option.some.injEq] at hn
            subst hn
            rw [if_pos rfl, hc.parents h cn hz hcn]
          · rw [if_neg hhc] at hn
            rw [if_neg hhc, hc.parents h n hz hn, Int.add_zero]
      · -- neither write changes a blob
        show db.nodesSize = cachedSize ⟨db.diskdb, _, db.nodesSize⟩
        rw [cachedSize_eq, sum_modify _ hp₁, sum_modify _ hcn, ← cachedSize_eq, ← hc.size]
        have e₁ : entrySize child { cn with parents := cn.parents + 1 } = entrySize child cn := rfl
        have e₂ : entrySize parent { p₁ with children := p₁.children.insert child (count p₁.children child + 1) } =
            entrySize parent p₁ := rfl
        rw [e₁, e₂]
        omega

/-! ## Runs of inserts and references

A run of `Insert` and `Reference` from `NewDatabase` keeps the counters consistent, since a
child it references is always cached, so a hash it inserts has no references yet. -/

/-- `Insert` and `Reference`, the operations that only add to the cache. -/
def Op.adds : Op → Bool
  | .Insert .. => true
  | .Reference .. => true
  | _ => false

/-- The meta-root is cached, and so is every child a cached node references. -/
structure Closed (db : Database) : Prop where
  root : zeroHash ∈ db.nodes
  children : ∀ p pn, db.nodes.lookup p = some pn → ∀ h ∈ pn.children, h ∈ db.nodes

theorem mem_modify {nodes : AList (fun _ : Bytes => cachedNode)} {hash k : Bytes} {f : cachedNode → cachedNode} :
    k ∈ modify nodes hash f ↔ k ∈ nodes := by
  rw [← AList.lookup_isSome, ← AList.lookup_isSome, lookup_modify]
  split_ifs with hk
  · rw [hk, Option.isSome_map]
  · rfl

theorem Closed.refCount_eq_zero {db : Database} (hc : Closed db) {h : Bytes} (hh : h ∉ db.nodes) :
    refCount db h = 0 := by
  rw [refCount_eq]
  refine List.sum_eq_zero fun x hx => ?_
  obtain ⟨e, he, rfl⟩ := List.mem_map.mp hx
  have hnot : h ∉ e.2.children := fun hm => hh (hc.children e.1 e.2 (AList.mem_lookup_iff.mpr he) h hm)
  simp [refFrom, count, AList.lookup_eq_none.mpr hnot, hnot]

theorem NewDatabase_closed (diskdb : AList (fun _ : Bytes => Bytes)) : Closed (NewDatabase diskdb) where
  root := (AList.mem_insert _).mpr (.inl rfl)
  children p pn hp h hh := by
    by_cases hz : p = zeroHash
    · subst hz
      simp only [NewDatabase, AList.lookup_insert, Option.some.injEq] at hp
      subst hp
      exact absurd hh (AList.notMem_empty h)
    · simp only [NewDatabase] at hp
      rw [AList.lookup_insert_ne hz, AList.lookup_empty] at hp
      cases hp

theorem Closed.insert {db : Database} (hc : Closed db) (hash blob : Bytes) : Closed (db.insert hash blob) := by
  unfold Database.insert
  split_ifs with hmem
  · exact hc
  refine ⟨(AList.mem_insert _).mpr (.inr hc.root), fun p pn hp h hh => (AList.mem_insert _).mpr (.inr ?_)⟩
  by_cases hph : p = hash
  · subst hph
    simp only [AList.lookup_insert, Option.some.injEq] at hp
    subst hp
    exact absurd hh (AList.notMem_empty h)
  · rw [AList.lookup_insert_ne hph] at hp
    exact hc.children p pn hp h hh

theorem Closed.reference {db db' : Database} (hc : Closed db) {child parent : Bytes}
    (h : db.reference child parent = some db') : Closed db' := by
  unfold Database.reference at h
  cases hcn : db.nodes.lookup child with
  | none =>
    rw [hcn] at h
    cases h
    exact hc
  | some cn =>
    cases hp : db.nodes.lookup parent with
    | none => rw [hcn, hp] at h; cases h
    | some p =>
      rw [hcn, hp] at h
      dsimp only at h
      split_ifs at h
      · cases h
        exact hc
      cases h
      -- the parent gains the child, which is cached; the other maps are as they were
      have hchild : child ∈ db.nodes := AList.lookup_isSome.mp (by rw [hcn]; rfl)
      refine ⟨mem_modify.mpr (mem_modify.mpr hc.root), fun q qn hq k hk => mem_modify.mpr (mem_modify.mpr ?_)⟩
      rw [lookup_modify, lookup_modify, lookup_modify] at hq
      split_ifs at hq with hqp hpc hqc
      · subst hqp hpc
        rw [hcn] at hq
        cases hq
        rcases (AList.mem_insert _).mp hk with rfl | hk
        · exact hchild
        · exact hc.children _ cn hcn k hk
      · subst hqp
        rw [hp] at hq
        cases hq
        rcases (AList.mem_insert _).mp hk with rfl | hk
        · exact hchild
        · exact hc.children _ p hp k hk
      · subst hqc
        rw [hcn] at hq
        cases hq
        exact hc.children _ cn hcn k hk
      · exact hc.children q qn hq k hk

theorem run_consistent (fuel : ℕ) (diskdb : AList (fun _ : Bytes => Bytes)) {ops : List Op}
    (hops : ∀ op ∈ ops, op.adds = true) {db : Database} (h : run fuel (NewDatabase diskdb) ops = some db) :
    Consistent db ∧ Closed db := by
  refine Lib.foldlM_invariant_of_forall (Op.apply fuel) (P := fun db => Consistent db ∧ Closed db)
    (Q := fun op => op.adds = true) (fun db op db' hop hinv hstep => ?_) ops hops _ _
    ⟨NewDatabase_consistent diskdb, NewDatabase_closed diskdb⟩ h
  obtain ⟨hc, hcl⟩ := hinv
  cases op with
  | Insert hash blob =>
    cases hstep
    exact ⟨hc.insert hcl.root hash blob hcl.refCount_eq_zero, hcl.insert hash blob⟩
  | Reference child parent => exact ⟨hc.reference hstep, hcl.reference hstep⟩
  | Dereference => cases hop
  | Commit => cases hop

/-! ## The blobs the trie reads

Through the cache and the disk, the trie reads a blob by hash as `Trie.Database` models it.
The counters are invisible there: an insert adds a blob as `Trie.Database.insert` does, and a
reference changes no blob. -/

/-- The blobs the trie reads: the cached ones, then the disk's. -/
def Database.toTrie (db : Database) : Trie.Database :=
  ⟨fun h => (db.nodes.lookup h).map cachedNode.blob, db.diskdb.lookup⟩

/-- What an operation does to the blobs the trie reads. -/
def Op.onTrie : Op → Trie.Database → Trie.Database
  | .Insert hash blob, d => d.insert hash blob
  | _, d => d

theorem lookup_modify_blob {nodes : AList (fun _ : Bytes => cachedNode)} {hash : Bytes} (f : cachedNode → cachedNode)
    (hf : ∀ n, (f n).blob = n.blob) (k : Bytes) :
    ((modify nodes hash f).lookup k).map cachedNode.blob = (nodes.lookup k).map cachedNode.blob := by
  rw [lookup_modify]
  split_ifs with hk
  · subst hk
    cases nodes.lookup k <;> simp [hf]
  · rfl

theorem toTrie_insert (db : Database) (hash blob : Bytes) :
    (db.insert hash blob).toTrie = db.toTrie.insert hash blob := by
  unfold Database.insert Trie.Database.insert Database.toTrie
  by_cases hmem : hash ∈ db.nodes
  · obtain ⟨n, hn⟩ := Option.isSome_iff_exists.mp (AList.lookup_isSome.mpr hmem)
    rw [if_pos hmem]
    simp [hn]
  · rw [if_neg hmem]
    simp only [AList.lookup_eq_none.mpr hmem, Option.map_none, Trie.Database.mk.injEq, and_true]
    funext h
    by_cases hh : h = hash
    · subst hh
      simp
    · simp [AList.lookup_insert_ne hh, Function.update_of_ne hh]

theorem toTrie_reference {db db' : Database} {child parent : Bytes} (h : db.reference child parent = some db') :
    db'.toTrie = db.toTrie := by
  unfold Database.reference at h
  split at h
  · cases h
    rfl
  · split at h
    · cases h
    · split_ifs at h
      · cases h
        rfl
      cases h
      simp only [Database.toTrie, Trie.Database.mk.injEq, and_true]
      funext k
      rw [lookup_modify_blob, lookup_modify_blob]
      all_goals exact fun _ => rfl

theorem run_toTrie (fuel : ℕ) : ∀ (ops : List Op) (db db' : Database), (∀ op ∈ ops, op.adds = true) →
    run fuel db ops = some db' → db'.toTrie = ops.foldl (fun d op => op.onTrie d) db.toTrie
  | [], db, db', _, h => by
    cases h
    rfl
  | op :: ops, db, db', hops, h => by
    obtain ⟨db₁, h₁, hrest⟩ := Option.bind_eq_some_iff.mp h
    rw [run_toTrie fuel ops db₁ db' (fun o ho => hops o (List.mem_cons_of_mem op ho)) hrest, List.foldl_cons]
    congr 1
    cases op with
    | Insert hash blob =>
      cases h₁
      exact toTrie_insert db hash blob
    | Reference child parent => exact toTrie_reference h₁
    | Dereference => cases hops _ List.mem_cons_self
    | Commit => cases hops _ List.mem_cons_self

/-- The hashes reachable from the meta-root through the children maps. -/
inductive Reachable (db : Database) : Bytes → Prop
  | root {r : cachedNode} {h : Bytes} : db.nodes.lookup zeroHash = some r → h ∈ r.children → Reachable db h
  | child {p h : Bytes} {pn : cachedNode} : Reachable db p → db.nodes.lookup p = some pn → h ∈ pn.children →
      Reachable db h

theorem not_consistent_of_parents {db : Database} {h : Bytes} {n : cachedNode} (hz : h ≠ zeroHash)
    (hn : db.nodes.lookup h = some n) (hne : n.parents ≠ refCount db h) : ¬ Consistent db :=
  fun hc => hne (hc.parents h n hz hn)

/-- A 32-byte hash. -/
def hashA : Bytes := List.replicate 32 1

/-- The blob of a node. -/
def blobA : Bytes := [0xC2, 0x80, 0x80]

/-- A node referenced from the meta-root, committed and inserted again: the meta-root still
counts its old reference, so the new node's counter is one short; a reference and a
dereference from the meta-root then delete the node while the meta-root still lists it. -/
theorem Commit_leaves_stale_reference :
    ∃ db₁ db₂ db₃, run 2 (NewDatabase ∅)
        [.Insert hashA blobA, .Reference hashA zeroHash, .Commit hashA, .Insert hashA blobA] = some db₁ ∧
      ¬ Consistent db₁ ∧
      db₁.reference hashA zeroHash = some db₂ ∧ hashA ∈ db₂.nodes ∧
      db₂.dereference 2 hashA zeroHash = some db₃ ∧ hashA ∉ db₃.nodes ∧ Reachable db₃ hashA := by
  obtain ⟨db₁, hrun, n, hn, hparents, hcount⟩ : ∃ db₁, run 2 (NewDatabase ∅)
      [.Insert hashA blobA, .Reference hashA zeroHash, .Commit hashA, .Insert hashA blobA] = some db₁ ∧
      ∃ n, db₁.nodes.lookup hashA = some n ∧ n.parents = 0 ∧ refCount db₁ hashA = 1 :=
    ⟨_, rfl, _, rfl, rfl, rfl⟩
  obtain ⟨db₂, hdb₂, hmem₂⟩ : ∃ db₂, db₁.reference hashA zeroHash = some db₂ ∧ (db₂.nodes.lookup hashA).isSome := by
    cases hrun
    exact ⟨_, rfl, rfl⟩
  obtain ⟨db₃, hdb₃, hmem₃, r, hr, hroot⟩ : ∃ db₃, db₂.dereference 2 hashA zeroHash = some db₃ ∧
      db₃.nodes.lookup hashA = none ∧ ∃ r, db₃.nodes.lookup zeroHash = some r ∧ (r.children.lookup hashA).isSome := by
    cases hrun
    cases hdb₂
    exact ⟨_, rfl, rfl, _, rfl, rfl⟩
  refine ⟨db₁, db₂, db₃, hrun, not_consistent_of_parents (by decide) hn (by rw [hparents, hcount]; decide),
    hdb₂, AList.lookup_isSome.1 hmem₂, hdb₃, ?_, .root hr (AList.lookup_isSome.1 hroot)⟩
  rw [← AList.lookup_isSome, hmem₃]
  decide

end EthereumAI.Trie.Refcount
