import EthereumAI.Trie.Hasher

/-! # The Merkle Patricia trie (`trie/trie.go`)

A trie is a root node over a node database. `tryGet`, `insert` and `delete`
walk the HEX key down from the root; a hash node met on the way is resolved from
the database and decoded (`mustDecodeNode` panics on a blob it cannot decode).
`insert` splits short nodes into full nodes where keys part; `delete` merges
them back, so that no short node has a short node child and no full node keeps a
single child.

The walks recurse without a bound of their own; the model gives each a fuel
argument that every recursive call consumes, and running out is `none`, as a
panic is.
-/

-- the package and its main type share the name
set_option linter.dupNamespace false

namespace EthereumAI.Trie

/-- `emptyRoot`: the root hash of the empty trie. -/
def emptyRoot : Bytes :=
  [0x56, 0xE8, 0x1F, 0x17, 0x1B, 0xCC, 0x55, 0xA6, 0xFF, 0x83, 0x45, 0xE6, 0x92, 0xC0, 0xF8, 0x6E,
    0x5B, 0x48, 0xE0, 0x1B, 0x99, 0x6C, 0xAD, 0xC0, 0x01, 0x62, 0x2F, 0xB5, 0xE3, 0x63, 0xB4, 0x21]

/-- `common.Hash{}`. -/
def zeroHash : Bytes := List.replicate 32 0

structure Trie where
  db : Database
  root : node
  cachegen : UInt16
  cachelimit : UInt16

/-- The children of a new full node. -/
def emptyChildren : List node := List.replicate 17 .nil

/-- `Children[i] = c`, which panics past the seventeenth child. -/
def setChild (cs : List node) (i : UInt8) (c : node) : Option (List node) :=
  if i.toNat < cs.length then some (cs.set i.toNat c) else none

/-- The loop of `delete` over the children of a full node: the index of its only
child, `-1` for none and `-2` for two or more. -/
def childPos : List node → ℕ → ℤ → ℤ
  | [], _, pos => pos
  | c :: cs, i, pos =>
    if c.isNil then childPos cs (i + 1) pos
    else if pos = -1 then childPos cs (i + 1) i
    else -2

namespace Trie

variable (t : Trie)

/-- `newFlag`: dirty, of the current generation. -/
def newFlag : nodeFlag := { dirty := true, gen := t.cachegen }

/-- `resolveHash`: the node stored under `n`, decoded. -/
def resolveHash (n : Bytes) (pfx : Bytes) : Outcome node :=
  match t.db.Node n with
  | none => some (.error (.MissingNodeError n pfx))
  | some enc =>
    match decodeNode (some n) enc t.cachegen with
    | some (.ok nd) => some (.ok nd)
    | _ => none

/-- `resolve`: a hash node is resolved, any other node is itself. -/
def resolve (n : node) (pfx : Bytes) : Outcome node :=
  match n with
  | .hashNode hash => t.resolveHash hash pfx
  | _ => some (.ok n)

/-- `tryGet` from `origNode` at position `pos` of `key`: the value, the node to
put back with the nodes resolved on the way, and whether any was resolved. -/
def tryGet : ℕ → node → Bytes → ℕ → Outcome (Option Bytes × node × Bool)
  | 0, _, _, _ => none
  | fuel + 1, origNode, key, pos =>
    match origNode with
    | .nil => some (.ok (none, .nil, false))
    | .valueNode v => some (.ok (some v, origNode, false))
    | .shortNode k v f =>
      if key.length - pos < k.length ∨ k ≠ (key.drop pos).take k.length then
        some (.ok (none, origNode, false))
      else
        match tryGet fuel v key (pos + k.length) with
        | none => none
        | some (.error err) => some (.error err)
        | some (.ok (value, newnode, didResolve)) =>
          some (.ok (value,
            if didResolve then .shortNode k newnode { f with gen := t.cachegen } else origNode,
            didResolve))
    | .fullNode cs f =>
      match key[pos]? with
      | none => none
      | some i =>
        match cs[i.toNat]? with
        | none => none
        | some c =>
          match tryGet fuel c key (pos + 1) with
          | none => none
          | some (.error err) => some (.error err)
          | some (.ok (value, newnode, didResolve)) =>
            some (.ok (value,
              if didResolve then .fullNode (cs.set i.toNat newnode) { f with gen := t.cachegen } else origNode,
              didResolve))
    | .hashNode hash =>
      match t.resolveHash hash (key.take pos) with
      | none => none
      | some (.error err) => some (.error err)
      | some (.ok child) =>
        match tryGet fuel child key pos with
        | none => none
        | some (.error err) => some (.error err)
        | some (.ok (value, newnode, _)) => some (.ok (value, newnode, true))

/-- `insert` the value node `value` at `key` below `n`, reached by `pfx`: whether
anything changed, and the new node. -/
def insert : ℕ → node → Bytes → Bytes → node → Outcome (Bool × node)
  | 0, _, _, _, _ => none
  | fuel + 1, n, pfx, key, value =>
    if key.length = 0 then
      match n, value with
      | .valueNode v, .valueNode w => some (.ok (v ≠ w, value))
      -- the type assertion `value.(valueNode)` panics
      | .valueNode _, _ => none
      | _, _ => some (.ok (true, value))
    else
      match n with
      | .shortNode nk nv _ =>
        let matchlen := prefixLen key nk
        -- the whole key of the short node matches: insert below it
        if matchlen = nk.length then
          match insert fuel nv (pfx ++ key.take matchlen) (key.drop matchlen) value with
          | none => none
          | some (.error err) => some (.error err)
          | some (.ok (dirty, nn)) =>
            if !dirty then some (.ok (false, n)) else some (.ok (true, .shortNode nk nn t.newFlag))
        -- otherwise branch out where the keys differ
        else
          match insert fuel .nil (pfx ++ nk.take (matchlen + 1)) (nk.drop (matchlen + 1)) nv with
          | none => none
          | some (.error err) => some (.error err)
          | some (.ok (_, c₁)) =>
            match insert fuel .nil (pfx ++ key.take (matchlen + 1)) (key.drop (matchlen + 1)) value with
            | none => none
            | some (.error err) => some (.error err)
            | some (.ok (_, c₂)) =>
              match nk[matchlen]?, key[matchlen]? with
              | some i₁, some i₂ =>
                match (setChild emptyChildren i₁ c₁).bind fun cs => setChild cs i₂ c₂ with
                | none => none
                | some children =>
                  let branch : node := .fullNode children t.newFlag
                  if matchlen = 0 then some (.ok (true, branch))
                  else some (.ok (true, .shortNode (key.take matchlen) branch t.newFlag))
              | _, _ => none
      | .fullNode cs _ =>
        match key[0]? with
        | none => none
        | some k₀ =>
          match cs[k₀.toNat]? with
          | none => none
          | some c =>
            match insert fuel c (pfx ++ [k₀]) (key.drop 1) value with
            | none => none
            | some (.error err) => some (.error err)
            | some (.ok (dirty, nn)) =>
              if !dirty then some (.ok (false, n))
              else some (.ok (true, .fullNode (cs.set k₀.toNat nn) t.newFlag))
      | .nil => some (.ok (true, .shortNode key value t.newFlag))
      | .hashNode hash =>
        match t.resolveHash hash pfx with
        | none => none
        | some (.error err) => some (.error err)
        | some (.ok rn) =>
          match insert fuel rn pfx key value with
          | none => none
          | some (.error err) => some (.error err)
          | some (.ok (dirty, nn)) => if !dirty then some (.ok (false, rn)) else some (.ok (true, nn))
      | .valueNode _ => none

/-- `delete` `key` below `n`, reached by `pfx`: whether anything changed, and the
new node, with full nodes left with one child reduced to short nodes. -/
def delete : ℕ → node → Bytes → Bytes → Outcome (Bool × node)
  | 0, _, _, _ => none
  | fuel + 1, n, pfx, key =>
    match n with
    | .shortNode nk nv _ =>
      let matchlen := prefixLen key nk
      if matchlen < nk.length then some (.ok (false, n))
      else if matchlen = key.length then some (.ok (true, .nil))
      else
        match delete fuel nv (pfx ++ key.take nk.length) (key.drop nk.length) with
        | none => none
        | some (.error err) => some (.error err)
        | some (.ok (dirty, child)) =>
          if !dirty then some (.ok (false, n))
          else
            match child with
            -- merge the keys rather than have a short node below a short node
            | .shortNode ck cv _ => some (.ok (true, .shortNode (nk ++ ck) cv t.newFlag))
            | _ => some (.ok (true, .shortNode nk child t.newFlag))
    | .fullNode cs _ =>
      match key[0]? with
      | none => none
      | some k₀ =>
        match cs[k₀.toNat]? with
        | none => none
        | some c =>
          match delete fuel c (pfx ++ [k₀]) (key.drop 1) with
          | none => none
          | some (.error err) => some (.error err)
          | some (.ok (dirty, nn)) =>
            if !dirty then some (.ok (false, n))
            else
              let cs := cs.set k₀.toNat nn
              let pos := childPos cs 0 (-1)
              if pos ≥ 0 then
                let only := cs.getD pos.toNat .nil
                if pos ≠ 16 then
                  -- a short node left alone takes the nibble of its slot in front of its key
                  match t.resolve only pfx with
                  | none => none
                  | some (.error err) => some (.error err)
                  | some (.ok (.shortNode ck cv _)) =>
                    some (.ok (true, .shortNode (pos.toNat.toUInt8 :: ck) cv t.newFlag))
                  | some (.ok _) => some (.ok (true, .shortNode [pos.toNat.toUInt8] only t.newFlag))
                else some (.ok (true, .shortNode [pos.toNat.toUInt8] only t.newFlag))
              else some (.ok (true, .fullNode cs t.newFlag))
    | .valueNode _ => some (.ok (true, .nil))
    | .nil => some (.ok (false, .nil))
    | .hashNode hash =>
      match t.resolveHash hash pfx with
      | none => none
      | some (.error err) => some (.error err)
      | some (.ok rn) =>
        match delete fuel rn pfx key with
        | none => none
        | some (.error err) => some (.error err)
        | some (.ok (dirty, nn)) => if !dirty then some (.ok (false, rn)) else some (.ok (true, nn))

/-- `TryGet`: the value at `key`, and the trie with the nodes resolved on the way. -/
def TryGet (fuel : ℕ) (key : Bytes) : Outcome (Option Bytes × Trie) :=
  match t.tryGet fuel t.root (keybytesToHex key) 0 with
  | none => none
  | some (.error err) => some (.error err)
  | some (.ok (value, newroot, didResolve)) =>
    some (.ok (value, if didResolve then { t with root := newroot } else t))

/-- `Get`: `TryGet` with the error logged and nil returned. -/
def Get (fuel : ℕ) (key : Bytes) : Option (Option Bytes × Trie) :=
  match t.TryGet fuel key with
  | none => none
  | some (.error _) => some (none, t)
  | some (.ok r) => some r

/-- `TryUpdate`: an empty value deletes the key. -/
def TryUpdate (fuel : ℕ) (key value : Bytes) : Outcome Trie :=
  let k := keybytesToHex key
  if value.length ≠ 0 then
    match t.insert fuel t.root [] k (.valueNode value) with
    | none => none
    | some (.error err) => some (.error err)
    | some (.ok (_, n)) => some (.ok { t with root := n })
  else
    match t.delete fuel t.root [] k with
    | none => none
    | some (.error err) => some (.error err)
    | some (.ok (_, n)) => some (.ok { t with root := n })

/-- `TryDelete`. -/
def TryDelete (fuel : ℕ) (key : Bytes) : Outcome Trie :=
  match t.delete fuel t.root [] (keybytesToHex key) with
  | none => none
  | some (.error err) => some (.error err)
  | some (.ok (_, n)) => some (.ok { t with root := n })

/-- `hashRoot`: the hash of the root, which is always hashed, and the root with
the hashes cached. -/
def hashRoot (keccak : Bytes → Bytes) (db : Option Database) : Option (node × node × Option Database) :=
  match t.root with
  | .nil => some (.hashNode emptyRoot, .nil, db)
  | root => (hasher.mk t.cachegen t.cachelimit).hash keccak root db true

/-- `Hash`: the root hash, without writing to the database. -/
def Hash (keccak : Bytes → Bytes) : Option (Bytes × Trie) :=
  match t.hashRoot keccak none with
  | some (.hashNode hash, cached, _) => some (hash, { t with root := cached })
  | _ => none

/-- `Commit`: write every dirty node to the database and start a new cache
generation. -/
def Commit (keccak : Bytes → Bytes) : Option (Bytes × Trie) :=
  match t.hashRoot keccak (some t.db) with
  | some (.hashNode hash, cached, some db) =>
    some (hash, { t with db := db, root := cached, cachegen := t.cachegen + 1 })
  | _ => none

end Trie

/-- `New`: the trie with root `root` in `db`; the zero hash and the empty root
stand for the empty trie. -/
def New (root : Bytes) (db : Database) : Outcome Trie :=
  let trie : Trie := { db := db, root := .nil, cachegen := 0, cachelimit := 0 }
  if root ≠ zeroHash ∧ root ≠ emptyRoot then
    match trie.resolveHash root [] with
    | none => none
    | some (.error err) => some (.error err)
    | some (.ok rootnode) => some (.ok { trie with root := rootnode })
  else some (.ok trie)

end EthereumAI.Trie
