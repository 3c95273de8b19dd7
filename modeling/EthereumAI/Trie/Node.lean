import EthereumAI.Rlp.Raw
import EthereumAI.Trie.Encoding

/-! # Trie nodes (`trie/node.go`)

A node is a full node (sixteen children and a value slot), a short node (a key
fragment and one child), the hash of a node stored elsewhere, or a value. The
interface value `nil` is a node too: the empty child.

`decodeNode` reads a node back from its RLP encoding: a list of two values is a
short node, of seventeen a full node; a child is embedded when it is a list
(shorter than a hash), a hash when it is a 32-byte string, and empty when it is
the empty string.
-/

namespace EthereumAI.Trie

/-- `nodeFlag`: the cached hash (`none` for nil), the cache generation and
whether the node has changes not yet written to the database. -/
structure nodeFlag where
  hash : Option Bytes := none
  gen : UInt16 := 0
  dirty : Bool := false

inductive node where
  /-- the nil interface value -/
  | nil
  | fullNode (Children : List node) (flags : nodeFlag)
  | shortNode (Key : Bytes) (Val : node) (flags : nodeFlag)
  | hashNode (hash : Bytes)
  | valueNode (value : Bytes)

/-- The errors of decoding and resolving nodes. -/
inductive TrieErr where
  | rlp (err : Rlp.Err)
  /-- `decode error: %v` -/
  | decodeErr (err : Rlp.Err)
  /-- `invalid number of list elements: %v` -/
  | invalidListElems (c : ℕ)
  /-- `invalid value node: %v` -/
  | invalidValueNode (err : Rlp.Err)
  /-- `oversized embedded node (size is %d bytes, want size < 32)` -/
  | oversizedEmbeddedNode (size : ℕ)
  /-- `invalid RLP string size %d (want 0 or 32)` -/
  | invalidStringSize (size : ℕ)
  /-- `decodeError`: an error with the path of nodes it was found in -/
  | decodeError (what : TrieErr) (stack : List String)
  /-- `MissingNodeError` -/
  | MissingNodeError (NodeHash : Bytes) (Path : Bytes)
  /-- `proof node %d (hash %064x) missing` -/
  | proofNodeMissing (i : ℕ) (hash : Bytes)
  /-- `bad proof node %d: %v` -/
  | badProofNode (i : ℕ) (err : TrieErr)

/-- `wrapError`: add a step to the decode path. -/
def wrapError (ctx : String) : TrieErr → TrieErr
  | .decodeError what stack => .decodeError what (stack ++ [ctx])
  | err => .decodeError err [ctx]

/-- `hashLen`. -/
def hashLen : ℕ := 32

/-- A computation that returns a value, fails with an error, or panics (`none`);
in a function with fuel, `none` is also the fuel running out. -/
abbrev Outcome (α : Type) := Option (Except TrieErr α)

mutual
/-- `decodeNode`: a list of two values is a short node, of seventeen a full node. -/
def decodeNode (hash : Option Bytes) (buf : Bytes) (cachegen : UInt16) : Outcome node :=
  if buf.length = 0 then some (.error (.rlp .ErrUnexpectedEOF))
  else
    match h : Rlp.SplitList buf with
    | .error err => some (.error (.decodeErr err))
    | .ok (elems, _) =>
      -- the count is 0 when `CountValues` fails
      match (Rlp.CountValues elems).toOption.getD 0 with
      | 2 => (decodeShort hash elems cachegen).map (·.mapError (wrapError "short"))
      | 17 => (decodeFull hash elems cachegen).map (·.mapError (wrapError "full"))
      | c => some (.error (.invalidListElems c))
termination_by (buf.length, 0)
decreasing_by
  all_goals exact Prod.Lex.left _ _ (Rlp.SplitList_content_lt h)

/-- `decodeShort`: the compact key, then a value if the key ends at one, else a
reference to a child. -/
def decodeShort (hash : Option Bytes) (elems : Bytes) (cachegen : UInt16) : Outcome node :=
  match h : Rlp.SplitString elems with
  | .error err => some (.error (.rlp err))
  | .ok (kbuf, rest) =>
    let flag : nodeFlag := { hash := hash, gen := cachegen }
    (compactToHex kbuf).bind fun key =>
      if hasTerm key then
        match Rlp.SplitString rest with
        | .error err => some (.error (.invalidValueNode err))
        | .ok (val, _) => some (.ok (.shortNode key (.valueNode val) flag))
      else
        (decodeRef rest cachegen).map fun
          | .error err => .error (wrapError "val" err)
          | .ok (r, _) => .ok (.shortNode key r flag)
termination_by (elems.length, 0)
decreasing_by
  exact Prod.Lex.left _ _ (Rlp.SplitString_rest_lt h)

/-- The switch of `decodeRef` on the kind of the value split from the front of
`buf`: an embedded node, the empty child or a hash. -/
def decodeRefKind (buf : Bytes) (kind : Rlp.Kind) (val rest : Bytes) (cachegen : UInt16) : Outcome node :=
  if kind = .List then
    -- an embedded node must be smaller than a hash
    let size := buf.length - rest.length
    if size > hashLen then some (.error (.oversizedEmbeddedNode size))
    else decodeNode none buf cachegen
  else if kind = .String ∧ val.length = 0 then some (.ok .nil)
  else if kind = .String ∧ val.length = 32 then some (.ok (.hashNode val))
  else some (.error (.invalidStringSize val.length))
termination_by (buf.length, 1)
decreasing_by
  exact Prod.Lex.right _ (by decide)

/-- `decodeRef`: the child at the front of `buf` and the rest after it. -/
def decodeRef (buf : Bytes) (cachegen : UInt16) : Outcome (node × Bytes) :=
  match Rlp.Split buf with
  | .error err => some (.error (.rlp err))
  | .ok (kind, val, rest) => (decodeRefKind buf kind val rest cachegen).map (·.map (·, rest))
termination_by (buf.length, 2)
decreasing_by
  exact Prod.Lex.right _ (by decide)

/-- The loop of `decodeFull` over the children `i` to 15. The split of `decodeRef`
is done here, so that the loop goes on with a shorter buffer (`decodeChildren_eq`
folds it back). -/
def decodeChildren (i : ℕ) (elems : Bytes) (cachegen : UInt16) : Outcome (List node × Bytes) :=
  if i < 16 then
    match h : Rlp.Split elems with
    | .error err => some (.error (wrapError ("[" ++ toString i ++ "]") (.rlp err)))
    | .ok (kind, val, rest) =>
      (decodeRefKind elems kind val rest cachegen).bind fun
        | .error err => some (.error (wrapError ("[" ++ toString i ++ "]") err))
        | .ok cld =>
          (decodeChildren (i + 1) rest cachegen).map
            (·.map fun (children, elems) => (cld :: children, elems))
  else some (.ok ([], elems))
termination_by (elems.length, 2)
decreasing_by
  · exact Prod.Lex.right _ (by decide)
  · exact Prod.Lex.left _ _ (Rlp.Split_spec h).1

/-- `decodeFull`: sixteen references, then the value slot. -/
def decodeFull (hash : Option Bytes) (elems : Bytes) (cachegen : UInt16) : Outcome node :=
  (decodeChildren 0 elems cachegen).bind fun
    | .error err => some (.error err)
    | .ok (children, elems) =>
      match Rlp.SplitString elems with
      | .error err => some (.error (.rlp err))
      | .ok (val, _) =>
        let value : node := if val.length > 0 then .valueNode val else .nil
        some (.ok (.fullNode (children ++ [value]) { hash := hash, gen := cachegen }))
termination_by (elems.length, 3)
decreasing_by
  exact Prod.Lex.right _ (by decide)
end

/-! ## The decoders after a split

Each decoder matches on a split of its buffer; given that split, it is the rest
of its body. -/

variable {hash : Option Bytes} {buf elems rest : Bytes} {g : UInt16}

theorem decodeNode_of_splitList (hne : buf.length ≠ 0) (h : Rlp.SplitList buf = .ok (elems, rest)) :
    decodeNode hash buf g =
      match (Rlp.CountValues elems).toOption.getD 0 with
      | 2 => (decodeShort hash elems g).map (·.mapError (wrapError "short"))
      | 17 => (decodeFull hash elems g).map (·.mapError (wrapError "full"))
      | c => some (.error (.invalidListElems c)) := by
  rw [decodeNode, if_neg hne]
  split
  · rename_i heq
    rw [h] at heq
    cases heq
  · rename_i heq
    rw [h] at heq
    cases heq
    rfl

theorem decodeShort_of_splitString {kbuf : Bytes} (h : Rlp.SplitString elems = .ok (kbuf, rest)) :
    decodeShort hash elems g =
      (compactToHex kbuf).bind fun key =>
        if hasTerm key then
          match Rlp.SplitString rest with
          | .error err => some (.error (.invalidValueNode err))
          | .ok (val, _) => some (.ok (.shortNode key (.valueNode val) { hash := hash, gen := g }))
        else
          (decodeRef rest g).map fun
            | .error err => .error (wrapError "val" err)
            | .ok (r, _) => .ok (.shortNode key r { hash := hash, gen := g }) := by
  rw [decodeShort]
  split
  · rename_i heq
    rw [h] at heq
    cases heq
  · rename_i heq
    rw [h] at heq
    cases heq
    rfl

theorem decodeRef_of_split {kind : Rlp.Kind} {val : Bytes} (h : Rlp.Split buf = .ok (kind, val, rest)) :
    decodeRef buf g = (decodeRefKind buf kind val rest g).map (·.map (·, rest)) := by
  rw [decodeRef, h]

/-- The loop of `decodeFull` reads every child with `decodeRef`, as the source does. -/
theorem decodeChildren_eq (i : ℕ) :
    decodeChildren i elems g =
      if i < 16 then
        (decodeRef elems g).bind fun
          | .error err => some (.error (wrapError ("[" ++ toString i ++ "]") err))
          | .ok (cld, rest) =>
            (decodeChildren (i + 1) rest g).map
              (·.map fun (children, elems) => (cld :: children, elems))
      else some (.ok ([], elems)) := by
  rw [decodeChildren]
  split
  · rw [decodeRef]
    split
    · rename_i heq
      rw [heq]
      rfl
    · rename_i kind val rest heq
      rw [heq]
      dsimp only
      cases decodeRefKind elems kind val rest g with
      | none => rfl
      | some r => cases r <;> rfl
  · rfl

/-! ## What the decoders return -/

theorem decodeShort_ok (h : decodeShort hash elems g = some (.ok n)) : ∃ k v f, n = .shortNode k v f := by
  rw [decodeShort] at h
  split at h
  · cases h
  · obtain ⟨key, -, hk⟩ := Option.bind_eq_some_iff.mp h
    split at hk
    · split at hk
      · cases hk
      · cases hk
        exact ⟨_, _, _, rfl⟩
    · obtain ⟨r, -, hr⟩ := Option.map_eq_some_iff.mp hk
      split at hr
      · cases hr
      · cases hr
        exact ⟨_, _, _, rfl⟩

theorem decodeFull_ok (h : decodeFull hash elems g = some (.ok n)) : ∃ cs f, n = .fullNode cs f := by
  rw [decodeFull] at h
  obtain ⟨r, -, hr⟩ := Option.bind_eq_some_iff.mp h
  split at hr
  · cases hr
  · split at hr
    · cases hr
    · cases hr
      exact ⟨_, _, rfl⟩

/-- A decoded node is a short node or a full node. -/
theorem decodeNode_ok (h : decodeNode hash buf g = some (.ok n)) :
    (∃ k v f, n = .shortNode k v f) ∨ (∃ cs f, n = .fullNode cs f) := by
  rw [decodeNode] at h
  split at h
  · cases h
  · split at h
    · cases h
    · split at h
      · obtain ⟨r, hr, he⟩ := Option.map_eq_some_iff.mp h
        cases r with
        | error e => cases he
        | ok n' =>
          cases he
          exact .inl (decodeShort_ok hr)
      · obtain ⟨r, hr, he⟩ := Option.map_eq_some_iff.mp h
        cases r with
        | error e => cases he
        | ok n' =>
          cases he
          exact .inr (decodeFull_ok hr)
      · cases h
end EthereumAI.Trie
