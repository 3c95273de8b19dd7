import EthereumAI.Trie.Trie

/-! # Merkle proofs (`trie/proof.go`)

`Prove` collects the nodes on the path to a key and writes the encoding of each
one that its parent refers to by hash (and of the root) into the proof database.
`VerifyProof` looks the root hash up in the proof database, decodes the node it
finds there and walks the key through it with `get`; a hash reference at the end
of the walk is the next node to look up. The loop has no bound of its own, so the
model runs it with fuel: an outer `none` is fuel that ran out, an inner `none` a
panic.
-/

-- the package and its main type share the name
set_option linter.dupNamespace false

namespace EthereumAI.Trie

namespace Trie

variable (t : Trie)

/-- The loop of `Prove` that collects the nodes on the path to `key`, from `tn`. -/
def proveNodes : ℕ → node → Bytes → Outcome (List node)
  | 0, _, _ => none
  | fuel + 1, tn, key =>
    if key.length = 0 ∨ tn.isNil then some (.ok [])
    else
      match tn with
      | .shortNode k v _ =>
        if key.length < k.length ∨ k ≠ key.take k.length then
          -- the trie does not hold the key
          some (.ok [tn])
        else (proveNodes fuel v (key.drop k.length)).map (·.map (tn :: ·))
      | .fullNode cs _ =>
        match key[0]? with
        | none => none
        | some i =>
          match cs[i.toNat]? with
          | none => none
          | some c => (proveNodes fuel c (key.drop 1)).map (·.map (tn :: ·))
      | .hashNode hash =>
        match t.resolveHash hash [] with
        | none => none
        | some (.error err) => some (.error err)
        | some (.ok rn) => proveNodes fuel rn key
      | _ => none

/-- The second loop of `Prove`: every node whose collapsed form its parent holds
by hash, and the root, is written under its hash, once `fromLevel` of them are
skipped. -/
def putProof (keccak : Bytes → Bytes) :
    List node → ℕ → ℕ → (Bytes → Option Bytes) → Option (Bytes → Option Bytes)
  | [], _, _, proofDb => some proofDb
  | n :: nodes, i, fromLevel, proofDb =>
    let h : hasher := ⟨0, 0⟩
    match h.hashChildren keccak n none with
    | none => none
    | some (n, _, _) =>
      let (hn, _) := hasher.store keccak n none false
      let hash? := match hn with
        | .hashNode hash => some hash
        | _ => none
      if hash?.isSome ∨ i = 0 then
        if fromLevel > 0 then putProof keccak nodes (i + 1) (fromLevel - 1) proofDb
        else
          let enc := encodeNode n
          let hash := hash?.getD (keccak enc)
          putProof keccak nodes (i + 1) fromLevel (Function.update proofDb hash (some enc))
      else putProof keccak nodes (i + 1) fromLevel proofDb

/-- `Prove`: write the proof of `key` into `proofDb`. -/
def Prove (keccak : Bytes → Bytes) (fuel : ℕ) (key : Bytes) (fromLevel : ℕ)
    (proofDb : Bytes → Option Bytes) : Outcome (Bytes → Option Bytes) :=
  match t.proveNodes fuel t.root (keybytesToHex key) with
  | none => none
  | some (.error err) => some (.error err)
  | some (.ok nodes) => (putProof keccak nodes 0 fromLevel proofDb).map .ok

end Trie

/-- `get`: follow `key` through `tn` and the nodes embedded in it, up to a hash
reference, a value or nothing. `none` is the panic of a full node indexed past its
children or with no nibble left. -/
def get (tn : node) (key : Bytes) : Option (Bytes × node) :=
  match tn with
  | .shortNode k v _ =>
    if key.length < k.length ∨ k ≠ key.take k.length then some ([], .nil)
    else get v (key.drop k.length)
  | .fullNode cs _ =>
    match key with
    | [] => none
    | i :: rest =>
      match h : cs[i.toNat]? with
      | none => none
      | some c => get c rest
  | .hashNode _ => some (key, tn)
  | .nil => some (key, .nil)
  | .valueNode _ => some ([], tn)
termination_by sizeOf tn
decreasing_by
  · simp_wf
    omega
  · have hc : c ∈ cs := List.mem_of_getElem? h
    have := List.sizeOf_lt_of_mem hc
    simp_wf
    omega

/-- `VerifyProof` returns the value (`none` for nil) or an error, and the number of
proof nodes it used. -/
abbrev Verified := Except TrieErr (Option Bytes) × ℕ

/-- The loop of `VerifyProof` from proof node `i`, for at most `fuel` rounds. -/
def verifyLoop (proofDb : Bytes → Option Bytes) : ℕ → ℕ → Bytes → Bytes → Option (Option Verified)
  | 0, _, _, _ => none
  | fuel + 1, i, wantHash, key =>
    match proofDb wantHash with
    | none => some (some (.error (.proofNodeMissing i wantHash), i))
    | some buf =>
      match decodeNode (some wantHash) buf 0 with
      | none => some none
      | some (.error err) => some (some (.error (.badProofNode i err), i))
      | some (.ok n) =>
        match get n key with
        | none => some none
        | some (_, .nil) => some (some (.ok none, i))
        | some (keyrest, .hashNode h) => verifyLoop proofDb fuel (i + 1) h keyrest
        | some (_, .valueNode v) => some (some (.ok (some v), i + 1))
        -- `get` ends at no other node; the switch would go round again
        | some (_, _) => verifyLoop proofDb fuel (i + 1) wantHash key

/-- `VerifyProof`, run for at most `fuel` rounds. -/
def VerifyProof (fuel : ℕ) (rootHash key : Bytes) (proofDb : Bytes → Option Bytes) :
    Option (Option Verified) :=
  verifyLoop proofDb fuel 0 rootHash (keybytesToHex key)

/-- The empty trie has no proof: `Prove` writes nothing, while `VerifyProof`
looks for a root node under `emptyRoot` and reports it missing, where `Get`
returns the absent value without an error. -/
theorem VerifyProof_empty_trie_fails (keccak : Bytes → Bytes) (fuel : ℕ) (key : Bytes) :
    let t : Trie := ⟨Database.New (fun _ => none), .nil, 0, 0⟩
    t.Prove keccak (fuel + 1) key 0 (fun _ => none) = some (.ok fun _ => none) ∧
    t.Hash keccak = some (emptyRoot, t) ∧
    t.Get (fuel + 1) key = some (none, t) ∧
    VerifyProof (fuel + 1) emptyRoot key (fun _ => none) =
      some (some (.error (.proofNodeMissing 0 emptyRoot), 0)) := by
  intro t
  refine ⟨?_, rfl, rfl, rfl⟩
  simp [t, Trie.Prove, Trie.proveNodes, node.isNil, Trie.putProof]

/-- A short node whose compact key is the empty string makes `compactToHex` index
an empty slice: decoding it panics, and so does `VerifyProof` on a proof database
that holds it under the root hash, whatever the key and however long it may run. -/
theorem VerifyProof_empty_compact_key_panics (fuel : ℕ) (rootHash key : Bytes) :
    decodeNode (some rootHash) [0xC2, 0x80, 0x80] 0 = none ∧
    VerifyProof (fuel + 1) rootHash key
      (fun h => if h = rootHash then some [0xC2, 0x80, 0x80] else none) = some none := by
  have hdec : decodeNode (some rootHash) [0xC2, 0x80, 0x80] 0 = none := by
    rw [decodeNode_of_splitList (by decide) (show Rlp.SplitList [0xC2, 0x80, 0x80] = .ok ([0x80, 0x80], []) from rfl),
      show Rlp.CountValues [0x80, 0x80] = .ok 2 from rfl,
      decodeShort_of_splitString (show Rlp.SplitString [0x80, 0x80] = .ok ([], [0x80]) from rfl)]
    rfl
  refine ⟨hdec, ?_⟩
  simp only [VerifyProof, verifyLoop, if_pos, hdec]

end EthereumAI.Trie
