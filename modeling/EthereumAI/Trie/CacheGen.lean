import EthereumAI.Trie.Trie

/-! # Cache generations (`trie/node.go`, `trie/hasher.go`)

Every short and full node carries the generation of the trie it was created or resolved in,
and whether it holds changes not yet written to the database. `Commit` starts a new
generation, and `hasher.hash` unloads a clean node whose generation is old enough to its hash.
The test helper `checkCacheInvariant` states the order this relies on: a node's generation is
at most its parent's, the root's at most the trie's, and no dirty node sits below a clean one.

The generation is a `uint16`, and `Commit` increments it without a bound: after 65536 commits
it is back at zero, while the nodes of the last generation keep theirs. -/

-- the package and its main type share the name
set_option linter.dupNamespace false

namespace EthereumAI.Trie

mutual
/-- `checkCacheInvariant` of the trie tests; `false` is the error it returns. -/
def checkCacheInvariant : node → UInt16 → Bool → ℕ → Bool
  | .shortNode _ v f, parentCachegen, parentDirty, depth =>
    if f.gen > parentCachegen then false
    else if depth > 0 ∧ !parentDirty ∧ f.dirty then false
    else checkCacheInvariant v f.gen f.dirty (depth + 1)
  | .fullNode cs f, parentCachegen, parentDirty, depth =>
    if f.gen > parentCachegen then false
    else if depth > 0 ∧ !parentDirty ∧ f.dirty then false
    else checkChildren cs f.gen f.dirty (depth + 1)
  | _, _, _, _ => true

/-- The loop of `checkCacheInvariant` over the children of a full node. -/
def checkChildren : List node → UInt16 → Bool → ℕ → Bool
  | [], _, _, _ => true
  | c :: cs, parentCachegen, parentDirty, depth =>
    checkCacheInvariant c parentCachegen parentDirty depth && checkChildren cs parentCachegen parentDirty depth
end

/-- The generation of a node, zero for one without flags. -/
def node.gen : node → UInt16
  | .shortNode _ _ f | .fullNode _ f => f.gen
  | _ => 0

/-- The operations of a user of a trie. -/
inductive Op where
  | TryUpdate (key value : Bytes)
  | TryDelete (key : Bytes)
  | TryGet (key : Bytes)
  | Hash
  | Commit

namespace Trie

variable (keccak : Bytes → Bytes) (fuel : ℕ)

/-- One operation: a failed one returns its error and leaves the trie as it was; `none` is a
panic. -/
def apply (t : Trie) : Op → Option Trie
  | .TryUpdate key value =>
    match t.TryUpdate fuel key value with
    | none => none
    | some (.error _) => some t
    | some (.ok t') => some t'
  | .TryDelete key =>
    match t.TryDelete fuel key with
    | none => none
    | some (.error _) => some t
    | some (.ok t') => some t'
  | .TryGet key =>
    match t.TryGet fuel key with
    | none => none
    | some (.error _) => some t
    | some (.ok (_, t')) => some t'
  | .Hash => (t.Hash keccak).map (·.2)
  | .Commit => (t.Commit keccak).map (·.2)

/-- A sequence of operations. -/
def run (t : Trie) (ops : List Op) : Option Trie := ops.foldlM (apply keccak fuel) t

theorem run_append (t : Trie) (ops ops' : List Op) :
    t.run keccak fuel (ops ++ ops') = (t.run keccak fuel ops).bind fun t' => t'.run keccak fuel ops' := by
  simp [run, List.foldlM_append]

theorem run_cons (t : Trie) (op : Op) (ops : List Op) :
    t.run keccak fuel (op :: ops) = (t.apply keccak fuel op).bind fun t' => t'.run keccak fuel ops := by
  simp [run, List.foldlM_cons]

theorem Commit_nil (t : Trie) (h : t.root = .nil) :
    t.Commit keccak = some (emptyRoot, { t with cachegen := t.cachegen + 1 }) := by
  unfold Commit hashRoot
  rw [h]

theorem run_replicate_Commit : ∀ (n : ℕ) (t : Trie), t.root = .nil →
    t.run keccak fuel (List.replicate n .Commit) = some { t with cachegen := t.cachegen + n.toUInt16 }
  | 0, t, _ => by simp [run]
  | n + 1, t, h => by
    rw [List.replicate_succ, run_cons]
    simp only [apply, Commit_nil keccak t h, Option.map_some, Option.bind_some]
    rw [run_replicate_Commit n { t with cachegen := t.cachegen + 1 } h]
    congr 2
    rw [UInt16.add_assoc]
    congr 1
    rw [UInt16.add_comm]
    simp

theorem TryUpdate_of_nil (t : Trie) (h : t.root = .nil) (key value : Bytes) (hv : value.length ≠ 0) :
    t.TryUpdate (fuel + 1) key value =
      some (.ok { t with root := .shortNode (keybytesToHex key) (.valueNode value) t.newFlag }) := by
  have hk : (keybytesToHex key).length ≠ 0 := by simp [keybytesToHex]
  unfold TryUpdate
  simp only [if_pos hv, h, insert, if_neg hk]

theorem Commit_shortNode_value (t : Trie) (k v : Bytes) (f : nodeFlag) (h : t.root = .shortNode k (.valueNode v) f)
    (hf : f.hash = none) :
    ∃ hash t', t.Commit keccak = some (hash, t') ∧ t'.root.gen = f.gen ∧ t'.cachegen = t.cachegen + 1 := by
  unfold Commit hashRoot
  rw [h]
  simp [hasher.hash, hasher.cachedResult, node.cache, hf, node.isValue, hasher.finish, hasher.store,
    hasher.shortChildren, node.gen]

end Trie

/-- The states a trie reaches from `New` through operations. -/
def Reachable (keccak : Bytes → Bytes) (fuel : ℕ) (t : Trie) : Prop :=
  ∃ root db t₀ ops, New root db = some (.ok t₀) ∧ t₀.run keccak fuel ops = some t

theorem checkCacheInvariant_of_gen_gt {n : node} {parentCachegen : UInt16} (h : n.gen > parentCachegen)
    (parentDirty : Bool) (depth : ℕ) : checkCacheInvariant n parentCachegen parentDirty depth = false := by
  cases n with
  | shortNode k v f => rw [checkCacheInvariant, if_pos (show f.gen > parentCachegen from h)]
  | fullNode cs f => rw [checkCacheInvariant, if_pos (show f.gen > parentCachegen from h)]
  | nil | hashNode _ | valueNode _ => simp [node.gen] at h

/-- After 65535 commits of an empty trie, an update and a commit: the root is of generation
65535, the trie's generation has wrapped to 0, and the cache invariant fails. -/
theorem cachegen_wraps_past_root (keccak : Bytes → Bytes) (db : Database) :
    ∃ t, Reachable keccak 1 t ∧ t.root.gen = 65535 ∧ t.cachegen = 0 ∧
      checkCacheInvariant t.root t.cachegen false 0 = false := by
  have hcommits : ({ db := db, root := .nil, cachegen := 0, cachelimit := 0 } : Trie).run keccak 1
      (List.replicate 65535 .Commit) =
        some { db := db, root := .nil, cachegen := 0 + (65535 : ℕ).toUInt16, cachelimit := 0 } :=
    Trie.run_replicate_Commit keccak 1 65535 _ rfl
  rw [show (0 : UInt16) + (65535 : ℕ).toUInt16 = 65535 by decide] at hcommits
  have hupdate := Trie.TryUpdate_of_nil 0 { db := db, root := .nil, cachegen := 65535, cachelimit := 0 } rfl
    [1] [1] (by decide)
  obtain ⟨hash, t, hcommit, hgen, hcachegen⟩ := Trie.Commit_shortNode_value keccak
    { db := db, root := .shortNode (keybytesToHex [1]) (.valueNode [1]) { dirty := true, gen := 65535 },
      cachegen := 65535, cachelimit := 0 } _ _ _ rfl rfl
  have hg : t.root.gen = 65535 := hgen
  have hc : t.cachegen = 0 := by
    rw [hcachegen]
    show (65535 : UInt16) + 1 = 0
    decide
  refine ⟨t, ⟨zeroHash, db, _, List.replicate 65535 .Commit ++ [.TryUpdate [1] [1], .Commit], rfl, ?_⟩,
    hg, hc, checkCacheInvariant_of_gen_gt (by rw [hg, hc]; decide) _ _⟩
  rw [Trie.run_append, hcommits, Option.bind_some, Trie.run_cons, Trie.apply, hupdate]
  simp [Trie.run, Trie.apply]
  exact ⟨hash, hcommit⟩

end EthereumAI.Trie
