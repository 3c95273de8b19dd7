import EthereumAI.Trie.Runs

/-! # The hash cache (`trie/hasher.go`)

`hash` caches in every short and full node the hash it stored the node under, and `Hash` keeps
the nodes with their hashes as the new root. Without a database a node with a cached hash is not
hashed again (`cachedResult`). The cache is right (`Cached`) when every cached hash is the one the
node with its cache dropped (`node.strip`) is stored under, forced at the root and not below it.
Then `Hash` returns what it returns for the trie with its cache dropped (`hash_strip`), and
`Hash`, `TryUpdate`, `TryDelete` and `TryGet` keep the cache right: the calls of `Hash` in a run
change no root hash after them.
-/

-- the package and its main type share the name
set_option linter.dupNamespace false

namespace EthereumAI.Trie

open EthereumAI.Lib

mutual
/-- The node with every cached hash dropped. -/
def node.strip : node → node
  | .shortNode k c f => .shortNode k c.strip { f with hash := none }
  | .fullNode cs f => .fullNode (node.strips cs) { f with hash := none }
  | n => n

def node.strips : List node → List node
  | [] => []
  | c :: cs => c.strip :: node.strips cs
end

theorem node.strips_eq_map : ∀ cs : List node, node.strips cs = cs.map node.strip
  | [] => rfl
  | c :: cs => by rw [node.strips, node.strips_eq_map cs, List.map_cons]

theorem node.strips_getD (cs : List node) (i : ℕ) : (node.strips cs).getD i .nil = (cs.getD i .nil).strip := by
  rw [node.strips_eq_map, List.getD_eq_getElem?_getD, List.getElem?_map, List.getD_eq_getElem?_getD]
  cases cs[i]? <;> rfl

/-! ## Nodes equal up to flags -/

theorem Similar.symm (h : Similar n n') : Similar n' n := by
  induction h with
  | nil => exact .nil
  | value v => exact .value v
  | hash x => exact .hash x
  | short k f f' _ ih => exact .short k f' f ih
  | full f f' hlen _ ih => exact .full f' f hlen.symm ih

theorem Similar.trans (h : Similar n n') : Similar n' n'' → Similar n n'' := by
  induction h generalizing n'' with
  | nil => exact id
  | value v => exact id
  | hash x => exact id
  | short k f f' _ ih =>
    intro h'
    cases h' with
    | short _ _ f'' hc' => exact .short k f f'' (ih hc')
  | full f f' hlen _ ih =>
    intro h'
    cases h' with
    | full _ f'' hlen' hc' => exact .full f f'' (hlen.trans hlen') fun i => ih i (hc' i)

theorem Similar.hashNode_right {h : Bytes} (hs : Similar n (.hashNode h)) : n = .hashNode h := by
  cases hs
  rfl

theorem Similar.hashNode_left {h : Bytes} (hs : Similar (.hashNode h) n) : n = .hashNode h := by
  cases hs
  rfl

/-! ## Right cached hashes -/

variable (keccak : Bytes → Bytes)

/-- Hashed afresh without a database, forced or not, `n` is stored under `h`. -/
def HashesTo (force : Bool) (n : node) (h : Bytes) : Prop :=
  ∃ r, (hasher.mk 0 0).hash keccak n none force = some r ∧ r.1 = .hashNode h

/-- A node in memory, with no hash node in it, whose cached hashes are right: each is the hash
that the node with its cache dropped is stored under, forced at the root (`force`) and not below. -/
inductive Cached : Bool → node → Prop
  | nil (force : Bool) : Cached force .nil
  | value (force : Bool) (v : Bytes) : Cached force (.valueNode v)
  | short (force : Bool) (k : Bytes) (c : node) (f : nodeFlag) (hc : Cached false c)
      (hf : ∀ h, f.hash = some h → HashesTo keccak force (node.shortNode k c f).strip h) :
      Cached force (.shortNode k c f)
  | full (force : Bool) (cs : List node) (f : nodeFlag) (hc : ∀ c ∈ cs, Cached false c)
      (hf : ∀ h, f.hash = some h → HashesTo keccak force (node.fullNode cs f).strip h) :
      Cached force (.fullNode cs f)

variable {keccak}

theorem Cached.getD {cs : List node} (h : ∀ c ∈ cs, Cached keccak false c) (i : ℕ) :
    Cached keccak false (cs.getD i .nil) := by
  rw [List.getD_eq_getElem?_getD]
  cases hi : cs[i]? with
  | none => exact .nil false
  | some c => exact h c (List.mem_of_getElem? hi)

theorem Fresh.cached (h : Fresh n) (force : Bool) : Cached keccak force n := by
  induction h generalizing force with
  | nil => exact .nil force
  | value v => exact .value force v
  | short k c f hf _ ih => exact .short force k c f (ih false) fun _ h => by simp [hf] at h
  | full cs f hf _ ih => exact .full force cs f (fun c hc => ih c hc false) fun _ h => by simp [hf] at h

theorem Cached.fresh_strip (h : Cached keccak force n) : Fresh n.strip := by
  induction h with
  | nil => exact .nil
  | value _ v => exact .value v
  | short _ k c f _ _ ih => exact .short k c.strip _ rfl ih
  | full _ cs f _ _ ih =>
    refine .full _ _ rfl fun c hc => ?_
    rw [node.strips_eq_map, List.mem_map] at hc
    obtain ⟨c, hc, rfl⟩ := hc
    exact ih c hc

theorem Cached.similar_strip (h : Cached keccak force n) : Similar n n.strip := by
  induction h with
  | nil => exact .nil
  | value _ v => exact .value v
  | short _ k c f _ _ ih => exact .short k f _ ih
  | full _ cs f hc _ ih =>
    refine .full f _ (by rw [node.strips_eq_map, List.length_map]) fun i => ?_
    rw [node.strips_getD]
    rw [List.getD_eq_getElem?_getD]
    cases hi : cs[i]? with
    | none => exact .nil
    | some c => exact ih c (List.mem_of_getElem? hi)

theorem Cached.refl (h : Cached keccak force n) : Similar n n :=
  h.similar_strip.trans h.similar_strip.symm

theorem Cached.similar_strips (h : Cached keccak force n) (h' : Cached keccak force' n') (hs : Similar n n') :
    Similar n.strip n'.strip :=
  h.similar_strip.symm.trans (hs.trans h'.similar_strip)

/-! ## Hashing reads a right cache as a fresh hash -/

section Hashing

variable (hs hs' : hasher)

theorem hash_short_cached {k h : Bytes} {c : node} {f : nodeFlag} (hf : f.hash = some h) (force : Bool) :
    hs.hash keccak (.shortNode k c f) none force = some (.hashNode h, .shortNode k c f, none) := by
  simp [hasher.hash, hasher.cachedResult, node.cache, hf]

theorem hash_full_cached {h : Bytes} {cs : List node} {f : nodeFlag} (hf : f.hash = some h) (force : Bool) :
    hs.hash keccak (.fullNode cs f) none force = some (.hashNode h, .fullNode cs f, none) := by
  simp [hasher.hash, hasher.cachedResult, node.cache, hf]

theorem HashesTo.hash {h : Bytes} {m : node} (hh : HashesTo keccak force m h) (hm : Fresh m) :
    ∃ r, hs.hash keccak m none force = some r ∧ r.1 = .hashNode h ∧ r.2.2 = none := by
  obtain ⟨r₀, hr₀, hr₀h⟩ := hh
  have hrel := hash_similar keccak ⟨0, 0⟩ hs (Cached.refl (hm.cached force : Cached keccak force m)) hm hm force
  rw [hr₀] at hrel
  obtain ⟨r, hr, hsim, -, hdb⟩ := rel_some_left hrel
  rw [hr₀h] at hsim
  exact ⟨r, hr, hsim.symm.hashNode_right, hdb⟩

/-- Hashing a node whose cache is right, without a database, gives what hashing the node with
its cache dropped gives, up to flags: a cached hash is read where the fresh hash is computed. -/
theorem hash_strip (h : Cached keccak force n) :
    ∀ hs hs' : hasher, Option.Rel HashedAlike (hs.hash keccak n none force) (hs'.hash keccak n.strip none force) := by
  induction h with
  | nil => exact fun _ _ => .none
  | value force v => exact fun _ _ => .some (store_similar keccak (.value v) rfl rfl force)
  | short force k c f hc hf ih =>
    intro hs hs'
    cases hfh : f.hash with
    | none =>
      exact hash_short_alike keccak hs hs' hfh rfl (child_alike keccak hs hs' hc.similar_strip fun _ => ih hs hs') force
    | some h =>
      obtain ⟨r, hr, hr1, hr2⟩ := (hf h hfh).hash hs' (Cached.short force k c f hc hf).fresh_strip
      rw [hash_short_cached hs hfh, hr]
      exact .some ⟨hr1 ▸ .hash h, rfl, hr2⟩
  | full force cs f hc hf ih =>
    intro hs hs'
    cases hfh : f.hash with
    | none =>
      refine hash_full_alike keccak hs hs' hfh rfl (hashList_similar keccak hs hs' ?_ 0) force
      rw [node.strips_eq_map, List.forall₂_map_right_iff, List.forall₂_same]
      exact fun c hmem => ⟨(hc c hmem).similar_strip, ih c hmem hs hs'⟩
    | some h =>
      obtain ⟨r, hr, hr1, hr2⟩ := (hf h hfh).hash hs' (Cached.full force cs f hc hf).fresh_strip
      rw [hash_full_cached hs hfh, hr]
      exact .some ⟨hr1 ▸ .hash h, rfl, hr2⟩

theorem hash_db_none (h : Cached keccak force n) {r : node × node × Option Database}
    (hr : hs.hash keccak n none force = some r) : r.2.2 = none := by
  have hrel := hash_strip h hs hs
  rw [hr] at hrel
  obtain ⟨_, _, _, hdb, _⟩ := rel_some_left hrel
  exact hdb

theorem hashesTo_of_hash (hn : Cached keccak force n) {r : node × node × Option Database}
    (hr : hs.hash keccak n none force = some r) {h : Bytes} (hh : r.1 = .hashNode h)
    {m : node} (hm : Fresh m.strip) (hsim : Similar n.strip m.strip) : HashesTo keccak force m.strip h := by
  have h₁ := hash_strip hn hs ⟨0, 0⟩
  rw [hr] at h₁
  obtain ⟨r₁, hr₁, hsim₁, -⟩ := rel_some_left h₁
  rw [hh] at hsim₁
  have h₂ := hash_similar keccak ⟨0, 0⟩ ⟨0, 0⟩ hsim hn.fresh_strip hm force
  rw [hr₁] at h₂
  obtain ⟨r₂, hr₂, hsim₂, -⟩ := rel_some_left h₂
  rw [hsim₁.hashNode_left] at hsim₂
  exact ⟨r₂, hr₂, hsim₂.hashNode_left⟩

variable (keccak) in
theorem finish_short (collapsed : node) (k : Bytes) (v : node) (f : nodeFlag) (db₀ db : Option Database)
    (force : Bool) :
    ∃ f', (hasher.finish keccak collapsed (.shortNode k v f) db₀ db force).2.1 = .shortNode k v f' ∧
      ∀ h, f'.hash = some h → (hasher.finish keccak collapsed (.shortNode k v f) db₀ db force).1 = .hashNode h := by
  unfold hasher.finish
  generalize hasher.store keccak collapsed db force = st
  obtain ⟨hashed, db'⟩ := st
  cases hashed <;> exact ⟨_, rfl, by simp⟩

variable (keccak) in
theorem finish_full (collapsed : node) (cs : List node) (f : nodeFlag) (db₀ db : Option Database) (force : Bool) :
    ∃ f', (hasher.finish keccak collapsed (.fullNode cs f) db₀ db force).2.1 = .fullNode cs f' ∧
      ∀ h, f'.hash = some h → (hasher.finish keccak collapsed (.fullNode cs f) db₀ db force).1 = .hashNode h := by
  unfold hasher.finish
  generalize hasher.store keccak collapsed db force = st
  obtain ⟨hashed, db'⟩ := st
  cases hashed <;> exact ⟨_, rfl, by simp⟩

theorem hashList_cached_out {cs : List node} (hc : ∀ c ∈ cs, Cached keccak false c)
    (ih : ∀ c ∈ cs, ∀ {r : node × node × Option Database}, hs.hash keccak c none false = some r →
      Cached keccak false r.2.1 ∧ Similar c r.2.1) :
    ∀ {i : ℕ} {r : List node × List node × Option Database}, hs.hashList keccak i cs none = some r →
      (∀ ch ∈ r.2.1, Cached keccak false ch) ∧ List.Forall₂ Similar cs r.2.1 := by
  induction cs with
  | nil =>
    intro i r hr
    cases hr
    exact ⟨fun _ h => (by cases h), .nil⟩
  | cons c cs ihl =>
    intro i r hr
    have hc₀ := hc c List.mem_cons_self
    have ihl' : ∀ {i : ℕ} {r : List node × List node × Option Database}, hs.hashList keccak i cs none = some r →
        (∀ ch ∈ r.2.1, Cached keccak false ch) ∧ List.Forall₂ Similar cs r.2.1 :=
      ihl (fun c' h => hc c' (List.mem_cons_of_mem _ h)) fun c' h => ih c' (List.mem_cons_of_mem _ h)
    -- the kept child is the child itself, or what its hash returns
    have hkeep : ∀ {ch chs}, Cached keccak false ch → Similar c ch → (∀ x ∈ chs, Cached keccak false x) →
        List.Forall₂ Similar cs chs → (∀ x ∈ ch :: chs, Cached keccak false x) ∧ List.Forall₂ Similar (c :: cs) (ch :: chs) :=
      fun hch hsim hchs hall => ⟨List.forall_mem_cons.mpr ⟨hch, hchs⟩, .cons hsim hall⟩
    rw [hasher.hashList] at hr
    by_cases hi : i < 16
    · by_cases hn : c.isNil
      · simp only [hi, hn, if_true, Option.bind_eq_bind] at hr
        obtain ⟨⟨ccs, chcs, db⟩, hrl, hr⟩ := Option.bind_eq_some_iff.mp hr
        cases hr
        obtain ⟨hchs, hall⟩ := ihl' hrl
        exact hkeep hc₀ hc₀.refl hchs hall
      · simp only [hi, hn, if_true, Bool.false_eq_true, if_false, Option.bind_eq_bind] at hr
        obtain ⟨⟨cc, chc, db₁⟩, hrc, hr⟩ := Option.bind_eq_some_iff.mp hr
        obtain rfl : db₁ = none := hash_db_none hs hc₀ hrc
        obtain ⟨⟨ccs, chcs, db⟩, hrl, hr⟩ := Option.bind_eq_some_iff.mp hr
        cases hr
        obtain ⟨hchs, hall⟩ := ihl' hrl
        obtain ⟨hch, hsim⟩ := ih c List.mem_cons_self hrc
        exact hkeep hch hsim hchs hall
    · simp only [hi, if_false, Option.bind_eq_bind] at hr
      obtain ⟨⟨ccs, chcs, db⟩, hrl, hr⟩ := Option.bind_eq_some_iff.mp hr
      cases hr
      obtain ⟨hchs, hall⟩ := ihl' hrl
      exact hkeep hc₀ hc₀.refl hchs hall

/-- What hashing returns as the node to keep is the node up to flags, with its cache right. -/
theorem hash_cached_out (h : Cached keccak force n) :
    ∀ {r : node × node × Option Database}, hs.hash keccak n none force = some r →
      Cached keccak force r.2.1 ∧ Similar n r.2.1 := by
  induction h with
  | nil =>
    intro r hr
    cases hr
  | value force v =>
    intro r hr
    rw [hash_value] at hr
    cases hr
    exact ⟨.value force v, .value v⟩
  | short force k c f hc hf ih =>
    intro r hr
    have hn := Cached.short force k c f hc hf
    cases hfh : f.hash with
    | some h =>
      rw [hash_short_cached hs hfh] at hr
      cases hr
      exact ⟨hn, hn.refl⟩
    | none =>
      have hr₀ := hr
      rw [hash_short_fresh keccak hs hfh] at hr
      obtain ⟨⟨cv, chv, db⟩, hrc, hr⟩ := Option.bind_eq_some_iff.mp hr
      -- the child kept: a value as it is, any other node as its hash returns it
      have hchild : Cached keccak false chv ∧ Similar c chv := by
        split_ifs at hrc
        · cases hrc
          exact ⟨hc, hc.refl⟩
        · exact ih hrc
      cases hr
      obtain ⟨f', hf'eq, hf'h⟩ := finish_short keccak
        (hasher.shortChildren k f cv chv).1 k chv f none db force
      simp only [hasher.shortChildren] at hf'eq hf'h hr₀ ⊢
      rw [hf'eq]
      have hstrip : Similar (node.shortNode k c f).strip (node.shortNode k chv f').strip :=
        .short k _ _ (hc.similar_strips hchild.1 hchild.2)
      exact ⟨.short force k chv f' hchild.1 fun h hh =>
          hashesTo_of_hash hs hn hr₀ (hf'h h hh) (.short _ _ _ rfl hchild.1.fresh_strip) hstrip,
        .short k f f' hchild.2⟩
  | full force cs f hc hf ih =>
    intro r hr
    have hn := Cached.full force cs f hc hf
    cases hfh : f.hash with
    | some h =>
      rw [hash_full_cached hs hfh] at hr
      cases hr
      exact ⟨hn, hn.refl⟩
    | none =>
      have hr₀ := hr
      rw [hash_full_fresh keccak hs hfh] at hr
      obtain ⟨⟨ccs, chcs, db⟩, hrl, hr⟩ := Option.bind_eq_some_iff.mp hr
      obtain ⟨hchs, hall⟩ := hashList_cached_out hs hc (fun c hmem _ hrc => ih c hmem hrc) hrl
      cases hr
      obtain ⟨f', hf'eq, hf'h⟩ := finish_full keccak (.fullNode ccs f) chcs f none db force
      rw [hf'eq]
      have hfresh : Fresh (node.fullNode chcs f').strip := by
        refine .full _ _ rfl fun x hx => ?_
        rw [node.strips_eq_map, List.mem_map] at hx
        obtain ⟨x, hx, rfl⟩ := hx
        exact (hchs x hx).fresh_strip
      have hstrip : Similar (node.fullNode cs f).strip (node.fullNode chcs f').strip := by
        refine .full_of_forall₂ _ _ ?_
        rw [node.strips_eq_map, node.strips_eq_map, List.forall₂_map_left_iff, List.forall₂_map_right_iff]
        obtain ⟨hlen, hzip⟩ := List.forall₂_iff_zip.mp hall
        exact List.forall₂_iff_zip.mpr ⟨hlen, fun hab => (hc _ (List.of_mem_zip hab).1).similar_strips
          (hchs _ (List.of_mem_zip hab).2) (hzip hab)⟩
      exact ⟨.full force chcs f' hchs fun h hh => hashesTo_of_hash hs hn hr₀ (hf'h h hh) hfresh hstrip,
        .full_of_forall₂ f f' hall⟩

end Hashing

/-! ## The cache under walks -/

/-- The map a node stands for reads no flag. -/
theorem Denotes.of_similar (h : Denotes db n m s) : Similar n n' → Denotes db n' m s := by
  induction h generalizing n' with
  | nil =>
    intro hs
    cases hs
    exact .nil
  | value v hv =>
    intro hs
    cases hs
    exact .value v hv
  | short k c f mc sc _ hk ih =>
    intro hs
    cases hs with
    | short _ _ f' hc' => exact .short k _ f' mc sc (ih hc') hk
  | full cs f ms ss hlen _ hss ih =>
    intro hs
    cases hs with
    | full _ f' hlen' hc' => exact .full _ f' ms ss (hlen'.symm.trans hlen) (fun i => ih i (hc' i)) hss
  | hash h blob m s dec hb hdec hd hs' =>
    intro hs
    cases hs
    exact .hash h blob m s dec hb hdec hd hs'

theorem finish_fst (collapsed cached : node) (db₀ db : Option Database) (force : Bool) :
    (hasher.finish keccak collapsed cached db₀ db force).1 = (hasher.store keccak collapsed db force).1 := rfl

theorem store_hashNode_force {n : node} {db : Option Database} {h : Bytes}
    (hh : (hasher.store keccak n db false).1 = .hashNode h) (force : Bool) :
    (hasher.store keccak n db force).1 = .hashNode h := by
  cases n
  case nil | hashNode => exact hh
  all_goals
    simp only [hasher.store] at hh ⊢
    split_ifs at hh ⊢ with h₁ h₂
    · exact absurd ⟨h₁.1, rfl⟩ h₂
    · exact hh

/-- A fresh node stored under a hash when not forced is stored under it when forced. -/
theorem HashesTo.force {m : node} {h : Bytes} (hh : HashesTo keccak false m h) (hm : Fresh m) (force : Bool) :
    HashesTo keccak force m h := by
  obtain ⟨r, hr, hrh⟩ := hh
  cases hm with
  | nil => cases hr
  | value v =>
    rw [hash_value] at hr
    cases hr
    exact ⟨_, hash_value keccak _ v none force, store_hashNode_force hrh force⟩
  | short k c f hf _ =>
    rw [hash_short_fresh keccak _ hf] at hr
    obtain ⟨rc, hrc, hr⟩ := Option.bind_eq_some_iff.mp hr
    cases hr
    rw [finish_fst] at hrh
    refine ⟨hasher.finish keccak (hasher.shortChildren k f rc.1 rc.2.1).1 (hasher.shortChildren k f rc.1 rc.2.1).2
      none rc.2.2 force, ?_, ?_⟩
    · rw [hash_short_fresh keccak _ hf, hrc, Option.bind_some]
    · rw [finish_fst]
      exact store_hashNode_force hrh force
  | full cs f hf _ =>
    rw [hash_full_fresh keccak _ hf] at hr
    obtain ⟨rl, hrl, hr⟩ := Option.bind_eq_some_iff.mp hr
    cases hr
    rw [finish_fst] at hrh
    refine ⟨hasher.finish keccak (.fullNode rl.1 f) (.fullNode rl.2.1 f) none rl.2.2 force, ?_, ?_⟩
    · rw [hash_full_fresh keccak _ hf, hrl, Option.bind_some]
    · rw [finish_fst]
      exact store_hashNode_force hrh force

theorem Cached.weaken (h : Cached keccak false n) (force : Bool) : Cached keccak force n := by
  cases h with
  | nil => exact .nil force
  | value _ v => exact .value force v
  | short _ k c f hc hf =>
    exact .short force k c f hc fun h hh =>
      (hf h hh).force (Cached.short false k c f hc hf).fresh_strip force
  | full _ cs f hc hf =>
    exact .full force cs f hc fun h hh =>
      (hf h hh).force (Cached.full false cs f hc hf).fresh_strip force

theorem Cached.of_short {k : Bytes} {c : node} {f : nodeFlag} (h : Cached keccak force (.shortNode k c f)) :
    Cached keccak false c := by
  cases h with
  | short _ _ _ _ hc _ => exact hc

theorem Cached.of_full {cs : List node} {f : nodeFlag} (h : Cached keccak force (.fullNode cs f)) :
    ∀ c ∈ cs, Cached keccak false c := by
  cases h with
  | full _ _ _ hc _ => exact hc

theorem Cached.not_hash (h : Bytes) : ¬ Cached keccak force (.hashNode h) := nofun

theorem Cached.short_newFlag (t : Trie) (k : Bytes) {c : node} (hc : Cached keccak false c) (force : Bool) :
    Cached keccak force (.shortNode k c t.newFlag) :=
  .short force k c _ hc fun _ h => by cases h

theorem Cached.full_newFlag (t : Trie) {cs : List node} (hc : ∀ c ∈ cs, Cached keccak false c) (force : Bool) :
    Cached keccak force (.fullNode cs t.newFlag) :=
  .full force cs _ hc fun _ h => by cases h

theorem insert_cached (t : Trie) :
    ∀ (fuel : ℕ) {force : Bool} {n : node} {pfx key : Bytes} {value : node} {d : Bool} {n' : node},
      t.insert fuel n pfx key value = some (.ok (d, n')) → Cached keccak force n → Cached keccak false value →
        Cached keccak force n'
  | 0, _, _, _, _, _, _, _, h, _, _ => by cases h
  | fuel + 1, force, n, pfx, key, value, d, n', h, hn, hv => by
    simp only [Trie.insert] at h
    split_ifs at h with hk
    · -- the key is used up: the value replaces the node
      split at h <;> simp only [Option.some.injEq, Except.ok.injEq, Prod.mk.injEq, reduceCtorEq] at h
      all_goals obtain ⟨-, rfl⟩ := h
      all_goals exact hv.weaken force
    · cases n with
      | nil =>
        simp only [Option.some.injEq, Except.ok.injEq, Prod.mk.injEq] at h
        obtain ⟨-, rfl⟩ := h
        exact .short_newFlag t _ hv force
      | valueNode => cases h
      | hashNode => exact absurd hn (Cached.not_hash _)
      | shortNode nk nv f =>
        have hnv := hn.of_short
        simp only at h
        split_ifs at h with hm h0
        · -- the whole key of the node matches: a short node over the insert below
          split at h
          · cases h
          · cases h
          · rename_i hrec
            split_ifs at h <;> simp only [Option.some.injEq, Except.ok.injEq, Prod.mk.injEq] at h <;>
              obtain ⟨-, rfl⟩ := h
            · exact hn
            · exact .short_newFlag t _ (insert_cached t fuel hrec hnv hv) force
        all_goals
          -- a full node over the old child and the new leaf, under a short node or not
          split at h
          · cases h
          · cases h
          rename_i hrec₁
          split at h
          · cases h
          · cases h
          rename_i hrec₂
          split at h
          · split at h
            · cases h
            · rename_i hch
              have hcs := forall_mem_branch (.nil false) hch (insert_cached t fuel hrec₁ (.nil false) hnv)
                (insert_cached t fuel hrec₂ (.nil false) hv)
              simp only [Option.some.injEq, Except.ok.injEq, Prod.mk.injEq] at h
              obtain ⟨-, rfl⟩ := h
              first
              | exact .full_newFlag t hcs force
              | exact .short_newFlag t _ (.full_newFlag t hcs false) force
          · cases h
      | fullNode cs f =>
        have hcs := hn.of_full
        -- the slot of the first nibble holds the insert below
        simp only at h
        split at h
        · cases h
        rename_i k₀ _
        split at h
        · cases h
        rename_i c hc
        split at h
        · cases h
        · cases h
        rename_i hrec
        have hnn := insert_cached t fuel hrec (hcs c (List.mem_of_getElem? hc)) hv
        split_ifs at h <;> simp only [Option.some.injEq, Except.ok.injEq, Prod.mk.injEq] at h <;>
          obtain ⟨-, rfl⟩ := h
        · exact hn
        · exact .full_newFlag t (forall_mem_set hcs hnn _) force

theorem Cached.resolve (t : Trie) {n : node} (hn : Cached keccak force n) (pfx : Bytes) :
    t.resolve n pfx = some (.ok n) := by
  cases hn <;> rfl

theorem delete_cached (t : Trie) :
    ∀ (fuel : ℕ) {force : Bool} {n : node} {pfx key : Bytes} {d : Bool} {n' : node},
      t.delete fuel n pfx key = some (.ok (d, n')) → Cached keccak force n → Cached keccak force n'
  | 0, _, _, _, _, _, _, h, _ => by cases h
  | fuel + 1, force, n, pfx, key, d, n', h, hn => by
    simp only [Trie.delete] at h
    cases n with
    | nil =>
      simp only [Option.some.injEq, Except.ok.injEq, Prod.mk.injEq] at h
      obtain ⟨-, rfl⟩ := h
      exact .nil force
    | valueNode =>
      simp only [Option.some.injEq, Except.ok.injEq, Prod.mk.injEq] at h
      obtain ⟨-, rfl⟩ := h
      exact .nil force
    | hashNode => exact absurd hn (Cached.not_hash _)
    | shortNode nk nv f =>
      have hnv := hn.of_short
      simp only at h
      split_ifs at h with hm hl
      · simp only [Option.some.injEq, Except.ok.injEq, Prod.mk.injEq] at h
        obtain ⟨-, rfl⟩ := h
        exact hn
      · simp only [Option.some.injEq, Except.ok.injEq, Prod.mk.injEq] at h
        obtain ⟨-, rfl⟩ := h
        exact .nil force
      -- the delete below, merged into a short node
      split at h
      · cases h
      · cases h
      rename_i child hrec
      have hchild := delete_cached t fuel hrec hnv
      split_ifs at h
      · simp only [Option.some.injEq, Except.ok.injEq, Prod.mk.injEq] at h
        obtain ⟨-, rfl⟩ := h
        exact hn
      split at h <;> simp only [Option.some.injEq, Except.ok.injEq, Prod.mk.injEq] at h <;> obtain ⟨-, rfl⟩ := h
      · exact .short_newFlag t _ hchild.of_short force
      · exact .short_newFlag t _ hchild force
    | fullNode cs f =>
      have hcs := hn.of_full
      simp only at h
      split at h
      · cases h
      rename_i k₀ _
      split at h
      · cases h
      rename_i c hc
      split at h
      · cases h
      · cases h
      rename_i nn hrec
      have hcs' := forall_mem_set hcs (delete_cached t fuel hrec (hcs c (List.mem_of_getElem? hc))) k₀.toNat
      have honly := Cached.getD hcs' (childPos (cs.set k₀.toNat nn) 0 (-1)).toNat
      split_ifs at h
      · simp only [Option.some.injEq, Except.ok.injEq, Prod.mk.injEq] at h
        obtain ⟨-, rfl⟩ := h
        exact hn
      -- the child left alone, or the full node with the new child
      · rw [honly.resolve t] at h
        split at h
        · cases h
        · cases h
        · rename_i heq
          simp only [Option.some.injEq, Except.ok.injEq, Prod.mk.injEq] at h heq
          obtain ⟨-, rfl⟩ := h
          rw [heq] at honly
          exact .short_newFlag t _ honly.of_short force
        · simp only [Option.some.injEq, Except.ok.injEq, Prod.mk.injEq] at h
          obtain ⟨-, rfl⟩ := h
          exact .short_newFlag t _ honly force
      · simp only [Option.some.injEq, Except.ok.injEq, Prod.mk.injEq] at h
        obtain ⟨-, rfl⟩ := h
        exact .short_newFlag t _ honly force
      · simp only [Option.some.injEq, Except.ok.injEq, Prod.mk.injEq] at h
        obtain ⟨-, rfl⟩ := h
        exact .full_newFlag t hcs' force

/-- With no hash node below, `tryGet` resolves nothing and returns the node it was given. -/
theorem tryGet_cached (t : Trie) :
    ∀ (fuel : ℕ) {force : Bool} {n : node} {key : Bytes} {pos : ℕ} {v : Option Bytes} {n' : node} {r : Bool},
      t.tryGet fuel n key pos = some (.ok (v, n', r)) → Cached keccak force n → n' = n ∧ r = false
  | 0, _, _, _, _, _, _, _, h, _ => by cases h
  | fuel + 1, force, n, key, pos, v, n', r, h, hn => by
    simp only [Trie.tryGet] at h
    cases n with
    | nil =>
      simp only [Option.some.injEq, Except.ok.injEq, Prod.mk.injEq] at h
      exact ⟨h.2.1.symm, h.2.2.symm⟩
    | valueNode =>
      simp only [Option.some.injEq, Except.ok.injEq, Prod.mk.injEq] at h
      exact ⟨h.2.1.symm, h.2.2.symm⟩
    | hashNode => exact absurd hn (Cached.not_hash _)
    | shortNode k c f =>
      simp only at h
      split_ifs at h
      · simp only [Option.some.injEq, Except.ok.injEq, Prod.mk.injEq] at h
        exact ⟨h.2.1.symm, h.2.2.symm⟩
      split at h
      · cases h
      · cases h
      rename_i hrec
      obtain ⟨-, rfl⟩ := tryGet_cached t fuel hrec hn.of_short
      simp only [Option.some.injEq, Except.ok.injEq, Prod.mk.injEq, Bool.false_eq_true, if_false] at h
      exact ⟨h.2.1.symm, h.2.2.symm⟩
    | fullNode cs f =>
      simp only at h
      split at h
      · cases h
      split at h
      · cases h
      rename_i c hc
      split at h
      · cases h
      · cases h
      rename_i hrec
      obtain ⟨-, rfl⟩ := tryGet_cached t fuel hrec (hn.of_full c (List.mem_of_getElem? hc))
      simp only [Option.some.injEq, Except.ok.injEq, Prod.mk.injEq, Bool.false_eq_true, if_false] at h
      exact ⟨h.2.1.symm, h.2.2.symm⟩

theorem TryGet_cached (t : Trie) {fuel : ℕ} {key : Bytes} {v : Option Bytes} {t' : Trie}
    (h : t.TryGet fuel key = some (.ok (v, t'))) (hr : Cached keccak force t.root) : t' = t := by
  simp only [Trie.TryGet] at h
  split at h
  · cases h
  · cases h
  rename_i hget
  obtain ⟨-, rfl⟩ := tryGet_cached t fuel hget hr
  simp only [Option.some.injEq, Except.ok.injEq, Prod.mk.injEq, Bool.false_eq_true, if_false] at h
  exact h.2.symm

/-! ## Runs with `Hash` -/

variable (keccak)

theorem Trie.Hash_strip {t : Trie} (h : Cached keccak true t.root) :
    (t.Hash keccak).map Prod.fst = ({ t with root := t.root.strip }.Hash keccak).map Prod.fst :=
  Trie.Hash_of_alike keccak (Trie.hashRoot_alike keccak h.similar_strip (hash_strip h _ _))

theorem Trie.Hash_cached {t t' : Trie} {x : Bytes} (h : t.Hash keccak = some (x, t'))
    (hr : Cached keccak true t.root) : t'.db = t.db ∧ Similar t.root t'.root ∧ Cached keccak true t'.root := by
  unfold Trie.Hash at h
  cases hn : t.root.isNil
  · rw [t.hashRoot_of_ne_nil keccak hn] at h
    split at h
    · rename_i hashed cached db' heq
      cases h
      obtain ⟨hc, hs⟩ := hash_cached_out _ hr heq
      exact ⟨rfl, hs, hc⟩
    · cases h
  · rw [t.hashRoot_of_nil keccak (node.eq_nil_of_isNil hn)] at h
    cases h
    rw [node.eq_nil_of_isNil hn]
    exact ⟨rfl, .nil, .nil true⟩

/-- `Hash` of an operation list. -/
def Op.isHash : Op → Bool
  | .Hash => true
  | _ => false

/-- An operation on a trie in memory: a walk with fuel for its key, or `Hash`. `Commit` writes the
nodes to the database, and is not of this kind. -/
def Op.InMemory (fuel : ℕ) (op : Op) : Prop := op.Walk fuel ∨ op.isHash = true

instance (fuel : ℕ) : DecidablePred (Op.InMemory fuel) := fun op => by
  unfold Op.InMemory
  infer_instance

theorem written_filter_isHash (ops : List Op) : written (ops.filter fun op => !op.isHash) = written ops := by
  suffices h : ∀ A, (ops.filter fun op => !op.isHash).foldl Op.write A = ops.foldl Op.write A from h _
  induction ops with
  | nil => exact fun _ => rfl
  | cons op ops ih =>
    intro A
    cases op <;> simp_all [Op.isHash, Op.write]

/-- The trie is canonical with its cache right, and stands for `A` over the HEX keys of its keys. -/
def TracksCached (A : Bytes → Option Bytes) (t : Trie) : Prop :=
  ∃ s, Denotes t.db t.root (hexMap A) s ∧ s ≠ .value ∧ Cached keccak true t.root

theorem Tracks.cached {A : Bytes → Option Bytes} {t : Trie} (h : Tracks A t) : TracksCached keccak A t :=
  let ⟨s, hden, hs, hfr⟩ := h
  ⟨s, hden, hs, hfr.cached true⟩

section Step

variable {keccak} {A : Bytes → Option Bytes} {t : Trie} {fuel : ℕ} (h : TracksCached keccak A t)
include h

theorem TracksCached.strip : Tracks A { t with root := t.root.strip } :=
  let ⟨s, hden, hs, hc⟩ := h
  ⟨s, hden.of_similar hc.similar_strip, hs, hc.fresh_strip⟩

/-- The step of a run: an operation on a trie in memory succeeds and keeps the invariant. -/
theorem TracksCached.apply {op : Op} (hf : op.InMemory fuel) :
    ∃ t', t.apply keccak fuel op = some t' ∧ TracksCached keccak (op.write A) t' := by
  obtain ⟨s, hden, hs, hc⟩ := h
  cases op with
  | TryUpdate key value =>
    replace hf : 2 * (keybytesToHex key).length + 2 ≤ fuel := hf.resolve_right Bool.false_ne_true
    by_cases hlen : value.length ≠ 0
    · obtain ⟨d, n', s', hins, hden', hs'⟩ :=
        hden.insert_root hs (List.ne_nil_of_length_pos (Nat.pos_of_ne_zero hlen)) hf
      refine ⟨{ t with root := n' }, by simp [Trie.apply, Trie.TryUpdate, hlen, hins], s', ?_, hs',
        insert_cached t fuel hins hc (.value false value)⟩
      simpa [Op.write, hlen] using hden'
    · obtain ⟨d, n', s', hdel, hden', hs'⟩ := hden.delete_root hs hf
      refine ⟨{ t with root := n' }, by simp [Trie.apply, Trie.TryUpdate, hlen, hdel], s', ?_, hs',
        delete_cached t fuel hdel hc⟩
      simpa [Op.write, hlen] using hden'
  | TryDelete key =>
    replace hf : 2 * (keybytesToHex key).length + 2 ≤ fuel := hf.resolve_right Bool.false_ne_true
    obtain ⟨d, n', s', hdel, hden', hs'⟩ := hden.delete_root hs hf
    exact ⟨{ t with root := n' }, by simp [Trie.apply, Trie.TryDelete, hdel], s', hden', hs',
      delete_cached t fuel hdel hc⟩
  | TryGet key =>
    replace hf : 2 * (keybytesToHex key).length + 2 ≤ fuel := hf.resolve_right Bool.false_ne_true
    obtain ⟨n', hget, -⟩ := TryGet_spec t hden hs key hf
    have ht := TryGet_cached t hget hc
    rw [ht] at hget
    exact ⟨t, by simp [Trie.apply, hget], s, hden, hs, hc⟩
  | Hash =>
    -- the root hash is defined, as for the trie with its cache dropped
    obtain ⟨x, hx⟩ := Trie.Hash_some keccak (t := { t with root := t.root.strip })
      (hden.of_similar hc.similar_strip) hc.fresh_strip
    rw [← Trie.Hash_strip keccak hc] at hx
    obtain ⟨⟨x', t'⟩, hhash, -⟩ := Option.map_eq_some_iff.mp hx
    obtain ⟨hdb, hsim, hc'⟩ := Trie.Hash_cached keccak hhash hc
    refine ⟨t', by simp [Trie.apply, hhash], s, ?_, hs, hc'⟩
    rw [hdb]
    exact hden.of_similar hsim
  | Commit => exact (hf.elim False.elim Bool.false_ne_true).elim

theorem TracksCached.run {ops : List Op} (hf : ∀ op ∈ ops, op.InMemory fuel) :
    ∃ t', t.run keccak fuel ops = some t' ∧ TracksCached keccak (ops.foldl Op.write A) t' := by
  induction ops generalizing A t with
  | nil => exact ⟨t, rfl, h⟩
  | cons op ops ih =>
    obtain ⟨t₁, happly, h₁⟩ := h.apply (hf op List.mem_cons_self)
    obtain ⟨t', hrun, h'⟩ := ih h₁ fun op hop => hf op (List.mem_cons_of_mem _ hop)
    exact ⟨t', by rw [Trie.run_cons, happly, Option.bind_some, hrun], h'⟩

end Step

/-- The calls of `Hash` in a run from the empty trie change no root hash after them: a run of walks
and calls of `Hash` succeeds, and ends with the root hash of the same run without the calls of
`Hash`, though these left hashes cached in the nodes that the last `Hash` reads back. -/
theorem run_Hash_without_Hash_calls (db : Database) {ops : List Op} {fuel : ℕ}
    (hf : ∀ op ∈ ops, op.InMemory fuel) :
    ∃ t₀ t t' root, New emptyRoot db = some (.ok t₀) ∧ t₀.run keccak fuel ops = some t ∧
      t₀.run keccak fuel (ops.filter fun op => !op.isHash) = some t' ∧
      (t.Hash keccak).map Prod.fst = some root ∧ (t'.Hash keccak).map Prod.fst = some root := by
  obtain ⟨t, hrun, h⟩ := ((tracks_new db).cached keccak).run hf
  have hf' : ∀ op ∈ ops.filter (fun op => !op.isHash), op.Walk fuel := by
    intro op hop
    obtain ⟨hmem, hnot⟩ := List.mem_filter.mp hop
    rcases hf op hmem with hw | hh
    · exact hw
    · simp [hh] at hnot
  obtain ⟨t', hrun', s', hden', -, hfr'⟩ := (tracks_new db).run keccak hf'
  obtain ⟨root, hroot⟩ := Trie.Hash_some keccak hden' hfr'
  obtain ⟨s, hden, -, hfr⟩ := h.strip
  have hsim := hden.similar hfr hden' hfr' (congrArg hexMap (written_filter_isHash ops))
  obtain ⟨-, -, -, hc⟩ := h
  exact ⟨_, t, t', root, new_emptyRoot db, hrun, hrun',
    ((Trie.Hash_strip keccak hc).trans (Trie.Hash_similar keccak hsim hfr hfr')).trans hroot, hroot⟩

theorem run_Hash_without_Hash_calls_interleaved :
    ∃ t₀ t t' root, New emptyRoot ⟨fun _ => none, fun _ => none⟩ = some (.ok t₀) ∧
      t₀.run id 20 [.TryUpdate [1] [2], .Hash, .TryUpdate [0x13] [4], .Hash, .TryDelete [1], .TryGet [0x13]] =
        some t ∧
      t₀.run id 20 ([.TryUpdate [1] [2], .Hash, .TryUpdate [0x13] [4], .Hash, .TryDelete [1], .TryGet [0x13]].filter
        fun op => !op.isHash) = some t' ∧
      (t.Hash id).map Prod.fst = some root ∧ (t'.Hash id).map Prod.fst = some root :=
  run_Hash_without_Hash_calls id _ (by decide)

end EthereumAI.Trie
