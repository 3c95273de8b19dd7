import EthereumAI.Trie.Semantics

/-! # Canonical tries are fixed by their maps

`insert` and `delete` keep a trie in canonical form (`Denotes`). A trie held in memory, with no
hash node and no cached hash (`Fresh`), is then fixed by the map it stands for, up to the flags of
its nodes (`Denotes.similar`): the shape of a node is read off its map, the key of a short node is
where the keys below it part or end, and the children of a full node stand for the maps below
each nibble. The hasher reads no flag but the cached hash, so two such tries hash alike
(`hash_similar`), and two tries in memory with the same map have the same root hash
(`Trie.Hash_similar`).
-/

-- the package and its main type share the name
set_option linter.dupNamespace false

namespace EthereumAI.Trie

open EthereumAI.Lib PrefixMap

/-! ## The shape of a map -/

/-- The map of a canonical node of each shape. -/
def Shaped (m : Bytes → Option Bytes) : Shape → Prop
  | .empty => m = empty
  | .value => ∃ v, m = single v
  | .short => ∃ c k mc, m = under (c :: k) mc ∧ Stem mc
  | .full => Forks m ∧ m [] = none

theorem fullMap_slot (ms : Fin 17 → Bytes → Option Bytes) (j : Fin 17) (r : Bytes) :
    fullMap ms (j.val.toUInt8 :: r) = ms j r := by
  have h17 : (j.val.toUInt8).toNat < 17 := by
    rw [slot_toUInt8]
    exact j.isLt
  have hj : (⟨(j.val.toUInt8).toNat, h17⟩ : Fin 17) = j := Fin.ext (slot_toUInt8 j)
  simp only [fullMap, dif_pos h17, hj]

theorem fullMap_injective {ms ms' : Fin 17 → Bytes → Option Bytes} (h : fullMap ms = fullMap ms') : ms = ms' := by
  funext j r
  rw [← fullMap_slot ms j r, ← fullMap_slot ms' j r, h]

variable {m m' : Bytes → Option Bytes} {s s' : Shape}

theorem Shaped.exists_ne_none (h : Shaped m s) (hs : s ≠ .empty) : ∃ key, m key ≠ none := by
  cases s with
  | empty => exact absurd rfl hs
  | value =>
    obtain ⟨v, rfl⟩ := h
    exact ⟨[], by simp⟩
  | short =>
    obtain ⟨c, k, mc, rfl, hmc⟩ := h
    obtain ⟨r, hr⟩ := hmc.exists_ne_none
    exact ⟨c :: k ++ r, by rwa [under_apply_append]⟩
  | full =>
    obtain ⟨⟨a, -, r, -, -, ha, -⟩, -⟩ := h
    exact ⟨a :: r, ha⟩

theorem Shaped.stem (h : Shaped m s) (hs : s = .value ∨ s = .full) : Stem m := by
  rcases hs with rfl | rfl
  · exact .inl h
  · exact .inr h.1

theorem Shaped.empty_iff (h : Shaped m s) : s = .empty ↔ m = empty := by
  refine ⟨fun hs => by subst hs; exact h, fun hm => ?_⟩
  by_contra hs
  obtain ⟨key, hkey⟩ := h.exists_ne_none hs
  exact hkey (hm ▸ rfl)

theorem Shaped.value_iff (h : Shaped m s) : s = .value ↔ m [] ≠ none := by
  cases s with
  | empty => simp [show m = empty from h]
  | value =>
    obtain ⟨v, rfl⟩ := h
    simp
  | short =>
    obtain ⟨c, k, mc, rfl, -⟩ := h
    simp [under]
  | full => simp [h.2]

theorem Shaped.full_iff (h : Shaped m s) : s = .full ↔ Forks m := by
  cases s with
  | empty =>
    simp only [reduceCtorEq, false_iff]
    rintro ⟨a, -, r, -, -, ha, -⟩
    exact ha (by rw [show m = empty from h]; rfl)
  | value =>
    obtain ⟨v, rfl⟩ := h
    simp only [reduceCtorEq, false_iff]
    rintro ⟨a, -, r, -, -, ha, -⟩
    exact ha (by simp [single])
  | short =>
    obtain ⟨c, k, mc, rfl, -⟩ := h
    simpa using not_forks_under_cons c k mc
  | full => simpa using h.1

theorem Shaped.unique (h : Shaped m s) (h' : Shaped m s') : s = s' := by
  have he := h.empty_iff.trans h'.empty_iff.symm
  have hv := h.value_iff.trans h'.value_iff.symm
  have hf := h.full_iff.trans h'.full_iff.symm
  cases s <;> cases s' <;> simp_all

variable {db : Database} {n n' : node}

theorem ShortOK.child_shape {k : Bytes} (h : ShortOK k s) : s = .value ∨ s = .full := by
  obtain ⟨-, -, hs⟩ := h
  split_ifs at hs
  · exact .inl hs
  · exact .inr hs

theorem FullOK.slot_shape {cs : List node} {ms : Fin 17 → Bytes → Option Bytes} {ss : Fin 17 → Shape}
    (hc : ∀ i : Fin 17, Denotes db (cs.getD i .nil) (ms i) (ss i)) (hss : FullOK ss) {j : ℕ} (hj : j < 16)
    (hn : (cs.getD j .nil).isNil = false) : ss ⟨j, by omega⟩ = .short ∨ ss ⟨j, by omega⟩ = .full := by
  have hne : ss ⟨j, by omega⟩ ≠ .empty := fun he => by
    have := ((hc ⟨j, by omega⟩).isNil_iff).mpr he
    simp_all
  have hnv : ss ⟨j, by omega⟩ ≠ .value := (hss.1 ⟨j, by omega⟩).1 hj
  cases hsj : ss ⟨j, by omega⟩ <;> simp_all

theorem Denotes.shaped (h : Denotes db n m s) : Shaped m s := by
  induction h with
  | nil => rfl
  | value v _ => exact ⟨v, rfl⟩
  | short k v f m s _ hk ih =>
    obtain ⟨c, k, rfl⟩ := List.exists_cons_of_ne_nil hk.2.1
    exact ⟨c, k, m, rfl, ih.stem hk.child_shape⟩
  | full cs f ms ss _ _ hs ih =>
    obtain ⟨-, i, j, hij, hi, hj⟩ := hs
    obtain ⟨r₁, h₁⟩ := (ih i).exists_ne_none hi
    obtain ⟨r₂, h₂⟩ := (ih j).exists_ne_none hj
    have hne : i.val.toUInt8 ≠ j.val.toUInt8 := fun he =>
      hij (Fin.ext (by rw [← slot_toUInt8 i, he, slot_toUInt8]))
    exact ⟨⟨_, _, r₁, r₂, hne, by rwa [fullMap_slot], by rwa [fullMap_slot]⟩, rfl⟩
  | hash _ _ _ _ _ _ _ _ _ ih => exact ih 0

/-! ## Tries in memory -/

/-- A node of a trie built in memory: no hash node, and no cached hash, below it. -/
inductive Fresh : node → Prop
  | nil : Fresh .nil
  | value (v : Bytes) : Fresh (.valueNode v)
  | short (k : Bytes) (c : node) (f : nodeFlag) (hf : f.hash = none) (hc : Fresh c) : Fresh (.shortNode k c f)
  | full (cs : List node) (f : nodeFlag) (hf : f.hash = none) (hc : ∀ c ∈ cs, Fresh c) : Fresh (.fullNode cs f)

theorem Fresh.of_short (h : Fresh (.shortNode k c f)) : f.hash = none ∧ Fresh c := by
  cases h with
  | short _ _ _ hf hc => exact ⟨hf, hc⟩

theorem Fresh.of_full (h : Fresh (.fullNode cs f)) : f.hash = none ∧ ∀ c ∈ cs, Fresh c := by
  cases h with
  | full _ _ hf hc => exact ⟨hf, hc⟩

theorem Fresh.getD {cs : List node} (h : ∀ c ∈ cs, Fresh c) (i : ℕ) : Fresh (cs.getD i .nil) := by
  rw [List.getD_eq_getElem?_getD]
  cases hi : cs[i]? with
  | none => exact .nil
  | some c => exact h c (List.mem_of_getElem? hi)

/-- Two nodes that differ in their flags at most. -/
inductive Similar : node → node → Prop
  | nil : Similar .nil .nil
  | value (v : Bytes) : Similar (.valueNode v) (.valueNode v)
  | hash (h : Bytes) : Similar (.hashNode h) (.hashNode h)
  | short (k : Bytes) {c c' : node} (f f' : nodeFlag) (hc : Similar c c') :
      Similar (.shortNode k c f) (.shortNode k c' f')
  | full {cs cs' : List node} (f f' : nodeFlag) (hlen : cs.length = cs'.length)
      (hc : ∀ i, Similar (cs.getD i .nil) (cs'.getD i .nil)) : Similar (.fullNode cs f) (.fullNode cs' f')

/-- A trie in memory in canonical form is fixed by its map, up to flags. -/
theorem Denotes.similar (h : Denotes db n m s) (hf : Fresh n) :
    ∀ {db' n' m' s'}, Denotes db' n' m' s' → Fresh n' → m' = m → Similar n n' := by
  induction h with
  | nil =>
    intro db' n' m' s' h' hf' hm
    have hs : s' = .empty := h'.shaped.unique (show Shaped m' .empty from hm)
    rw [h'.empty_iff.mp hs]
    exact .nil
  | value v _ =>
    intro db' n' m' s' h' hf' hm
    have hs : s' = .value := h'.shaped.unique (hm ▸ (⟨v, rfl⟩ : Shaped (single v) .value))
    cases h' with
    | value v' _ =>
      obtain rfl : v' = v := by simpa using congrFun hm []
      exact .value v'
    | hash => cases hf'
    | _ => cases hs
  | short k c f mc sc hc hk ih =>
    intro db' n' m' s' h' hf' hm
    have hs : s' = .short := h'.shaped.unique (hm ▸ (Denotes.short k c f mc sc hc hk).shaped)
    cases h' with
    | short k' c' f' mc' sc' hc' hk' =>
      cases hf with
      | short _ _ _ _ hfc =>
        cases hf' with
        | short _ _ _ _ hfc' =>
          -- the key is where the keys below part or end
          obtain ⟨rfl, rfl⟩ := eq_of_under_eq (hc'.shaped.stem hk'.child_shape) (hc.shaped.stem hk.child_shape) hm
          exact .short k' f f' (ih hfc hc' hfc' rfl)
    | hash => cases hf'
    | _ => cases hs
  | full cs f ms ss hlen hc hs ih =>
    intro db' n' m' s' h' hf' hm
    have hsh : s' = .full := h'.shaped.unique (hm ▸ (Denotes.full cs f ms ss hlen hc hs).shaped)
    cases h' with
    | full cs' f' ms' ss' hlen' hc' _ =>
      obtain rfl := fullMap_injective hm
      cases hf with
      | full _ _ _ hfc =>
        cases hf' with
        | full _ _ _ hfc' =>
          refine .full f f' (hlen.trans hlen'.symm) fun i => ?_
          by_cases hi : i < 17
          · exact ih ⟨i, hi⟩ (Fresh.getD hfc i) (hc' ⟨i, hi⟩) (Fresh.getD hfc' i) rfl
          · rw [List.getD_eq_default _ _ (by omega), List.getD_eq_default _ _ (by omega)]
            exact .nil
    | hash => cases hf'
    | _ => cases hsh
  | hash => cases hf

/-! ## Hashing ignores the flags -/

theorem forall₂_of_getD {α : Type*} {R : α → α → Prop} {d : α} (hd : R d d) :
    ∀ {l l' : List α}, l.length = l'.length → (∀ i, R (l.getD i d) (l'.getD i d)) → List.Forall₂ R l l'
  | [], [], _, _ => .nil
  | _ :: _, _ :: _, hlen, h => .cons (h 0) (forall₂_of_getD hd (by simpa using hlen) fun i => h (i + 1))
  | [], _ :: _, hlen, _ => by simp at hlen
  | _ :: _, [], hlen, _ => by simp at hlen

theorem getD_of_forall₂ {α : Type*} {R : α → α → Prop} {d : α} (hd : R d d) :
    ∀ {l l' : List α}, List.Forall₂ R l l' → ∀ i, R (l.getD i d) (l'.getD i d)
  | _, _, .nil, _ => hd
  | _, _, .cons h _, 0 => h
  | _, _, .cons _ ht, i + 1 => getD_of_forall₂ hd ht i

theorem Similar.full_of_forall₂ {cs cs' : List node} (f f' : nodeFlag) (h : List.Forall₂ Similar cs cs') :
    Similar (.fullNode cs f) (.fullNode cs' f') :=
  .full f f' h.length_eq (getD_of_forall₂ .nil h)

theorem Similar.isNil_eq (h : Similar n n') : n.isNil = n'.isNil := by
  cases h <;> rfl

theorem Similar.isValue_eq (h : Similar n n') : n.isValue = n'.isValue := by
  cases h <;> rfl

theorem items_eq_of_forall₂ {cs cs' : List node} (h : List.Forall₂ (fun a b => a.item = b.item) cs cs') :
    node.items cs = node.items cs' := by
  induction h with
  | nil => rfl
  | cons ha _ ih => simp only [node.items, ha, ih]

theorem Similar.item_eq (h : Similar n n') : n.item = n'.item := by
  induction h with
  | nil | value | hash => rfl
  | short k f f' _ ih => simp only [node.item, ih]
  | full f f' hlen _ ih =>
    simp only [node.item]
    rw [items_eq_of_forall₂ (forall₂_of_getD (R := fun a b => a.item = b.item) rfl hlen ih)]

variable (keccak : Bytes → Bytes) (hs : hasher)

/-- Stored alike: two nodes equal up to flags, neither with a cached hash, are embedded or
replaced by the same hash. -/
theorem store_similar (h : Similar n n') (hc : n.cache.1 = none) (hc' : n'.cache.1 = none) (force : Bool) :
    Similar (hasher.store keccak n none force).1 (hasher.store keccak n' none force).1 ∧
      (hasher.store keccak n none force).2 = none ∧ (hasher.store keccak n' none force).2 = none := by
  have henc : encodeNode n = encodeNode n' := by rw [encodeNode, encodeNode, h.item_eq]
  cases h with
  | nil => exact ⟨.nil, rfl, rfl⟩
  | hash x => exact ⟨.hash x, rfl, rfl⟩
  | value v =>
    simp only [hasher.store]
    split_ifs
    · exact ⟨.value v, rfl, rfl⟩
    · exact ⟨.hash _, rfl, rfl⟩
  | short k f f' hsim =>
    simp only [hasher.store, henc]
    split_ifs
    · exact ⟨.short k f f' hsim, rfl, rfl⟩
    · simp only [Option.getD, hc, hc']
      exact ⟨.hash _, rfl, rfl⟩
  | full f f' hlen hsim =>
    simp only [hasher.store, henc]
    split_ifs
    · exact ⟨.full f f' hlen hsim, rfl, rfl⟩
    · simp only [Option.getD, hc, hc']
      exact ⟨.hash _, rfl, rfl⟩

/-- What `hash` returns without a database: the node that stands in the parent, up to flags. -/
def HashedAlike (r r' : node × node × Option Database) : Prop :=
  Similar r.1 r'.1 ∧ r.2.2 = none ∧ r'.2.2 = none

theorem finish_alike {collapsed collapsed' cached cached' : node} (h : Similar collapsed collapsed')
    (hc : collapsed.cache.1 = none) (hc' : collapsed'.cache.1 = none) (force : Bool) :
    HashedAlike (hasher.finish keccak collapsed cached none none force)
      (hasher.finish keccak collapsed' cached' none none force) := by
  obtain ⟨hsim, hdb, hdb'⟩ := store_similar keccak h hc hc' force
  exact ⟨hsim, hdb, hdb'⟩

theorem cachedResult_of_hash_none {k : Bytes} {c : node} {f : nodeFlag} (hf : f.hash = none)
    (db : Option Database) : hs.cachedResult (.shortNode k c f) db = none := by
  simp [hasher.cachedResult, node.cache, hf]

theorem cachedResult_full_of_hash_none {cs : List node} {f : nodeFlag} (hf : f.hash = none)
    (db : Option Database) : hs.cachedResult (.fullNode cs f) db = none := by
  simp [hasher.cachedResult, node.cache, hf]

theorem hash_short_fresh {k : Bytes} {c : node} {f : nodeFlag} (hf : f.hash = none) {db : Option Database}
    (force : Bool) :
    hs.hash keccak (.shortNode k c f) db force =
      (if c.isValue then some (c, c, db) else hs.hash keccak c db false).bind fun r =>
        some (hasher.finish keccak (hasher.shortChildren k f r.1 r.2.1).1 (hasher.shortChildren k f r.1 r.2.1).2
          db r.2.2 force) := by
  rw [hasher.hash, cachedResult_of_hash_none hs hf]
  split_ifs <;> rfl

theorem hash_full_fresh {cs : List node} {f : nodeFlag} (hf : f.hash = none) {db : Option Database}
    (force : Bool) :
    hs.hash keccak (.fullNode cs f) db force =
      (hs.hashList keccak 0 cs db).bind fun r =>
        some (hasher.finish keccak (.fullNode r.1 f) (.fullNode r.2.1 f) db r.2.2 force) := by
  rw [hasher.hash, cachedResult_full_of_hash_none hs hf]
  rfl

theorem rel_bind {α β γ δ : Type*} {R : α → β → Prop} {S : γ → δ → Prop} {o : Option α} {o' : Option β}
    {f : α → Option γ} {g : β → Option δ} (h : Option.Rel R o o')
    (hfg : ∀ a a', R a a' → Option.Rel S (f a) (g a')) : Option.Rel S (o.bind f) (o'.bind g) := by
  cases h with
  | none => exact .none
  | some hr => exact hfg _ _ hr

theorem rel_some_left {α β : Type*} {R : α → β → Prop} {a : α} {o : Option β} (h : Option.Rel R (some a) o) :
    ∃ b, o = some b ∧ R a b := by
  cases h with
  | some hr => exact ⟨_, rfl, hr⟩

/-- The children of two full nodes hashed alike, without a database. -/
def ChildrenAlike (r r' : List node × List node × Option Database) : Prop :=
  List.Forall₂ Similar r.1 r'.1 ∧ r.2.2 = none ∧ r'.2.2 = none

variable (hs' : hasher)

theorem hashList_similar {cs cs' : List node}
    (h : List.Forall₂ (fun c c' => Similar c c' ∧
      Option.Rel HashedAlike (hs.hash keccak c none false) (hs'.hash keccak c' none false)) cs cs')
    (i : ℕ) : Option.Rel ChildrenAlike (hs.hashList keccak i cs none) (hs'.hashList keccak i cs' none) := by
  induction h generalizing i with
  | nil => exact .some ⟨.nil, rfl, rfl⟩
  | cons hc _ ih =>
    obtain ⟨hsim, hhash⟩ := hc
    rw [hasher.hashList, hasher.hashList, ← hsim.isNil_eq]
    split_ifs with hi hnil
    · exact rel_bind (ih (i + 1)) fun _ _ ⟨hl, hdb, hdb'⟩ => .some ⟨.cons (.value []) hl, hdb, hdb'⟩
    · refine rel_bind hhash fun ⟨cc, chc, db⟩ ⟨cc', chc', db'⟩ ⟨hcc, hdb, hdb'⟩ => ?_
      dsimp only at hcc hdb hdb' ⊢
      subst hdb hdb'
      exact rel_bind (ih (i + 1)) fun _ _ ⟨hl, hdb, hdb'⟩ => .some ⟨.cons hcc hl, hdb, hdb'⟩
    · exact rel_bind (ih (i + 1)) fun _ _ ⟨hl, hdb, hdb'⟩ => .some ⟨.cons (.value []) hl, hdb, hdb'⟩
    · exact rel_bind (ih (i + 1)) fun _ _ ⟨hl, hdb, hdb'⟩ => .some ⟨.cons hsim hl, hdb, hdb'⟩

theorem child_alike {c c' : node} (hc : Similar c c')
    (h : c.isValue = false → Option.Rel HashedAlike (hs.hash keccak c none false) (hs'.hash keccak c' none false)) :
    Option.Rel HashedAlike
      (if c.isValue then some (c, c, none) else hs.hash keccak c none false)
      (if c'.isValue then some (c', c', none) else hs'.hash keccak c' none false) := by
  rw [← hc.isValue_eq]
  split_ifs with hv
  · exact .some ⟨hc, rfl, rfl⟩
  · exact h (by simpa using hv)

theorem hash_short_alike {k : Bytes} {c c' : node} {f f' : nodeFlag} (hf : f.hash = none) (hf' : f'.hash = none)
    (hchild : Option.Rel HashedAlike
      (if c.isValue then some (c, c, none) else hs.hash keccak c none false)
      (if c'.isValue then some (c', c', none) else hs'.hash keccak c' none false)) (force : Bool) :
    Option.Rel HashedAlike (hs.hash keccak (.shortNode k c f) none force)
      (hs'.hash keccak (.shortNode k c' f') none force) := by
  rw [hash_short_fresh keccak hs hf, hash_short_fresh keccak hs' hf']
  refine rel_bind hchild fun ⟨cv, chv, db⟩ ⟨cv', chv', db'⟩ ⟨hcv, hdb, hdb'⟩ => ?_
  dsimp only at hcv hdb hdb'
  subst hdb hdb'
  have hcol : Similar (if cv.isNil then .valueNode [] else cv) (if cv'.isNil then .valueNode [] else cv') := by
    rw [← hcv.isNil_eq]
    split_ifs
    exacts [.value [], hcv]
  exact .some (finish_alike keccak (.short _ f f' hcol) hf hf' force)

theorem hash_full_alike {cs cs' : List node} {f f' : nodeFlag} (hf : f.hash = none) (hf' : f'.hash = none)
    (hl : Option.Rel ChildrenAlike (hs.hashList keccak 0 cs none) (hs'.hashList keccak 0 cs' none)) (force : Bool) :
    Option.Rel HashedAlike (hs.hash keccak (.fullNode cs f) none force)
      (hs'.hash keccak (.fullNode cs' f') none force) := by
  rw [hash_full_fresh keccak hs hf, hash_full_fresh keccak hs' hf']
  refine rel_bind hl fun ⟨ccs, chcs, db⟩ ⟨ccs', chcs', db'⟩ ⟨hcs, hdb, hdb'⟩ => ?_
  dsimp only at hcs hdb hdb'
  subst hdb hdb'
  exact .some (finish_alike keccak (.full_of_forall₂ f f' hcs) hf hf' force)

theorem hash_similar (h : Similar n n') :
    Fresh n → Fresh n' → ∀ force,
      Option.Rel HashedAlike (hs.hash keccak n none force) (hs'.hash keccak n' none force) := by
  induction h with
  | nil => exact fun _ _ _ => .none
  | value v => exact fun _ _ force => .some (store_similar keccak (.value v) rfl rfl force)
  | hash x => exact fun hf => by cases hf
  | @short k c c' f f' hc ih =>
    intro hf hf' force
    obtain ⟨hfh, hcf⟩ := hf.of_short
    obtain ⟨hfh', hcf'⟩ := hf'.of_short
    exact hash_short_alike keccak hs hs' hfh hfh' (child_alike keccak hs hs' hc fun _ => ih hcf hcf' false) force
  | @full cs cs' f f' hlen hc ih =>
    intro hf hf' force
    obtain ⟨hfh, hcf⟩ := hf.of_full
    obtain ⟨hfh', hcf'⟩ := hf'.of_full
    exact hash_full_alike keccak hs hs' hfh hfh' (hashList_similar keccak hs hs'
      (forall₂_of_getD ⟨.nil, .none⟩ hlen fun i => ⟨hc i, ih i (Fresh.getD hcf i) (Fresh.getD hcf' i) false⟩) 0)
      force

/-! ## Hashing a trie in memory succeeds -/

theorem store_db_none (n : node) (force : Bool) : (hasher.store keccak n none force).2 = none := by
  cases n <;> simp only [hasher.store] <;> split_ifs <;> rfl

theorem store_force (n : node) (db : Option Database) (hn : n.isNil = false) :
    ∃ x, (hasher.store keccak n db true).1 = .hashNode x := by
  cases n <;> simp_all [hasher.store, node.isNil]

theorem hashList_some {cs : List node}
    (h : ∀ c ∈ cs, c.isNil = false → ∃ r, hs.hash keccak c none false = some r ∧ r.2.2 = none) (i : ℕ) :
    ∃ r, hs.hashList keccak i cs none = some r ∧ r.2.2 = none := by
  induction cs generalizing i with
  | nil => exact ⟨_, rfl, rfl⟩
  | cons c cs ih =>
    obtain ⟨r, hr, hdb⟩ := ih (fun c' hc' => h c' (List.mem_cons_of_mem _ hc')) (i + 1)
    rw [hasher.hashList]
    by_cases hi : i < 16
    · by_cases hn : c.isNil
      · simp only [hi, hn, if_true]
        rw [hr]
        exact ⟨_, rfl, hdb⟩
      · obtain ⟨⟨cc, chc, db⟩, hrc, hdbc⟩ := h c List.mem_cons_self (by simpa using hn)
        dsimp only at hdbc
        subst hdbc
        simp only [hi, hn, if_true, Bool.false_eq_true, if_false, hrc, Option.bind_eq_bind, Option.bind_some]
        rw [hr]
        exact ⟨_, rfl, hdb⟩
    · simp only [hi, if_false]
      rw [hr]
      exact ⟨_, rfl, hdb⟩

theorem hash_value (v : Bytes) (db : Option Database) (force : Bool) :
    hs.hash keccak (.valueNode v) db force =
      some ((hasher.store keccak (.valueNode v) db force).1, .valueNode v, (hasher.store keccak (.valueNode v) db force).2) :=
  rfl

theorem finish_hashed (collapsed cached : node) (hn : collapsed.isNil = false) (force : Bool) :
    (hasher.finish keccak collapsed cached none none force).2.2 = none ∧
      (force = true → ∃ x, (hasher.finish keccak collapsed cached none none force).1 = .hashNode x) :=
  ⟨store_db_none keccak collapsed force, fun hforce => hforce ▸ store_force keccak collapsed none hn⟩

/-- Without a database, hashing a node of a trie in memory that is not empty succeeds and
writes nothing; forced, as at the root, it returns a hash. -/
theorem Denotes.hash_some (h : Denotes db n m s) (hf : Fresh n) (hne : s ≠ .empty) (force : Bool) :
    ∃ r, hs.hash keccak n none force = some r ∧ r.2.2 = none ∧ (force = true → ∃ x, r.1 = .hashNode x) := by
  induction h generalizing force with
  | nil => exact absurd rfl hne
  | value v _ =>
    rw [hash_value]
    exact ⟨_, rfl, store_db_none keccak _ force, fun hforce => hforce ▸ store_force keccak _ none rfl⟩
  | short k c f mc sc hc hk ih =>
    obtain ⟨hfh, hcf⟩ := hf.of_short
    -- the child of a short node is a value or a full node, never nil
    have hchild : ∃ rc, (if c.isValue then some (c, c, none) else hs.hash keccak c none false) = some rc ∧
        rc.2.2 = none := by
      split_ifs
      · exact ⟨_, rfl, rfl⟩
      · obtain ⟨rc, hrc, hdb, -⟩ := ih hcf (by rcases hk.child_shape with rfl | rfl <;> simp) false
        exact ⟨rc, hrc, hdb⟩
    obtain ⟨rc, hrc, hdb⟩ := hchild
    rw [hash_short_fresh keccak hs hfh, hrc, Option.bind_some, hdb]
    exact ⟨_, rfl, finish_hashed keccak _ _ rfl force⟩
  | full cs f ms ss hlen hc hss ih =>
    obtain ⟨hfh, hcf⟩ := hf.of_full
    -- the slots that are not nil are not empty
    have hchildren : ∀ c ∈ cs, c.isNil = false → ∃ r, hs.hash keccak c none false = some r ∧ r.2.2 = none := by
      intro c hc' hn
      obtain ⟨i, hi, rfl⟩ := List.mem_iff_getElem.mp hc'
      have hi' : i < 17 := hlen ▸ hi
      have hget : cs.getD i .nil = cs[i] := List.getD_eq_getElem _ _ hi
      have hne' : ss ⟨i, hi'⟩ ≠ .empty := fun he => by
        have hnil := ((hc ⟨i, hi'⟩).isNil_iff).mpr he
        simp_all
      obtain ⟨r, hr, hdb, -⟩ := ih ⟨i, hi'⟩ (Fresh.getD hcf i) hne' false
      exact ⟨r, hget ▸ hr, hdb⟩
    obtain ⟨rl, hrl, hdb⟩ := hashList_some keccak hs hchildren 0
    rw [hash_full_fresh keccak hs hfh, hrl, Option.bind_some, hdb]
    exact ⟨_, rfl, finish_hashed keccak _ _ rfl force⟩
  | hash => cases hf

/-! ## The root hash -/

theorem node.eq_nil_of_isNil {n : node} (h : n.isNil = true) : n = .nil := by
  cases n <;> simp_all [node.isNil]

theorem Trie.hashRoot_of_nil {t : Trie} (h : t.root = .nil) (db : Option Database) :
    t.hashRoot keccak db = some (.hashNode emptyRoot, .nil, db) := by
  rw [Trie.hashRoot, h]

theorem Trie.hashRoot_of_ne_nil {t : Trie} (h : t.root.isNil = false) (db : Option Database) :
    t.hashRoot keccak db = (hasher.mk t.cachegen t.cachelimit).hash keccak t.root db true := by
  unfold Trie.hashRoot
  split
  · simp_all [node.isNil]
  · rfl

theorem Trie.Hash_of_alike {t t' : Trie}
    (hr : Option.Rel HashedAlike (t.hashRoot keccak none) (t'.hashRoot keccak none)) :
    (t.Hash keccak).map Prod.fst = (t'.Hash keccak).map Prod.fst := by
  unfold Trie.Hash
  generalize t.hashRoot keccak none = r at hr ⊢
  generalize t'.hashRoot keccak none = r' at hr ⊢
  cases hr with
  | none => rfl
  | @some a a' hrel =>
    obtain ⟨x, y, z⟩ := a
    obtain ⟨x', y', z'⟩ := a'
    obtain ⟨hsim, -, -⟩ := hrel
    cases hsim <;> rfl

theorem Trie.hashRoot_alike {t t' : Trie} (h : Similar t.root t'.root)
    (hroot : Option.Rel HashedAlike ((hasher.mk t.cachegen t.cachelimit).hash keccak t.root none true)
      ((hasher.mk t'.cachegen t'.cachelimit).hash keccak t'.root none true)) :
    Option.Rel HashedAlike (t.hashRoot keccak none) (t'.hashRoot keccak none) := by
  cases hn : t.root.isNil
  · rw [t.hashRoot_of_ne_nil keccak hn, t'.hashRoot_of_ne_nil keccak (h.isNil_eq ▸ hn)]
    exact hroot
  · rw [t.hashRoot_of_nil keccak (node.eq_nil_of_isNil hn),
      t'.hashRoot_of_nil keccak (node.eq_nil_of_isNil (h.isNil_eq ▸ hn))]
    exact .some ⟨.hash emptyRoot, rfl, rfl⟩

theorem Trie.Hash_similar {t t' : Trie} (h : Similar t.root t'.root) (hf : Fresh t.root) (hf' : Fresh t'.root) :
    (t.Hash keccak).map Prod.fst = (t'.Hash keccak).map Prod.fst :=
  Trie.Hash_of_alike keccak (Trie.hashRoot_alike keccak h (hash_similar keccak _ _ h hf hf' true))

theorem Trie.Hash_some {t : Trie} (h : Denotes t.db t.root m s) (hf : Fresh t.root) :
    ∃ x, (t.Hash keccak).map Prod.fst = some x := by
  unfold Trie.Hash
  cases hn : t.root.isNil
  · have hne : s ≠ .empty := fun he => by
      rw [← h.isNil_iff, hn] at he
      cases he
    obtain ⟨⟨x, y, z⟩, hr, -, hx⟩ := h.hash_some keccak ⟨t.cachegen, t.cachelimit⟩ hf hne true
    obtain ⟨x, rfl⟩ := hx rfl
    rw [t.hashRoot_of_ne_nil keccak hn, hr]
    exact ⟨x, rfl⟩
  · rw [t.hashRoot_of_nil keccak (node.eq_nil_of_isNil hn)]
    exact ⟨emptyRoot, rfl⟩

end EthereumAI.Trie
