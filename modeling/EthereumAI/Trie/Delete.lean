import EthereumAI.Trie.Insert

/-! # Deleting a key (`Trie.delete`)

`delete` of a key that fits the node removes the key from what the node stands
for and keeps the node canonical: a short node whose child became a short node
takes over its key, and a full node left with a single child becomes a short node
over it, merged with it when it is a short node itself.
-/

namespace EthereumAI.Trie

open EthereumAI.Lib

/-- The shape after a delete: nothing where the key is used up, never a value
elsewhere, and a full node becomes a short or a full node. -/
def Shrunk (s : Shape) (key : Bytes) (s' : Shape) : Prop :=
  (key = [] → s' = .empty) ∧ (key ≠ [] → s' ≠ .value) ∧ (s = .full → s' = .short ∨ s' = .full)

/-! ## `childPos` -/

theorem childPos_of_isNil : ∀ (cs : List node) (i : ℕ) (pos : ℤ), (∀ c ∈ cs, c.isNil = true) →
    childPos cs i pos = pos
  | [], _, _, _ => rfl
  | c :: cs, i, pos, h => by
    rw [childPos, if_pos (h c (by simp))]
    exact childPos_of_isNil cs (i + 1) pos (fun x hx => h x (by simp [hx]))

theorem childPos_of_not_isNil : ∀ (cs : List node) (i : ℕ) (pos : ℤ), pos ≠ -1 →
    ∀ b, (cs.getD b .nil).isNil = false → childPos cs i pos = -2
  | [], _, _, _, b, hb => by simp [node.isNil] at hb
  | c :: cs, i, pos, hpos, b, hb => by
    by_cases hc : c.isNil = true
    · rw [childPos, if_pos hc]
      cases b with
      | zero => simp [hc] at hb
      | succ b => exact childPos_of_not_isNil cs (i + 1) pos hpos b (by simpa using hb)
    · rw [childPos, if_neg hc, if_neg hpos]

theorem childPos_two : ∀ (cs : List node) (i : ℕ) {a b : ℕ}, a ≠ b → (cs.getD a .nil).isNil = false →
    (cs.getD b .nil).isNil = false → childPos cs i (-1) = -2
  | [], _, a, _, _, ha, _ => by simp [node.isNil] at ha
  | c :: cs, i, a, b, hab, ha, hb => by
    by_cases hc : c.isNil = true
    · rw [childPos, if_pos hc]
      cases a with
      | zero => simp [hc] at ha
      | succ a =>
        cases b with
        | zero => simp [hc] at hb
        | succ b => exact childPos_two cs (i + 1) (a := a) (b := b) (by omega) (by simpa using ha) (by simpa using hb)
    · rw [childPos, if_neg hc, if_pos rfl]
      cases a with
      | zero =>
        cases b with
        | zero => exact absurd rfl hab
        | succ b => exact childPos_of_not_isNil cs (i + 1) i (by omega) b (by simpa using hb)
      | succ a => exact childPos_of_not_isNil cs (i + 1) i (by omega) a (by simpa using ha)

theorem childPos_one : ∀ (cs : List node) (i : ℕ) {a : ℕ}, (cs.getD a .nil).isNil = false →
    (∀ b, b ≠ a → (cs.getD b .nil).isNil = true) → childPos cs i (-1) = i + a
  | [], _, a, ha, _ => by simp [node.isNil] at ha
  | c :: cs, i, a, ha, hb => by
    cases a with
    | zero =>
      have hc : c.isNil = false := by simpa using ha
      rw [childPos, if_neg (by simp [hc]), if_pos rfl,
        childPos_of_isNil cs (i + 1) i (fun x hx => ?_)]
      · simp
      · obtain ⟨k, hk, rfl⟩ := List.getElem_of_mem hx
        have := hb (k + 1) (by omega)
        simpa [List.getD_eq_getElem?_getD, hk] using this
    | succ a =>
      have hc : c.isNil = true := by simpa using hb 0 (by omega)
      rw [childPos, if_pos hc, childPos_one cs (i + 1) (by simpa using ha)
        (fun b hba => by simpa using hb (b + 1) (by omega))]
      push_cast
      ring

/-! ## Inversion and resolution -/

variable {db : Database}

theorem Denotes.short_inv {k : Bytes} {c : node} {f : nodeFlag} {m : Bytes → Option Bytes} {s : Shape}
    (h : Denotes db (.shortNode k c f) m s) :
    ∃ mc sc, m = PrefixMap.under k mc ∧ s = .short ∧ Denotes db c mc sc ∧ ShortOK k sc := by
  cases h with
  | short _ _ _ mc sc hc hk => exact ⟨mc, sc, rfl, rfl, hc, hk⟩

theorem Denotes.short_of_shape {n : node} {m : Bytes → Option Bytes} (h : Denotes db n m .short)
    (hn : ∀ h, n ≠ .hashNode h) : ∃ k c f, n = .shortNode k c f := by
  cases h with
  | short k c f => exact ⟨k, c, f, rfl⟩
  | hash h => exact absurd rfl (hn h)

theorem Denotes.value_inv {n : node} {m : Bytes → Option Bytes} (h : Denotes db n m .value) :
    ∃ w, n = .valueNode w := by
  cases h with
  | value w => exact ⟨w, rfl⟩
  | hash _ _ _ _ _ _ _ _ hs => rcases hs with h | h <;> cases h

theorem resolve_spec (t : Trie) {n : node} {m : Bytes → Option Bytes} {s : Shape}
    (h : Denotes t.db n m s) (hs : s = .short ∨ s = .full) (pfx : Bytes) :
    ∃ r, t.resolve n pfx = some (.ok r) ∧ Denotes t.db r m s ∧ ∀ h, r ≠ .hashNode h := by
  cases h with
  | nil => simp at hs
  | value => simp at hs
  | short k c f => exact ⟨_, rfl, .short k c f _ _ ‹_› ‹_›, fun _ h => by cases h⟩
  | full cs f => exact ⟨_, rfl, .full cs f _ _ ‹_› ‹_› ‹_›, fun _ h => by cases h⟩
  | hash h blob m s dec hb hdec hd =>
    refine ⟨dec t.cachegen, by simp [Trie.resolve, Trie.resolveHash, hb, hdec], hd t.cachegen, ?_⟩
    rcases decodeNode_ok (hdec t.cachegen) with ⟨k, v, f, he⟩ | ⟨cs, f, he⟩ <;> rw [he] <;>
      exact fun _ h => by cases h

/-! ## Keys of merged short nodes -/

theorem hexKey_append {a b : Bytes} (ha : Nibbles a) (hb : HexKey b) : HexKey (a ++ b) := by
  obtain ⟨ns, hn, rfl | rfl⟩ := hb
  · exact ⟨a ++ ns, fun x hx => by rcases List.mem_append.mp hx with h | h <;> [exact ha x h; exact hn x h],
      .inl rfl⟩
  · exact ⟨a ++ ns, fun x hx => by rcases List.mem_append.mp hx with h | h <;> [exact ha x h; exact hn x h],
      .inr (by simp)⟩

theorem hasTerm_append {a b : Bytes} (hb : b ≠ []) : hasTerm (a ++ b) = hasTerm b := by
  obtain ⟨b', y, rfl⟩ := (List.eq_nil_or_concat' b).resolve_left hb
  rw [← List.append_assoc]
  simp [hasTerm]

theorem nibbles_of_hexKey {k : Bytes} (hk : HexKey k) (ht : hasTerm k = false) : Nibbles k := by
  obtain ⟨ns, hn, rfl | rfl⟩ := hk
  · exact hn
  · simp [hasTerm_append_term] at ht

theorem ShortOK.append {k ck : Bytes} {s : Shape} (hk : HexKey k) (hkt : hasTerm k = false)
    (hc : ShortOK ck s) : ShortOK (k ++ ck) s := by
  obtain ⟨hhex, hne, hs⟩ := hc
  refine ⟨hexKey_append (nibbles_of_hexKey hk hkt) hhex, by simp [hne], ?_⟩
  rwa [hasTerm_append hne]

theorem prefixLen_append_self : ∀ (k r : Bytes), prefixLen (k ++ r) k = k.length
  | [], r => by cases r <;> rfl
  | x :: k, r => by simp [prefixLen, prefixLen_append_self k r]

theorem prefixLen_le_right : ∀ (a b : Bytes), prefixLen a b ≤ b.length
  | [], _ => by simp [prefixLen]
  | _ :: _, [] => by simp [prefixLen]
  | x :: a, y :: b => by
    unfold prefixLen
    split
    · simpa using prefixLen_le_right a b
    · omega

theorem fullMap_one {ms : Fin 17 → Bytes → Option Bytes} {a : Fin 17}
    (h : ∀ b, b ≠ a → ms b = PrefixMap.empty) : fullMap ms = PrefixMap.under [a.val.toUInt8] (ms a) := by
  rw [← fullMap_single]
  congr 1
  funext b
  by_cases hb : b = a
  · subst hb
    simp
  · rw [Function.update_of_ne hb, h b hb]

theorem slots_update {ss : Fin 17 → Shape} (hs : ∀ i, SlotOK i (ss i)) {j : Fin 17} {S : Shape}
    (hj : SlotOK j S) (i : Fin 17) : SlotOK i (Function.update ss j S i) := by
  by_cases hi : i = j
  · subst hi
    simpa using hj
  · simpa [Function.update_of_ne hi] using hs i

theorem shrunk_full {key : Bytes} (hkey : key ≠ []) {s' : Shape} (h : s' = .short ∨ s' = .full) :
    Shrunk .full key s' := by
  refine ⟨fun he => absurd he hkey, fun _ hv => ?_, fun _ => h⟩
  rcases h with h | h <;> rw [h] at hv <;> cases hv

section Delete

variable (t : Trie)

/-- What `delete` at a key that fits the node gives: a node standing for the map with the key
removed, of a canonical shape; no change only where there was no value, and no hash node after
a change. -/
def Deletes (fuel : ℕ) (n : node) (m : Bytes → Option Bytes) (s : Shape) (pfx key : Bytes) : Prop :=
  ∃ dirty n' s', t.delete fuel n pfx key = some (.ok (dirty, n')) ∧
    Denotes t.db n' (Function.update m key none) s' ∧ Shrunk s key s' ∧
    (dirty = false → m key = none) ∧ (dirty = true → s ≠ .empty ∧ ∀ h, n' ≠ .hashNode h)

theorem Deletes.of_short {fuel : ℕ} {n : node} {m : Bytes → Option Bytes} {pfx key : Bytes} (hkey : key ≠ [])
    (dirty : Bool) (n' : node) (s' : Shape) (hrun : t.delete fuel n pfx key = some (.ok (dirty, n')))
    (hn' : Denotes t.db n' (Function.update m key none) s') (hs' : s' ≠ .value)
    (hclean : dirty = false → m key = none) (hnohash : dirty = true → ∀ h, n' ≠ .hashNode h) :
    Deletes t fuel n m .short pfx key :=
  ⟨dirty, n', s', hrun, hn', ⟨fun he => absurd he hkey, fun _ => hs', fun h => by cases h⟩, hclean,
    fun hd => ⟨fun h => (by cases h), hnohash hd⟩⟩

/-- The short node case: the key stops inside the node's key, ends with it, or goes on into the
child, whose delete is `ih`. -/
theorem delete_short {k : Bytes} {c : node} {f : nodeFlag} {mc : Bytes → Option Bytes} {sc : Shape}
    (hc : Denotes t.db c mc sc) (hk : ShortOK k sc)
    (ih : ∀ {fuel : ℕ} {pfx key : Bytes}, fuelFor c key.length ≤ fuel → Term key → Fits sc key →
      Deletes t fuel c mc sc pfx key)
    {fuel : ℕ} {pfx key : Bytes} (hf : fuelFor (.shortNode k c f) key.length ≤ fuel) (hterm : Term key)
    (hfits : Fits .short key) : Deletes t fuel (.shortNode k c f) (PrefixMap.under k mc) .short pfx key := by
  have hf : 2 * key.length + 1 ≤ fuel := hf
  have hkey : key ≠ [] := fun he => by simpa using hfits.1 he
  obtain ⟨fuel, rfl⟩ : ∃ f, fuel = f + 1 := ⟨fuel - 1, by omega⟩
  by_cases hlt : prefixLen key k < k.length
  · -- the key leaves the short node's key: nothing to delete
    have hnp : ¬ k <+: key := by
      rintro ⟨r, rfl⟩
      rw [prefixLen_append_self] at hlt
      omega
    have hnone : PrefixMap.under k mc key = none := PrefixMap.under_apply_outside hnp mc
    refine Deletes.of_short t hkey false _ .short (by rw [Trie.delete, if_pos hlt]) ?_ (by simp) (fun _ => hnone)
      (fun h => by cases h)
    rw [Function.update_eq_self_iff.mpr hnone.symm]
    exact .short k c f mc sc hc hk
  obtain ⟨r, rfl⟩ := prefix_of_prefixLen (le_antisymm (prefixLen_le_right key k) (by omega))
  have hml : prefixLen (k ++ r) k = k.length := prefixLen_append_self k r
  by_cases hr : r = []
  · -- the key ends with the short node's key, which holds a value there
    subst hr
    have hkt : hasTerm k = true := (by simpa using hterm : Term k).hasTerm_of_ne_nil hk.2.1
    have hsc : sc = .value := by simpa [hkt] using hk.2.2
    subst hsc
    obtain ⟨w, rfl⟩ := hc.value_inv
    obtain ⟨rfl, -⟩ := hc.unique (.value w (by cases hc; assumption))
    refine Deletes.of_short t hkey true .nil .empty (by rw [Trie.delete, if_neg hlt, if_pos (by rw [hml]; simp)]) ?_
      (by simp) (fun h => by cases h) (fun _ _ h => by cases h)
    rw [List.append_nil, PrefixMap.under_single, Function.update_idem, PrefixMap.update_empty_none]
    exact .nil
  -- the key goes on below the short node's key
  have hkt : hasTerm k = false := by
    rcases Term.of_prefix hterm hk.2.1 with ⟨-, h⟩ | ⟨h, -⟩
    · exact absurd h hr
    · exact h
  have hsc : sc = .full := by simpa [hkt] using hk.2.2
  subst hsc
  have hlen : (k ++ r).length = k.length + r.length := List.length_append
  have hkne : k.length ≥ 1 := List.length_pos_of_ne_nil hk.2.1
  have hrl : r.length ≥ 1 := List.length_pos_of_ne_nil hr
  obtain ⟨dirty, child, S, hdel, hchild, hshr, hclean, hdirty⟩ := @ih fuel (pfx ++ k) r
    (le_trans (fuelFor_le _ _) (by omega)) (by simpa using hterm.drop k.length) (fits_child hterm hk)
  have hne : prefixLen (k ++ r) k ≠ (k ++ r).length := by rw [hml, hlen]; omega
  cases dirty
  · have hnone := hclean rfl
    have hrun : t.delete (fuel + 1) (.shortNode k c f) pfx (k ++ r) = some (.ok (false, .shortNode k c f)) := by
      rw [Trie.delete, if_neg hlt, if_neg hne, List.take_left, List.drop_left, hdel]
      rfl
    refine Deletes.of_short t hkey false _ .short hrun ?_ (by simp) (fun _ => by simpa using hnone)
      (fun h => by cases h)
    rw [Function.update_eq_self_iff.mpr (by simpa using hnone.symm)]
    exact .short k c f mc .full hc hk
  obtain ⟨-, hnohash⟩ := hdirty rfl
  rcases hshr.2.2 rfl with rfl | rfl
  · -- the child became a short node: its key joins the short node's key
    obtain ⟨ck, cv, cf, rfl⟩ := hchild.short_of_shape hnohash
    obtain ⟨mcv, scv, hmap, -, hcv, hck⟩ := hchild.short_inv
    have hrun : t.delete (fuel + 1) (.shortNode k c f) pfx (k ++ r) =
        some (.ok (true, .shortNode (k ++ ck) cv t.newFlag)) := by
      rw [Trie.delete, if_neg hlt, if_neg hne, List.take_left, List.drop_left, hdel]
      rfl
    refine Deletes.of_short t hkey true _ .short hrun ?_ (by simp) (fun h => by cases h) (fun _ _ h => by cases h)
    rw [PrefixMap.update_under, hmap, ← PrefixMap.under_append]
    exact .short (k ++ ck) cv _ mcv scv hcv (ShortOK.append hk.1 hkt hck)
  · -- the child is still a full node
    have hnotshort : ∀ ck cv cf, child ≠ .shortNode ck cv cf := by
      rintro ck cv cf rfl
      obtain ⟨_, _, _, h, _⟩ := hchild.short_inv
      cases h
    have hrun' : t.delete (fuel + 1) (.shortNode k c f) pfx (k ++ r) =
        some (.ok (true, .shortNode k child t.newFlag)) := by
      rw [Trie.delete, if_neg hlt, if_neg hne, List.take_left, List.drop_left, hdel]
      cases child with
      | shortNode ck cv cf => exact absurd rfl (hnotshort ck cv cf)
      | _ => rfl
    refine Deletes.of_short t hkey true _ .short hrun' ?_ (by simp) (fun h => by cases h) (fun _ _ h => by cases h)
    rw [PrefixMap.update_under]
    exact .short k child _ _ .full hchild hk

/-- A full node that a delete in slot `x` leaves with the single child `a`: `delete` makes it a
short node over the child, merged with it when it is a short node, standing for the child's map
under the slot's nibble. -/
theorem delete_collapse {cs : List node} {f : nodeFlag} {fuel : ℕ} {pfx rest : Bytes} {x : UInt8} {nn : node}
    {a : Fin 17} {mc : Bytes → Option Bytes} {sc : Shape} (hlen : cs.length = 17) (hx17 : x.toNat < 17)
    (hdel : t.delete fuel (cs.getD x.toNat .nil) (pfx ++ [x]) rest = some (.ok (true, nn)))
    (hpos : childPos (cs.set x.toNat nn) 0 (-1) = (a.val : ℤ)) (haj : a ≠ ⟨x.toNat, hx17⟩)
    (hca : Denotes t.db (cs.getD a .nil) mc sc) (hsa : SlotOK a sc) (ha : sc ≠ .empty) :
    ∃ n', t.delete (fuel + 1) (.fullNode cs f) pfx (x :: rest) = some (.ok (true, n')) ∧
      Denotes t.db n' (PrefixMap.under [a.val.toUInt8] mc) .short ∧ ∀ h, n' ≠ .hashNode h := by
  have honly : (cs.set x.toNat nn).getD a .nil = cs.getD a .nil :=
    getD_set_ne (fun h => haj (Fin.ext h)) _
  -- delete goes down slot x, and the node is left with the one child a
  rw [Trie.delete]
  simp only [List.getElem?_cons_zero, getElem?_of_length hlen hx17, List.drop_succ_cons, List.drop_zero]
  rw [hdel]
  simp only [Bool.not_true, Bool.false_eq_true, if_false, hpos, Int.toNat_natCast, honly]
  rw [if_pos (by omega)]
  by_cases ha16 : a.val = 16
  · -- the value slot is left: a short node over the value
    have hva : sc = .value := (hsa.2 ha16).resolve_left ha
    have h16 : a.val.toUInt8 = 16 := by rw [ha16]; rfl
    refine ⟨.shortNode [a.val.toUInt8] (cs.getD a .nil) t.newFlag, by rw [if_neg (by rw [ha16]; simp)], ?_,
      fun _ h => by cases h⟩
    exact .short _ _ _ _ .value (hva ▸ hca) ⟨⟨[], by simp [Nibbles], .inr (by simp [h16])⟩, by simp,
      by simp [h16, hasTerm]⟩
  -- a node is left: merged with it when it is a short node
  have hlt : a.val < 16 := by omega
  have hkey : Nibbles [a.val.toUInt8] := by
    intro y hy
    simp only [List.mem_singleton] at hy
    subst hy
    exact UInt8.lt_iff_toNat_lt.mpr (by rw [slot_toUInt8]; simpa using hlt)
  have hsa' : sc = .short ∨ sc = .full := by
    cases sc with
    | empty => exact absurd rfl ha
    | value => exact absurd rfl (hsa.1 hlt)
    | short => exact .inl rfl
    | full => exact .inr rfl
  obtain ⟨r, hres, hr, hrh⟩ := resolve_spec t hca hsa' pfx
  rcases hsa' with rfl | rfl
  · obtain ⟨ck, cv, cf, rfl⟩ := hr.short_of_shape hrh
    obtain ⟨mcv, scv, hmcv, -, hcv, hck⟩ := hr.short_inv
    refine ⟨.shortNode (a.val.toUInt8 :: ck) cv t.newFlag, by rw [if_pos (by omega), hres], ?_,
      fun _ h => by cases h⟩
    rw [hmcv, ← PrefixMap.under_append]
    exact .short _ cv _ mcv scv hcv (ShortOK.append ⟨_, hkey, .inl rfl⟩ (hasTerm_of_nibbles hkey) hck)
  · refine ⟨.shortNode [a.val.toUInt8] (cs.getD a .nil) t.newFlag, ?_,
      .short _ _ _ _ .full hca ⟨⟨_, hkey, .inl rfl⟩, by simp, by simp [hasTerm_of_nibbles hkey]⟩, fun _ h => by cases h⟩
    rw [if_pos (by omega), hres]
    cases r with
    | shortNode ck cv cf =>
      obtain ⟨_, _, _, h, _⟩ := hr.short_inv
      cases h
    | _ => rfl

/-- The full node case: the delete goes down the slot of the key's first nibble, whose delete is
`ih`; the node stays full while two children are left. -/
theorem delete_full {cs : List node} {f : nodeFlag} {ms : Fin 17 → Bytes → Option Bytes} {ss : Fin 17 → Shape}
    (hlen : cs.length = 17) (hc : ∀ i : Fin 17, Denotes t.db (cs.getD i .nil) (ms i) (ss i)) (hs : FullOK ss)
    (ih : ∀ (i : Fin 17) {fuel : ℕ} {pfx key : Bytes}, fuelFor (cs.getD i .nil) key.length ≤ fuel → Term key →
      Fits (ss i) key → Deletes t fuel (cs.getD i .nil) (ms i) (ss i) pfx key)
    {fuel : ℕ} {pfx key : Bytes} (hf : fuelFor (.fullNode cs f) key.length ≤ fuel) (hterm : Term key)
    (hfits : Fits .full key) : Deletes t fuel (.fullNode cs f) (fullMap ms) .full pfx key := by
  have hf : 2 * key.length + 1 ≤ fuel := hf
  obtain ⟨fuel, rfl⟩ : ∃ f, fuel = f + 1 := ⟨fuel - 1, by omega⟩
  -- a full node is never reached with the key used up
  obtain ⟨x, rest, rfl⟩ : ∃ x rest, key = x :: rest := by
    cases key with
    | nil => simpa using hfits.1 rfl
    | cons x rest => exact ⟨x, rest, rfl⟩
  obtain ⟨hx17, hfit⟩ := fits_slot hterm hs
  obtain ⟨dirty, nn, S, hdel, hnn, hshr, hclean, hdirty⟩ := @ih ⟨x.toNat, hx17⟩ fuel (pfx ++ [x]) rest
    (le_trans (fuelFor_le _ _) (by simp at hf; omega)) (by simpa using hterm.drop 1) hfit
  have hdel' : t.delete fuel (cs.getD x.toNat .nil) (pfx ++ [x]) rest = some (.ok (dirty, nn)) := hdel
  have hmap : fullMap ms (x :: rest) = ms ⟨x.toNat, hx17⟩ rest := by simp [fullMap, hx17]
  cases dirty
  · -- nothing was deleted below
    refine ⟨false, .fullNode cs f, .full, ?_, ?_, shrunk_full (List.cons_ne_nil _ _) (.inr rfl),
      fun _ => hmap.trans (hclean rfl), fun h => by cases h⟩
    · rw [Trie.delete]
      simp only [List.getElem?_cons_zero, getElem?_of_length hlen hx17, List.drop_succ_cons, List.drop_zero]
      rw [hdel']
      rfl
    · rw [Function.update_eq_self_iff.mpr (hmap.trans (hclean rfl)).symm]
      exact .full cs f ms ss hlen hc hs
  -- the child's slot now holds what the delete left there
  have hslot : SlotOK ⟨x.toNat, hx17⟩ S := by
    rcases hterm.cons with ⟨hlt, -, hne⟩ | ⟨rfl, rfl⟩
    · have hx : x.toNat < 16 := by simpa using UInt8.lt_iff_toNat_lt.mp hlt
      exact ⟨fun _ => hshr.2.1 hne, fun h => by simp at h; omega⟩
    · exact ⟨fun h => by simp at h, fun _ => .inl (hshr.1 rfl)⟩
  have hch := children_set hlen hc ⟨x.toNat, hx17⟩ hnn
  have hnil : ∀ i : Fin 17, ((cs.set x.toNat nn).getD i .nil).isNil = true ↔
      Function.update ss ⟨x.toNat, hx17⟩ S i = .empty := fun i => (hch i).isNil_iff
  unfold Deletes
  rw [fullMap_update ms hx17]
  by_cases htwo : ∃ a b : Fin 17, a ≠ b ∧ Function.update ss ⟨x.toNat, hx17⟩ S a ≠ .empty ∧
      Function.update ss ⟨x.toNat, hx17⟩ S b ≠ .empty
  · -- two children are left: the node stays a full node
    obtain ⟨a, b, hab, ha, hb⟩ := htwo
    have hpos : childPos (cs.set x.toNat nn) 0 (-1) = -2 :=
      childPos_two _ 0 (a := a) (b := b) (fun h => hab (Fin.ext h)) (by simpa using mt (hnil a).mp ha)
        (by simpa using mt (hnil b).mp hb)
    refine ⟨true, .fullNode (cs.set x.toNat nn) t.newFlag, .full, ?_,
      .full _ _ _ _ (by simp [hlen]) hch ⟨slots_update hs.1 hslot, a, b, hab, ha, hb⟩,
      shrunk_full (List.cons_ne_nil _ _) (.inr rfl), fun h => (by cases h), fun _ => ⟨by decide, fun _ h => by cases h⟩⟩
    rw [Trie.delete]
    simp only [List.getElem?_cons_zero, getElem?_of_length hlen hx17, List.drop_succ_cons, List.drop_zero]
    rw [hdel']
    simp [hpos]
  -- a single child is left, in another slot than the key's
  push Not at htwo
  obtain ⟨a, ha, haj⟩ : ∃ a, ss a ≠ .empty ∧ a ≠ ⟨x.toNat, hx17⟩ := by
    obtain ⟨x₁, x₂, h12, h1, h2⟩ := hs.2
    by_cases h : x₁ = ⟨x.toNat, hx17⟩
    · exact ⟨x₂, h2, fun h' => h12 (h.trans h'.symm)⟩
    · exact ⟨x₁, h1, h⟩
  have ha' : Function.update ss ⟨x.toNat, hx17⟩ S a ≠ .empty := by rwa [Function.update_of_ne haj]
  have hothers : ∀ b : Fin 17, b ≠ a → Function.update ss ⟨x.toNat, hx17⟩ S b = .empty :=
    fun b hb => htwo a b (Ne.symm hb) ha'
  have hpos : childPos (cs.set x.toNat nn) 0 (-1) = (a.val : ℤ) := by
    rw [childPos_one _ 0 (a := a) (by simpa using mt (hnil a).mp ha') (fun b hba => ?_)]
    · simp
    · by_cases hb : b < 17
      · exact (hnil ⟨b, hb⟩).mpr (hothers ⟨b, hb⟩ (fun h => hba (congrArg Fin.val h)))
      · simp [List.getD_eq_getElem?_getD, hlen, show 17 ≤ b by omega, node.isNil]
  have hmap1 : fullMap (Function.update ms ⟨x.toNat, hx17⟩ (Function.update (ms ⟨x.toNat, hx17⟩) rest none)) =
      PrefixMap.under [a.val.toUInt8] (ms a) := by
    rw [fullMap_one (a := a) (fun b hb => (hothers b hb ▸ hch b).map_of_empty), Function.update_of_ne haj]
  obtain ⟨n', hrun, hn', hnohash⟩ := delete_collapse t (f := f) hlen hx17 hdel' hpos haj (hc a) (hs.1 a) ha
  refine ⟨true, n', .short, hrun, ?_, shrunk_full (List.cons_ne_nil _ _) (.inl rfl), fun h => (by cases h),
    fun _ => ⟨by decide, hnohash⟩⟩
  rw [hmap1]
  exact hn'

/-- The hash node case: the delete runs on the node the hash resolves to, whose delete is `ih`,
and a delete that changes nothing puts back the resolved node. -/
theorem delete_hash {h blob : Bytes} {m : Bytes → Option Bytes} {s : Shape} {dec : UInt16 → node}
    (hb : t.db.Node h = some blob) (hdec : ∀ g, decodeNode (some h) blob g = some (.ok (dec g)))
    (hd : ∀ g, Denotes t.db (dec g) m s) (hs : s = .short ∨ s = .full)
    (ih : ∀ (g : UInt16) {fuel : ℕ} {pfx key : Bytes}, fuelFor (dec g) key.length ≤ fuel → Term key →
      Fits s key → Deletes t fuel (dec g) m s pfx key)
    {fuel : ℕ} {pfx key : Bytes} (hf : fuelFor (.hashNode h) key.length ≤ fuel) (hterm : Term key)
    (hfits : Fits s key) : Deletes t fuel (.hashNode h) m s pfx key := by
  have hf : 2 * key.length + 2 ≤ fuel := hf
  obtain ⟨fuel, rfl⟩ : ∃ f, fuel = f + 1 := ⟨fuel - 1, by omega⟩
  have hres : t.resolveHash h pfx = some (.ok (dec t.cachegen)) := by
    simp [Trie.resolveHash, hb, hdec]
  obtain ⟨dirty, n', s', hdel, hn', hshr, hclean, hdirty⟩ := @ih t.cachegen fuel pfx key
    (by rw [fuelFor_decoded (hdec t.cachegen)]; omega) hterm hfits
  have hkey : key ≠ [] := by
    intro he
    rcases hfits.1 he with h' | h' <;> rw [h'] at hs <;> simp at hs
  have hne : s ≠ .empty := by rcases hs with h | h <;> rw [h] <;> simp
  refine ⟨dirty, if dirty then n' else dec t.cachegen, if dirty then s' else s, ?_, ?_, ?_, hclean, ?_⟩
  · rw [Trie.delete]
    simp only [hres]
    rw [hdel]
    cases dirty <;> rfl
  · cases dirty
    · rw [Function.update_eq_self_iff.mpr (hclean rfl).symm]
      exact hd t.cachegen
    · exact hn'
  · cases dirty
    · show Shrunk s key s
      refine ⟨fun he => absurd he hkey, fun _ hv => ?_, fun h => .inr h⟩
      rcases hs with h | h <;> rw [h] at hv <;> cases hv
    · exact hshr
  · intro hd'
    subst hd'
    exact ⟨hne, (hdirty rfl).2⟩

/-- `delete` at a key that fits the node: the node returned stands for the map
with the key removed and is canonical; a delete that reports no change found no
value there, and a delete that changes something returns no hash node. -/
theorem delete_spec {n : node} {m : Bytes → Option Bytes} {s : Shape} (h : Denotes t.db n m s) :
    ∀ {fuel : ℕ} {pfx key : Bytes}, fuelFor n key.length ≤ fuel → Term key → Fits s key →
      ∃ dirty n' s', t.delete fuel n pfx key = some (.ok (dirty, n')) ∧
        Denotes t.db n' (Function.update m key none) s' ∧ Shrunk s key s' ∧
        (dirty = false → m key = none) ∧ (dirty = true → s ≠ .empty ∧ ∀ h, n' ≠ .hashNode h) := by
  induction h with
  | nil =>
    intro fuel pfx key hf _ _
    obtain ⟨fuel, rfl⟩ : ∃ f, fuel = f + 1 := ⟨fuel - 1, by simp [fuelFor] at hf; omega⟩
    refine ⟨false, .nil, .empty, rfl, ?_, ⟨fun _ => rfl, fun _ => by decide, fun h => by cases h⟩,
      fun _ => rfl, fun h => by cases h⟩
    rw [PrefixMap.update_empty_none]
    exact .nil
  | value w hw =>
    intro fuel pfx key hf _ hfits
    obtain ⟨fuel, rfl⟩ : ∃ f, fuel = f + 1 := ⟨fuel - 1, by simp [fuelFor] at hf; omega⟩
    obtain rfl := hfits.2 rfl
    refine ⟨true, .nil, .empty, rfl, ?_, ⟨fun _ => rfl, fun h => absurd rfl h, fun h => by cases h⟩,
      fun h => (by cases h), fun _ => ⟨by decide, fun _ h => by cases h⟩⟩
    rw [PrefixMap.single_eq_update, Function.update_idem, PrefixMap.update_empty_none]
    exact .nil
  | short k c f mc sc hc hk ih => exact delete_short t hc hk ih
  | full cs f ms ss hlen hc hs ih => exact delete_full t hlen hc hs ih
  | hash h blob m s dec hb hdec hd hs ih => exact delete_hash t hb hdec hd hs ih

end Delete

end EthereumAI.Trie
