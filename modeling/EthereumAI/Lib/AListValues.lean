import Mathlib

/-! # The values of an association list

A Go map is an association list whose entries are in the order a `range` over it visits them.
These are the facts about the list of its values that the models use: what `insert`, `erase`
and a filter of the entries do to it, up to order.
-/

namespace EthereumAI.Lib

variable {α β : Type}

/-- The values of a map, in the order of its entries. -/
def values (s : AList (fun _ : α => β)) : List β := s.entries.map Sigma.snd

@[simp] theorem values_empty : values (∅ : AList (fun _ : α => β)) = [] := rfl

theorem length_values (s : AList (fun _ : α => β)) : (values s).length = s.keys.length := by
  simp [values, AList.keys, List.keys]

variable [DecidableEq α]

theorem mem_values {s : AList (fun _ : α => β)} {b : β} : b ∈ values s ↔ ∃ a, s.lookup a = some b := by
  simp only [values, List.mem_map]
  constructor
  · rintro ⟨⟨a, b⟩, he, rfl⟩
    exact ⟨a, AList.mem_lookup_iff.2 he⟩
  · rintro ⟨a, ha⟩
    exact ⟨⟨a, b⟩, AList.mem_lookup_iff.1 ha, rfl⟩

theorem map_values {s : AList (fun _ : α => β)} {f : β → α} (hk : ∀ a b, s.lookup a = some b → f b = a) :
    (values s).map f = s.keys := by
  rw [values, List.map_map, AList.keys, List.keys]
  exact List.map_congr_left fun e he => hk e.1 e.2 (AList.mem_lookup_iff.2 he)

theorem values_insert (s : AList (fun _ : α => β)) (a : α) (b : β) :
    values (s.insert a b) = b :: values (s.erase a) := by
  simp [values, AList.entries_insert, AList.erase]

theorem values_erase_sublist (s : AList (fun _ : α => β)) (a : α) : (values (s.erase a)).Sublist (values s) :=
  (List.kerase_sublist a s.entries).map _

theorem values_erase {s : AList (fun _ : α => β)} {a : α} {b : β} (h : s.lookup a = some b) :
    (values s).Perm (b :: values (s.erase a)) := by
  have ha : a ∈ s.entries.keys := AList.mem_keys.1 (AList.lookup_isSome.1 (by simp [h]))
  obtain ⟨b', l₁, l₂, -, he, hk⟩ := List.exists_of_kerase ha
  have hb : b' = b := by
    have hm : Sigma.mk a b' ∈ s.entries := by simp [he]
    exact Option.some.inj ((AList.mem_lookup_iff.2 hm).symm.trans h)
  subst hb
  show (s.entries.map Sigma.snd).Perm (b' :: (List.kerase a s.entries).map Sigma.snd)
  rw [hk, he, List.map_append, List.map_cons, List.map_append]
  exact List.perm_middle

theorem any_entries (s : AList (fun _ : α => β)) (a : α) (p : β → Bool) :
    s.entries.any (fun e => decide (e.1 = a) && p e.2) = (s.lookup a).any p := by
  cases h : s.lookup a with
  | none =>
    simp only [Option.any_none, List.any_eq_false, Bool.and_eq_true, decide_eq_true_eq, not_and]
    rintro ⟨a', b⟩ he rfl
    have hb : b ∈ s.lookup a' := AList.mem_lookup_iff.2 he
    simp [h] at hb
  | some b =>
    simp only [Option.any_some]
    apply Bool.eq_iff_iff.2
    simp only [List.any_eq_true, Bool.and_eq_true, decide_eq_true_eq]
    constructor
    · rintro ⟨⟨a', b'⟩, he, rfl, hp⟩
      rwa [Option.some.inj ((AList.mem_lookup_iff.2 he).symm.trans h)] at hp
    · intro hp
      exact ⟨⟨a, b⟩, AList.mem_lookup_iff.1 h, rfl, hp⟩

theorem values_perm_of_lookup {s s' : AList (fun _ : α => β)} {p : β → Bool}
    (h : ∀ a, s'.lookup a = (s.lookup a).filter p) : (values s').Perm ((values s).filter p) := by
  have he : s'.entries.Perm (s.entries.filter fun e => p e.2) := by
    refine (List.perm_ext_iff_of_nodup s'.nodupKeys.nodup (s.nodupKeys.nodup.filter _)).2 fun e => ?_
    rw [List.mem_filter, ← AList.mem_lookup_iff, ← AList.mem_lookup_iff, h, Option.mem_def,
      Option.mem_def, Option.filter_eq_some_iff]
  rw [values, values, List.filter_map]
  exact he.map _

/-! ## Sums over the entries

A counter that a map's entries add up to (a reference count, a total size) changes by the
entry an update writes and the one it overwrites. -/

section Sum

variable (F : α → β → ℤ)

theorem sum_entries_insert (s : AList (fun _ : α => β)) (a : α) (b : β) :
    ((s.insert a b).entries.map fun e => F e.1 e.2).sum = F a b + ((s.erase a).entries.map fun e => F e.1 e.2).sum := by
  rw [AList.entries_insert, List.map_cons, List.sum_cons]
  rfl

theorem sum_entries_of_lookup {s : AList (fun _ : α => β)} {a : α} {b : β} (h : s.lookup a = some b) :
    (s.entries.map fun e => F e.1 e.2).sum = F a b + ((s.erase a).entries.map fun e => F e.1 e.2).sum := by
  have hmem : a ∈ s.entries.keys := AList.lookup_isSome.1 (by rw [h]; rfl)
  obtain ⟨b', l₁, l₂, -, hs, hk⟩ := List.exists_of_kerase hmem
  have hb : b' = b := by
    have hb' : s.lookup a = some b' := AList.mem_lookup_iff.2 (by rw [hs]; simp)
    rw [h] at hb'
    exact (Option.some.inj hb').symm
  subst hb
  show _ = _ + ((List.kerase a s.entries).map fun e => F e.1 e.2).sum
  rw [hk, hs]
  simp only [List.map_append, List.map_cons, List.sum_append, List.sum_cons]
  rw [Int.add_left_comm]

theorem sum_entries_insert_of_not_mem (s : AList (fun _ : α => β)) {a : α} (h : a ∉ s) (b : β) :
    ((s.insert a b).entries.map fun e => F e.1 e.2).sum = F a b + (s.entries.map fun e => F e.1 e.2).sum := by
  rw [AList.entries_insert_of_notMem h, List.map_cons, List.sum_cons]

end Sum

end EthereumAI.Lib
