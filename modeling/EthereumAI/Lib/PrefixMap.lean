import Mathlib

/-! # Maps over list keys

Partial maps `List α → Option β` built the way a radix tree builds them: the map
of a node that holds `m` below the key prefix `k` is `under k m`, and the map of a
single value stored at the end of the key is `single v`. Updates at a key push
through `under` to the part of the key below the prefix, so that what an update of
a tree does to its map is computed by rewriting.
-/

namespace EthereumAI.Lib.PrefixMap

variable {α β : Type*} [DecidableEq α]

/-- The map with no keys. -/
def empty : List α → Option β := fun _ => none

/-- The map holding `v` at the empty key alone. -/
def single (v : β) (key : List α) : Option β :=
  if key = [] then some v else none

/-- `m` moved below the prefix `k`: it answers for the keys that start with `k`,
with what `m` answers for the rest of the key. -/
def under (k : List α) (m : List α → Option β) (key : List α) : Option β :=
  if k <+: key then m (key.drop k.length) else none

variable {k k₁ k₂ key : List α} {m : List α → Option β} {v : β}

omit [DecidableEq α] in
@[simp] theorem empty_apply (key : List α) : (empty key : Option β) = none := rfl

@[simp] theorem update_empty_none (key : List α) :
    Function.update (empty : List α → Option β) key none = empty :=
  Function.update_eq_self_iff.mpr rfl

omit [DecidableEq α] in
@[simp] theorem single_nil (v : β) : single v ([] : List α) = some v := rfl

theorem single_eq_update (v : β) : (single v : List α → Option β) = Function.update empty [] (some v) := by
  funext key
  by_cases h : key = []
  · subst h
    simp
  · simp [single, h]

@[simp] theorem under_nil (m : List α → Option β) : under [] m = m := by
  funext key
  simp [under]

@[simp] theorem under_apply_append (k key : List α) (m : List α → Option β) :
    under k m (k ++ key) = m key := by
  simp [under]

theorem under_apply_outside (h : ¬ k <+: key) (m : List α → Option β) : under k m key = none := by
  simp [under, h]

theorem under_append (k₁ k₂ : List α) (m : List α → Option β) :
    under (k₁ ++ k₂) m = under k₁ (under k₂ m) := by
  funext key
  by_cases h₁ : k₁ <+: key
  · obtain ⟨rest, rfl⟩ := h₁
    simp only [under_apply_append]
    by_cases h₂ : k₂ <+: rest
    · obtain ⟨r, rfl⟩ := h₂
      rw [← List.append_assoc, under_apply_append, under_apply_append]
    · rw [under_apply_outside h₂, under_apply_outside]
      rwa [List.prefix_append_right_inj]
  · rw [under_apply_outside h₁, under_apply_outside]
    exact fun h => h₁ ((List.prefix_append k₁ k₂).trans h)

@[simp] theorem under_empty (k : List α) : (under k empty : List α → Option β) = empty := by
  funext key
  simp [under]

theorem update_under (k key : List α) (m : List α → Option β) (w : Option β) :
    Function.update (under k m) (k ++ key) w = under k (Function.update m key w) := by
  funext key'
  by_cases hp : k <+: key'
  · obtain ⟨r, rfl⟩ := hp
    by_cases hr : r = key
    · subst hr
      simp
    · have hne : k ++ r ≠ k ++ key := fun h => hr (List.append_cancel_left h)
      simp [Function.update_of_ne hne, Function.update_of_ne hr]
  · have hne : key' ≠ k ++ key := fun h => hp (h ▸ List.prefix_append k key)
    rw [Function.update_of_ne hne, under_apply_outside hp, under_apply_outside hp]

theorem under_single (k : List α) (v : β) : under k (single v) = Function.update empty k (some v) := by
  rw [single_eq_update, ← update_under, List.append_nil, under_empty]

theorem under_injective (k : List α) {m₁ m₂ : List α → Option β} (h : under k m₁ = under k m₂) : m₁ = m₂ := by
  funext key
  simpa using congrFun h (k ++ key)

/-! ## The prefix of a compressed node

A radix tree stores below a prefix either a single value or a node whose keys part at their first
element. Either kind of map fixes the prefix it is stored under: a longer prefix would leave the
value's empty key outside it, or put the two parting keys under one first element. -/

/-- The keys of `m` part at their first element. -/
def Forks (m : List α → Option β) : Prop :=
  ∃ a b r₁ r₂, a ≠ b ∧ m (a :: r₁) ≠ none ∧ m (b :: r₂) ≠ none

/-- What a compressed node may hold below its prefix. -/
def Stem (m : List α → Option β) : Prop := (∃ v, m = single v) ∨ Forks m

theorem not_forks_under_cons (c : α) (r : List α) (m : List α → Option β) : ¬ Forks (under (c :: r) m) := by
  rintro ⟨a, b, r₁, r₂, hab, ha, hb⟩
  have hca : c = a := by
    by_contra hne
    exact ha (under_apply_outside (by simp [hne]) m)
  have hcb : c = b := by
    by_contra hne
    exact hb (under_apply_outside (by simp [hne]) m)
  exact hab (hca.symm.trans hcb)

theorem under_cons_ne_single (c : α) (r : List α) (m : List α → Option β) (v : β) :
    under (c :: r) m ≠ single v := by
  intro h
  have := congrFun h []
  simp [under] at this

theorem not_stem_under_cons (c : α) (r : List α) (m : List α → Option β) : ¬ Stem (under (c :: r) m) := by
  rintro (⟨v, hv⟩ | hf)
  · exact under_cons_ne_single c r m v hv
  · exact not_forks_under_cons c r m hf

omit [DecidableEq α] in
theorem Stem.exists_ne_none (h : Stem m) : ∃ key, m key ≠ none := by
  rcases h with ⟨v, rfl⟩ | ⟨a, -, r₁, -, -, ha, -⟩
  · exact ⟨[], by simp⟩
  · exact ⟨a :: r₁, ha⟩

theorem under_ne_under_append {m₁ m₂ : List α → Option β} (h₁ : Stem m₁) (c : α) (r : List α) :
    under k m₁ ≠ under (k ++ c :: r) m₂ := by
  intro h
  rw [under_append] at h
  exact not_stem_under_cons c r m₂ (under_injective k h ▸ h₁)

theorem eq_of_under_eq {m₁ m₂ : List α → Option β} (h₁ : Stem m₁) (h₂ : Stem m₂)
    (h : under k₁ m₁ = under k₂ m₂) : k₁ = k₂ ∧ m₁ = m₂ := by
  obtain ⟨key, hkey⟩ := h₁.exists_ne_none
  have hk₂ : k₂ <+: k₁ ++ key := by
    by_contra hout
    apply hkey
    rw [← under_apply_append k₁ key m₁, h, under_apply_outside hout]
  rcases List.prefix_or_prefix_of_prefix (List.prefix_append k₁ key) hk₂ with ⟨r, rfl⟩ | ⟨r, rfl⟩
  · cases r with
    | nil =>
      rw [List.append_nil] at h ⊢
      exact ⟨rfl, under_injective k₁ h⟩
    | cons c r => exact absurd h (under_ne_under_append h₁ c r)
  · cases r with
    | nil =>
      rw [List.append_nil] at h ⊢
      exact ⟨rfl, under_injective k₂ h⟩
    | cons c r => exact absurd h.symm (under_ne_under_append h₂ c r)

end EthereumAI.Lib.PrefixMap
