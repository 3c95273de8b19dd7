import Mathlib.Logic.Function.Basic

/-! # Content-addressed tables

A table `β → Option α` that stores values under their own key `f a`, drawn from a list `L` of
values that `f` tells apart. Writing a value of `L` under its key never loses an entry: a value
already there under that key is the same value. This is the argument behind writing the nodes of
a trie under their hashes, into a database or into a proof.
-/

namespace EthereumAI.Lib

variable {α β : Type*} (f : α → β) (L : List α)

/-- Every entry of `P` is a value of `L`, under its own key. -/
def Addressed (P : β → Option α) : Prop := ∀ k a, P k = some a → a ∈ L ∧ f a = k

/-- `f` tells the values of `L` apart. -/
def Distinct : Prop := ∀ a ∈ L, ∀ b ∈ L, f a = f b → a = b

/-- Every entry of `P` is still in `P'`. -/
def Grows (P P' : β → Option α) : Prop := ∀ k a, P k = some a → P' k = some a

variable {f L} {P P' P'' : β → Option α}

theorem Grows.refl (P : β → Option α) : Grows P P := fun _ _ h => h

theorem Grows.trans (h₁ : Grows P P') (h₂ : Grows P' P'') : Grows P P'' := fun k a h => h₂ k a (h₁ k a h)

theorem Addressed.empty : Addressed f L fun _ => none := fun _ _ h => by cases h

theorem Addressed.eq_of_key (hP : Addressed f L P) (hd : Distinct f L) {a b : α} (ha : a ∈ L)
    (hb : P (f a) = some b) : b = a := by
  obtain ⟨hbL, hfb⟩ := hP _ _ hb
  exact hd b hbL a ha hfb

variable [DecidableEq β]

theorem Addressed.update (hP : Addressed f L P) {a : α} (ha : a ∈ L) :
    Addressed f L (Function.update P (f a) (some a)) := by
  intro k b hb
  by_cases hk : k = f a
  · subst hk
    simp only [Function.update_self, Option.some.injEq] at hb
    exact hb ▸ ⟨ha, rfl⟩
  · rw [Function.update_of_ne hk] at hb
    exact hP k b hb

theorem Addressed.grows_update (hP : Addressed f L P) (hd : Distinct f L) {a : α} (ha : a ∈ L) :
    Grows P (Function.update P (f a) (some a)) := by
  intro k b hb
  by_cases hk : k = f a
  · subst hk
    rw [hP.eq_of_key hd ha hb, Function.update_self]
  · rwa [Function.update_of_ne hk]

end EthereumAI.Lib
