import Mathlib

/-! # Binary search (`sort.Search`)

`sort.Search(n, f)` halves `[i, j)` from `[0, n)` and returns the least index at which `f`
holds, or `n`, for an `f` that is false and then true below `n`. Each turn narrows the interval
by at least one, so `n` turns are enough; the loop carries them as fuel.
-/

namespace EthereumAI.Lib.Sort

/-- The loop of `Search` on `[i, j)`. -/
def searchLoop (f : ℕ → Bool) : ℕ → ℕ → ℕ → ℕ
  | 0, i, _ => i
  | fuel + 1, i, j =>
    if i < j then
      let h := (i + j) / 2
      if !f h then searchLoop f fuel (h + 1) j else searchLoop f fuel i h
    else i

/-- `sort.Search`. -/
def Search (n : ℕ) (f : ℕ → Bool) : ℕ := searchLoop f n 0 n

/-- `f` is false and then true below `n`. -/
def Monotone (n : ℕ) (f : ℕ → Bool) : Prop := ∀ a b, a ≤ b → b < n → f a = true → f b = true

section Spec

variable {f : ℕ → Bool} {n : ℕ}

/-- The loop keeps `f` false below `i` and true at `j`, and ends where they meet. -/
theorem searchLoop_spec (hf : Monotone n f) : ∀ fuel i j, j ≤ n → j - i ≤ fuel → i ≤ j →
    (∀ k < i, f k = false) → (j < n → f j = true) →
    i ≤ searchLoop f fuel i j ∧ searchLoop f fuel i j ≤ j ∧
      (∀ k < searchLoop f fuel i j, f k = false) ∧ (searchLoop f fuel i j < n → f (searchLoop f fuel i j) = true)
  | 0, i, j, _, hfuel, hij, hlo, hhi => by
    obtain rfl : j = i := by omega
    simp only [searchLoop]
    exact ⟨Nat.le_refl _, Nat.le_refl _, hlo, hhi⟩
  | fuel + 1, i, j, hj, hfuel, hij, hlo, hhi => by
    unfold searchLoop
    dsimp only
    split_ifs with hlt hh
    · -- `f` fails at the middle: search above it
      have hmid : ∀ k < (i + j) / 2 + 1, f k = false := by
        intro k hk
        by_cases hki : k < i
        · exact hlo k hki
        · cases hfk : f k
          · rfl
          · have := hf k ((i + j) / 2) (by omega) (by omega) hfk
            simp_all
      obtain ⟨h1, h2, h3, h4⟩ := searchLoop_spec hf fuel ((i + j) / 2 + 1) j hj (by omega) (by omega) hmid hhi
      exact ⟨by omega, h2, h3, h4⟩
    · -- `f` holds at the middle: search below it
      have hmid : f ((i + j) / 2) = true := by simpa using hh
      obtain ⟨h1, h2, h3, h4⟩ :=
        searchLoop_spec hf fuel i ((i + j) / 2) (by omega) (by omega) (by omega) hlo (fun _ => hmid)
      exact ⟨h1, by omega, h3, h4⟩
    · obtain rfl : j = i := by omega
      exact ⟨Nat.le_refl _, Nat.le_refl _, hlo, hhi⟩

theorem Search_spec (hf : Monotone n f) :
    Search n f ≤ n ∧ ∀ k < n, (f k = true ↔ Search n f ≤ k) := by
  unfold Search
  obtain ⟨-, hle, hlo, hhi⟩ := searchLoop_spec hf n 0 n (Nat.le_refl n) (by omega) (Nat.zero_le n)
    (fun _ h => absurd h (Nat.not_lt_zero _)) (fun h => absurd h (Nat.lt_irrefl n))
  refine ⟨hle, fun k hk => ⟨fun hfk => ?_, fun hsk => hf _ k hsk hk (hhi (by omega))⟩⟩
  by_contra hlt
  have := hlo k (by omega)
  simp_all

end Spec

end EthereumAI.Lib.Sort
