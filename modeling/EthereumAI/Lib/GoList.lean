import Mathlib

/-! # Loops over a Go container/list

The loop
  for el := l.Front(); el != nil; el = el.Next() { body }
over a doubly linked list of Go's container/list, whose body may l.Remove(el) or return. Remove
clears the links of the element it removes, so el.Next() is nil after it and the loop ends there:
a loop of this form removes one element at most, whatever the body would have removed further on.
-/

namespace EthereumAI.Lib.GoList

/-- What the body does at the element it is at. -/
inductive Visit
  /-- go on to el.Next() -/
  | next
  /-- l.Remove(el), after which el.Next() is nil -/
  | remove
  /-- return from the enclosing function -/
  | ret
  deriving DecidableEq, Repr

variable {σ α β : Type*} (body : σ → α → σ × Visit)

/-- The state after the loop, the list, and whether the body returned. -/
def forEach : σ → List α → σ × List α × Bool
  | s, [] => (s, [], false)
  | s, a :: as =>
    match body s a with
    | (s, .next) =>
      let (s, l, returned) := forEach s as
      (s, a :: l, returned)
    | (s, .remove) => (s, as, false)
    | (s, .ret) => (s, a :: as, true)

theorem forEach_invariant {P : σ → Prop} (hbody : ∀ s a, P s → P (body s a).1) :
    ∀ (l : List α) (s : σ), P s → P (forEach body s l).1 := by
  intro l
  induction l with
  | nil => exact fun _ hs => hs
  | cons a as ih =>
    intro s hs
    have ha := hbody s a hs
    unfold forEach
    split
    · rename_i s' h
      rw [h] at ha
      exact ih s' ha
    · rename_i s' h
      rw [h] at ha
      exact ha
    · rename_i s' h
      rw [h] at ha
      exact ha

/-- The loop removes one element at most. When each visit that removes an element adds its entry
to a log, and no other visit touches the log, the log gains the entry of that element. -/
theorem forEach_removes (log : σ → List β) (f : α → β)
    (hbody : ∀ s a, log (body s a).1 = log s ++ if (body s a).2 = .remove then [f a] else []) :
    ∀ (l : List α) (s : σ), ∃ r : List α, r.length ≤ 1 ∧ l.Perm (r ++ (forEach body s l).2.1) ∧
      log (forEach body s l).1 = log s ++ r.map f := by
  intro l
  induction l with
  | nil => exact fun s => ⟨[], Nat.zero_le _, List.Perm.refl _, by simp [forEach]⟩
  | cons a as ih =>
    intro s
    have ha := hbody s a
    unfold forEach
    split
    · -- the element stays, and the rest of the loop removes one at most
      rename_i s' h
      rw [h] at ha
      obtain ⟨r, hr, hperm, hlog⟩ := ih s'
      refine ⟨r, hr, ?_, ?_⟩
      · exact (hperm.cons a).trans List.perm_middle.symm
      · simp only [reduceCtorEq, if_false, List.append_nil] at ha
        rw [hlog, ha]
    · rename_i s' h
      rw [h] at ha
      exact ⟨[a], Nat.le_refl _, List.Perm.refl _, by simpa using ha⟩
    · rename_i s' h
      rw [h] at ha
      exact ⟨[], Nat.zero_le _, List.Perm.refl _, by simpa using ha⟩

end EthereumAI.Lib.GoList
