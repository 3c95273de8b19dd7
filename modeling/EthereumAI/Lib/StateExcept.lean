import Mathlib

/-! # Computations with state and exceptions

A method that returns a value or an error, and leaves its effect on its state
either way, is a computation in `ExceptT ε (StateM σ)`. Its run from a state is
the outcome and the final state. The lemmas here run such a computation one step
at a time, as `FuelM.runFrom` does for computations with fuel.
-/

namespace EthereumAI.Lib.StateExcept

variable {ε σ α β : Type}

/-- The run from a state. -/
def runFrom (x : ExceptT ε (StateM σ) α) (s : σ) : Except ε α × σ := x.run.run s

variable {x : ExceptT ε (StateM σ) α} {s t : σ} {a : α} {e : ε}

@[simp] theorem runFrom_pure : runFrom (pure a : ExceptT ε (StateM σ) α) s = (.ok a, s) := rfl

@[simp] theorem runFrom_throw : runFrom (throw e : ExceptT ε (StateM σ) α) s = (.error e, s) := rfl

@[simp] theorem runFrom_get : runFrom (get : ExceptT ε (StateM σ) σ) s = (.ok s, s) := rfl

@[simp] theorem runFrom_set : runFrom (set t : ExceptT ε (StateM σ) PUnit) s = (.ok ⟨⟩, t) := rfl

@[simp] theorem runFrom_modify (f : σ → σ) :
    runFrom (modify f : ExceptT ε (StateM σ) PUnit) s = (.ok ⟨⟩, f s) := rfl

/-- The run of a step of the state monad alone. -/
def runState (m : StateM σ α) (s : σ) : α × σ := m.run s

@[simp] theorem runState_pure : runState (pure a : StateM σ α) s = (a, s) := rfl

@[simp] theorem runState_get : runState (get : StateM σ σ) s = (s, s) := rfl

@[simp] theorem runState_modify (f : σ → σ) : runState (modify f : StateM σ PUnit) s = (⟨⟩, f s) := rfl

theorem runState_bind (m : StateM σ α) (f : α → StateM σ β) :
    runState (m >>= f) s = runState (f (runState m s).1) (runState m s).2 := rfl

@[simp] theorem runState_map (m : StateM σ α) (f : α → β) :
    runState (f <$> m) s = (f (runState m s).1, (runState m s).2) := rfl

@[simp] theorem runFrom_lift (m : StateM σ α) :
    runFrom (m : ExceptT ε (StateM σ) α) s = (.ok (runState m s).1, (runState m s).2) := rfl

@[simp] theorem runState_run : runState x.run s = runFrom x s := rfl

theorem runFrom_bind (f : α → ExceptT ε (StateM σ) β) : runFrom (x >>= f) s =
    match runFrom x s with
    | (.ok a, t) => runFrom (f a) t
    | (.error e, t) => (.error e, t) := by
  unfold runFrom
  simp only [ExceptT.run_bind, StateT.run_bind]
  rcases x.run.run s with ⟨_ | _, t⟩ <;> rfl

@[simp] theorem runFrom_map (f : α → β) : runFrom (f <$> x) s = ((runFrom x s).1.map f, (runFrom x s).2) := by
  unfold runFrom
  simp only [ExceptT.run_map, StateT.run_map]
  rcases x.run.run s with ⟨_ | _, t⟩ <;> rfl

theorem runFrom_bind_ok {f : α → ExceptT ε (StateM σ) β} (h : runFrom x s = (.ok a, t)) :
    runFrom (x >>= f) s = runFrom (f a) t := by
  rw [runFrom_bind, h]

theorem runFrom_bind_error {f : α → ExceptT ε (StateM σ) β} (h : runFrom x s = (.error e, t)) :
    runFrom (x >>= f) s = (.error e, t) := by
  rw [runFrom_bind, h]

theorem runFrom_bind_eq_ok {f : α → ExceptT ε (StateM σ) β} {b : β} (h : runFrom (x >>= f) s = (.ok b, t)) :
    ∃ a s₁, runFrom x s = (.ok a, s₁) ∧ runFrom (f a) s₁ = (.ok b, t) := by
  rw [runFrom_bind] at h
  rcases hx : runFrom x s with ⟨e | a, s₁⟩ <;> rw [hx] at h
  · cases h
  · exact ⟨a, s₁, rfl, h⟩

theorem runFrom_tryCatch_ok {h : ε → ExceptT ε (StateM σ) α} (hx : runFrom x s = (.ok a, t)) :
    runFrom (tryCatch x h) s = (.ok a, t) := by
  unfold runFrom at hx ⊢
  show (ExceptT.tryCatch x h).run.run s = _
  simp only [ExceptT.tryCatch, ExceptT.run_mk, StateT.run_bind]
  show (StateT.run x.run s >>= _) = _
  rw [hx]
  rfl

end EthereumAI.Lib.StateExcept
