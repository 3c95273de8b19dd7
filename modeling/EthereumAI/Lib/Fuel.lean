import Mathlib

/-! # Computations that may run out of fuel

A computation over a state `σ` that may throw `ε`, and may also return nothing
when a bound on its recursion runs out. Its runs compose along `bind` and
`tryCatch`, and `Approx x y` says that `y` returns whatever `x` returns; it
composes the same way, so a definition by fuel approximates itself at more fuel
as soon as its recursive calls do.
-/

namespace EthereumAI.Lib

/-- State and exceptions over `Option`, whose `none` is an exhausted bound. -/
abbrev FuelM (ε σ : Type) := ExceptT ε (StateT σ Option)

variable {ε σ α β : Type}

theorem except_bind_eq_ok {x : Except ε α} {f : α → Except ε β} {b : β} :
    x >>= f = .ok b ↔ ∃ a, x = .ok a ∧ f a = .ok b := by
  cases x with
  | error e =>
    constructor
    · intro h
      cases h
    · rintro ⟨_, h, _⟩
      cases h
  | ok a =>
    constructor
    · intro h
      exact ⟨a, rfl, h⟩
    · rintro ⟨_, h, hf⟩
      cases h
      exact hf

namespace FuelM

/-- The run from a state. -/
def runFrom (x : FuelM ε σ α) (s : σ) : Option (Except ε α × σ) := x.run.run s

/-- The computation that ran out of fuel. -/
def exhausted : FuelM ε σ α := ExceptT.mk fun _ => none

/-- Continue a run with `f` after a value, or stop at an error. -/
def continueWith (f : α → FuelM ε σ β) : Except ε α × σ → Option (Except ε β × σ)
  | (.ok a, s) => (f a).runFrom s
  | (.error e, s) => some (.error e, s)

/-- Handle an error with `h`, or keep a value. -/
def handleWith (h : ε → FuelM ε σ α) : Except ε α × σ → Option (Except ε α × σ)
  | (.ok a, s) => some (.ok a, s)
  | (.error e, s) => (h e).runFrom s

variable {x y : FuelM ε σ α} {s t : σ} {a : α} {e : ε}

@[simp] theorem runFrom_pure : (pure a : FuelM ε σ α).runFrom s = some (.ok a, s) := rfl

@[simp] theorem runFrom_throw : (throw e : FuelM ε σ α).runFrom s = some (.error e, s) := rfl

@[simp] theorem runFrom_exhausted : (exhausted : FuelM ε σ α).runFrom s = none := rfl

theorem runFrom_bind (f : α → FuelM ε σ β) : (x >>= f).runFrom s = (x.runFrom s).bind (continueWith f) := by
  unfold runFrom
  show ((x.run.run s).bind fun p => _) = _
  rcases x.run.run s with _ | ⟨_ | _, t⟩ <;> rfl

theorem runFrom_tryCatch (h : ε → FuelM ε σ α) :
    (tryCatch x h).runFrom s = (x.runFrom s).bind (handleWith h) := by
  unfold runFrom
  show ((x.run.run s).bind fun p => _) = _
  rcases x.run.run s with _ | ⟨_ | _, t⟩ <;> rfl

theorem runFrom_map (f : α → β) : (f <$> x).runFrom s = (x.runFrom s).map fun p => (p.1.map f, p.2) := by
  unfold runFrom
  show ((x.run.run s).bind fun p => _) = _
  rcases x.run.run s with _ | ⟨_ | _, t⟩ <;> rfl

theorem runFrom_bind_ok {f : α → FuelM ε σ β} (h : x.runFrom s = some (.ok a, t)) :
    (x >>= f).runFrom s = (f a).runFrom t := by
  rw [runFrom_bind, h]
  rfl

theorem runFrom_bind_error {f : α → FuelM ε σ β} (h : x.runFrom s = some (.error e, t)) :
    (x >>= f).runFrom s = some (.error e, t) := by
  rw [runFrom_bind, h]
  rfl

theorem runFrom_bind_none {f : α → FuelM ε σ β} (h : x.runFrom s = none) : (x >>= f).runFrom s = none := by
  rw [runFrom_bind, h]
  rfl

theorem runFrom_bind_eq_ok {f : α → FuelM ε σ β} {b : β} (h : (x >>= f).runFrom s = some (.ok b, t)) :
    ∃ a s₁, x.runFrom s = some (.ok a, s₁) ∧ (f a).runFrom s₁ = some (.ok b, t) := by
  rw [runFrom_bind] at h
  obtain ⟨⟨_ | a, s₁⟩, hx, hf⟩ := Option.bind_eq_some_iff.mp h
  · cases hf
  · exact ⟨a, s₁, hx, hf⟩

theorem runFrom_tryCatch_ok {h : ε → FuelM ε σ α} (hx : x.runFrom s = some (.ok a, t)) :
    (tryCatch x h).runFrom s = some (.ok a, t) := by
  rw [runFrom_tryCatch, hx]
  rfl

theorem runFrom_tryCatch_none {h : ε → FuelM ε σ α} (hx : x.runFrom s = none) :
    (tryCatch x h).runFrom s = none := by
  rw [runFrom_tryCatch, hx]
  rfl

theorem runFrom_tryCatch_error {h : ε → FuelM ε σ α} (hx : x.runFrom s = some (.error e, t)) :
    (tryCatch x h).runFrom s = (h e).runFrom t := by
  rw [runFrom_tryCatch, hx]
  rfl

/-- `y` returns whatever `x` returns, from every state. -/
def Approx (x y : FuelM ε σ α) : Prop := ∀ s r, x.runFrom s = some r → y.runFrom s = some r

theorem Approx.refl (x : FuelM ε σ α) : Approx x x := fun _ _ h => h

theorem Approx.trans {z : FuelM ε σ α} (hxy : Approx x y) (hyz : Approx y z) : Approx x z :=
  fun s r h => hyz s r (hxy s r h)

theorem exhausted_approx (y : FuelM ε σ α) : Approx exhausted y := fun _ _ h => by cases h

theorem Approx.bind {f g : α → FuelM ε σ β} (hx : Approx x y) (hf : ∀ a, Approx (f a) (g a)) :
    Approx (x >>= f) (y >>= g) := by
  intro s r h
  rw [runFrom_bind] at h ⊢
  obtain ⟨p, hp, hr⟩ := Option.bind_eq_some_iff.mp h
  rw [hx s p hp, Option.bind_some]
  rcases p with ⟨_ | a, t⟩
  · exact hr
  · exact hf a t r hr

theorem Approx.tryCatch {h k : ε → FuelM ε σ α} (hx : Approx x y) (hh : ∀ e, Approx (h e) (k e)) :
    Approx (tryCatch x h) (tryCatch y k) := by
  intro s r hr
  rw [runFrom_tryCatch] at hr ⊢
  obtain ⟨p, hp, hr⟩ := Option.bind_eq_some_iff.mp hr
  rw [hx s p hp, Option.bind_some]
  rcases p with ⟨e | _, t⟩
  · exact hh e t r hr
  · exact hr

theorem Approx.map (f : α → β) (hx : Approx x y) : Approx (f <$> x) (f <$> y) := by
  intro s r h
  rw [runFrom_map] at h ⊢
  obtain ⟨p, hp, hr⟩ := Option.map_eq_some_iff.mp h
  rw [hx s p hp]
  exact congrArg some hr

theorem Approx.ite {c : Prop} [Decidable c] {x' y' : FuelM ε σ α} (h : Approx x y) (h' : Approx x' y') :
    Approx (if c then x else x') (if c then y else y') := by
  split
  · exact h
  · exact h'

end FuelM

end EthereumAI.Lib
