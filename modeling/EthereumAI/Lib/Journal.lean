import Mathlib

/-! # Runs and undo logs

Two general patterns of stateful code. A *run* feeds a list of operations to a
step function that may fail; an invariant kept by every step holds after every
run. An *undo log* is kept oldest first and rolled back newest first. When the
rollback of every entry acts on an observation of the state through a function
of that observation alone, rolling back a log commutes with observing, and the
fact that a log undoes a stretch of a run composes along the run.
-/

namespace EthereumAI.Lib

section Runs

variable {σ α : Type*} (step : σ → α → Option σ)

theorem foldlM_invariant_of_forall {P : σ → Prop} {Q : α → Prop}
    (hstep : ∀ s a s', Q a → P s → step s a = some s' → P s') :
    ∀ (ops : List α), (∀ a ∈ ops, Q a) → ∀ (s t : σ), P s → ops.foldlM step s = some t → P t := by
  intro ops
  induction ops with
  | nil =>
    intro _ s t hs h
    cases h
    exact hs
  | cons a ops ih =>
    intro hQ s t hs h
    obtain ⟨s', hs', hrest⟩ := Option.bind_eq_some_iff.mp h
    exact ih (fun b hb => hQ b (List.mem_cons_of_mem a hb)) s' t (hstep s a s' (hQ a List.mem_cons_self) hs hs')
      hrest

theorem foldlM_invariant {P : σ → Prop} (hstep : ∀ s a s', P s → step s a = some s' → P s') :
    ∀ (ops : List α) (s t : σ), P s → ops.foldlM step s = some t → P t := fun ops =>
  foldlM_invariant_of_forall step (Q := fun _ => True) (fun s a s' _ => hstep s a s') ops fun _ _ => trivial

theorem foldlM_some {P : σ → Prop} (hstep : ∀ s a, P s → ∃ s', step s a = some s' ∧ P s') :
    ∀ (ops : List α) (s : σ), P s → ∃ t, ops.foldlM step s = some t ∧ P t := by
  intro ops
  induction ops with
  | nil => exact fun s hs => ⟨s, rfl, hs⟩
  | cons a ops ih =>
    intro s hs
    obtain ⟨s', hs', hP⟩ := hstep s a hs
    obtain ⟨t, ht, hPt⟩ := ih s' hP
    exact ⟨t, by rw [List.foldlM_cons, hs']; exact ht, hPt⟩

theorem mapM_some {β : Type*} (f : α → Option β) :
    ∀ (l : List α), (∀ a ∈ l, ∃ b, f a = some b) → ∃ bs, l.mapM f = some bs := by
  intro l
  induction l with
  | nil => exact fun _ => ⟨[], rfl⟩
  | cons a l ih =>
    intro h
    obtain ⟨b, hb⟩ := h a List.mem_cons_self
    obtain ⟨bs, hbs⟩ := ih fun a' ha' => h a' (List.mem_cons_of_mem a ha')
    exact ⟨b :: bs, by simp [List.mapM_cons, hb, hbs]⟩

theorem foldl_invariant {β : Type*} {P : β → Prop} (f : β → α → β) (ops : List α)
    (hstep : ∀ s, ∀ a ∈ ops, P s → P (f s a)) : ∀ s, P s → P (ops.foldl f s) := by
  induction ops with
  | nil => exact fun _ hs => hs
  | cons a ops ih =>
    intro s hs
    exact ih (fun s' b hb => hstep s' b (List.mem_cons_of_mem a hb)) (f s a) (hstep s a List.mem_cons_self hs)

end Runs

section UndoLog

variable {σ ε V : Type*} (revert : ε → σ → Option σ)

/-- Roll back the entries of a log, the newest (last) first; `none` as soon as
one rollback fails. -/
def undoAll : List ε → σ → Option σ
  | [], s => some s
  | e :: es, s => (undoAll es s).bind (revert e)

@[simp] theorem undoAll_nil (s : σ) : undoAll revert [] s = some s := rfl

theorem undoAll_cons (e : ε) (es : List ε) (s : σ) :
    undoAll revert (e :: es) s = (undoAll revert es s).bind (revert e) := rfl

theorem undoAll_append (xs ys : List ε) (s : σ) :
    undoAll revert (xs ++ ys) s = (undoAll revert ys s).bind (undoAll revert xs) := by
  induction xs generalizing s with
  | nil =>
    rw [List.nil_append]
    cases undoAll revert ys s <;> rfl
  | cons e xs ih =>
    rw [List.cons_append, undoAll_cons, ih, Option.bind_assoc]
    rfl

theorem undoAll_singleton (e : ε) (s : σ) : undoAll revert [e] s = revert e s := by
  simp [undoAll_cons]

variable {revert} {P : σ → Prop} {Q : ε → Prop}

theorem undoAll_invariant (hP : ∀ e s t, Q e → P s → revert e s = some t → P t) :
    ∀ (es : List ε), (∀ e ∈ es, Q e) → ∀ (s t : σ), P s → undoAll revert es s = some t → P t := by
  intro es
  induction es with
  | nil =>
    intro _ s t hs h
    cases h
    exact hs
  | cons e es ih =>
    intro hQ s t hs h
    obtain ⟨u, hu, ht⟩ := Option.bind_eq_some_iff.mp h
    have hQ' : ∀ e' ∈ es, Q e' := fun e' he' => hQ e' (List.mem_cons_of_mem e he')
    exact hP e u t (hQ e List.mem_cons_self) (ih hQ' s u hs hu) ht

variable {view : σ → V} {revertV : ε → V → Option V}

theorem undoAll_map (hP : ∀ e s t, Q e → P s → revert e s = some t → P t)
    (h : ∀ e s, Q e → P s → (revert e s).map view = revertV e (view s)) :
    ∀ (es : List ε), (∀ e ∈ es, Q e) → ∀ (s : σ), P s →
      (undoAll revert es s).map view = undoAll revertV es (view s) := by
  intro es
  induction es with
  | nil => intro _ s _; rfl
  | cons e es ih =>
    intro hQ s hs
    have hQ' : ∀ e' ∈ es, Q e' := fun e' he' => hQ e' (List.mem_cons_of_mem e he')
    rw [undoAll_cons, undoAll_cons, ← ih hQ' s hs]
    rcases hu : undoAll revert es s with _ | t
    · rfl
    · exact h e t (hQ e List.mem_cons_self) (undoAll_invariant hP es hQ' s t hs hu)

end UndoLog

section Undoes

variable {ε V : Type*} (revertV : ε → V → Option V)

/-- Rolling the log `es` back from the observation `v` gives the observation `w`. -/
def Undoes (es : List ε) (v w : V) : Prop := undoAll revertV es v = some w

variable {revertV}

theorem undoes_nil (v : V) : Undoes revertV [] v v := rfl

theorem Undoes.append {xs ys : List ε} {u v w : V} (hx : Undoes revertV xs v w)
    (hy : Undoes revertV ys u v) : Undoes revertV (xs ++ ys) u w := by
  unfold Undoes at *
  rw [undoAll_append, hy]
  exact hx

theorem Undoes.unique {es : List ε} {u v w : V} (hv : Undoes revertV es u v)
    (hw : Undoes revertV es u w) : v = w := by
  unfold Undoes at hv hw
  rw [hv] at hw
  exact Option.some.inj hw

theorem undoes_append_iff {xs ys : List ε} {u w : V} :
    Undoes revertV (xs ++ ys) u w ↔ ∃ v, Undoes revertV ys u v ∧ Undoes revertV xs v w := by
  unfold Undoes
  rw [undoAll_append, Option.bind_eq_some_iff]

end Undoes

end EthereumAI.Lib
