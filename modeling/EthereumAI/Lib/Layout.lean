import Mathlib

/-! # Consecutive ranges

Items laid out one after another from a start, each taking as many places as its length: the
offset of an item is the start plus the lengths of the items before it. The ranges of two
positions are disjoint, so a point lies in the range of at most one item, and two layouts of lists
with the same lengths have the same offsets.
-/

namespace EthereumAI.Lib.Layout

variable {α β : Type*} (len : α → ℕ)

/-- Each item with its offset. -/
def place : ℕ → List α → List (α × ℕ)
  | _, [] => []
  | o, a :: as => (a, o) :: place (o + len a) as

def total (l : List α) : ℕ := (l.map len).sum

variable {len}

@[simp] theorem place_nil (o : ℕ) : place len o [] = [] := rfl

@[simp] theorem place_cons (o : ℕ) (a : α) (l : List α) : place len o (a :: l) = (a, o) :: place len (o + len a) l :=
  rfl

@[simp] theorem total_nil : total len [] = 0 := rfl

@[simp] theorem total_cons (a : α) (l : List α) : total len (a :: l) = len a + total len l := by
  simp [total]

theorem total_append (l₁ l₂ : List α) : total len (l₁ ++ l₂) = total len l₁ + total len l₂ := by
  simp [total]

theorem place_append (o : ℕ) (l₁ l₂ : List α) :
    place len o (l₁ ++ l₂) = place len o l₁ ++ place len (o + total len l₁) l₂ := by
  induction l₁ generalizing o with
  | nil => simp
  | cons a l ih => simp [ih, Nat.add_assoc]

@[simp] theorem map_fst_place (o : ℕ) (l : List α) : (place len o l).map Prod.fst = l := by
  induction l generalizing o with
  | nil => rfl
  | cons a l ih => simp [ih]

theorem mem_place_bounds {o : ℕ} {l : List α} {a : α} {x : ℕ} (h : (a, x) ∈ place len o l) :
    o ≤ x ∧ x + len a ≤ o + total len l := by
  induction l generalizing o with
  | nil => simp at h
  | cons b l ih =>
    rcases List.mem_cons.mp h with h | h
    · obtain ⟨rfl, rfl⟩ := Prod.mk.inj h
      simp
    · have := ih h
      simp only [total_cons]
      omega

theorem eq_of_mem_place {o c : ℕ} {l : List α} {a b : α} {x y : ℕ} (ha : (a, x) ∈ place len o l)
    (hb : (b, y) ∈ place len o l) (hca : x ≤ c ∧ c < x + len a) (hcb : y ≤ c ∧ c < y + len b) :
    (a, x) = (b, y) := by
  induction l generalizing o with
  | nil => simp at ha
  | cons d l ih =>
    rw [place_cons] at ha hb
    rcases List.mem_cons.mp ha with ha | ha <;> rcases List.mem_cons.mp hb with hb | hb
    · rw [ha, hb]
    · -- the rest of the layout starts past the head's range
      obtain ⟨rfl, rfl⟩ := Prod.mk.inj ha
      have := (mem_place_bounds hb).1
      omega
    · obtain ⟨rfl, rfl⟩ := Prod.mk.inj hb
      have := (mem_place_bounds ha).1
      omega
    · exact ih ha hb

theorem map_place_eq {l₁ l₂ : List α} (key : α → β) (h : l₁.map (fun a => (key a, len a)) = l₂.map (fun a => (key a, len a)))
    (o : ℕ) : (place len o l₁).map (fun e => (key e.1, e.2)) = (place len o l₂).map (fun e => (key e.1, e.2)) := by
  induction l₁ generalizing l₂ o with
  | nil =>
    obtain rfl := List.map_eq_nil_iff.mp h.symm
    rfl
  | cons a l₁ ih =>
    obtain ⟨b, l₂, rfl, hab, hrest⟩ := List.map_eq_cons_iff.mp h.symm
    obtain ⟨hk, hl⟩ := Prod.mk.inj hab
    simp only [place_cons, List.map_cons, hk, hl, ih hrest.symm]

end EthereumAI.Lib.Layout
