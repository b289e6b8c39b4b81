/-
Distances in a graph, counted in steps of a relation.

* `Walk` — a walk of so many steps from the source;
* `AtDistance` — the least number of steps in which a point is reached.
-/
import Mathlib.Order.Basic
import Mathlib.Data.Nat.Find

namespace N8n

section

variable {α : Type*} (R : α → α → Prop) (source : α)

/-- A walk from the source, by the number of its steps. -/
inductive Walk : ℕ → α → Prop
  | start : Walk 0 source
  | step {k a b} : Walk k a → R a b → Walk (k + 1) b

/-- The point is reached in so many steps, and not in fewer. -/
def AtDistance (k : ℕ) (a : α) : Prop := Walk R source k a ∧ ∀ j < k, ¬ Walk R source j a

end

section

variable {α : Type*} {R : α → α → Prop} {source a b : α} {j k : ℕ}

theorem atDistance_zero_iff : AtDistance R source 0 a ↔ a = source := by
  constructor
  · rintro ⟨h, -⟩
    cases h
    rfl
  · rintro rfl
    exact ⟨.start, fun j hj => absurd hj (Nat.not_lt_zero j)⟩

theorem Walk.exists_atDistance (h : Walk R source k a) : ∃ j ≤ k, AtDistance R source j a := by
  classical
  have hex : ∃ j, Walk R source j a := ⟨k, h⟩
  exact ⟨Nat.find hex, Nat.find_min' hex h, Nat.find_spec hex, fun i hi => Nat.find_min hex hi⟩

theorem AtDistance.le (h : AtDistance R source j a) (hwalk : Walk R source k a) : j ≤ k :=
  Nat.le_of_not_lt fun hlt => h.2 k hlt hwalk

theorem AtDistance.unique (h : AtDistance R source j a) (h' : AtDistance R source k a) : j = k :=
  Nat.le_antisymm (h.le h'.1) (h'.le h.1)

theorem AtDistance.exists_prev (h : AtDistance R source (k + 1) b) :
    ∃ a, AtDistance R source k a ∧ R a b := by
  obtain ⟨hwalk, hshort⟩ := h
  cases hwalk with
  | @step _ a _ hwalk hstep =>
    refine ⟨a, ⟨hwalk, fun j hj hj' => ?_⟩, hstep⟩
    exact hshort (j + 1) (Nat.succ_lt_succ hj) (hj'.step hstep)

theorem not_atDistance_of_le (hnone : ∀ a, ¬ AtDistance R source k a) (hle : k ≤ j) :
    ∀ a, ¬ AtDistance R source j a := by
  induction hle with
  | refl => exact hnone
  | step _ ih =>
    intro b hb
    obtain ⟨a, ha, -⟩ := hb.exists_prev
    exact ih a ha

theorem Walk.lt_of_none (h : Walk R source j a) (hnone : ∀ a, ¬ AtDistance R source k a) :
    ∃ i < k, Walk R source i a := by
  obtain ⟨i, -, hi⟩ := h.exists_atDistance
  refine ⟨i, Nat.lt_of_not_le fun hle => not_atDistance_of_le hnone hle a hi, hi.1⟩

end

end N8n
