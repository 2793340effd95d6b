import Mathlib

/-! # Interleavings of two lists -/
namespace CockroachChat
set_option autoImplicit false

variable {α : Type}

/-- The third list merges the first two and keeps the order of each. -/
inductive Merges : List α → List α → List α → Prop
  | done : Merges [] [] []
  | first {a : α} {l₁ l₂ l : List α} (h : Merges l₁ l₂ l) : Merges (a :: l₁) l₂ (a :: l)
  | second {a : α} {l₁ l₂ l : List α} (h : Merges l₁ l₂ l) : Merges l₁ (a :: l₂) (a :: l)

namespace Merges
variable {l₁ l₂ l : List α}

theorem symm (h : Merges l₁ l₂ l) : Merges l₂ l₁ l := by
  induction h with
  | done => exact .done
  | first _ ih => exact .second ih
  | second _ ih => exact .first ih

theorem alone (l : List α) : Merges l [] l := by
  induction l with
  | nil => exact .done
  | cons a l ih => exact .first ih

theorem after (h : Merges l₁ l₂ l) (pre : List α) : Merges l₁ (pre ++ l₂) (pre ++ l) := by
  induction pre with
  | nil => exact h
  | cons a pre ih => exact .second ih

theorem mem_iff (h : Merges l₁ l₂ l) {a : α} : a ∈ l ↔ a ∈ l₁ ∨ a ∈ l₂ := by
  induction h with
  | done => simp
  | first _ ih => simp only [List.mem_cons, ih, or_assoc]
  | second _ ih => simp only [List.mem_cons, ih, or_left_comm]

end Merges
end CockroachChat
