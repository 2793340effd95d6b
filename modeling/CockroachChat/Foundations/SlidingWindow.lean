import Mathlib

/-! # Sliding windows

A limiter that remembers when it let something through, forgets a time once it is a window old, and
lets nothing through while it remembers as many as it may. -/
namespace CockroachChat.SlidingWindow
set_option autoImplicit false

variable {width burst now later : ℕ} {sent times : List ℕ}

/-- No half-open interval of the width has more than `burst` of the times in it. -/
def Bounded (width burst : ℕ) (sent : List ℕ) : Prop :=
  ∀ a, (sent.filter fun u => a ≤ u ∧ u < a + width).length ≤ burst

/-- What has been forgotten by `now` is at least the width old. -/
def Remembers (width now : ℕ) (sent times : List ℕ) : Prop :=
  ∃ old, sent = old ++ times ∧ ∀ u ∈ old, u + width ≤ now

theorem bounded_nil (width burst : ℕ) : Bounded width burst [] := fun _ => Nat.zero_le _

theorem remembers_nil (width now : ℕ) : Remembers width now [] [] := ⟨[], rfl, by simp⟩

theorem Remembers.mono (h : Remembers width now sent times) (le : now ≤ later) : Remembers width later sent times := by
  obtain ⟨old, rfl, hold⟩ := h
  exact ⟨old, rfl, fun u hu => (hold u hu).trans le⟩

/-- What is dropped from the front is a width old. -/
theorem Remembers.dropWhile (h : Remembers width now sent times) {p : ℕ → Bool} (hp : ∀ u, p u = true → u + width ≤ now) :
    Remembers width now sent (times.dropWhile p) := by
  obtain ⟨old, rfl, hold⟩ := h
  refine ⟨old ++ times.takeWhile p, ?_, fun u hu => ?_⟩
  · rw [List.append_assoc, List.takeWhile_append_dropWhile]
  · rcases List.mem_append.mp hu with hu | hu
    · exact hold u hu
    · exact hp u (List.mem_takeWhile_imp hu)

theorem Remembers.snoc (h : Remembers width now sent times) (t : ℕ) : Remembers width now (sent ++ [t]) (times ++ [t]) := by
  obtain ⟨old, rfl, hold⟩ := h
  exact ⟨old, List.append_assoc _ _ _, hold⟩

/-- One more is let through while fewer than the burst are remembered. -/
theorem Bounded.snoc (h : Bounded width burst sent) (remembers : Remembers width now sent times) (few : times.length < burst) :
    Bounded width burst (sent ++ [now]) := by
  intro a
  rw [List.filter_append, List.length_append]
  by_cases hnow : a ≤ now ∧ now < a + width
  · obtain ⟨old, rfl, hold⟩ := remembers
    have hnone : old.filter (fun u => decide (a ≤ u ∧ u < a + width)) = [] := by
      rw [List.filter_eq_nil_iff]
      intro u hu
      have := hold u hu
      rw [decide_eq_true_eq]
      omega
    have hrest := List.length_filter_le (fun u => decide (a ≤ u ∧ u < a + width)) times
    have hone := List.length_filter_le (fun u => decide (a ≤ u ∧ u < a + width)) [now]
    rw [List.filter_append, hnone, List.nil_append]
    rw [List.length_singleton] at hone
    omega
  · have hnone : [now].filter (fun u => decide (a ≤ u ∧ u < a + width)) = [] := by simpa using hnow
    rw [hnone]
    exact h a

end CockroachChat.SlidingWindow
