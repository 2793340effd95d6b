import Mathlib.Data.List.DropRight
import Mathlib.Data.List.TakeWhile

/-! # Lists trimmed at both ends

Two parts of one list that begin and end in the same runs are the same part, if only such entries
are around them. -/
namespace CockroachChat
set_option autoImplicit false

namespace Trimming
variable {α : Type} {p : α → Bool}

def strip (p : α → Bool) (l : List α) : List α := (l.dropWhile p).rdropWhile p

theorem strip_of_getLast {l : List α} (h : ∀ c ∈ l.getLast?, ¬p c) : strip p l = l.dropWhile p := by
  apply List.rdropWhile_eq_self_iff.mpr
  intro hne
  obtain ⟨front, hfront⟩ := List.dropWhile_suffix p (l := l)
  have hlast : (l.dropWhile p).getLast hne ∈ (front ++ l.dropWhile p).getLast? :=
    List.mem_getLast?_append_of_mem_getLast? (List.getLast?_eq_getLast_of_ne_nil hne)
  rw [hfront] at hlast
  exact h _ hlast

theorem strip_eq_self {l : List α} (hhead : ∀ c ∈ l.head?, ¬p c) (hlast : ∀ c ∈ l.getLast?, ¬p c) : strip p l = l := by
  rw [strip_of_getLast hlast]
  cases l with
  | nil => rfl
  | cons c l => exact List.dropWhile_cons_of_neg (hhead c rfl)

theorem getLast?_strip (p : α → Bool) (l : List α) : ∀ c ∈ (strip p l).getLast?, ¬p c := by
  intro c hc
  obtain ⟨hne, rfl⟩ := List.mem_getLast?_eq_getLast hc
  exact List.rdropWhile_last_not _ _ hne

theorem exists_strip (p : α → Bool) (l : List α) : ∃ front back, l = front ++ strip p l ++ back ∧
    (∀ c ∈ front, p c) ∧ ∀ c ∈ back, p c := by
  refine ⟨l.takeWhile p, (l.dropWhile p).rtakeWhile p, ?_, fun c hc => List.mem_takeWhile_imp hc, fun c hc => List.mem_rtakeWhile_imp hc⟩
  rw [List.append_assoc, strip, List.rdropWhile_append_rtakeWhile, List.takeWhile_append_dropWhile]

theorem head?_strip (p : α → Bool) (l : List α) : ∀ c ∈ (strip p l).head?, ¬p c := by
  intro c hc
  obtain ⟨back, hback⟩ := List.rdropWhile_prefix p (l.dropWhile p)
  have hhead : (l.dropWhile p).head? = some c := by
    rw [← hback]
    exact List.mem_head?_append_of_mem_head? hc
  have hnot := List.head?_dropWhile_not p l
  rw [hhead] at hnot
  simpa using hnot

theorem takeWhile_run {front a : List α} (hfront : ∀ c ∈ front, p c) (ha : ¬∀ c ∈ a, p c) (back : List α) :
    (front ++ (a ++ back)).takeWhile p = front ++ a.takeWhile p := by
  rw [List.takeWhile_append_of_pos hfront, List.takeWhile_append, if_neg]
  intro hlength
  apply ha
  exact List.takeWhile_eq_self_iff.mp ((List.takeWhile_prefix p).eq_of_length hlength)

theorem rtakeWhile_run {back a : List α} (hback : ∀ c ∈ back, p c) (ha : ¬∀ c ∈ a, p c) (front : List α) :
    (front ++ a ++ back).rtakeWhile p = a.rtakeWhile p ++ back := by
  have hrun : (back.reverse ++ (a.reverse ++ front.reverse)).takeWhile p = back.reverse ++ a.reverse.takeWhile p :=
    takeWhile_run (by simpa using hback) (by simpa using ha) front.reverse
  simpa [List.rtakeWhile] using congrArg List.reverse hrun

/-- What is around the two parts is made of such entries, and so are the runs they share. -/
theorem eq_of_runs {front front' a b back back' : List α} (h : front ++ a ++ back = front' ++ b ++ back')
    (hfront : ∀ c ∈ front, p c) (hfront' : ∀ c ∈ front', p c) (hback : ∀ c ∈ back, p c) (hback' : ∀ c ∈ back', p c)
    (hstart : a.takeWhile p = b.takeWhile p) (hend : a.rtakeWhile p = b.rtakeWhile p) : a = b := by
  have hall : (∀ c ∈ a, p c) ↔ ∀ c ∈ b, p c := by
    have hwhole : (∀ c ∈ front ++ a ++ back, p c) ↔ ∀ c ∈ front' ++ b ++ back', p c := by rw [h]
    simp only [List.forall_mem_append] at hwhole
    tauto
  by_cases ha : ∀ c ∈ a, p c
  · rwa [List.takeWhile_eq_self_iff.mpr ha, List.takeWhile_eq_self_iff.mpr (hall.mp ha)] at hstart
  · have hb := mt hall.mpr ha
    have hfronts : front = front' := by
      have hruns := takeWhile_run hfront ha back
      rw [← List.append_assoc, h, List.append_assoc, takeWhile_run hfront' hb, hstart] at hruns
      exact (List.append_cancel_right hruns).symm
    have hbacks : back = back' := by
      have hruns := rtakeWhile_run hback ha front
      rw [h, rtakeWhile_run hback' hb, hend] at hruns
      exact (List.append_cancel_left hruns).symm
    rw [hfronts, hbacks] at h
    exact List.append_cancel_left (List.append_cancel_right h)

/-- A list splits in one way at the last place of an entry. -/
theorem eq_of_mark {c : α} {a b t u : List α} (h : a ++ c :: t = b ++ c :: u) (ht : c ∉ t) (hu : c ∉ u) : a = b ∧ t = u := by
  have hlate : ∀ {d v w : List α}, c ∉ v → c :: v = d ++ c :: w → d = [] := by
    intro d v w hv heq
    cases d with
    | nil => rfl
    | cons x d =>
      rw [List.cons_append, List.cons.injEq] at heq
      exact absurd (by simp [heq.2]) hv
  rcases List.append_eq_append_iff.mp h with ⟨d, rfl, heq⟩ | ⟨d, rfl, heq⟩
  · obtain rfl := hlate ht heq
    simpa using heq
  · obtain rfl := hlate hu heq
    simpa using heq.symm

end Trimming
end CockroachChat
