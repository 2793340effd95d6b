import Mathlib

/-! # Spreading along links

What passes from each place within a radius to its neighbours reaches every place in the radius. What
arrived along a trail passes on as long as the trail is short, and reaches every place that no long
trail leads to. -/
namespace CockroachChat
set_option autoImplicit false

variable {ι : Type} (linked : ι → ι → Prop) (o : ι)

/-- `v` is reached from `o` over `n` links. -/
inductive Hops : ℕ → ι → Prop
  | start : Hops 0 o
  | hop {n : ℕ} {u v : ι} (before : Hops n u) (link : linked u v) : Hops (n + 1) v

/-- The places passed on a way from `o` that visits none of them twice, the last one first. -/
inductive Trail : List ι → Prop
  | start : Trail [o]
  | hop {u w : ι} {past : List ι} (before : Trail (u :: past)) (link : linked u w) (new : w ∉ u :: past) :
      Trail (w :: u :: past)

variable {linked o}

theorem Hops.spread {has : ι → Prop} {t : ℕ} (origin : has o)
    (pass : ∀ n u v, Hops linked o n u → n < t → has u → linked u v → has v) {n : ℕ} {v : ι}
    (h : Hops linked o n v) (within : n ≤ t) : has v := by
  induction h with
  | start => exact origin
  | hop before link ih => exact pass _ _ _ before within (ih (Nat.le_of_succ_le within)) link

/-- Going back along a trail. -/
theorem Trail.suffix {path past : List ι} {x : ι} (h : Trail linked o path) (back : x :: past <:+ path) :
    Trail linked o (x :: past) := by
  induction h with
  | start =>
    have heq : x :: past = [o] := by
      rcases List.suffix_cons_iff.mp back with heq | hnil
      · exact heq
      · exact absurd (List.suffix_nil.mp hnil) (List.cons_ne_nil _ _)
    rw [heq]
    exact .start
  | hop before link new ih =>
    rcases List.suffix_cons_iff.mp back with heq | hback
    · rw [heq]
      exact .hop before link new
    · exact ih hback

section Trails
variable {has : ι → Prop}

/-- A place outside the spread that can be reached ends a trail that leaves the spread once, behind a
place `u` that has arrived along its own part of the trail and was not passed on to a neighbour. -/
theorem Hops.leaves (along : ι → List ι → Prop) (origin : has o)
    (arrived : ∀ u, has u → ∃ past, along u past ∧ Trail linked o (u :: past) ∧ ∀ x ∈ u :: past, has x) {n : ℕ} {v : ι}
    (h : Hops linked o n v) (outside : ¬ has v) :
    ∃ u w past ext, along u past ∧ linked u w ∧ ¬ has w ∧ (∀ x ∈ u :: past, has x) ∧ (∀ x ∈ v :: ext, ¬ has x) ∧
      Trail linked o (v :: ext ++ u :: past) := by
  induction h with
  | start => exact absurd origin outside
  | @hop n y z before link ih =>
    by_cases hy : has y
    · obtain ⟨past, halong, htrail, hhas⟩ := arrived y hy
      have hnew : z ∉ y :: past := fun hz => outside (hhas z hz)
      refine ⟨y, z, past, [], halong, link, outside, hhas, ?_, .hop htrail link hnew⟩
      simpa using outside
    · obtain ⟨u, w, past, ext, halong, hlink, hw, hhas, hext, htrail⟩ := ih hy
      by_cases hz : z ∈ y :: ext
      · -- back on the trail
        obtain ⟨front, rest, hsplit⟩ := List.append_of_mem hz
        have hback : z :: (rest ++ u :: past) <:+ y :: ext ++ u :: past := ⟨front, by rw [hsplit, List.append_assoc]; rfl⟩
        refine ⟨u, w, past, rest, halong, hlink, hw, hhas, fun x hx => hext x ?_, htrail.suffix hback⟩
        rw [hsplit]
        exact List.mem_append_right front hx
      · have hnew : z ∉ y :: ext ++ u :: past := by
          rw [List.mem_append]
          rintro (hmem | hmem)
          · exact hz hmem
          · exact outside (hhas z hmem)
        exact ⟨u, w, past, y :: ext, halong, hlink, hw, hhas, List.forall_mem_cons.mpr ⟨outside, hext⟩, .hop htrail link hnew⟩

/-- What passes on wherever it has come along fewer than `t` links reaches every place that all
trails reach within `t` links. -/
theorem Hops.spread_short {t : ℕ} (origin : has o)
    (spreads : ∀ u, has u → ∃ past, Trail linked o (u :: past) ∧ (∀ x ∈ u :: past, has x) ∧
      (past.length < t → ∀ w, linked u w → has w))
    {n : ℕ} {v : ι} (h : Hops linked o n v) (short : ∀ past, Trail linked o (v :: past) → past.length ≤ t) : has v := by
  by_contra outside
  obtain ⟨u, w, past, ext, hpass, hlink, hw, -, -, htrail⟩ :=
    h.leaves (fun u past => past.length < t → ∀ w, linked u w → has w) origin
      (fun u hu => by
        obtain ⟨past, htrail, hhas, hpass⟩ := spreads u hu
        exact ⟨past, hpass, htrail, hhas⟩) outside
  have hlen := short (ext ++ u :: past) htrail
  rw [List.length_append, List.length_cons] at hlen
  exact hw (hpass (by omega) w hlink)

end Trails

end CockroachChat
