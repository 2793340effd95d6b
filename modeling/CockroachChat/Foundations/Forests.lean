import Mathlib

/-! # Forests

A forest is a function that takes every node to its parent, and a root to itself. Two changes keep it
one: a node may be put under its own root, and a root under another. -/
namespace CockroachChat.Forests
set_option autoImplicit false

variable {α : Type} {p : α → α} {a b r s x y : α} {k l : ℕ}

/-- From `x` it takes `k` steps up to the root `r`. -/
inductive Climbs (p : α → α) : α → ℕ → α → Prop
  | root {x : α} (top : p x = x) : Climbs p x 0 x
  | step {x : α} {k : ℕ} {r : α} (under : p x ≠ x) (rest : Climbs p (p x) k r) : Climbs p x (k + 1) r

/-- The root over a node. -/
def Root (p : α → α) (x r : α) : Prop := ∃ k, Climbs p x k r

/-- Every node has a root. -/
def Grounded (p : α → α) : Prop := ∀ x, ∃ r, Root p x r

/-- Two nodes under one root. -/
def SameTree (p : α → α) (x y : α) : Prop := ∃ r, Root p x r ∧ Root p y r

theorem Climbs.top (h : Climbs p x k r) : p r = r := by
  induction h with
  | root top => exact top
  | step under rest ih => exact ih

theorem Climbs.unique (h : Climbs p x k r) (h' : Climbs p x l s) : k = l ∧ r = s := by
  induction h generalizing l with
  | root top =>
    cases h' with
    | root _ => exact ⟨rfl, rfl⟩
    | step under _ => exact absurd top under
  | step under rest ih =>
    cases h' with
    | root top => exact absurd top under
    | step _ rest' =>
      obtain ⟨rfl, rfl⟩ := ih rest'
      exact ⟨rfl, rfl⟩

theorem Root.top (h : Root p x r) : p r = r := h.choose_spec.top

theorem Root.unique (h : Root p x r) (h' : Root p x s) : r = s := (h.choose_spec.unique h'.choose_spec).2

theorem root_self (top : p r = r) : Root p r r := ⟨0, .root top⟩

theorem root_of_top (top : p x = x) (h : Root p x r) : r = x := h.unique (root_self top)

theorem sameTree_refl (grounded : Grounded p) (x : α) : SameTree p x x := by
  obtain ⟨r, hr⟩ := grounded x
  exact ⟨r, hr, hr⟩

theorem SameTree.symm (h : SameTree p x y) : SameTree p y x := by
  obtain ⟨r, hx, hy⟩ := h
  exact ⟨r, hy, hx⟩

theorem SameTree.trans {z : α} (h : SameTree p x y) (h' : SameTree p y z) : SameTree p x z := by
  obtain ⟨r, hx, hy⟩ := h
  obtain ⟨s, hy', hz⟩ := h'
  obtain rfl := hy.unique hy'
  exact ⟨r, hx, hz⟩

theorem sameTree_iff (hx : Root p x r) (hy : Root p y s) : SameTree p x y ↔ r = s := by
  constructor
  · rintro ⟨t, hxt, hyt⟩
    rw [hx.unique hxt, hy.unique hyt]
  · rintro rfl
    exact ⟨r, hx, hy⟩

/-! ## The length of a climb -/

theorem Climbs.iterate (h : Climbs p x k r) {i : ℕ} (hi : i ≤ k) : Climbs p (p^[i] x) (k - i) r := by
  induction h generalizing i with
  | root top =>
    obtain rfl : i = 0 := Nat.le_zero.mp hi
    exact .root top
  | step under rest ih =>
    cases i with
    | zero => exact .step under rest
    | succ i =>
      rw [Function.iterate_succ_apply, Nat.add_sub_add_right]
      exact ih (Nat.le_of_succ_le_succ hi)

/-- A climb meets no node twice, so it is shorter than the number of nodes it stays among. -/
theorem Climbs.length_lt (h : Climbs p x k r) {nodes : Finset α} (start : x ∈ nodes) (closed : ∀ y ∈ nodes, p y ∈ nodes) :
    k < nodes.card := by
  have hinside : ∀ i, p^[i] x ∈ nodes := by
    intro i
    induction i with
    | zero => exact start
    | succ i ih =>
      rw [Function.iterate_succ_apply']
      exact closed _ ih
  have hdistinct : Set.InjOn (fun i => p^[i] x) (Finset.range (k + 1)) := by
    intro i hi j hj heq
    rw [Finset.mem_coe, Finset.mem_range] at hi hj
    have hclimb := h.iterate (Nat.le_of_lt_succ hj)
    rw [← show p^[i] x = p^[j] x from heq] at hclimb
    have := ((h.iterate (Nat.le_of_lt_succ hi)).unique hclimb).1
    omega
  have hcard := Finset.card_le_card_of_injOn _ (fun i _ => hinside i) hdistinct
  rw [Finset.card_range] at hcard
  exact hcard

/-! ## Putting a node elsewhere -/

section Update
variable [DecidableEq α]

/-- A node put under its root leaves every root in place, and no way gets longer. -/
theorem Climbs.flatten (h : Climbs p x k r) {i : ℕ} (under : p a ≠ a) (ha : Climbs p a i s) :
    ∃ k' ≤ k, Climbs (Function.update p a s) x k' r := by
  have hne : s ≠ a := by
    rintro rfl
    exact under ha.top
  have htop : Function.update p a s s = s := by rw [Function.update_of_ne hne, ha.top]
  induction h with
  | @root x top =>
    have hx : x ≠ a := by
      rintro rfl
      exact under top
    refine ⟨0, le_rfl, .root ?_⟩
    rw [Function.update_of_ne hx, top]
  | @step x k r hup rest ih =>
    by_cases hx : x = a
    · subst hx
      obtain rfl := (ha.unique (.step hup rest)).2
      refine ⟨1, Nat.succ_le_succ (Nat.zero_le k), .step ?_ ?_⟩
      · rwa [Function.update_self]
      · rw [Function.update_self]
        exact .root htop
    · obtain ⟨k', hle, hrest⟩ := ih
      refine ⟨k' + 1, Nat.succ_le_succ hle, .step ?_ ?_⟩
      · rwa [Function.update_of_ne hx]
      · rwa [Function.update_of_ne hx]

/-- A root put under another: what was under the first is now under the second. -/
theorem Climbs.link (h : Climbs p x k r) (ha : p a = a) (hb : p b = b) (hne : a ≠ b) :
    Root (Function.update p a b) x (if r = a then b else r) := by
  have htop : Function.update p a b b = b := by rw [Function.update_of_ne hne.symm, hb]
  induction h with
  | @root x top =>
    split_ifs with hx
    · subst hx
      refine ⟨1, .step ?_ ?_⟩
      · rw [Function.update_self]
        exact hne.symm
      · rw [Function.update_self]
        exact .root htop
    · refine ⟨0, .root ?_⟩
      rw [Function.update_of_ne hx, top]
  | @step x k r hup rest ih =>
    have hx : x ≠ a := by
      rintro rfl
      exact hup ha
    obtain ⟨k', hrest⟩ := ih
    refine ⟨k' + 1, .step ?_ ?_⟩
    · rwa [Function.update_of_ne hx]
    · rwa [Function.update_of_ne hx]

theorem Grounded.link (h : Grounded p) (ha : p a = a) (hb : p b = b) (hne : a ≠ b) : Grounded (Function.update p a b) := by
  intro x
  obtain ⟨r, k, hk⟩ := h x
  exact ⟨_, hk.link ha hb hne⟩

/-- The trees of a linked forest. -/
theorem sameTree_link_iff (h : Grounded p) (hx : Root p x a) (hy : Root p y b) (hne : a ≠ b) (u v : α) :
    SameTree (Function.update p a b) u v ↔
      SameTree p u v ∨ (SameTree p u x ∧ SameTree p y v) ∨ (SameTree p u y ∧ SameTree p x v) := by
  obtain ⟨r, hr⟩ := h u
  obtain ⟨s, hs⟩ := h v
  rw [sameTree_iff (hr.choose_spec.link hx.top hy.top hne) (hs.choose_spec.link hx.top hy.top hne), sameTree_iff hr hs,
    sameTree_iff hr hx, sameTree_iff hr hy, sameTree_iff hx hs, sameTree_iff hy hs]
  split_ifs <;> grind

end Update

/-! ## What pairs generate -/

/-- A pair more, in the equivalence that a relation generates. -/
theorem eqvGen_or_pair_iff {rel : α → α → Prop} (u v : α) :
    Relation.EqvGen (fun c d => rel c d ∨ c = a ∧ d = b) u v ↔ Relation.EqvGen rel u v ∨
      (Relation.EqvGen rel u a ∧ Relation.EqvGen rel b v) ∨ (Relation.EqvGen rel u b ∧ Relation.EqvGen rel a v) := by
  have hmono : ∀ {c d}, Relation.EqvGen rel c d → Relation.EqvGen (fun c d => rel c d ∨ c = a ∧ d = b) c d :=
    fun h => Relation.EqvGen.mono (fun _ _ => Or.inl) _ _ h
  have hpair : Relation.EqvGen (fun c d => rel c d ∨ c = a ∧ d = b) a b := .rel _ _ (.inr ⟨rfl, rfl⟩)
  constructor
  · intro h
    induction h with
    | rel c d h =>
      rcases h with h | ⟨rfl, rfl⟩
      · exact .inl (.rel _ _ h)
      · exact .inr (.inl ⟨.refl _, .refl _⟩)
    | refl c => exact .inl (.refl c)
    | symm c d _ ih =>
      rcases ih with h | ⟨h, h'⟩ | ⟨h, h'⟩
      · exact .inl h.symm
      · exact .inr (.inr ⟨h'.symm, h.symm⟩)
      · exact .inr (.inl ⟨h'.symm, h.symm⟩)
    | trans c d e _ _ ih ih' =>
      rcases ih with h | ⟨h, h'⟩ | ⟨h, h'⟩
      · rcases ih' with g | ⟨g, g'⟩ | ⟨g, g'⟩
        · exact .inl (h.trans _ _ _ g)
        · exact .inr (.inl ⟨h.trans _ _ _ g, g'⟩)
        · exact .inr (.inr ⟨h.trans _ _ _ g, g'⟩)
      · rcases ih' with g | ⟨g, g'⟩ | ⟨g, g'⟩
        · exact .inr (.inl ⟨h, h'.trans _ _ _ g⟩)
        · exact .inr (.inl ⟨h, g'⟩)
        · exact .inl (h.trans _ _ _ g')
      · rcases ih' with g | ⟨g, g'⟩ | ⟨g, g'⟩
        · exact .inr (.inr ⟨h, h'.trans _ _ _ g⟩)
        · exact .inl (h.trans _ _ _ g')
        · exact .inr (.inr ⟨h, g'⟩)
  · rintro (h | ⟨h, h'⟩ | ⟨h, h'⟩)
    · exact hmono h
    · exact (hmono h).trans _ _ _ (hpair.trans _ _ _ (hmono h'))
    · exact (hmono h).trans _ _ _ ((hpair.symm _ _).trans _ _ _ (hmono h'))

end CockroachChat.Forests
