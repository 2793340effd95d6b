import CockroachChat.Foundations.Forests

/-! # Union-find of the simulator

The parents are an array that `find` walks up and then flattens. Its loops run on fuel; `none` is an
index past the end or fuel spent. -/
namespace CockroachChat
set_option autoImplicit false

structure UnionFind where
  parent : List ℕ

namespace UnionFind
open Forests (Climbs Grounded Root SameTree)

def new (n : ℕ) : UnionFind where
  parent := List.range n

/-- `while self.parent[root] != root`. -/
def findRoot (parent : List ℕ) : ℕ → ℕ → Option ℕ
  | 0, _ => none
  | fuel + 1, root => do
      let next ← parent[root]?
      if next ≠ root then findRoot parent fuel next else some root

/-- The path compression: `while self.parent[cur] != root`. -/
def compress (root : ℕ) : ℕ → List ℕ → ℕ → Option (List ℕ)
  | 0, _, _ => none
  | fuel + 1, parent, cur => do
      let next ← parent[cur]?
      if next ≠ root then compress root fuel (parent.set cur root) next else some parent

def find (fuel : ℕ) (uf : UnionFind) (x : ℕ) : Option (UnionFind × ℕ) := do
  let root ← findRoot uf.parent fuel x
  let parent ← compress root fuel uf.parent x
  some ({ parent }, root)

def union (fuel : ℕ) (uf : UnionFind) (a b : ℕ) : Option UnionFind := do
  let (uf, ra) ← uf.find fuel a
  let (uf, rb) ← uf.find fuel b
  if ra ≠ rb then some { parent := uf.parent.set ra rb } else some uf

/-! ## The forest of the parents -/

/-- The parent of a node; nodes past the end are roots. -/
def up (uf : UnionFind) (x : ℕ) : ℕ := uf.parent[x]?.getD x

/-- Parents of `n` nodes, on which no way up is endless. -/
structure Sound (n : ℕ) (uf : UnionFind) : Prop where
  length : uf.parent.length = n
  closed : ∀ x < n, uf.up x < n
  grounded : Grounded uf.up

theorem up_set (uf : UnionFind) {a : ℕ} (h : a < uf.parent.length) (b : ℕ) :
    up { parent := uf.parent.set a b } = Function.update uf.up a b := by
  funext x
  unfold up
  rw [List.getElem?_set]
  by_cases hx : x = a
  · subst hx
    simp [h]
  · rw [if_neg (Ne.symm hx), Function.update_of_ne hx]

theorem getElem?_up {uf : UnionFind} {x : ℕ} (h : x < uf.parent.length) : uf.parent[x]? = some (uf.up x) := by
  rw [up, List.getElem?_eq_getElem h]
  rfl

theorem new_up (n x : ℕ) : (new n).up x = x := by
  by_cases h : x < n
  · simp [up, new, h]
  · simp [up, new, Nat.le_of_not_lt h]

theorem new_sound (n : ℕ) : Sound n (new n) where
  length := List.length_range
  closed x hx := by rwa [new_up]
  grounded x := ⟨x, Forests.root_self (new_up n x)⟩

section Sound
variable {n : ℕ} {uf : UnionFind} {x : ℕ}

theorem Sound.climb_lt (h : Sound n uf) (hx : x < n) {k r : ℕ} (climb : Climbs uf.up x k r) : k < n := by
  have hlt := climb.length_lt (Finset.mem_range.mpr hx) fun y hy => Finset.mem_range.mpr (h.closed y (Finset.mem_range.mp hy))
  rwa [Finset.card_range] at hlt

theorem Sound.root_lt (h : Sound n uf) (hx : x < n) {k r : ℕ} (climb : Climbs uf.up x k r) : r < n := by
  induction climb with
  | root top => exact hx
  | step under rest ih => exact ih (h.closed _ hx)

/-- What `n` nodes have for parents after one of them is put under another. -/
theorem Sound.set (h : Sound n uf) {a b : ℕ} (ha : a < n) (hb : b < n) (grounded : Grounded (Function.update uf.up a b)) :
    Sound n { parent := uf.parent.set a b } := by
  have hup := up_set uf (h.length.symm ▸ ha) b
  refine ⟨by rw [List.length_set, h.length], fun x hx => ?_, by rwa [hup]⟩
  rw [hup, Function.update_apply]
  split_ifs
  · exact hb
  · exact h.closed x hx

/-! ## The loops -/

theorem findRoot_eq (h : Sound n uf) (hx : x < n) {k r : ℕ} (climb : Climbs uf.up x k r) {fuel : ℕ} (hfuel : k < fuel) :
    findRoot uf.parent fuel x = some r := by
  induction climb generalizing fuel with
  | @root x top =>
    obtain ⟨fuel, rfl⟩ : ∃ f, fuel = f + 1 := ⟨fuel - 1, by omega⟩
    rw [findRoot, getElem?_up (h.length.symm ▸ hx), top]
    simp
  | @step x k r under rest ih =>
    obtain ⟨fuel, rfl⟩ : ∃ f, fuel = f + 1 := ⟨fuel - 1, by omega⟩
    rw [findRoot, getElem?_up (h.length.symm ▸ hx)]
    simp only [Option.bind_eq_bind, Option.bind_some, ne_eq, under, not_false_eq_true, if_true]
    exact ih (h.closed x hx) (by omega)

/-- The parents are flattened: every root stays, and no way gets longer. -/
structure Flattens (n : ℕ) (uf uf' : UnionFind) : Prop where
  sound : Sound n uf'
  climbs : ∀ {x k r}, Climbs uf.up x k r → ∃ k' ≤ k, Climbs uf'.up x k' r

theorem Flattens.refl (h : Sound n uf) : Flattens n uf uf := ⟨h, fun {_ k _} climb => ⟨k, le_rfl, climb⟩⟩

theorem Flattens.trans {uf₁ uf₂ uf₃ : UnionFind} (h : Flattens n uf₁ uf₂) (h' : Flattens n uf₂ uf₃) : Flattens n uf₁ uf₃ := by
  refine ⟨h'.sound, fun climb => ?_⟩
  obtain ⟨k', hle, climb'⟩ := h.climbs climb
  obtain ⟨k'', hle', climb''⟩ := h'.climbs climb'
  exact ⟨k'', hle'.trans hle, climb''⟩

theorem Flattens.root_iff {uf uf' : UnionFind} (h : Sound n uf) (flattens : Flattens n uf uf') (x r : ℕ) :
    Root uf'.up x r ↔ Root uf.up x r := by
  have hforth : ∀ s, Root uf.up x s → Root uf'.up x s := by
    rintro s ⟨k, climb⟩
    obtain ⟨k', -, climb'⟩ := flattens.climbs climb
    exact ⟨k', climb'⟩
  refine ⟨fun h' => ?_, hforth r⟩
  obtain ⟨s, hs⟩ := h.grounded x
  rwa [h'.unique (hforth s hs)]

theorem Flattens.sameTree_iff {uf uf' : UnionFind} (h : Sound n uf) (flattens : Flattens n uf uf') (x y : ℕ) :
    SameTree uf'.up x y ↔ SameTree uf.up x y := by
  simp only [SameTree, flattens.root_iff h]

/-- One turn of the compression. -/
theorem set_flattens (h : Sound n uf) (hx : x < n) {k r : ℕ} (under : uf.up x ≠ x) (climb : Climbs uf.up x k r) :
    Flattens n uf { parent := uf.parent.set x r } := by
  have hup := up_set uf (h.length.symm ▸ hx) r
  have hclimbs : ∀ {y l s}, Climbs uf.up y l s → ∃ l' ≤ l, Climbs (Function.update uf.up x r) y l' s :=
    fun climb' => climb'.flatten under climb
  refine ⟨h.set hx (h.root_lt hx climb) fun y => ?_, by rwa [hup]⟩
  obtain ⟨s, l, climb'⟩ := h.grounded y
  obtain ⟨l', -, climb''⟩ := hclimbs climb'
  exact ⟨s, l', climb''⟩

theorem compress_eq (h : Sound n uf) (hx : x < n) {k r : ℕ} (climb : Climbs uf.up x k r) :
    ∃ uf', Flattens n uf uf' ∧ ∀ fuel > k, compress r fuel uf.parent x = some uf'.parent := by
  induction k using Nat.strong_induction_on generalizing uf x with
  | h k ih =>
  by_cases hdone : uf.up x = r
  · refine ⟨uf, .refl h, fun fuel hfuel => ?_⟩
    obtain ⟨fuel, rfl⟩ : ∃ f, fuel = f + 1 := ⟨fuel - 1, by omega⟩
    rw [compress, getElem?_up (h.length.symm ▸ hx), hdone]
    simp
  · cases climb with
    | root top => exact absurd top hdone
    | @step _ k _ under rest =>
      have hflat := set_flattens h hx under (.step under rest)
      obtain ⟨k', hle, rest'⟩ := hflat.climbs rest
      obtain ⟨uf', hflat', hrun⟩ := ih k' (Nat.lt_succ_of_le hle) hflat.sound (h.closed x hx) rest'
      refine ⟨uf', hflat.trans hflat', fun fuel hfuel => ?_⟩
      obtain ⟨fuel, rfl⟩ : ∃ f, fuel = f + 1 := ⟨fuel - 1, by omega⟩
      rw [compress, getElem?_up (h.length.symm ▸ hx)]
      simp only [Option.bind_eq_bind, Option.bind_some, ne_eq, hdone, not_false_eq_true, if_true]
      exact hrun fuel (by omega)

/-- `find` ends with the root, and changes no tree. -/
theorem find_eq (h : Sound n uf) (hx : x < n) :
    ∃ uf' r, Flattens n uf uf' ∧ Root uf.up x r ∧ ∀ fuel ≥ n, uf.find fuel x = some (uf', r) := by
  obtain ⟨r, k, climb⟩ := h.grounded x
  have hk := h.climb_lt hx climb
  obtain ⟨uf', hflat, hrun⟩ := compress_eq h hx climb
  refine ⟨uf', r, hflat, ⟨k, climb⟩, fun fuel hfuel => ?_⟩
  rw [find, findRoot_eq h hx climb (by omega)]
  simp only [Option.bind_eq_bind, Option.bind_some, hrun fuel (by omega)]

/-- The roots among the nodes. -/
def roots (n : ℕ) (uf : UnionFind) : Finset ℕ := (Finset.range n).filter fun x => uf.up x = x

theorem mem_roots : x ∈ uf.roots n ↔ x < n ∧ uf.up x = x := by
  rw [roots, Finset.mem_filter, Finset.mem_range]

theorem Flattens.roots_eq {uf' : UnionFind} (h : Sound n uf) (flattens : Flattens n uf uf') : uf'.roots n = uf.roots n := by
  have htop : ∀ (v : UnionFind) y, v.up y = y ↔ Root v.up y y := fun v y => ⟨Forests.root_self, Root.top⟩
  ext y
  rw [mem_roots, mem_roots, htop, htop, flattens.root_iff h]

/-- `union` joins the trees of its nodes; there is one root less, unless they were one tree. -/
theorem union_eq (h : Sound n uf) {a b : ℕ} (ha : a < n) (hb : b < n) :
    ∃ uf', Sound n uf' ∧ (∀ fuel ≥ n, uf.union fuel a b = some uf') ∧
      (∀ x y, SameTree uf'.up x y ↔ SameTree uf.up x y ∨ (SameTree uf.up x a ∧ SameTree uf.up b y) ∨
        (SameTree uf.up x b ∧ SameTree uf.up a y)) ∧
      (¬SameTree uf.up a b → (uf'.roots n).card + 1 = (uf.roots n).card) := by
  obtain ⟨uf₁, ra, hflat₁, hra, hfind₁⟩ := find_eq h ha
  obtain ⟨uf₂, rb, hflat₂, hrb₁, hfind₂⟩ := find_eq hflat₁.sound hb
  have hflat := hflat₁.trans hflat₂
  have hrb : Root uf.up b rb := (hflat₁.root_iff h b rb).mp hrb₁
  have ha₂ : Root uf₂.up a ra := (hflat.root_iff h a ra).mpr hra
  have hb₂ : Root uf₂.up b rb := (hflat.root_iff h b rb).mpr hrb
  have hunion : ∀ fuel ≥ n, uf.union fuel a b =
      some (if ra ≠ rb then { parent := uf₂.parent.set ra rb } else uf₂) := by
    intro fuel hfuel
    rw [union, hfind₁ fuel hfuel]
    simp only [Option.bind_eq_bind, Option.bind_some, hfind₂ fuel hfuel]
    split_ifs <;> rfl
  by_cases hne : ra = rb
  · subst hne
    have hsame : SameTree uf.up a b := ⟨ra, hra, hrb⟩
    refine ⟨uf₂, hflat.sound, fun fuel hfuel => by rw [hunion fuel hfuel]; simp, fun x y => ?_, fun h => absurd hsame h⟩
    rw [hflat.sameTree_iff h]
    constructor
    · exact .inl
    · rintro (h | ⟨hxa, hby⟩ | ⟨hxb, hay⟩)
      · exact h
      · exact (hxa.trans hsame).trans hby
      · exact (hxb.trans hsame.symm).trans hay
  · have hralt : ra < n := h.root_lt ha hra.choose_spec
    have hrblt : rb < n := h.root_lt hb hrb.choose_spec
    have hup := up_set uf₂ (hflat.sound.length.symm ▸ hralt) rb
    have hgrounded := hflat.sound.grounded.link ha₂.top hb₂.top hne
    refine ⟨{ parent := uf₂.parent.set ra rb }, hflat.sound.set hralt hrblt hgrounded,
      fun fuel hfuel => by rw [hunion fuel hfuel, if_pos hne], fun x y => ?_, fun _ => ?_⟩
    · rw [hup, Forests.sameTree_link_iff hflat.sound.grounded ha₂ hb₂ hne]
      simp only [hflat.sameTree_iff h]
    · rw [← hflat.roots_eq h]
      have herase : roots n { parent := uf₂.parent.set ra rb } = (uf₂.roots n).erase ra := by
        ext y
        rw [mem_roots, Finset.mem_erase, mem_roots, hup, Function.update_apply]
        split_ifs with hy
        · subst hy
          exact iff_of_false (fun h => hne h.2.symm) fun h => h.1 rfl
        · exact ⟨fun h => ⟨hy, h⟩, fun h => h.2⟩
      rw [herase]
      exact Finset.card_erase_add_one (mem_roots.mpr ⟨hralt, ha₂.top⟩)

end Sound
end UnionFind
end CockroachChat
