import CockroachChat.Sim.UnionFind

/-! # Connecting a crowd

A topology is a number of nodes and a list of edges between them. Where it falls apart, the nearest
nodes of different components are linked until one component is left. -/
namespace CockroachChat
set_option autoImplicit false

namespace Topology
open Forests (SameTree)
open UnionFind (Sound Flattens)

section Model
variable {D : Type} [LT D] [DecidableLT D]

/-- `for i in 0..n { for j in (i + 1)..n`. -/
def pairs (n : ℕ) : List (ℕ × ℕ) := (List.range n).flatMap fun i => (List.range' (i + 1) (n - (i + 1))).map (i, ·)

/-- One turn of the search for the closest pair whose roots differ. -/
def closer (fuel : ℕ) (dist2 : ℕ → ℕ → D) (s : UnionFind × Option (D × ℕ × ℕ)) (e : ℕ × ℕ) :
    Option (UnionFind × Option (D × ℕ × ℕ)) := do
  let (uf, best) := s
  let (uf, ri) ← uf.find fuel e.1
  let (uf, rj) ← uf.find fuel e.2
  if ri ≠ rj then
    let d := dist2 e.1 e.2
    if best.all fun b => d < b.1 then some (uf, some (d, e.1, e.2)) else some (uf, best)
  else some (uf, best)

/-- The loop of `connect_components`. -/
def connectLoop (fuel : ℕ) (n : ℕ) (dist2 : ℕ → ℕ → D) : ℕ → UnionFind → List (ℕ × ℕ) → Option (List (ℕ × ℕ))
  | 0, _, _ => none
  | turns + 1, uf, edges => do
      let (uf, best) ← (pairs n).foldlM (closer fuel dist2) (uf, none)
      match best with
      | some (_, i, j) =>
          let uf ← uf.union fuel i j
          connectLoop fuel n dist2 turns uf (edges ++ [(i, j)])
      | none => some edges

def connectComponents (fuel n : ℕ) (edges : List (ℕ × ℕ)) (dist2 : ℕ → ℕ → D) : Option (List (ℕ × ℕ)) := do
  let uf ← edges.foldlM (fun uf e => uf.union fuel e.1 e.2) (UnionFind.new n)
  connectLoop fuel n dist2 fuel uf edges

/-- The loop of `is_connected`. -/
def allJoined (fuel : ℕ) : UnionFind → List ℕ → Option Bool
  | _, [] => some true
  | uf, i :: nodes => do
      let (uf, ri) ← uf.find fuel i
      let (uf, r0) ← uf.find fuel 0
      if ri == r0 then allJoined fuel uf nodes else some false

def isConnected (fuel n : ℕ) (edges : List (ℕ × ℕ)) : Option Bool := do
  let uf ← edges.foldlM (fun uf e => uf.union fuel e.1 e.2) (UnionFind.new n)
  allJoined fuel uf (List.range n)

end Model

/-- What a union-find is asked. -/
inductive Request where
  | find (x : ℕ)
  | union (a b : ℕ)

namespace Request

def apply (fuel : ℕ) (uf : UnionFind) : Request → Option UnionFind
  | find x => (uf.find fuel x).map Prod.fst
  | union a b => uf.union fuel a b

/-- The edge that a request joins. -/
def joins : Request → List (ℕ × ℕ)
  | find _ => []
  | union a b => [(a, b)]

def Below (n : ℕ) : Request → Prop
  | find x => x < n
  | union a b => a < n ∧ b < n

end Request

/-! ## The graph -/

/-- The graph of a list of edges. -/
def graph (n : ℕ) (edges : List (ℕ × ℕ)) : SimpleGraph (Fin n) :=
  SimpleGraph.fromRel fun a b => (a.val, b.val) ∈ edges

/-- Edges between the nodes. -/
def Below (n : ℕ) (edges : List (ℕ × ℕ)) : Prop := ∀ e ∈ edges, e.1 < n ∧ e.2 < n

instance (n : ℕ) (edges : List (ℕ × ℕ)) : Decidable (Below n edges) := inferInstanceAs (Decidable (∀ e ∈ edges, _))

variable {n : ℕ} {edges : List (ℕ × ℕ)}

theorem reachable_iff (x y : Fin n) :
    (graph n edges).Reachable x y ↔ Relation.EqvGen (fun a b : Fin n => (a.val, b.val) ∈ edges) x y := by
  constructor
  · rintro ⟨walk⟩
    induction walk with
    | nil => exact .refl _
    | cons h _ ih =>
      rcases ((SimpleGraph.fromRel_adj _ _ _).mp h).2 with hedge | hedge
      · exact .trans _ _ _ (.rel _ _ hedge) ih
      · exact .trans _ _ _ (.symm _ _ (.rel _ _ hedge)) ih
  · intro h
    induction h with
    | rel a b hedge =>
      by_cases heq : a = b
      · rw [heq]
      · exact SimpleGraph.Adj.reachable ((SimpleGraph.fromRel_adj _ _ _).mpr ⟨heq, .inl hedge⟩)
    | refl a => exact .refl a
    | symm _ _ _ ih => exact ih.symm
    | trans _ _ _ _ _ ih ih' => exact ih.trans ih'

/-- An edge more. -/
theorem reachable_snoc_iff {a b : ℕ} (ha : a < n) (hb : b < n) (x y : Fin n) :
    (graph n (edges ++ [(a, b)])).Reachable x y ↔ (graph n edges).Reachable x y ∨
      ((graph n edges).Reachable x ⟨a, ha⟩ ∧ (graph n edges).Reachable ⟨b, hb⟩ y) ∨
      ((graph n edges).Reachable x ⟨b, hb⟩ ∧ (graph n edges).Reachable ⟨a, ha⟩ y) := by
  have hrel : (fun c d : Fin n => (c.val, d.val) ∈ edges ++ [(a, b)]) =
      fun c d => (c.val, d.val) ∈ edges ∨ c = ⟨a, ha⟩ ∧ d = ⟨b, hb⟩ := by
    funext c d
    simp [Fin.ext_iff]
  simp only [reachable_iff, hrel]
  exact Forests.eqvGen_or_pair_iff x y

/-- The trees are the components of the edges joined so far. -/
structure Tracks (n : ℕ) (uf : UnionFind) (edges : List (ℕ × ℕ)) : Prop where
  sound : Sound n uf
  trees : ∀ x y : Fin n, SameTree uf.up x y ↔ (graph n edges).Reachable x y

theorem tracks_new (n : ℕ) : Tracks n (UnionFind.new n) [] := by
  refine ⟨UnionFind.new_sound n, fun x y => ?_⟩
  have htop : ∀ z : ℕ, Forests.Root (UnionFind.new n).up z z := fun z => Forests.root_self (UnionFind.new_up n z)
  rw [Forests.sameTree_iff (htop x) (htop y), ← Fin.ext_iff, reachable_iff]
  constructor
  · rintro rfl
    exact .refl _
  · intro h
    induction h with
    | rel a b h => cases h
    | refl a => rfl
    | symm _ _ _ ih => exact ih.symm
    | trans _ _ _ _ _ ih ih' => exact ih.trans ih'

theorem Tracks.flattens {uf uf' : UnionFind} (h : Tracks n uf edges) (flattens : Flattens n uf uf') : Tracks n uf' edges :=
  ⟨flattens.sound, fun x y => (flattens.sameTree_iff h.sound x y).trans (h.trees x y)⟩

/-- `union` is an edge more. -/
theorem Tracks.union {uf : UnionFind} (h : Tracks n uf edges) {a b : ℕ} (ha : a < n) (hb : b < n) :
    ∃ uf', Tracks n uf' (edges ++ [(a, b)]) ∧ (∀ fuel ≥ n, uf.union fuel a b = some uf') ∧
      (¬SameTree uf.up a b → (uf'.roots n).card + 1 = (uf.roots n).card) := by
  obtain ⟨uf', hsound, hrun, htrees, hcard⟩ := UnionFind.union_eq h.sound ha hb
  refine ⟨uf', ⟨hsound, fun x y => ?_⟩, hrun, hcard⟩
  rw [htrees, reachable_snoc_iff ha hb]
  simp only [← h.trees]

/-- There are as many components as roots. -/
theorem Tracks.card_components {uf : UnionFind} (h : Tracks n uf edges) :
    Nat.card (graph n edges).ConnectedComponent = (uf.roots n).card := by
  let component : uf.roots n → (graph n edges).ConnectedComponent :=
    fun r => (graph n edges).connectedComponentMk ⟨r.1, (UnionFind.mem_roots.mp r.2).1⟩
  have hbijective : Function.Bijective component := by
    constructor
    · rintro ⟨r, hr⟩ ⟨s, hs⟩ heq
      have hsame := (h.trees _ _).mpr (SimpleGraph.ConnectedComponent.exact heq)
      obtain ⟨-, htop⟩ := UnionFind.mem_roots.mp hr
      obtain ⟨-, htop'⟩ := UnionFind.mem_roots.mp hs
      exact Subtype.ext ((Forests.sameTree_iff (Forests.root_self htop) (Forests.root_self htop')).mp hsame)
    · intro c
      induction c using SimpleGraph.ConnectedComponent.ind with
      | h x =>
        obtain ⟨r, hr⟩ := h.sound.grounded x
        have hlt := h.sound.root_lt x.isLt hr.choose_spec
        refine ⟨⟨r, UnionFind.mem_roots.mpr ⟨hlt, hr.top⟩⟩, SimpleGraph.ConnectedComponent.sound ?_⟩
        exact (h.trees ⟨r, hlt⟩ x).mp ⟨r, Forests.root_self hr.top, hr⟩
  rw [← Nat.card_eq_of_bijective component hbijective, Nat.card_eq_fintype_card, Fintype.card_coe]

/-! ## The search for the closest pair -/

theorem mem_pairs {e : ℕ × ℕ} : e ∈ pairs n ↔ e.1 < e.2 ∧ e.2 < n := by
  obtain ⟨i, j⟩ := e
  simp only [pairs, List.mem_flatMap, List.mem_range, List.mem_map, List.mem_range'_1, Prod.mk.injEq]
  constructor
  · rintro ⟨i', hi, j', ⟨hj, hj'⟩, rfl, rfl⟩
    omega
  · rintro ⟨hlt, hj⟩
    exact ⟨i, by omega, j, by omega, rfl, rfl⟩

section Search
variable {D : Type} [LT D] [DecidableLT D] (dist2 : ℕ → ℕ → D)

theorem closer_eq {uf : UnionFind} (h : Sound n uf) (best : Option (D × ℕ × ℕ)) {e : ℕ × ℕ} (he : e.1 < n ∧ e.2 < n) :
    ∃ uf' best', Flattens n uf uf' ∧ (∀ fuel ≥ n, closer fuel dist2 (uf, best) e = some (uf', best')) ∧
      (best' = none → best = none ∧ SameTree uf.up e.1 e.2) ∧
      ∀ d i j, best' = some (d, i, j) → best = some (d, i, j) ∨ (i, j) = e ∧ ¬SameTree uf.up i j := by
  obtain ⟨uf₁, ri, hflat₁, hri, hfind₁⟩ := UnionFind.find_eq h he.1
  obtain ⟨uf₂, rj, hflat₂, hrj₁, hfind₂⟩ := UnionFind.find_eq hflat₁.sound he.2
  have hrj := (hflat₁.root_iff h e.2 rj).mp hrj₁
  have hsame := Forests.sameTree_iff hri hrj
  refine ⟨uf₂, if ri ≠ rj then if best.all (fun b => dist2 e.1 e.2 < b.1) then some (dist2 e.1 e.2, e.1, e.2) else best
    else best, hflat₁.trans hflat₂, fun fuel hfuel => ?_, ?_, fun d i j => ?_⟩
  · rw [closer]
    simp only [Option.bind_eq_bind, hfind₁ fuel hfuel, Option.bind_some, hfind₂ fuel hfuel]
    split_ifs <;> rfl
  · split_ifs with hne hcloser
    · simp
    · rintro rfl
      simp at hcloser
    · exact fun hnone => ⟨hnone, hsame.mpr (not_not.mp hne)⟩
  · split_ifs with hne hcloser
    · intro hbest
      simp only [Option.some.injEq, Prod.mk.injEq] at hbest
      obtain ⟨-, rfl, rfl⟩ := hbest
      exact .inr ⟨rfl, fun h => hne (hsame.mp h)⟩
    · exact .inl
    · exact .inl

theorem search_eq {uf : UnionFind} (h : Sound n uf) (best : Option (D × ℕ × ℕ)) {l : List (ℕ × ℕ)} (hl : Below n l) :
    ∃ uf' best', Flattens n uf uf' ∧ (∀ fuel ≥ n, l.foldlM (closer fuel dist2) (uf, best) = some (uf', best')) ∧
      (best' = none → best = none ∧ ∀ e ∈ l, SameTree uf.up e.1 e.2) ∧
      ∀ d i j, best' = some (d, i, j) → best = some (d, i, j) ∨ (i, j) ∈ l ∧ ¬SameTree uf.up i j := by
  induction l generalizing uf best with
  | nil => exact ⟨uf, best, .refl h, fun _ _ => rfl, fun hnone => ⟨hnone, by simp⟩, fun _ _ _ hbest => .inl hbest⟩
  | cons e l ih =>
    obtain ⟨uf₁, best₁, hflat₁, hrun₁, hnone₁, hsome₁⟩ := closer_eq dist2 h best (hl e List.mem_cons_self)
    obtain ⟨uf₂, best₂, hflat₂, hrun₂, hnone₂, hsome₂⟩ := ih hflat₁.sound best₁ fun e' he' => hl e' (List.mem_cons_of_mem e he')
    refine ⟨uf₂, best₂, hflat₁.trans hflat₂, fun fuel hfuel => ?_, fun hnone => ?_, fun d i j hbest => ?_⟩
    · rw [List.foldlM_cons, hrun₁ fuel hfuel]
      exact hrun₂ fuel hfuel
    · obtain ⟨hbest₁, hrest⟩ := hnone₂ hnone
      obtain ⟨hbest, hhead⟩ := hnone₁ hbest₁
      refine ⟨hbest, fun e' he' => ?_⟩
      rcases List.mem_cons.mp he' with rfl | he'
      · exact hhead
      · exact (hflat₁.sameTree_iff h _ _).mp (hrest e' he')
    · rcases hsome₂ d i j hbest with hbest₁ | ⟨hmem, hdiffer⟩
      · rcases hsome₁ d i j hbest₁ with hbest₀ | ⟨rfl, hdiffer⟩
        · exact .inl hbest₀
        · exact .inr ⟨List.mem_cons_self, hdiffer⟩
      · exact .inr ⟨List.mem_cons_of_mem e hmem, fun h' => hdiffer ((hflat₁.sameTree_iff h i j).mpr h')⟩

end Search

/-! ## Whole runs -/

/-- After any requests the trees are the components of what they joined. -/
theorem requests_tracks (requests : List Request) {uf : UnionFind} (h : Tracks n uf edges) (below : ∀ q ∈ requests, q.Below n) :
    ∃ uf', Tracks n uf' (edges ++ requests.flatMap Request.joins) ∧
      ∀ fuel ≥ n, requests.foldlM (Request.apply fuel) uf = some uf' := by
  induction requests generalizing uf edges with
  | nil => exact ⟨uf, by simpa using h, fun _ _ => rfl⟩
  | cons q requests ih =>
    have hrest : ∀ q' ∈ requests, q'.Below n := fun q' hq' => below q' (List.mem_cons_of_mem q hq')
    have hq := below q List.mem_cons_self
    have hstep : ∃ uf₁, Tracks n uf₁ (edges ++ q.joins) ∧ ∀ fuel ≥ n, q.apply fuel uf = some uf₁ := by
      cases q with
      | find x =>
        obtain ⟨uf₁, r, hflat, -, hfind⟩ := UnionFind.find_eq h.sound hq
        refine ⟨uf₁, ?_, fun fuel hfuel => ?_⟩
        · rw [Request.joins, List.append_nil]
          exact h.flattens hflat
        · rw [Request.apply, hfind fuel hfuel]
          rfl
      | union a b =>
        obtain ⟨uf₁, htracks, hrun, -⟩ := h.union hq.1 hq.2
        exact ⟨uf₁, htracks, hrun⟩
    obtain ⟨uf₁, htracks₁, hrun₁⟩ := hstep
    obtain ⟨uf₂, htracks₂, hrun₂⟩ := ih htracks₁ hrest
    refine ⟨uf₂, by rwa [List.flatMap_cons, ← List.append_assoc], fun fuel hfuel => ?_⟩
    rw [List.foldlM_cons, hrun₁ fuel hfuel]
    exact hrun₂ fuel hfuel

/-- The edges joined one after the other. -/
theorem edges_tracks (below : Below n edges) :
    ∃ uf, Tracks n uf edges ∧
      ∀ fuel ≥ n, edges.foldlM (fun uf e => uf.union fuel e.1 e.2) (UnionFind.new n) = some uf := by
  have hbelow : ∀ q ∈ edges.map fun e => Request.union e.1 e.2, q.Below n := by
    intro q hq
    obtain ⟨e, he, rfl⟩ := List.mem_map.mp hq
    exact below e he
  obtain ⟨uf, htracks, hrun⟩ := requests_tracks _ (tracks_new n) hbelow
  have hjoins : (edges.map fun e => Request.union e.1 e.2).flatMap Request.joins = edges := by
    rw [List.flatMap_map]
    exact List.flatMap_singleton' edges
  rw [hjoins] at htracks
  refine ⟨uf, htracks, fun fuel hfuel => ?_⟩
  rw [← hrun fuel hfuel, List.foldlM_map]
  rfl

theorem roots_pos {uf : UnionFind} (h : Sound n uf) (hn : 0 < n) : 0 < (uf.roots n).card := by
  obtain ⟨r, hr⟩ := h.grounded 0
  exact Finset.card_pos.mpr ⟨r, UnionFind.mem_roots.mpr ⟨h.root_lt hn hr.choose_spec, hr.top⟩⟩

theorem connectLoop_eq {D : Type} [LT D] [DecidableLT D] (dist2 : ℕ → ℕ → D) {uf : UnionFind} (h : Tracks n uf edges) :
    ∃ added, Below n added ∧ added.length = (uf.roots n).card - 1 ∧
      (∀ fuel ≥ n, ∀ turns > (uf.roots n).card - 1, connectLoop fuel n dist2 turns uf edges = some (edges ++ added)) ∧
      ∀ x y, (graph n (edges ++ added)).Reachable x y := by
  generalize hc : (uf.roots n).card = c
  induction c using Nat.strong_induction_on generalizing uf edges with
  | h c ih =>
  subst hc
  have hpairs : Below n (pairs n) := fun e he => by
    have := mem_pairs.mp he
    omega
  obtain ⟨uf₁, best, hflat, hsearch, hnone, hsome⟩ := search_eq dist2 h.sound none hpairs
  cases best with
  | none =>
    obtain ⟨-, hall⟩ := hnone rfl
    have hone : ∀ x y : Fin n, SameTree uf.up x y := by
      intro x y
      rcases lt_trichotomy x.val y.val with hlt | heq | hgt
      · exact hall (x.val, y.val) (mem_pairs.mpr ⟨hlt, y.isLt⟩)
      · rw [heq]
        exact Forests.sameTree_refl h.sound.grounded y.val
      · exact (hall (y.val, x.val) (mem_pairs.mpr ⟨hgt, x.isLt⟩)).symm
    have hfew : (uf.roots n).card ≤ 1 := by
      rw [Finset.card_le_one]
      intro r hr s hs
      obtain ⟨hrlt, htop⟩ := UnionFind.mem_roots.mp hr
      obtain ⟨hslt, htop'⟩ := UnionFind.mem_roots.mp hs
      exact (Forests.sameTree_iff (Forests.root_self htop) (Forests.root_self htop')).mp (hone ⟨r, hrlt⟩ ⟨s, hslt⟩)
    refine ⟨[], by simp [Below], by simp; omega, fun fuel hfuel turns hturns => ?_, fun x y => ?_⟩
    · obtain ⟨turns, rfl⟩ : ∃ k, turns = k + 1 := ⟨turns - 1, by omega⟩
      rw [connectLoop, hsearch fuel hfuel, List.append_nil]
      rfl
    · rw [List.append_nil]
      exact (h.trees x y).mp (hone x y)
  | some closest =>
    obtain ⟨d, i, j⟩ := closest
    obtain ⟨hmem, hdiffer⟩ := (hsome d i j rfl).resolve_left (by simp)
    obtain ⟨hij, hj⟩ := mem_pairs.mp hmem
    have hi : i < n := hij.trans hj
    obtain ⟨uf₂, htracks, hunion, hcard⟩ := (h.flattens hflat).union hi hj
    have hless : (uf₂.roots n).card + 1 = (uf.roots n).card := by
      rw [← hflat.roots_eq h.sound]
      exact hcard fun hsame => hdiffer ((hflat.sameTree_iff h.sound i j).mp hsame)
    have hpos := roots_pos htracks.sound (Nat.zero_lt_of_lt hj)
    obtain ⟨added, hbelow, hlen, hrun, hreach⟩ := ih _ (by omega) htracks rfl
    have happend : edges ++ (i, j) :: added = edges ++ [(i, j)] ++ added := by simp
    refine ⟨(i, j) :: added, List.forall_mem_cons.mpr ⟨⟨hi, hj⟩, hbelow⟩, by rw [List.length_cons]; omega,
      fun fuel hfuel turns hturns => ?_, by rwa [happend]⟩
    obtain ⟨turns, rfl⟩ : ∃ k, turns = k + 1 := ⟨turns - 1, by omega⟩
    rw [connectLoop, hsearch fuel hfuel, happend]
    simp only [Option.bind_eq_bind, Option.bind_some, hunion fuel hfuel]
    exact hrun fuel hfuel turns (by omega)

theorem allJoined_eq {uf : UnionFind} (h : Sound n uf) {nodes : List ℕ} (below : ∀ x ∈ nodes, x < n) :
    ∃ joined, (∀ fuel ≥ n, allJoined fuel uf nodes = some joined) ∧
      (joined = true ↔ ∀ x ∈ nodes, SameTree uf.up x 0) := by
  induction nodes generalizing uf with
  | nil => exact ⟨true, fun _ _ => rfl, by simp⟩
  | cons x nodes ih =>
    have hx : x < n := below x List.mem_cons_self
    obtain ⟨uf₁, rx, hflat₁, hrx, hfind₁⟩ := UnionFind.find_eq h hx
    obtain ⟨uf₂, r₀, hflat₂, hr₀₁, hfind₂⟩ := UnionFind.find_eq hflat₁.sound (Nat.zero_lt_of_lt hx)
    have hr₀ := (hflat₁.root_iff h 0 r₀).mp hr₀₁
    have hflat := hflat₁.trans hflat₂
    obtain ⟨joined, hrun, hjoined⟩ := ih hflat.sound fun y hy => below y (List.mem_cons_of_mem x hy)
    refine ⟨if rx = r₀ then joined else false, fun fuel hfuel => ?_, ?_⟩
    · rw [allJoined, hfind₁ fuel hfuel]
      simp only [Option.bind_eq_bind, Option.bind_some, hfind₂ fuel hfuel, beq_iff_eq, hrun fuel hfuel]
      split_ifs <;> rfl
    · rw [List.forall_mem_cons, Forests.sameTree_iff hrx hr₀]
      split_ifs with hroots
      · simp only [hjoined, hflat.sameTree_iff h, hroots, true_and]
      · simp [hroots]

/-- `is_connected` says whether the graph is connected. -/
theorem isConnected_eq (hn : 1 ≤ n) (below : Below n edges) :
    ∃ joined, (∀ fuel ≥ n, isConnected fuel n edges = some joined) ∧ (joined = true ↔ (graph n edges).Connected) := by
  obtain ⟨uf, htracks, hrun⟩ := edges_tracks below
  have hnodes : ∀ x ∈ List.range n, x < n := fun x hx => List.mem_range.mp hx
  obtain ⟨joined, hall, hjoined⟩ := allJoined_eq htracks.sound hnodes
  refine ⟨joined, fun fuel hfuel => ?_, ?_⟩
  · rw [isConnected, hrun fuel hfuel]
    exact hall fuel hfuel
  · have : Nonempty (Fin n) := ⟨⟨0, hn⟩⟩
    rw [hjoined, SimpleGraph.connected_iff, and_iff_left this]
    constructor
    · intro h x y
      have hsame : ∀ z : Fin n, (graph n edges).Reachable z ⟨0, hn⟩ :=
        fun z => (htracks.trees z ⟨0, hn⟩).mp (h z (List.mem_range.mpr z.isLt))
      exact (hsame x).trans (hsame y).symm
    · intro h x hx
      exact (htracks.trees ⟨x, List.mem_range.mp hx⟩ ⟨0, hn⟩).mpr (h _ _)

/-- After any requests, `find` ends, and two nodes have one representative exactly if they are joined. -/
theorem find_joined (requests : List Request) (below : ∀ q ∈ requests, q.Below n) :
    ∃ uf, (∀ fuel ≥ n, requests.foldlM (Request.apply fuel) (UnionFind.new n) = some uf) ∧
      ∀ x y : Fin n, ∃ ufx rx ufy ry, (∀ fuel ≥ n, uf.find fuel x = some (ufx, rx)) ∧ (∀ fuel ≥ n, uf.find fuel y = some (ufy, ry)) ∧
        (rx = ry ↔ (graph n (requests.flatMap Request.joins)).Reachable x y) := by
  obtain ⟨uf, htracks, hrun⟩ := requests_tracks requests (tracks_new n) below
  rw [List.nil_append] at htracks
  refine ⟨uf, hrun, fun x y => ?_⟩
  obtain ⟨ufx, rx, -, hrx, hfindx⟩ := UnionFind.find_eq htracks.sound x.isLt
  obtain ⟨ufy, ry, -, hry, hfindy⟩ := UnionFind.find_eq htracks.sound y.isLt
  exact ⟨ufx, rx, ufy, ry, hfindx, hfindy, (Forests.sameTree_iff hrx hry).symm.trans (htracks.trees x y)⟩

theorem connectComponents_eq {D : Type} [LT D] [DecidableLT D] (dist2 : ℕ → ℕ → D) (below : Below n edges) :
    ∃ added, Below n added ∧ (∀ fuel > n, connectComponents fuel n edges dist2 = some (edges ++ added)) ∧
      added.length = Nat.card (graph n edges).ConnectedComponent - 1 ∧
      ∀ x y, (graph n (edges ++ added)).Reachable x y := by
  obtain ⟨uf, htracks, hrun⟩ := edges_tracks below
  obtain ⟨added, hbelow, hlen, hloop, hreach⟩ := connectLoop_eq dist2 htracks
  have hfew : (uf.roots n).card ≤ n := by
    have := Finset.card_filter_le (Finset.range n) fun x => uf.up x = x
    rwa [Finset.card_range] at this
  refine ⟨added, hbelow, fun fuel hfuel => ?_, by rw [hlen, htracks.card_components], hreach⟩
  rw [connectComponents, hrun fuel (Nat.le_of_lt hfuel)]
  exact hloop fuel (Nat.le_of_lt hfuel) fuel (by omega)

/-- Simulated crowds are connected, by one edge for each component but the first. -/
theorem crowd_connected {D : Type} [LT D] [DecidableLT D] (dist2 : ℕ → ℕ → D) (n : ℕ) (edges : List (ℕ × ℕ)) (below : Below n edges) :
    (∃ added, (∀ fuel > n, connectComponents fuel n edges dist2 = some (edges ++ added)) ∧
      (1 ≤ n → added.length = Nat.card (graph n edges).ConnectedComponent - 1 ∧ (graph n (edges ++ added)).Connected ∧
        ∀ fuel > n, isConnected fuel n (edges ++ added) = some true)) ∧
    ∀ requests : List Request, (∀ q ∈ requests, q.Below n) →
      ∃ uf, (∀ fuel ≥ n, requests.foldlM (Request.apply fuel) (UnionFind.new n) = some uf) ∧
        ∀ x y : Fin n, ∃ ufx rx ufy ry, (∀ fuel ≥ n, uf.find fuel x = some (ufx, rx)) ∧
          (∀ fuel ≥ n, uf.find fuel y = some (ufy, ry)) ∧
          (rx = ry ↔ (graph n (requests.flatMap Request.joins)).Reachable x y) := by
  obtain ⟨added, hbelow, hrun, hlen, hreach⟩ := connectComponents_eq dist2 below
  refine ⟨⟨added, hrun, fun hn => ?_⟩, find_joined⟩
  have hconnected : (graph n (edges ++ added)).Connected :=
    (SimpleGraph.connected_iff _).mpr ⟨hreach, ⟨⟨0, hn⟩⟩⟩
  have hall : Below n (edges ++ added) := List.forall_mem_append.mpr ⟨below, hbelow⟩
  obtain ⟨joined, hjoined, hiff⟩ := isConnected_eq hn hall
  refine ⟨hlen, hconnected, fun fuel hfuel => ?_⟩
  rw [hjoined fuel (Nat.le_of_lt hfuel), hiff.mpr hconnected]

end Topology
end CockroachChat

namespace CockroachChat.Topology

/-- Four nodes of which two are linked. -/
theorem four_nodes_connected : connectComponents 5 4 [(0, 1)] (fun i j => j - i) = some [(0, 1), (1, 2), (2, 3)] ∧
    Nat.card (graph 4 [(0, 1)]).ConnectedComponent - 1 = 2 ∧ (graph 4 [(0, 1), (1, 2), (2, 3)]).Connected := by
  have hrun : connectComponents 5 4 [(0, 1)] (fun i j => j - i) = some [(0, 1), (1, 2), (2, 3)] := by decide +kernel
  obtain ⟨⟨added, hadded, hcount⟩, -⟩ := crowd_connected (fun i j => j - i) 4 [(0, 1)] (by decide)
  rw [hadded 5 (by decide)] at hrun
  obtain rfl : added = [(1, 2), (2, 3)] := List.append_cancel_left (Option.some.inj hrun)
  obtain ⟨hlen, hconnected, -⟩ := hcount (by decide)
  exact ⟨hadded 5 (by decide), hlen.symm, hconnected⟩

end CockroachChat.Topology
