import CockroachChat.Peers.LinkTable

/-! # Parallel connections

Two nodes are joined by several connections, which each of them numbers on its own. Each closes all
but the lowest by its own numbers; what one end closes is down at the other. -/
namespace CockroachChat
set_option autoImplicit false

/-- The numbers that the platform of one side gives the connections. -/
structure Numbering (k : ℕ) where
  link : Fin k → LinkId
  injective : Function.Injective link

variable [P : Prims] {S : Type} [Store S]

namespace MeshNode

/-- What a call does to the table of links: they come up and go down as the platform tells, and
else only a link above another one goes. -/
structure Tabled (s : MeshNode S) (c : Call) : Prop where
  came : ∀ id : LinkId, (exec s c).links[id]? ≠ none → s.links[id]? ≠ none ∨ ∃ mtu, c.action = .transport (.linkUp id mtu)
  went : ∀ id : LinkId, s.links[id]? ≠ none → (exec s c).links[id]? = none →
    c.action = .transport (.linkDown id) ∨ ∃ kept < id, s.links[kept]? ≠ none
  closed : ∀ id, .close id ∈ (exec s c).trace → .close id ∈ s.trace ∨ ∃ kept < id, s.links[kept]? ≠ none

theorem frame_tabled (s : MeshNode S) (now : Millis) (link : LinkId) (frame : Bytes) :
    Tabled s ⟨now, .transport (.frameReceived link frame)⟩ := by
  obtain ⟨m, closed, os, hrelinked, hkept, hredundant, hlinks, htr, hclose⟩ := (frame_pruned s now link frame).pruned
  have hback : ∀ id : LinkId, m[id]? ≠ none → s.links[id]? ≠ none := by
    intro id hid
    obtain ⟨l', hl'⟩ := Option.ne_none_iff_exists'.mp hid
    obtain ⟨l, hl, -⟩ := hrelinked id l' hl'
    simp [hl]
  have hlower : ∀ id ∈ closed, ∃ kept < id, s.links[kept]? ≠ none := by
    intro id hid
    obtain ⟨-, -, kept, l, -, -, hl, -, hlt, -⟩ := redundant_smaller (hredundant id hid)
    exact ⟨kept, hlt, hback kept (by simp [hl])⟩
  refine ⟨fun id hid => .inl ?_, fun id hid hgone => .inr ?_, fun id hid => ?_⟩
  · rw [hlinks] at hid
    split_ifs at hid
    · exact absurd rfl hid
    · exact hback id hid
  · rw [hlinks] at hgone
    split_ifs at hgone with hin
    · exact hlower id hin
    · exact absurd hgone (hkept id hid)
  · rw [htr] at hid
    rcases List.mem_append.mp hid with hold | hnew
    · exact .inl hold
    · exact .inr (hlower id (hclose id hnew))

/-- Without a frame nothing is closed. -/
theorem exec_unclosed (s : MeshNode S) (c : Call) (still : ∀ link frame, c.action ≠ .transport (.frameReceived link frame))
    (id : LinkId) (h : .close id ∈ (exec s c).trace) : .close id ∈ s.trace := by
  obtain ⟨-, os, htr, hos⟩ := act_adds (p := fun _ o => ∀ id, o ≠ .close id) (s.at_ c.now) still fun _ _ => Obs.Direct.not_close
  rw [exec, htr] at h
  exact (List.mem_append.mp h).resolve_right fun hnew => hos _ hnew id rfl

theorem Tabled.of_same {s : MeshNode S} {c : Call} (still : ∀ link frame, c.action ≠ .transport (.frameReceived link frame))
    (same : ∀ id : LinkId, (exec s c).links[id]? = none ↔ s.links[id]? = none) : Tabled s c := by
  refine ⟨fun id hid => .inl fun h => hid ((same id).mpr h), fun id hid hgone => absurd ((same id).mp hgone) hid, fun id hid => ?_⟩
  exact .inl (exec_unclosed s c still id hid)

theorem linkUp_tabled (s : MeshNode S) (now : Millis) (link : LinkId) (mtu : ℕ) :
    Tabled s ⟨now, .transport (.linkUp link mtu)⟩ := by
  obtain ⟨seen, os, heq⟩ := linkUp_update (s.at_ now) link mtu
  refine ⟨fun id hid => ?_, fun id hid hgone => ?_, fun id hid => .inl (exec_unclosed s _ (fun _ _ h => by cases h) id hid)⟩
  · rw [exec, act, heq, Std.ExtTreeMap.getElem?_insert] at hid
    split_ifs at hid with hlink
    · obtain rfl := Std.compare_eq_iff_eq.mp hlink
      exact .inr ⟨mtu, rfl⟩
    · exact .inl hid
  · rw [exec, act, heq, Std.ExtTreeMap.getElem?_insert] at hgone
    split_ifs at hgone
    exact absurd hgone hid

theorem linkDown_tabled (s : MeshNode S) (now : Millis) (link : LinkId) :
    Tabled s ⟨now, .transport (.linkDown link)⟩ := by
  have herased : ∀ id : LinkId, (exec s ⟨now, .transport (.linkDown link)⟩).links[id]? = (s.links.erase link)[id]? :=
    fun _ => rfl
  refine ⟨fun id hid => ?_, fun id hid hgone => ?_, fun id hid => .inl (exec_unclosed s _ (fun _ _ h => by cases h) id hid)⟩
  · rw [herased, Std.ExtTreeMap.getElem?_erase] at hid
    split_ifs at hid
    · exact absurd rfl hid
    · exact .inl hid
  · rw [herased, Std.ExtTreeMap.getElem?_erase] at hgone
    split_ifs at hgone with hlink
    · rw [Std.compare_eq_iff_eq.mp hlink]
      exact .inl rfl
    · exact absurd hgone hid

theorem exec_tabled (s : MeshNode S) (c : Call) : Tabled s c := by
  obtain ⟨now, a⟩ := c
  cases a with
  | transport ev =>
    cases ev with
    | linkUp link mtu => exact linkUp_tabled s now link mtu
    | linkDown link => exact linkDown_tabled s now link
    | frameReceived link frame => exact frame_tabled s now link frame
    | mtuChanged link mtu =>
      refine .of_same (fun _ _ h => by cases h) fun id => ?_
      rw [exec_mtuChanged]
      cases hheld : s.links[link]? with
      | none => exact Iff.rfl
      | some l =>
        simp only [Option.map_some, Option.getD_some, Std.ExtTreeMap.getElem?_insert]
        split_ifs with hid
        · obtain rfl := Std.compare_eq_iff_eq.mp hid
          simp [hheld]
        · exact Iff.rfl
  | _ =>
    refine .of_same (fun _ _ h => by cases h) fun id => ?_
    refine iff_of_eq (congrArg (fun m : Std.ExtTreeMap LinkId LinkState => m[id]? = none) (act_links (s.at_ now) ?_))
    rintro ev ⟨⟩

/-! ## Both sides -/

section Sides
variable {k : ℕ} (numbers : Bool → Numbering k)

/-- The connection has been closed at one of its ends. -/
def Torn (nodes : Bool → MeshNode S) (i : Fin k) : Prop :=
  ∃ side, .close ((numbers side).link i) ∈ (nodes side).trace

/-- What can happen at a side: one of the connections comes up, one that was closed is reported
down, a frame arrives that the other end put on the connection, or the user or the timer calls. -/
def Fits (nodes : Bool → MeshNode S) (e : Bool × Call) : Prop :=
  match e.2.action with
  | .transport (.linkUp link _) => ∃ i, (numbers e.1).link i = link
  | .transport (.linkDown link) => ∃ i, (numbers e.1).link i = link ∧ Torn numbers nodes i
  | .transport (.frameReceived link frame) =>
      ∃ i, (numbers e.1).link i = link ∧ .send ((numbers (!e.1)).link i) frame ∈ (nodes (!e.1)).trace
  | _ => True

/-- A connection has the lowest number on both sides. -/
def SameLowest : Prop := ∃ i, ∀ side j, (numbers side).link i ≤ (numbers side).link j

/-- A connection that is closed at neither end, and that a side which has it keeps. -/
def StaysUp (start : Bool → MeshNode S) (events : List (Bool × Call)) (i : Fin k) : Prop :=
  ¬ Torn numbers (Runs.run (Runs.stepAt exec) start events) i ∧
    ∀ pre side, pre <+: events → (Runs.run (Runs.stepAt exec) start pre side).links[(numbers side).link i]? ≠ none →
      (Runs.run (Runs.stepAt exec) start events side).links[(numbers side).link i]? ≠ none

instance (nodes : Bool → MeshNode S) (i : Fin k) : Decidable (Torn numbers nodes i) :=
  inferInstanceAs (Decidable (∃ _, _))

instance (nodes : Bool → MeshNode S) (e : Bool × Call) : Decidable (Fits numbers nodes e) := by
  unfold Fits
  split <;> infer_instance

variable {numbers}

/-- The links of a side are connections, of which the one is not closed. -/
structure Secure (number : Numbering k) (i : Fin k) (s : MeshNode S) : Prop where
  within : ∀ id : LinkId, s.links[id]? ≠ none → ∃ j, number.link j = id
  standing : .close (number.link i) ∉ s.trace

omit [Store S] in
theorem Secure.not_lower {number : Numbering k} {i : Fin k} {s : MeshNode S} (h : Secure number i s)
    (lowest : ∀ j, number.link i ≤ number.link j) : ¬ ∃ kept < number.link i, s.links[kept]? ≠ none := by
  rintro ⟨kept, hlt, hheld⟩
  obtain ⟨j, rfl⟩ := h.within kept hheld
  exact absurd hlt (not_lt.mpr (lowest j))

/-- A side keeps the connection to which it gave the lowest number. -/
theorem Secure.exec {number : Numbering k} {i : Fin k} {s : MeshNode S} {c : Call} (h : Secure number i s)
    (lowest : ∀ j, number.link i ≤ number.link j)
    (up : ∀ link mtu, c.action = .transport (.linkUp link mtu) → ∃ j, number.link j = link) :
    Secure number i (exec s c) := by
  obtain ⟨came, -, closed⟩ := exec_tabled s c
  refine ⟨fun id hid => ?_, fun hclose => ?_⟩
  · rcases came id hid with hheld | ⟨mtu, haction⟩
    · exact h.within id hheld
    · exact up id mtu haction
  · rcases closed _ hclose with hold | hlower
    · exact h.standing hold
    · exact h.not_lower lowest hlower

omit [Store S] in
theorem Fits.up {nodes : Bool → MeshNode S} {e : Bool × Call} (h : Fits numbers nodes e) {link : LinkId} {mtu : ℕ}
    (haction : e.2.action = .transport (.linkUp link mtu)) : ∃ j, (numbers e.1).link j = link := by
  unfold Fits at h
  rw [haction] at h
  exact h

omit [Store S] in
theorem Fits.down {nodes : Bool → MeshNode S} {e : Bool × Call} (h : Fits numbers nodes e) {link : LinkId}
    (haction : e.2.action = .transport (.linkDown link)) : ∃ j, (numbers e.1).link j = link ∧ Torn numbers nodes j := by
  unfold Fits at h
  rw [haction] at h
  exact h

theorem stepAt_secure {i : Fin k} (lowest : ∀ side j, (numbers side).link i ≤ (numbers side).link j)
    {nodes : Bool → MeshNode S} {e : Bool × Call} (h : ∀ side, Secure (numbers side) i (nodes side))
    (fits : Fits numbers nodes e) (side : Bool) :
    Secure (numbers side) i (Runs.stepAt exec nodes e side) := by
  unfold Runs.stepAt
  by_cases hside : side = e.1
  · subst hside
    rw [Function.update_self]
    exact (h e.1).exec (lowest e.1) fun _ _ => fits.up
  · rw [Function.update_of_ne hside]
    exact h side

omit [Store S] in
theorem initial_secure (number : Numbering k) (i : Fin k) {s : MeshNode S} (h : s.Initial) : Secure number i s := by
  obtain ⟨identity, cfg, clock, store, nickname, rngSeed, entropy, rfl⟩ := h
  exact ⟨fun id hid => by simp [MeshNode.new] at hid, by simp [MeshNode.new]⟩

/-- A side that has the connection keeps it. -/
theorem stepAt_held {i : Fin k} (lowest : ∀ side j, (numbers side).link i ≤ (numbers side).link j)
    {nodes : Bool → MeshNode S} {e : Bool × Call} (h : ∀ side, Secure (numbers side) i (nodes side))
    (fits : Fits numbers nodes e) {side : Bool} (held : (nodes side).links[(numbers side).link i]? ≠ none) :
    (Runs.stepAt exec nodes e side).links[(numbers side).link i]? ≠ none := by
  unfold Runs.stepAt
  by_cases hside : side = e.1
  · subst hside
    rw [Function.update_self]
    intro hgone
    rcases (exec_tabled _ e.2).went _ held hgone with hdown | hlower
    · obtain ⟨j, hj, other, hclosed⟩ := fits.down hdown
      obtain rfl := (numbers e.1).injective hj
      exact (h other).standing hclosed
    · exact (h e.1).not_lower (lowest e.1) hlower
  · rw [Function.update_of_ne hside]
    exact held

end Sides
end MeshNode
end CockroachChat

namespace CockroachChat.Reference
open MeshNode
attribute [local instance] prims

/-- The frames a node has put on one of its links. -/
def framesOn (link : LinkId) (s : Node) : List Bytes :=
  s.trace.filterMap fun o => match o with
    | .send l frame => if l = link then some frame else none
    | _ => none

/-- Two connections, numbered alike by both sides. -/
def alike : Bool → Numbering 2 := fun _ => ⟨fun i => i.val, fun _ _ h => Fin.ext h⟩

/-- Two connections, of which each side takes a different one for the first. -/
def crossed : Bool → Numbering 2 := fun side => if side then ⟨fun i => i.rev.val, fun _ _ h => Fin.rev_injective (Fin.ext h)⟩
  else ⟨fun i => i.val, fun _ _ h => Fin.ext h⟩

/-- Nodes 1 and 2. -/
def pair (side : Bool) : Node := if side then node 2 {} else node 1 {}

/-- Both connections come up at both ends, and what each end then sent arrives at the other. -/
def joining (numbers : Bool → Numbering 2) : List (Bool × Call) :=
  let ups := fun side => [up 0 ((numbers side).link 0), up 0 ((numbers side).link 1)]
  let arrive := fun (side : Bool) i => arriving 1 ((numbers side).link i) (framesOn ((numbers (!side)).link i) (run (pair (!side)) (ups (!side))))
  [true, false].flatMap (fun side => (ups side).map (side, ·)) ++
    [true, false].flatMap fun side => (arrive side 0 ++ arrive side 1).map (side, ·)

theorem pair_initial (side : Bool) : (pair side).Initial := by
  cases side
  · exact node_initial 1 {}
  · exact node_initial 2 {}

end CockroachChat.Reference
