import CockroachChat.Sim.Mirror

/-! # Link tables follow the edges

A node of a world holds its own edges that are up, and no others, whichever links it has closed as
redundant on the way. -/
namespace CockroachChat
set_option autoImplicit false

variable [P : Prims] {n : ℕ}

namespace World

/-- What the edges give node `i` on a link. -/
def wire (w : World n) (i : Fin n) (id : LinkId) : Option ℕ :=
  (w.edges[id]?.filter fun e => e.up && (i = e.a || i = e.b)).map (·.mtu)

/-- The nodes hold what `wire` gives them, but for links that are still to be torn down. -/
def Tables (wire : Fin n → LinkId → Option ℕ) (pending : Fin n → List LinkId) (w : World n) : Prop :=
  ∀ i id, (w.nodes i).node.held id = if id ∈ pending i then none else wire i id

/-- The links a node has asked to close. -/
def closed (w : World n) (i : Fin n) : List LinkId := (w.nodes i).closed

/-! ## Calls -/

theorem call_closed (w : World n) (i : Fin n) (a : Action) {s' : MeshNode MemoryStore} {os : List Obs}
    (hs' : MeshNode.exec (w.nodes i).node ⟨w.now, a⟩ = s') (htr : s'.trace = (w.nodes i).node.trace ++ os) :
    (w.call i a).closed = Function.update w.closed i (w.closed i ++ os.filterMap Obs.closing) := by
  funext j
  subst hs'
  by_cases hj : j = i
  · subst hj
    simp [call, closed, htr]
  · simp [call, closed, Function.update_of_ne hj]

theorem call_held (w : World n) (i : Fin n) (a : Action) (j : Fin n) : ((w.call i a).nodes j).node.held =
    if j = i then (MeshNode.exec (w.nodes i).node ⟨w.now, a⟩).held else (w.nodes j).node.held := by
  rw [call_node]
  by_cases hj : j = i
  · rw [hj, Function.update_self, if_pos rfl]
  · rw [Function.update_of_ne hj, if_neg hj]

/-- A call that changes no link, and closes none. -/
structure Still (w w' : World n) : Prop where
  held : ∀ i, (w'.nodes i).node.held = (w.nodes i).node.held
  closed : w'.closed = w.closed

theorem Still.refl (w : World n) : Still w w := ⟨fun _ => rfl, rfl⟩

theorem Still.trans {w w₁ w₂ : World n} (h₁ : Still w w₁) (h₂ : Still w₁ w₂) : Still w w₂ :=
  ⟨fun i => (h₂.held i).trans (h₁.held i), h₂.closed.trans h₁.closed⟩

theorem Still.tables {w w' : World n} (h : Still w w') {wire : Fin n → LinkId → Option ℕ} {pending : Fin n → List LinkId}
    (hw : Tables wire pending w) : Tables wire pending w' := by
  intro i id
  rw [h.held i]
  exact hw i id

theorem Still.loop {β : Type} (body : World n → β → World n) (hbody : ∀ w b, Still w (body w b)) (l : List β) (w : World n) :
    Still w (l.foldl body w) := by
  induction l generalizing w with
  | nil => exact .refl w
  | cons b l ih => exact (hbody w b).trans (ih _)

/-- Users and timers leave the links alone. -/
theorem call_still (w : World n) (i : Fin n) {a : Action} (ha : ∀ ev, a ≠ .transport ev) : Still w (w.call i a) := by
  have hairs := MeshNode.act_airs ((w.nodes i).node.at_ w.now) ha
  obtain ⟨os, htr, hos⟩ := hairs.closing
  constructor
  · intro j
    rw [call_held]
    split_ifs with hj
    · subst hj
      exact MeshNode.held_of_links hairs.1
    · rfl
  · rw [call_closed w i a rfl htr, hos, List.append_nil, Function.update_eq_self]

theorem collect_still (w : World n) (i : Fin n) : Still w (w.collect i) := by
  have hcall := call_still w i (a := .takeEvents) (by simp)
  refine (hcall.trans ?_).trans (Still.loop (route i) (fun w out => ?_) _ _)
  · constructor
    · intro j
      by_cases hj : j = i
      · subst hj
        simp
      · simp [Function.update_of_ne hj]
    · funext j
      by_cases hj : j = i
      · subst hj
        simp [closed]
      · simp [closed, Function.update_of_ne hj]
  · have hnodes := (route_fixed i w out).2.2
    exact ⟨fun j => by rw [hnodes], by unfold closed; rw [hnodes]⟩

theorem collectAndRoute_still (w : World n) : Still w w.collectAndRoute := Still.loop collect collect_still _ w

/-! ## Frames -/

/-- A node that takes in a frame loses the links it asks to close, and these wait to be torn down. -/
theorem deliver_tables {wire : Fin n → LinkId → Option ℕ} {w : World n} (h : Tables wire w.closed w) (f : InFlight n) :
    Tables wire (w.deliver f).closed (w.deliver f) := by
  unfold deliver
  by_cases hup : w.isUp f.link = true
  · rw [if_pos hup]
    obtain ⟨os, htr, hheld⟩ :=
      (MeshNode.onFrame_onAir ((w.nodes f.dest).node.at_ w.now) f.link f.frame).held
    intro i id
    rw [call_closed w f.dest (.transport (.frameReceived f.link f.frame)) rfl htr, call_held]
    by_cases hi : i = f.dest
    · subst hi
      have hbefore := h f.dest id
      rw [if_pos rfl, Function.update_self]
      refine (hheld id).trans ?_
      rw [show (MeshNode.at_ (w.nodes f.dest).node w.now).held id = _ from hbefore]
      simp only [List.mem_append]
      by_cases hnew : id ∈ os.filterMap Obs.closing <;> by_cases hold : id ∈ w.closed f.dest <;> simp [hnew, hold]
    · rw [if_neg hi, Function.update_of_ne hi]
      exact h i id
  · rw [if_neg hup]
    exact h

/-! ## Edges -/

/-- What an event of the platform makes of a link. -/
def eventLink (link : LinkId) (mtu : Option ℕ) : MeshNode.TransportEvent :=
  match mtu with
  | some mtu => .linkUp link mtu
  | none => .linkDown link

/-- An edge that comes up or goes down is that at both ends, and nowhere else. -/
theorem call_eventLink (w : World n) (i : Fin n) (link : LinkId) (mtu : Option ℕ) :
    (w.call i (.transport (eventLink link mtu))).closed = w.closed ∧
      ∀ j, ((w.call i (.transport (eventLink link mtu))).nodes j).node.held =
        if j = i then Function.update (w.nodes j).node.held link mtu else (w.nodes j).node.held := by
  have hall : ∃ os, ((w.nodes i).node.at_ w.now |>.onTransportEvent (eventLink link mtu)).trace =
      (w.nodes i).node.trace ++ os ∧ os.filterMap Obs.closing = [] := by
    cases mtu with
    | some mtu => exact (MeshNode.linkUp_airs ((w.nodes i).node.at_ w.now) link mtu).closing
    | none => exact ⟨[.event (.peerLost link) none], rfl, rfl⟩
  obtain ⟨os, htr, hos⟩ := hall
  constructor
  · rw [call_closed w i (.transport (eventLink link mtu)) rfl htr, hos, List.append_nil, Function.update_eq_self]
  · intro j
    rw [call_held]
    by_cases hj : j = i
    · subst hj
      rw [if_pos rfl, if_pos rfl]
      cases mtu with
      | some mtu => exact MeshNode.linkUp_held _ link mtu
      | none => exact MeshNode.linkDown_held _ link
    · rw [if_neg hj, if_neg hj]

theorem both_eventLink (w : World n) (e : Edge n) (link : LinkId) (mtu : Option ℕ) :
    (w.both e (eventLink link mtu)).closed = w.closed ∧
      ∀ i, ((w.both e (eventLink link mtu)).nodes i).node.held =
        if i = e.a ∨ i = e.b then Function.update (w.nodes i).node.held link mtu else (w.nodes i).node.held := by
  obtain ⟨hclosed, hheld⟩ := call_eventLink w e.a link mtu
  obtain ⟨hclosed', hheld'⟩ := call_eventLink (w.call e.a (.transport (eventLink link mtu))) e.b link mtu
  refine ⟨hclosed'.trans hclosed, fun i => (hheld' i).trans ?_⟩
  rw [hheld i]
  by_cases ha : i = e.a
  · rw [if_pos ha, if_pos (Or.inl ha), Function.update_idem, ite_self]
  · simp only [ha, false_or, if_false]

/-- The event of an edge that comes up or goes down. -/
theorem setEdgeUp_eq (w : World n) (edge : LinkId) (up : Bool) : w.setEdgeUp edge up =
    match w.edges[edge]? with
    | none => w
    | some e => if e.up = up then w else
        { w with edges := w.edges.set edge { e with up } : World n }.both e (eventLink edge (if up then some e.mtu else none)) := by
  unfold setEdgeUp
  cases w.edges[edge]? with
  | none => rfl
  | some e =>
    simp only [ne_eq, ite_not]
    cases up <;> rfl

/-- Only one link of the wiring changes. -/
theorem setEdgeUp_wire (w : World n) (edge : LinkId) (up : Bool) {e : Edge n} (hedge : w.edges[edge]? = some e)
    (i : Fin n) (id : LinkId) : (w.setEdgeUp edge up).wire i id =
      if id = edge then (if up && (i = e.a || i = e.b) then some e.mtu else none) else w.wire i id := by
  obtain ⟨hlt, rfl⟩ := List.getElem?_eq_some_iff.mp hedge
  rw [setEdgeUp_eq, hedge]
  simp only
  by_cases hsame : w.edges[edge].up = up
  · rw [if_pos hsame]
    by_cases hid : id = edge
    · subst hid
      rw [if_pos rfl, wire, hedge, ← hsame]
      simp only [Option.filter_some]
      split_ifs <;> rfl
    · rw [if_neg hid]
  · rw [if_neg hsame, wire, both_edges]
    by_cases hid : id = edge
    · subst hid
      rw [if_pos rfl, List.getElem?_set_self hlt]
      simp only [Option.filter_some]
      split_ifs <;> rfl
    · rw [if_neg hid, List.getElem?_set_ne (Ne.symm hid), wire]

theorem setEdgeUp_closed (w : World n) (edge : LinkId) (up : Bool) : (w.setEdgeUp edge up).closed = w.closed := by
  rw [setEdgeUp_eq]
  cases w.edges[edge]? with
  | none => rfl
  | some e =>
    simp only
    split_ifs
    · rfl
    · exact (both_eventLink _ e edge _).1
    · exact (both_eventLink _ e edge _).1

/-- An edge that is down is held by neither end; one that comes up is held by both, if none waits to close it. -/
theorem setEdgeUp_tables {w : World n} {pending : Fin n → List LinkId} (h : Tables w.wire pending w) (edge : LinkId) (up : Bool)
    (clear : up = true → ∀ i, edge ∉ pending i) : Tables (w.setEdgeUp edge up).wire pending (w.setEdgeUp edge up) := by
  cases hedge : w.edges[edge]? with
  | none =>
    rw [show w.setEdgeUp edge up = w by rw [setEdgeUp_eq, hedge]]
    exact h
  | some e =>
    by_cases hsame : e.up = up
    · have heq : w.setEdgeUp edge up = w := by rw [setEdgeUp_eq, hedge]; exact if_pos hsame
      rw [heq]
      exact h
    · intro i id
      have heq := setEdgeUp_eq w edge up
      rw [hedge] at heq
      simp only [if_neg hsame] at heq
      rw [setEdgeUp_wire w edge up hedge, heq, (both_eventLink _ e edge _).2]
      have hbefore := h i id
      have hwire : w.wire i edge = if e.up && (i = e.a || i = e.b) then some e.mtu else none := by
        rw [wire, hedge]
        simp only [Option.filter_some]
        split_ifs <;> rfl
      by_cases hid : id = edge
      · subst hid
        rw [if_pos rfl]
        by_cases hend : i = e.a ∨ i = e.b
        · rw [if_pos hend, Function.update_self]
          cases up with
          | false => simp
          | true => simp [clear rfl i, hend]
        · have hnone : w.wire i id = none := by simp [hwire, hend]
          rw [if_neg hend, hbefore, hnone]
          simp [hend]
      · rw [if_neg hid, ← hbefore]
        by_cases hend : i = e.a ∨ i = e.b
        · rw [if_pos hend, Function.update_of_ne hid]
        · rw [if_neg hend]

theorem tearDown_tables (links : List LinkId) {w : World n} {pending : Fin n → List LinkId} (h : Tables w.wire pending w) :
    let w' := links.foldl (fun w link => w.setEdgeUp link false) w
    Tables w'.wire pending w' ∧ w'.closed = w.closed ∧ ∀ link i, link ∈ links ∨ w.wire i link = none → w'.wire i link = none := by
  induction links generalizing w with
  | nil => exact ⟨h, rfl, fun link i hlink => hlink.resolve_left (by simp)⟩
  | cons link links ih =>
    obtain ⟨htables, hclosed, hdown⟩ := ih (setEdgeUp_tables h link false (by simp))
    refine ⟨htables, hclosed.trans (setEdgeUp_closed w link false), fun id i hid => hdown id i ?_⟩
    have hwire : id = link ∨ w.wire i id = none → (w.setEdgeUp link false).wire i id = none := by
      intro hor
      cases hedge : w.edges[link]? with
      | none =>
        rw [setEdgeUp_eq, hedge]
        rcases hor with rfl | hnone
        · simp [wire, hedge]
        · exact hnone
      | some e =>
        rw [setEdgeUp_wire w link false hedge]
        rcases hor with rfl | hnone
        · simp
        · simp [hnone]
    rw [List.mem_cons] at hid
    tauto

/-- The links a node has asked to close go down, and are forgotten. -/
theorem honorCloses_tables {w : World n} (h : Tables w.wire w.closed w) (i : Fin n) :
    Tables (w.honorCloses i).wire (w.honorCloses i).closed (w.honorCloses i) ∧
      (w.honorCloses i).closed = Function.update w.closed i [] := by
  let w₀ : World n := { w with nodes := Function.update w.nodes i { w.nodes i with closed := [] } }
  have hclosed₀ : w₀.closed = Function.update w.closed i [] := by
    funext j
    by_cases hj : j = i
    · subst hj
      simp [w₀, closed]
    · simp [w₀, closed, Function.update_of_ne hj]
  have htables₀ : Tables w₀.wire w.closed w₀ := by
    intro j id
    have hnode : (w₀.nodes j).node = (w.nodes j).node := by
      by_cases hj : j = i
      · subst hj
        simp [w₀]
      · simp [w₀, Function.update_of_ne hj]
    rw [hnode]
    exact h j id
  obtain ⟨htables, hclosed, hdown⟩ := tearDown_tables (w.closed i) htables₀
  refine ⟨?_, hclosed.trans hclosed₀⟩
  intro j id
  refine (htables j id).trans ?_
  show _ = if id ∈ (w.honorCloses i).closed j then none else _
  rw [show (w.honorCloses i).closed = _ from hclosed.trans hclosed₀]
  by_cases hj : j = i
  · subst hj
    rw [Function.update_self, if_neg (List.not_mem_nil)]
    split_ifs with hmem
    · exact (hdown id j (.inl hmem)).symm
    · rfl
  · rw [Function.update_of_ne hj]
    rfl

theorem honorAll_tables (is : List (Fin n)) {w : World n} (h : Tables w.wire w.closed w) :
    let w' := is.foldl honorCloses w
    Tables w'.wire w'.closed w' ∧ ∀ i, i ∈ is ∨ w.closed i = [] → w'.closed i = [] := by
  induction is generalizing w with
  | nil => exact ⟨h, fun i hi => hi.resolve_left (by simp)⟩
  | cons i is ih =>
    obtain ⟨hhonored, hclosed⟩ := honorCloses_tables h i
    obtain ⟨htables, hempty⟩ := ih hhonored
    refine ⟨htables, fun j hj => hempty j ?_⟩
    rw [hclosed]
    by_cases hji : j = i
    · subst hji
      exact .inr (Function.update_self ..)
    · rw [Function.update_of_ne hji]
      exact hj.imp (fun hmem => (List.mem_cons.mp hmem).resolve_left hji) id

/-! ## Scenarios -/

/-- Between the moves of a scenario the nodes hold their edges that are up, and nothing waits to be closed. -/
def Settled (w : World n) : Prop := (∀ i, (w.nodes i).node.held = w.wire i) ∧ ∀ i, w.closed i = []

theorem Settled.tables {w : World n} (h : Settled w) : Tables w.wire w.closed w := by
  intro i id
  rw [h.1 i, h.2 i, if_neg (List.not_mem_nil)]

theorem Tables.settled {w : World n} (h : Tables w.wire w.closed w) (empty : ∀ i, w.closed i = []) : Settled w :=
  ⟨fun i => funext fun id => by rw [h i id, empty i, if_neg (List.not_mem_nil)], empty⟩

theorem wire_of_edges {w w' : World n} (h : w'.edges = w.edges) : w'.wire = w.wire := by
  unfold wire
  rw [h]

theorem Still.settled {w w' : World n} (h : Still w w') (edges : w'.edges = w.edges) (hw : Settled w) : Settled w' := by
  refine ⟨fun i => ?_, fun i => ?_⟩
  · rw [h.held i, wire_of_edges edges, hw.1 i]
  · rw [h.closed, hw.2 i]

theorem deliver_edges (w : World n) (f : InFlight n) : (w.deliver f).edges = w.edges := by
  unfold deliver
  split_ifs <;> rfl

theorem deliverAll_tables (ready : List (InFlight n)) {w : World n} (h : Tables w.wire w.closed w) :
    Tables (ready.foldl deliver w).wire (ready.foldl deliver w).closed (ready.foldl deliver w) := by
  induction ready generalizing w with
  | nil => exact h
  | cons f ready ih =>
    refine ih ?_
    rw [wire_of_edges (deliver_edges w f)]
    exact deliver_tables h f

theorem step_settled {w : World n} (h : Settled w) : Settled w.step := by
  let later : World n := { w with
    now := w.now + w.stepMs
    inflight := w.inflight.filter fun f => ¬ f.deliverAt ≤ w.now + w.stepMs }
  let ready := w.inflight.filter fun f => f.deliverAt ≤ w.now + w.stepMs
  have hdelivered := deliverAll_tables ready (w := later) h.tables
  have hstill := (Still.loop (fun w i => w.call i .tick) (fun w i => call_still w i (a := .tick) (by simp))
    (List.finRange n) (ready.foldl deliver later)).trans (collectAndRoute_still _)
  have hedges : ((List.finRange n).foldl (fun w i => w.call i .tick) (ready.foldl deliver later)).collectAndRoute.edges =
      (ready.foldl deliver later).edges :=
    (collectAndRoute_fixed _).1.trans (foldl_reading (·.edges) (fun w i => w.call i .tick) (fun _ _ => rfl) _ _)
  have hrouted := hstill.tables hdelivered
  rw [← wire_of_edges hedges, ← hstill.closed] at hrouted
  obtain ⟨htables, hempty⟩ := honorAll_tables (List.finRange n) hrouted
  exact htables.settled fun i => hempty i (.inl (List.mem_finRange i))

theorem setEdgeUp_settled {w : World n} (h : Settled w) (edge : LinkId) (up : Bool) : Settled (w.setEdgeUp edge up) := by
  have htables := setEdgeUp_tables h.tables edge up fun _ i => by rw [h.2 i]; exact List.not_mem_nil
  rw [← setEdgeUp_closed w edge up] at htables
  exact htables.settled fun i => by rw [setEdgeUp_closed, h.2 i]

theorem connect_settled {w : World n} (h : Settled w) (a b : Fin n) (latencyMs : Millis) (loss : ℚ) (mtu : ℕ) :
    Settled (w.connect a b latencyMs loss mtu) := by
  let e : Edge n := { a, b, latencyMs, loss, mtu, up := true }
  let linked : World n := { w with edges := w.edges ++ [e] }
  obtain ⟨hclosed, hheld⟩ := both_eventLink linked e w.edges.length (some mtu)
  refine (collectAndRoute_still _).settled (collectAndRoute_fixed _).1 (w := linked.both e (.linkUp w.edges.length mtu)) ?_
  refine ⟨fun i => (hheld i).trans (funext fun id => ?_), fun i => (congrFun hclosed i).trans (h.2 i)⟩
  have hwire : (linked.both e (.linkUp w.edges.length mtu)).wire i id =
      if id = w.edges.length then (if i = a ∨ i = b then some mtu else none) else w.wire i id := by
    rw [wire, both_edges]
    by_cases hid : id = w.edges.length
    · subst hid
      simp only [linked, List.getElem?_concat_length, Option.filter_some, e, if_true]
      split_ifs <;> simp_all
    · rw [if_neg hid, wire]
      have hsame : (w.edges ++ [e])[id]? = w.edges[id]? := by
        rcases Nat.lt_or_gt_of_ne hid with hlt | hgt
        · exact List.getElem?_append_left hlt
        · rw [List.getElem?_eq_none hgt.le, List.getElem?_eq_none (by simpa using hgt)]
      show ((w.edges ++ [e])[id]?.filter _).map _ = _
      rw [hsame]
  have hbefore : (linked.nodes i).node.held = w.wire i := h.1 i
  rw [hwire, hbefore]
  by_cases hid : id = w.edges.length
  · subst hid
    have hnone : w.wire i w.edges.length = none := by simp [wire]
    rw [if_pos rfl, show e.a = a from rfl, show e.b = b from rfl]
    split_ifs
    · rw [Function.update_self]
    · exact hnone
  · rw [if_neg hid]
    split_ifs
    · rw [Function.update_of_ne hid]
    · rfl

/-- What a scenario does once its edges are up. -/
def Op.isPlay : Op n → Bool
  | .link .. | .bootstrap => false
  | _ => true

/-- What it does before. -/
def Op.isSetup : Op n → Bool
  | .link .. | .setStepMs _ | .command .. => true
  | _ => false

theorem command_still (w : World n) (i : Fin n) (a : Action) : Still w (w.perform (.command i a)) := by
  cases a with
  | transport ev => exact .refl w
  | _ => exact call_still w i (by simp)

theorem command_edges (w : World n) (i : Fin n) (a : Action) : (w.perform (.command i a)).edges = w.edges := by
  cases a <;> rfl

theorem perform_settled {w : World n} (h : Settled w) (op : Op n) (hop : op.isPlay = true) : Settled (w.perform op) := by
  cases op with
  | setStepMs step => exact h
  | link => cases hop
  | connect a b latencyMs loss mtu => exact connect_settled h a b latencyMs loss mtu
  | bootstrap => cases hop
  | setEdgeUp edge up => exact setEdgeUp_settled h edge up
  | command i a => exact (command_still w i a).settled (command_edges w i a) h
  | step => exact step_settled h

/-- Before the edges come up the nodes hold no link. -/
def Unjoined (w : World n) : Prop :=
  (∀ i id, (w.nodes i).node.held id = none) ∧ (∀ i, w.closed i = []) ∧ ∀ e ∈ w.edges, e.up = true

theorem perform_unjoined {w : World n} (h : Unjoined w) (op : Op n) (hop : op.isSetup = true) : Unjoined (w.perform op) := by
  cases op with
  | setStepMs step => exact h
  | link a b latencyMs loss mtu =>
    refine ⟨h.1, h.2.1, fun e he => ?_⟩
    rcases List.mem_append.mp he with hold | hnew
    · exact h.2.2 e hold
    · rw [List.mem_singleton.mp hnew]
  | command i a =>
    have hstill := command_still w i a
    refine ⟨fun j id => ?_, fun j => ?_, ?_⟩
    · rw [hstill.held j]
      exact h.1 j id
    · rw [hstill.closed]
      exact h.2.1 j
    · rw [command_edges]
      exact h.2.2
  | _ => cases hop

/-- Edges that come up one after the other are held from there on. -/
theorem bothAll_held (T : Fin n → LinkId → Option ℕ) (es : List (Edge n)) (k : ℕ) {w : World n}
    (hT : ∀ j e, es[j]? = some e → ∀ i, T i (k + j) = if i = e.a ∨ i = e.b then some e.mtu else none)
    (hw : ∀ i id, (w.nodes i).node.held id = if id < k then T i id else none) :
    let w' := (es.zipIdx k).foldl (fun w e => w.both e.1 (.linkUp e.2 e.1.mtu)) w
    (∀ i id, (w'.nodes i).node.held id = if id < k + es.length then T i id else none) ∧ w'.closed = w.closed := by
  induction es generalizing k w with
  | nil => exact ⟨by simpa using hw, rfl⟩
  | cons e es ih =>
    obtain ⟨hclosed, hheld⟩ := both_eventLink w e k (some e.mtu)
    have hafter : ∀ i id, ((w.both e (.linkUp k e.mtu)).nodes i).node.held id = if id < k + 1 then T i id else none := by
      intro i id
      refine (congrFun (hheld i) id).trans ?_
      have hTk := hT 0 e rfl i
      rw [Nat.add_zero] at hTk
      by_cases hid : id = k
      · subst hid
        rw [if_pos (Nat.lt_succ_self id), hTk]
        split_ifs
        · rw [Function.update_self]
        · rw [hw i id, if_neg (Nat.lt_irrefl id)]
      · have hlt : id < k + 1 ↔ id < k := Nat.lt_succ_iff_lt_or_eq.trans (or_iff_left hid)
        simp only [hlt, ← hw i id]
        split_ifs
        · rw [Function.update_of_ne hid]
        · rfl
    obtain ⟨hrest, hclosed'⟩ := ih (k + 1) (fun j e' hj i => by rw [Nat.add_right_comm]; exact hT (j + 1) e' hj i) hafter
    refine ⟨fun i id => ?_, hclosed'.trans hclosed⟩
    rw [List.length_cons, show k + (es.length + 1) = k + 1 + es.length by omega]
    exact hrest i id

theorem bootstrap_settled {w : World n} (h : Unjoined w) : Settled w.bootstrap := by
  let joined : World n := w.edges.zipIdx.foldl (fun w e => w.both e.1 (.linkUp e.2 e.1.mtu)) w
  have hwire : ∀ j e, w.edges[j]? = some e → ∀ i, w.wire i (0 + j) = if i = e.a ∨ i = e.b then some e.mtu else none := by
    intro j e hj i
    have hup := h.2.2 e (List.mem_of_getElem? hj)
    rw [wire, Nat.zero_add, hj]
    simp only [Option.filter_some, hup, Bool.true_and, Bool.or_eq_true, decide_eq_true_eq]
    split_ifs <;> rfl
  obtain ⟨hheld, hclosed⟩ := bothAll_held w.wire w.edges 0 hwire fun i id => by rw [h.1 i id, if_neg (Nat.not_lt_zero id)]
  have hedges : joined.edges = w.edges :=
    foldl_reading (·.edges) (fun w (e : Edge n × ℕ) => w.both e.1 (.linkUp e.2 e.1.mtu)) (fun _ _ => rfl) _ _
  refine (collectAndRoute_still joined).settled (collectAndRoute_fixed joined).1 ⟨fun i => funext fun id => ?_, fun i => ?_⟩
  · rw [wire_of_edges hedges]
    refine (hheld i id).trans ?_
    by_cases hlt : id < 0 + w.edges.length
    · rw [if_pos hlt]
    · have hnone : w.edges[id]? = none := List.getElem?_eq_none (by rwa [Nat.zero_add, not_lt] at hlt)
      rw [if_neg hlt, wire, hnone]
      rfl
  · exact (congrFun hclosed i).trans (h.2.1 i)

theorem new_unjoined [KeySeeds] (cfg : Tunables) (seed : ℕ) (entropy : Fin n → ℕ → P.Entropy) :
    Unjoined (new n cfg seed entropy) :=
  ⟨fun _ _ => rfl, fun _ => rfl, by simp [new]⟩

/-- Once its edges have come up, whatever a scenario goes on to do, each node holds exactly its own edges
that are up, with their MTU, and no link is left waiting to be closed. -/
theorem nodes_hold_their_edges [KeySeeds] (cfg : Tunables) (seed : ℕ) (entropy : Fin n → ℕ → P.Entropy)
    (setup play : List (Op n)) (hsetup : ∀ op ∈ setup, op.isSetup = true) (hplay : ∀ op ∈ play, op.isPlay = true) :
    let w := Runs.run perform (new n cfg seed entropy) (setup ++ .bootstrap :: play)
    ∀ i, (w.nodes i).closed = [] ∧ ∀ id, (w.nodes i).node.held id = w.wire i id := by
  have hunjoined : Unjoined (Runs.run perform (new n cfg seed entropy) setup) :=
    Runs.run_guarded perform Unjoined (fun _ op => op.isSetup = true) (fun _ op h hop => perform_unjoined h op hop) _
      (new_unjoined cfg seed entropy) setup fun pre op post hsplit => hsetup op (by simp [hsplit])
  have hsettled : Settled (Runs.run perform (new n cfg seed entropy) (setup ++ .bootstrap :: play)) := by
    rw [Runs.run_append, Runs.run_cons]
    exact Runs.run_guarded perform Settled (fun _ op => op.isPlay = true) (fun _ op h hop => perform_settled h op hop) _
      (bootstrap_settled hunjoined) play fun pre op post hsplit => hplay op (by simp [hsplit])
  intro w i
  exact ⟨hsettled.2 i, fun id => congrFun (hsettled.1 i) id⟩

end World
end CockroachChat

namespace CockroachChat.Reference

attribute [local instance] prims seeds

/-- Three nodes in a row, the first of which is cut off and comes back. -/
theorem nodes_hold_their_edges_row :
    let w : World 3 := Runs.run World.perform (World.new 3 {} 7 fun i k => (k + 1000 * i.1 : ℕ))
      ([.link 0 1 5 0 512, .link 1 2 5 0 512] ++ .bootstrap :: [.step, .setEdgeUp 0 false, .step, .setEdgeUp 0 true, .step])
    ∀ i, (w.nodes i).closed = [] ∧ ∀ id, (w.nodes i).node.held id = w.wire i id :=
  World.nodes_hold_their_edges {} 7 _ _ _ (by simp [World.Op.isSetup]) (by simp [World.Op.isPlay])

end CockroachChat.Reference
