import CockroachChat.Sim.World

/-! # A world is a network

Whatever a scenario does, its nodes make the calls of nodes in a network whose frames arrive in an order
of its own: latency, loss and edges that go down only decide which frames arrive, and when. -/
namespace CockroachChat
set_option autoImplicit false

variable [P : Prims] {n : ℕ}

def NetEvent.time {ι : Type} : NetEvent ι → Millis
  | .call _ c => c.now
  | .arrive _ now => now

def InFlight.transit (f : InFlight n) : Transit (Fin n) := { dest := f.dest, link := f.link, frame := f.frame }

namespace World

/-! ## Edges stay where they are -/

/-- The edges, up or not. -/
def cables (w : World n) : List (Edge n) := w.edges.map fun e => { e with up := true }

/-- The far end of a link of node `v`. -/
def far (cables : List (Edge n)) (v : Fin n) (link : LinkId) : Option (Fin n × LinkId) :=
  cables[link]?.map fun e => (if e.a = v then e.b else e.a, link)

@[simp] theorem call_edges (w : World n) (i : Fin n) (a : Action) : (w.call i a).edges = w.edges := rfl

@[simp] theorem call_now (w : World n) (i : Fin n) (a : Action) : (w.call i a).now = w.now := rfl

@[simp] theorem call_inflight (w : World n) (i : Fin n) (a : Action) : (w.call i a).inflight = w.inflight := rfl

@[simp] theorem both_edges (w : World n) (e : Edge n) (ev : MeshNode.TransportEvent) : (w.both e ev).edges = w.edges := rfl

@[simp] theorem both_now (w : World n) (e : Edge n) (ev : MeshNode.TransportEvent) : (w.both e ev).now = w.now := rfl

@[simp] theorem both_inflight (w : World n) (e : Edge n) (ev : MeshNode.TransportEvent) :
    (w.both e ev).inflight = w.inflight := rfl

/-- A frame as node `i` would put it in the air. -/
def aired (w : World n) (i : Fin n) (out : LinkId × Bytes) : Option (InFlight n) :=
  w.edges[out.1]?.map fun edge =>
    { deliverAt := w.now + edge.latencyMs, dest := if edge.a = i then edge.b else edge.a, link := out.1, frame := out.2 }

/-- The edge is up and loses nothing. -/
def Clear (w : World n) (link : LinkId) : Prop := ∀ edge, w.edges[link]? = some edge → edge.up = true ∧ ¬ edge.loss > 0

/-- Routing a frame puts it in the air, or drops it if the edge is down or lossy. -/
theorem route_cases (i : Fin n) (w : World n) (out : LinkId × Bytes) :
    ∃ txFrames rng new, w.route i out = { w with txFrames, rng, inflight := w.inflight ++ new } ∧
      (new = (w.aired i out).toList ∨ new = [] ∧ ¬ w.Clear out.1) := by
  unfold route aired Clear
  cases hedge : w.edges[out.1]? with
  | none => exact ⟨w.txFrames, w.rng, [], by simp, .inl rfl⟩
  | some edge =>
    simp only
    cases hup : edge.up with
    | false => exact ⟨w.txFrames, w.rng, [], by simp, .inr ⟨rfl, fun h => by simpa [hup] using (h edge rfl).1⟩⟩
    | true =>
      rcases hlost : ({ w with txFrames := w.txFrames + 1 } : World n).lost edge with ⟨gone, rng⟩
      simp only [Bool.not_true, Bool.false_eq_true, if_false]
      cases gone with
      | true =>
        refine ⟨w.txFrames + 1, rng, [], by simp, .inr ⟨rfl, fun h => ?_⟩⟩
        simp [lost, (h edge rfl).2] at hlost
      | false => exact ⟨w.txFrames + 1, rng, _, rfl, .inl rfl⟩

theorem route_fixed (i : Fin n) (w : World n) (out : LinkId × Bytes) :
    (w.route i out).edges = w.edges ∧ (w.route i out).now = w.now ∧ (w.route i out).nodes = w.nodes := by
  obtain ⟨txFrames, rng, new, heq, -⟩ := route_cases i w out
  rw [heq]
  exact ⟨rfl, rfl, rfl⟩

/-- A loop over steps that keep a reading keeps it. -/
theorem foldl_reading {α β : Type} (reading : World n → α) (body : World n → β → World n)
    (hbody : ∀ w b, reading (body w b) = reading w) (l : List β) (w : World n) : reading (l.foldl body w) = reading w := by
  induction l generalizing w with
  | nil => rfl
  | cons b l ih => exact (ih _).trans (hbody w b)

theorem collect_fixed (w : World n) (i : Fin n) : (w.collect i).edges = w.edges ∧ (w.collect i).now = w.now := by
  constructor
  · exact foldl_reading (·.edges) (route i) (fun w out => (route_fixed i w out).1) _ _
  · exact foldl_reading (·.now) (route i) (fun w out => (route_fixed i w out).2.1) _ _

theorem collectAndRoute_fixed (w : World n) :
    w.collectAndRoute.edges = w.edges ∧ w.collectAndRoute.now = w.now :=
  ⟨foldl_reading (·.edges) collect (fun w i => (collect_fixed w i).1) _ _,
    foldl_reading (·.now) collect (fun w i => (collect_fixed w i).2) _ _⟩

theorem set_cables {w : World n} {edge : LinkId} {e : Edge n} (hedge : w.edges[edge]? = some e) (up : Bool) :
    ({ w with edges := w.edges.set edge { e with up } } : World n).cables = w.cables := by
  obtain ⟨hlt, rfl⟩ := List.getElem?_eq_some_iff.mp hedge
  refine List.ext_getElem (by simp [cables]) fun k hk hk' => ?_
  simp only [cables, List.getElem_map, List.getElem_set]
  by_cases h : edge = k
  · subst h
    rw [if_pos rfl]
  · rw [if_neg h]

theorem setEdgeUp_fixed (w : World n) (edge : LinkId) (up : Bool) :
    (w.setEdgeUp edge up).cables = w.cables ∧ (w.setEdgeUp edge up).now = w.now := by
  unfold setEdgeUp
  cases hedge : w.edges[edge]? with
  | none => exact ⟨rfl, rfl⟩
  | some e =>
    simp only
    by_cases hup : e.up ≠ up
    · rw [if_pos hup]
      exact ⟨set_cables hedge up, rfl⟩
    · rw [if_neg hup]
      exact ⟨rfl, rfl⟩

theorem honorCloses_fixed (w : World n) (i : Fin n) : (w.honorCloses i).cables = w.cables ∧ (w.honorCloses i).now = w.now :=
  ⟨foldl_reading cables (fun w link => w.setEdgeUp link false) (fun w link => (setEdgeUp_fixed w link false).1) _ _,
    foldl_reading (·.now) (fun w link => w.setEdgeUp link false) (fun w link => (setEdgeUp_fixed w link false).2) _ _⟩

/-! ## The clock -/

theorem route_stepMs (i : Fin n) (w : World n) (out : LinkId × Bytes) : (w.route i out).stepMs = w.stepMs := by
  obtain ⟨txFrames, rng, new, heq, -⟩ := route_cases i w out
  rw [heq]

theorem setEdgeUp_stepMs (w : World n) (edge : LinkId) (up : Bool) : (w.setEdgeUp edge up).stepMs = w.stepMs := by
  unfold setEdgeUp
  cases w.edges[edge]? with
  | none => rfl
  | some e =>
    simp only
    by_cases hup : e.up ≠ up
    · rw [if_pos hup]
      rfl
    · rw [if_neg hup]

theorem step_now (w : World n) : w.step.now = w.now + w.stepMs := by
  unfold step
  rw [foldl_reading (·.now) honorCloses fun w i => (honorCloses_fixed w i).2]
  refine (collectAndRoute_fixed _).2.trans ((foldl_reading (·.now) (fun w i => w.call i .tick) (fun _ _ => rfl) _ _).trans ?_)
  refine foldl_reading (·.now) deliver (fun w f => ?_) _ _
  unfold deliver
  split_ifs <;> rfl

theorem step_stepMs (w : World n) : w.step.stepMs = w.stepMs := by
  unfold step
  rw [foldl_reading (·.stepMs) honorCloses fun w i =>
    foldl_reading (·.stepMs) (fun w link => w.setEdgeUp link false) (fun w link => setEdgeUp_stepMs w link false) _ _]
  refine (foldl_reading (·.stepMs) collect (fun w i => ?_) _ _).trans
    ((foldl_reading (·.stepMs) (fun w i => w.call i .tick) (fun _ _ => rfl) _ _).trans ?_)
  · exact foldl_reading (·.stepMs) (route i) (route_stepMs i) _ _
  · refine foldl_reading (·.stepMs) deliver (fun w f => ?_) _ _
    unfold deliver
    split_ifs <;> rfl

omit P in
theorem turns_zero {d step : ℕ} (hd : d = 0) (hstep : 0 < step) : (d + step - 1) / step = 0 := Nat.div_eq_of_lt (by omega)

omit P in
theorem turns_succ {d step : ℕ} (hd : 0 < d) (hstep : 0 < step) : (d + step - 1) / step = (d - step + step - 1) / step + 1 := by
  rw [← Nat.add_div_right _ hstep]
  by_cases hle : step ≤ d
  · congr 1
    omega
  · rw [Nat.div_eq_of_lt_le (k := 1) (by omega) (by omega), Nat.div_eq_of_lt_le (k := 1) (by omega) (by omega)]

/-- The loop of `run_for` ends: it makes as many steps as bring the clock to its target, and no more. -/
theorem runFor_eq (w : World n) (durationMs : Millis) : w.runFor durationMs = step^[(durationMs + w.stepMs - 1) / w.stepMs] w := by
  have h : ∀ (turns : ℕ) (w : World n) (target d : ℕ), d ≤ turns → d = target - w.now →
      runUntil target turns w = step^[(d + w.stepMs - 1) / w.stepMs] w := by
    intro turns
    induction turns with
    | zero =>
      intro w target d hd _
      rw [turns_zero (Nat.le_zero.mp hd) w.stepping]
      rfl
    | succ turns ih =>
      intro w target d hd htarget
      rw [runUntil]
      by_cases hlt : w.now < target
      · have hpos : 0 < d := htarget ▸ Nat.sub_pos_of_lt hlt
        have hrest : d - w.stepMs = target - w.step.now := by rw [step_now, htarget, Nat.sub_sub]
        have hfewer : d - w.stepMs ≤ turns := Nat.sub_le_of_le_add (hd.trans (Nat.add_le_add_left w.stepping turns))
        rw [if_pos hlt, ih w.step target (d - w.stepMs) hfewer hrest, step_stepMs, turns_succ hpos w.stepping,
          Function.iterate_succ_apply]
      · have hzero : d = 0 := htarget.trans (Nat.sub_eq_zero_of_le (not_lt.mp hlt))
        rw [if_neg hlt, turns_zero hzero w.stepping]
        rfl
  exact h durationMs w (w.now + durationMs) durationMs le_rfl (Nat.add_sub_cancel_left ..).symm

/-! ## A world and a network -/

/-- Which node, and which of its links, hears what a node sends on a link. -/
abbrev Peers (n : ℕ) : Type := Fin n → LinkId → Option (Fin n × LinkId)

def Wired (peer : Peers n) (w : World n) : Prop := ∀ v link x, far w.cables v link = some x → peer v link = some x

variable (peer : Peers n)

/-- A frame of node `i`'s outbox, as one on its way. -/
def through (i : Fin n) (out : LinkId × Bytes) : Option (Transit (Fin n)) :=
  (peer i out.1).map fun far => { dest := far.1, link := far.2, frame := out.2 }

omit P in
theorem carried_outgoing (i : Fin n) (did : List Obs) :
    did.filterMap (carried peer i) = (did.filterMap Obs.outgoing).filterMap (through peer i) := by
  rw [List.filterMap_filterMap]
  refine List.filterMap_congr fun o _ => ?_
  cases o <;> rfl

/-- The frames in the air and in the outboxes. -/
def underWay (w : World n) : Multiset (Transit (Fin n)) :=
  ↑(w.inflight.map InFlight.transit) + ∑ i, ↑((w.nodes i).outbox.filterMap (through peer i))

/-- The network's nodes are the world's, and what the world has under way or in hand is on its way there. -/
structure Follows (w : World n) (hand : Multiset (Transit (Fin n))) (net : Net (Fin n) MemoryStore) : Prop where
  node : ∀ i, net.node i = (w.nodes i).node
  transit : underWay peer w + hand ≤ net.transit

/-- Some run of the network from `net₀`, in the order of the clock, has led to where the world is. -/
def Traced (net₀ : Net (Fin n) MemoryStore) (w : World n) (hand : Multiset (Transit (Fin n))) : Prop :=
  ∃ events : List (NetEvent (Fin n)), (events.map NetEvent.time).Pairwise (· ≤ ·) ∧ (∀ e ∈ events, e.time ≤ w.now) ∧
    Follows peer w hand (Runs.run (Net.step peer) net₀ events)

variable {peer} {net₀ : Net (Fin n) MemoryStore} {w : World n} {hand : Multiset (Transit (Fin n))}

/-- One more event, at the world's time. -/
theorem Traced.then (h : Traced peer net₀ w hand) {w' : World n} {hand' : Multiset (Transit (Fin n))} (hnow : w'.now = w.now)
    (hstep : ∀ net, Follows peer w hand net → ∃ e : NetEvent (Fin n), e.time = w.now ∧ Follows peer w' hand' (Net.step peer net e)) :
    Traced peer net₀ w' hand' := by
  obtain ⟨events, hordered, hpast, hfollows⟩ := h
  obtain ⟨e, htime, hstep⟩ := hstep _ hfollows
  refine ⟨events ++ [e], ?_, ?_, ?_⟩
  · rw [List.map_append, List.pairwise_append]
    refine ⟨hordered, List.pairwise_singleton _ _, ?_⟩
    intro t ht t' ht'
    obtain ⟨e', he', rfl⟩ := List.mem_map.mp ht
    rw [List.map_singleton, List.mem_singleton] at ht'
    rw [ht', htime]
    exact hpast e' he'
  · intro e' he'
    rw [hnow]
    rcases List.mem_append.mp he' with hold | hnew
    · exact hpast e' hold
    · rw [List.mem_singleton.mp hnew, htime]
  · rw [Runs.run_snoc]
    exact hstep

/-- A world with the same nodes, no later than `w` could be, and less under way. -/
theorem Traced.mono (h : Traced peer net₀ w hand) {w' : World n} {hand' : Multiset (Transit (Fin n))}
    (hnodes : ∀ i, (w'.nodes i).node = (w.nodes i).node) (hnow : w.now ≤ w'.now)
    (hless : underWay peer w' + hand' ≤ underWay peer w + hand) : Traced peer net₀ w' hand' := by
  obtain ⟨events, hordered, hpast, hnode, htransit⟩ := h
  refine ⟨events, hordered, fun e he => (hpast e he).trans hnow, fun i => (hnode i).trans (hnodes i).symm, hless.trans htransit⟩

/-- What a call puts in the outbox is under way. -/
theorem underWay_call (i : Fin n) (a : Action) (s' : MeshNode MemoryStore)
    (hs' : MeshNode.exec (w.nodes i).node ⟨w.now, a⟩ = s') : underWay peer (w.call i a) =
      underWay peer w + ↑((s'.trace.drop (w.nodes i).node.trace.length).filterMap (carried peer i)) := by
  subst hs'
  rw [carried_outgoing]
  unfold underWay
  rw [call_inflight, add_assoc, ← Finset.add_sum_erase _ _ (Finset.mem_univ i), ← Finset.add_sum_erase _ _ (Finset.mem_univ i)]
  congr 1
  have hrest : ∀ j ∈ Finset.univ.erase i, ((w.call i a).nodes j).outbox = (w.nodes j).outbox := by
    intro j hj
    simp [call, Function.update_of_ne (Finset.ne_of_mem_erase hj)]
  rw [Finset.sum_congr rfl fun j hj => by rw [hrest j hj], add_right_comm]
  congr 1
  simp [call]

theorem call_node (i : Fin n) (a : Action) (j : Fin n) : ((w.call i a).nodes j).node =
    Function.update (fun j => (w.nodes j).node) i (MeshNode.exec (w.nodes i).node ⟨w.now, a⟩) j := by
  by_cases hj : j = i
  · subst hj
    simp [call]
  · simp [call, Function.update_of_ne hj]

/-- A call made in both follows. -/
theorem Follows.called {w₀ : World n} {hand₀ : Multiset (Transit (Fin n))} {net : Net (Fin n) MemoryStore}
    (h : Follows peer w₀ hand₀ net) (i : Fin n) (a : Action) :
    Follows peer (w₀.call i a) hand₀ (net.call peer i ⟨w₀.now, a⟩) := by
  constructor
  · intro j
    rw [call_node, Net.call, h.node i, show net.node = fun j => (w₀.nodes j).node from funext h.node]
  · rw [underWay_call i a _ rfl, add_right_comm, Net.call, h.node i, ← Multiset.coe_add]
    exact Multiset.add_le_add_right h.transit

/-- A user, a timer or the platform. -/
theorem Traced.call (h : Traced peer net₀ w hand) (i : Fin n) (a : Action) (hframe : a.isFrame = false) :
    Traced peer net₀ (w.call i a) hand := by
  refine h.then rfl fun net hnet => ⟨.call i ⟨w.now, a⟩, rfl, ?_⟩
  rw [Net.step, hframe]
  exact hnet.called i a

/-- A frame in hand arrives. -/
theorem Traced.arrive {f : InFlight n} (h : Traced peer net₀ w (f.transit ::ₘ hand)) :
    Traced peer net₀ (w.call f.dest (.transport (.frameReceived f.link f.frame))) hand := by
  refine h.then rfl fun net hnet => ?_
  have hmem : f.transit ∈ net.transit :=
    Multiset.mem_coe.mp (Multiset.mem_of_le hnet.transit (by simp))
  obtain ⟨k, hk, hget⟩ := List.getElem_of_mem hmem
  refine ⟨.arrive k w.now, rfl, ?_⟩
  rw [Net.step, List.getElem?_eq_getElem hk, hget]
  suffices hfollows : Follows peer w hand { net with transit := net.transit.eraseIdx k } from hfollows.called _ _
  refine ⟨hnet.node, ?_⟩
  have hperm : (net.transit : Multiset (Transit (Fin n))) = f.transit ::ₘ ↑(net.transit.eraseIdx k) := by
    rw [Multiset.cons_coe, Multiset.coe_eq_coe, ← hget]
    exact (List.getElem_cons_eraseIdx_perm hk).symm
  have hle := hnet.transit
  rw [hperm, Multiset.add_cons] at hle
  exact (Multiset.cons_le_cons_iff _).mp hle

/-- A frame in hand is lost. -/
theorem Traced.lose {x : Transit (Fin n)} (h : Traced peer net₀ w (x ::ₘ hand)) : Traced peer net₀ w hand :=
  h.mono (fun _ => rfl) le_rfl (by rw [Multiset.add_cons]; exact Multiset.le_cons_self _ _)

/-! ## What the world does -/

theorem Traced.both (h : Traced peer net₀ w hand) (e : Edge n) (ev : MeshNode.TransportEvent)
    (hframe : (Action.transport ev).isFrame = false) : Traced peer net₀ (w.both e ev) hand :=
  (h.call e.a (.transport ev) hframe).call e.b (.transport ev) hframe

theorem Traced.setEdgeUp (h : Traced peer net₀ w hand) (edge : LinkId) (up : Bool) :
    Traced peer net₀ (w.setEdgeUp edge up) hand := by
  unfold World.setEdgeUp
  cases w.edges[edge]? with
  | none => exact h
  | some e =>
    simp only
    by_cases hup : e.up ≠ up
    · rw [if_pos hup]
      have hset : Traced peer net₀ { w with edges := w.edges.set edge { e with up := up } } hand :=
        h.mono (fun _ => rfl) le_rfl le_rfl
      refine hset.both e _ ?_
      cases up <;> rfl
    · rw [if_neg hup]
      exact h

/-- A frame taken from the outbox goes on the air or is dropped. -/
theorem Traced.route (wired : Wired peer w) {i : Fin n} {out : LinkId × Bytes}
    (h : Traced peer net₀ w (↑(through peer i out).toList + hand)) : Traced peer net₀ (w.route i out) hand := by
  obtain ⟨txFrames, rng, new, heq, hnew⟩ := route_cases i w out
  have hless : (↑(new.map InFlight.transit) : Multiset (Transit (Fin n))) ≤ ↑(through peer i out).toList := by
    rcases hnew with rfl | ⟨rfl, -⟩
    · unfold aired through
      cases hedge : w.edges[out.1]? with
      | none => exact Multiset.zero_le _
      | some edge =>
        have hpeer : peer i out.1 = some (if edge.a = i then edge.b else edge.a, out.1) := by
          refine wired i out.1 _ ?_
          rw [far, cables, List.getElem?_map, hedge]
          rfl
        rw [hpeer]
        exact le_rfl
    · exact Multiset.zero_le _
  rw [heq]
  refine h.mono (fun _ => rfl) le_rfl ?_
  have hput : underWay peer { w with txFrames, rng, inflight := w.inflight ++ new } =
      underWay peer w + ↑(new.map InFlight.transit) := by
    simp only [underWay, List.map_append, ← Multiset.coe_add]
    abel
  rw [hput, add_assoc]
  exact Multiset.add_le_add_left (Multiset.add_le_add_right hless)

theorem Wired.of_cables (wired : Wired peer w) {w' : World n} (hcables : w'.cables = w.cables) : Wired peer w' := by
  rw [Wired, hcables]
  exact wired

theorem Traced.routeAll (i : Fin n) (outbox : List (LinkId × Bytes)) {w : World n} (wired : Wired peer w)
    (h : Traced peer net₀ w ↑(outbox.filterMap (through peer i))) : Traced peer net₀ (outbox.foldl (World.route i) w) 0 := by
  induction outbox generalizing w with
  | nil => exact h
  | cons out outbox ih =>
    refine ih (wired.of_cables (congrArg (List.map _) (route_fixed i w out).1)) (Traced.route wired ?_)
    have hcons : (out :: outbox).filterMap (through peer i) =
        (through peer i out).toList ++ outbox.filterMap (through peer i) := by
      cases hout : through peer i out with
      | none => rw [List.filterMap_cons_none hout]; rfl
      | some x => rw [List.filterMap_cons_some hout]; rfl
    rwa [Multiset.coe_add, ← hcons]

/-- Emptying an outbox takes what was in it in hand. -/
theorem underWay_emptied (i : Fin n) (s : SimNode) (hs : s.outbox = []) :
    underWay peer { w with nodes := Function.update w.nodes i s } + ↑((w.nodes i).outbox.filterMap (through peer i)) =
      underWay peer w := by
  unfold underWay
  rw [add_assoc, ← Finset.add_sum_erase _ _ (Finset.mem_univ i), ← Finset.add_sum_erase _ _ (Finset.mem_univ i)]
  congr 1
  have hself : (Function.update w.nodes i s i).outbox = [] := by rw [Function.update_self, hs]
  have hrest : ∑ j ∈ Finset.univ.erase i, (↑((Function.update w.nodes i s j).outbox.filterMap (through peer j)) :
      Multiset (Transit (Fin n))) = ∑ j ∈ Finset.univ.erase i, ↑((w.nodes j).outbox.filterMap (through peer j)) :=
    Finset.sum_congr rfl fun j hj => by rw [Function.update_of_ne (Finset.ne_of_mem_erase hj)]
  simp only [hself, hrest, List.filterMap_nil, Multiset.coe_nil, zero_add]
  exact add_comm _ _

theorem Traced.collect (wired : Wired peer w) (h : Traced peer net₀ w 0) (i : Fin n) : Traced peer net₀ (w.collect i) 0 := by
  refine Traced.routeAll i _ (wired.of_cables rfl) ?_
  have hcalled := h.call i .takeEvents rfl
  refine hcalled.mono ?_ le_rfl (le_of_eq ?_)
  · intro j
    by_cases hj : j = i
    · subst hj
      simp
    · simp only [Function.update_of_ne hj]
  · rw [add_zero]
    exact underWay_emptied i _ rfl

/-- A loop of moves that keep the edges and the run. -/
theorem Traced.loop {β : Type} (body : World n → β → World n) (l : List β) {w : World n} (wired : Wired peer w)
    (hcables : ∀ w b, (body w b).cables = w.cables)
    (hbody : ∀ w b, Wired peer w → Traced peer net₀ w 0 → Traced peer net₀ (body w b) 0)
    (h : Traced peer net₀ w 0) : Traced peer net₀ (l.foldl body w) 0 := by
  induction l generalizing w with
  | nil => exact h
  | cons b l ih => exact ih (wired.of_cables (hcables w b)) (hbody w b wired h)

theorem Traced.collectAndRoute (wired : Wired peer w) (h : Traced peer net₀ w 0) : Traced peer net₀ w.collectAndRoute 0 :=
  Traced.loop _ _ wired (fun w i => congrArg (List.map _) (collect_fixed w i).1) (fun _ i wired h => h.collect wired i) h

theorem Traced.honorCloses (wired : Wired peer w) (h : Traced peer net₀ w 0) (i : Fin n) :
    Traced peer net₀ (w.honorCloses i) 0 := by
  refine Traced.loop _ _ (wired.of_cables rfl) (fun w link => (setEdgeUp_fixed w link false).1)
    (fun w link _ h => h.setEdgeUp link false) (h.mono ?_ le_rfl (le_of_eq ?_))
  · intro j
    by_cases hj : j = i
    · subst hj
      simp
    · simp only [Function.update_of_ne hj]
  · have houtbox : ∀ j, (Function.update w.nodes i { w.nodes i with closed := [] } j).outbox = (w.nodes j).outbox := by
      intro j
      by_cases hj : j = i
      · subst hj
        simp
      · simp only [Function.update_of_ne hj]
    simp only [underWay, houtbox]

/-- What is due is in hand until it is handed over, or its edge is found down. -/
theorem Traced.deliverAll (ready : List (InFlight n)) {w : World n}
    (h : Traced peer net₀ w ↑(ready.map InFlight.transit)) : Traced peer net₀ (ready.foldl World.deliver w) 0 := by
  induction ready generalizing w with
  | nil => exact h
  | cons f ready ih =>
    refine ih ?_
    rw [List.map_cons, ← Multiset.cons_coe] at h
    unfold deliver
    by_cases hup : w.isUp f.link = true
    · rw [if_pos hup]
      exact h.arrive
    · rw [if_neg hup]
      exact h.lose

theorem deliver_fixed (w : World n) (f : InFlight n) : (w.deliver f).cables = w.cables ∧ (w.deliver f).now = w.now := by
  unfold deliver
  split_ifs <;> exact ⟨rfl, rfl⟩

omit P in
/-- The frames in the air part into those due and the others. -/
theorem due_add_later (l : List (InFlight n)) (now : Millis) :
    (↑((l.filter fun f => ¬ f.deliverAt ≤ now).map InFlight.transit) : Multiset (Transit (Fin n))) +
      ↑((l.filter fun f => f.deliverAt ≤ now).map InFlight.transit) = ↑(l.map InFlight.transit) := by
  rw [add_comm, Multiset.coe_add, ← List.map_append, Multiset.coe_eq_coe]
  refine List.Perm.map _ ?_
  simpa only [decide_not] using List.filter_append_perm (fun f : InFlight n => decide (f.deliverAt ≤ now)) l

theorem Traced.ticks (is : List (Fin n)) {w : World n} (h : Traced peer net₀ w 0) :
    Traced peer net₀ (is.foldl (fun w i => w.call i .tick) w) 0 := by
  induction is generalizing w with
  | nil => exact h
  | cons i is ih => exact ih (h.call i .tick rfl)

theorem Traced.step (wired : Wired peer w) (h : Traced peer net₀ w 0) : Traced peer net₀ w.step 0 := by
  let later : World n := { w with
    now := w.now + w.stepMs
    inflight := w.inflight.filter fun f => ¬ f.deliverAt ≤ w.now + w.stepMs }
  let ready := w.inflight.filter fun f => f.deliverAt ≤ w.now + w.stepMs
  have hdue : Traced peer net₀ later ↑(ready.map InFlight.transit) := by
    refine h.mono (fun _ => rfl) (Nat.le_add_right _ _) (le_of_eq ?_)
    rw [underWay, underWay, add_right_comm, due_add_later, add_zero]
  have hticked := (Traced.deliverAll ready hdue).ticks (List.finRange n)
  have hcables : ((List.finRange n).foldl (fun w i => w.call i .tick) (ready.foldl World.deliver later)).cables = w.cables := by
    rw [foldl_reading cables (fun w i => w.call i .tick) (fun _ _ => rfl), foldl_reading cables World.deliver fun w f => (deliver_fixed w f).1]
    rfl
  have hrouted := hticked.collectAndRoute (wired.of_cables hcables)
  refine Traced.loop World.honorCloses _ (wired.of_cables ?_) (fun w i => (honorCloses_fixed w i).1)
    (fun w i wired h => h.honorCloses wired i) hrouted
  exact (congrArg (List.map _) (collectAndRoute_fixed _).1).trans hcables

/-! ## Scenarios -/

theorem step_cables (w : World n) : w.step.cables = w.cables := by
  unfold World.step
  rw [foldl_reading cables World.honorCloses fun w i => (honorCloses_fixed w i).1]
  refine (congrArg (List.map _) (collectAndRoute_fixed _).1).trans ?_
  refine (foldl_reading cables (fun w i => w.call i .tick) (fun _ _ => rfl) _ _).trans ?_
  exact foldl_reading cables World.deliver (fun w f => (deliver_fixed w f).1) _ _

theorem bothAll_cables (es : List (Edge n × ℕ)) (w : World n) :
    (es.foldl (fun w e => w.both e.1 (.linkUp e.2 e.1.mtu)) w).cables = w.cables :=
  foldl_reading cables (fun w e => w.both e.1 (.linkUp e.2 e.1.mtu)) (fun _ _ => rfl) es w

/-- Edges are added behind the others, and stay. -/
theorem perform_cables (w : World n) (op : Op n) : ∃ more, (w.perform op).cables = w.cables ++ more := by
  cases op with
  | setStepMs step => exact ⟨[], (List.append_nil _).symm⟩
  | link a b latencyMs loss mtu => exact ⟨[{ a, b, latencyMs, loss, mtu, up := true }], List.map_append ..⟩
  | connect a b latencyMs loss mtu =>
    refine ⟨[{ a, b, latencyMs, loss, mtu, up := true }], (congrArg (List.map _) (collectAndRoute_fixed _).1).trans ?_⟩
    exact List.map_append ..
  | bootstrap =>
    refine ⟨[], ?_⟩
    rw [List.append_nil]
    exact (congrArg (List.map _) (collectAndRoute_fixed _).1).trans (bothAll_cables _ w)
  | setEdgeUp edge up => exact ⟨[], (setEdgeUp_fixed w edge up).1.trans (List.append_nil _).symm⟩
  | command i a =>
    refine ⟨[], ?_⟩
    rw [List.append_nil]
    cases a <;> rfl
  | step => exact ⟨[], (step_cables w).trans (List.append_nil _).symm⟩

theorem Wired.before {op : Op n} (wired : Wired peer (w.perform op)) : Wired peer w := by
  obtain ⟨more, hcables⟩ := perform_cables w op
  intro v link x hx
  refine wired v link x ?_
  obtain ⟨ab, hab, rfl⟩ := Option.map_eq_some_iff.mp hx
  rw [far, hcables, List.getElem?_append_left (List.getElem?_eq_some_iff.mp hab).1, hab]
  rfl

theorem Traced.perform (op : Op n) (wired : Wired peer (w.perform op)) (h : Traced peer net₀ w 0) :
    Traced peer net₀ (w.perform op) 0 := by
  cases op with
  | setStepMs step => exact h.mono (fun _ => rfl) le_rfl le_rfl
  | link a b latencyMs loss mtu => exact h.mono (fun _ => rfl) le_rfl le_rfl
  | connect a b latencyMs loss mtu =>
    have hlinked : Traced peer net₀ (w.link a b latencyMs loss mtu).1 0 := h.mono (fun _ => rfl) le_rfl le_rfl
    refine (hlinked.both _ _ rfl).collectAndRoute (wired.of_cables ?_)
    exact (congrArg (List.map _) (collectAndRoute_fixed _).1).symm
  | bootstrap =>
    refine Traced.collectAndRoute (wired.of_cables (congrArg (List.map _) (collectAndRoute_fixed _).1).symm) ?_
    exact Traced.loop _ _ wired.before (fun _ _ => rfl) (fun w e _ h => h.both e.1 _ rfl) h
  | setEdgeUp edge up => exact h.setEdgeUp edge up
  | command i a =>
    cases a with
    | transport ev => exact h
    | _ => exact h.call i _ rfl
  | step => exact h.step wired.before

theorem wired_far (w : World n) : Wired (far w.cables) w := fun _ _ _ hx => hx

/-- The nodes of a world, not yet linked, with nothing on its way. -/
def network (w : World n) : Net (Fin n) MemoryStore where
  node i := (w.nodes i).node

/-- Whatever a scenario does, a network of its nodes can do in the same time: the nodes make the same
calls, and what is in the air in the world is on its way in the network. -/
theorem scenario_is_a_network_run [KeySeeds] (cfg : Tunables) (seed : ℕ) (entropy : Fin n → ℕ → P.Entropy) (script : List (Op n)) :
    let w := Runs.run perform (new n cfg seed entropy) script
    ∃ events : List (NetEvent (Fin n)), (events.map NetEvent.time).Pairwise (· ≤ ·) ∧ (∀ e ∈ events, e.time ≤ w.now) ∧
      let net := Runs.run (Net.step (far w.cables)) (network (new n cfg seed entropy)) events
      (∀ i, net.node i = (w.nodes i).node) ∧ (↑(w.inflight.map InFlight.transit) : Multiset (Transit (Fin n))) ≤ ↑net.transit := by
  intro w
  have hall : ∀ peer, Wired peer w → Traced peer (network (new n cfg seed entropy)) w 0 := by
    intro peer
    refine Runs.run_history perform (fun _ w => Wired peer w → Traced peer (network (new n cfg seed entropy)) w 0) _ ?_ ?_ script
    · intro _
      refine ⟨[], List.Pairwise.nil, by simp, fun _ => rfl, ?_⟩
      simp [underWay, new]
    · intro _ w op ih wired
      exact (ih wired.before).perform op wired
  obtain ⟨events, hordered, hpast, hnode, htransit⟩ := hall _ (wired_far w)
  refine ⟨events, hordered, hpast, hnode, le_trans ?_ htransit⟩
  rw [underWay, add_zero]
  exact Multiset.le_add_right _ _

end World
end CockroachChat
