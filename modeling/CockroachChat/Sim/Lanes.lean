import CockroachChat.Sim.Tables
import CockroachChat.Stores.Threads

/-! # Links keep their order

On each of its edges a node sends only what its neighbour then gets: in the order sent, once at most, in
the first step of the world that is late enough, and all of it while the edge is up and loses nothing. -/
namespace CockroachChat
set_option autoImplicit false

variable [P : Prims] {n : ℕ}

def Edge.other (e : Edge n) (i : Fin n) : Fin n := if e.a = i then e.b else e.a

omit P in
theorem Edge.other_inj {e : Edge n} {i k : Fin n} (hi : i = e.a ∨ i = e.b) (hk : k = e.a ∨ k = e.b) :
    e.other k = e.other i ↔ k = i := by
  unfold other
  grind

namespace World

/-! ## Nodes keep to their own edges -/

def Owns (cables : List (Edge n)) (i : Fin n) (link : LinkId) : Prop :=
  ∃ e : Edge n, cables[link]? = some e ∧ (i = e.a ∨ i = e.b)

omit P in
theorem Owns.more {cables : List (Edge n)} {i : Fin n} {link : LinkId} (h : Owns cables i link) (more : List (Edge n)) :
    Owns (cables ++ more) i link := by
  obtain ⟨e, he, hi⟩ := h
  exact ⟨e, by rw [List.getElem?_append_left (List.getElem?_eq_some_iff.mp he).1, he], hi⟩

/-- Nodes hold, and send on, edges of their own only; what is in the air goes to an end of its edge. -/
structure Owned (w : World n) : Prop where
  held : ∀ i id, (w.nodes i).node.held id ≠ none → Owns w.cables i id
  outbox : ∀ i, ∀ out ∈ (w.nodes i).outbox, Owns w.cables i out.1
  inflight : ∀ f ∈ w.inflight, Owns w.cables f.dest f.link

theorem call_outbox (w : World n) (i : Fin n) (a : Action) {os : List Obs}
    (htr : (MeshNode.exec (w.nodes i).node ⟨w.now, a⟩).trace = (w.nodes i).node.trace ++ os) (j : Fin n) :
    ((w.call i a).nodes j).outbox =
      if j = i then (w.nodes i).outbox ++ os.filterMap Obs.outgoing else (w.nodes j).outbox := by
  by_cases hj : j = i
  · subst hj
    simp [call, htr]
  · simp [call, hj]

/-- A call of a node that starts, as far as links go, in `s₀`. -/
theorem Owned.call {w : World n} (h : Owned w) (i : Fin n) (a : Action) {s₀ : MeshNode MemoryStore} {other : Option LinkId}
    (hair : MeshNode.OnAir other s₀ (MeshNode.exec (w.nodes i).node ⟨w.now, a⟩)) (htr : s₀.trace = (w.nodes i).node.trace)
    (hheld : ∀ id, s₀.held id ≠ none → Owns w.cables i id) (hother : ∀ link, other = some link → Owns w.cables i link) :
    Owned (w.call i a) := by
  obtain ⟨os, hos, -, hsend⟩ := hair.did
  rw [htr] at hos
  refine ⟨fun j id hj => ?_, fun j out hout => ?_, h.inflight⟩
  · rw [call_held] at hj
    split_ifs at hj with hji
    · subst hji
      refine hheld id fun hnone => hj ?_
      rw [← not_ne_iff, MeshNode.held_ne_none, not_ne_iff] at hnone ⊢
      exact hair.forgotten hnone
    · exact h.held j id hj
  · rw [call_outbox w i a hos] at hout
    split_ifs at hout with hji
    · subst hji
      rcases List.mem_append.mp hout with hold | hnew
      · exact h.outbox j out hold
      · obtain ⟨o, ho, hsent⟩ := List.mem_filterMap.mp hnew
        cases o with
        | send link f =>
          cases hsent
          obtain ⟨pre, post, hsplit⟩ := List.mem_iff_append.mp ho
          rcases hsend pre link f post hsplit with ⟨hlink, -⟩ | hlink
          · exact hheld link (MeshNode.held_ne_none.mpr hlink)
          · exact hother link hlink
        | _ => cases hsent
    · exact h.outbox j out hout

theorem Owned.acted {w : World n} (h : Owned w) (i : Fin n) {a : Action} (ha : ∀ ev, a ≠ .transport ev) : Owned (w.call i a) :=
  h.call i a (MeshNode.act_airs ((w.nodes i).node.at_ w.now) ha).onAir rfl (h.held i) (by simp)

theorem Owned.heard {w : World n} (h : Owned w) (f : InFlight n) (hf : Owns w.cables f.dest f.link) :
    Owned (w.call f.dest (.transport (.frameReceived f.link f.frame))) := by
  refine h.call f.dest _ (MeshNode.onFrame_onAir ((w.nodes f.dest).node.at_ w.now) f.link f.frame) rfl (h.held f.dest) ?_
  rintro link ⟨⟩
  exact hf

theorem Owned.toldUp {w : World n} (h : Owned w) (i : Fin n) (link : LinkId) (mtu : ℕ) (hi : Owns w.cables i link) :
    Owned (w.call i (.transport (.linkUp link mtu))) := by
  refine h.call i _ (MeshNode.linkUp_airs ((w.nodes i).node.at_ w.now) link mtu).onAir rfl (fun id hid => ?_) (by simp)
  by_cases hlink : id = link
  · rw [hlink]
    exact hi
  · refine h.held i id ?_
    rw [MeshNode.held_ne_none, Std.ExtTreeMap.getElem?_insert,
      if_neg fun hcmp => hlink (Std.compare_eq_iff_eq.mp hcmp).symm] at hid
    exact MeshNode.held_ne_none.mpr hid

theorem Owned.toldDown {w : World n} (h : Owned w) (i : Fin n) (link : LinkId) :
    Owned (w.call i (.transport (.linkDown link))) := by
  have htr : (MeshNode.exec (w.nodes i).node ⟨w.now, .transport (.linkDown link)⟩).trace =
      (w.nodes i).node.trace ++ [.event (.peerLost link) none] := rfl
  refine ⟨fun j id hj => ?_, fun j out hout => ?_, h.inflight⟩
  · rw [call_held] at hj
    refine h.held j id fun hnone => hj ?_
    split_ifs with hji
    · subst hji
      refine (congrFun (MeshNode.linkDown_held ((w.nodes j).node.at_ w.now) link) id).trans ?_
      by_cases hid : id = link
      · rw [hid, Function.update_self]
      · rw [Function.update_of_ne hid]
        exact hnone
    · exact hnone
  · rw [call_outbox w i _ htr] at hout
    refine h.outbox j out ?_
    split_ifs at hout with hji
    · subst hji
      simpa [Obs.outgoing] using hout
    · exact hout

/-! ## Frames in the air -/

/-- No frame in the air is overdue, and those of one edge land in the order in which they took off. -/
structure OnTime (w : World n) : Prop where
  due : ∀ f ∈ w.inflight, w.now ≤ f.deliverAt
  soon : ∀ f ∈ w.inflight, ∃ e : Edge n, w.cables[f.link]? = some e ∧ f.deliverAt ≤ w.now + e.latencyMs
  ordered : w.inflight.Pairwise fun f g => f.link = g.link → f.deliverAt ≤ g.deliverAt

/-- The frames among those in the air that go over a link to a node. -/
def lane (link : LinkId) (dest : Fin n) (fs : List (InFlight n)) : List Bytes :=
  (fs.filter fun f => f.link = link ∧ f.dest = dest).map (·.frame)

/-- The frames that a node sends on a link. -/
def along (link : LinkId) (outs : List (LinkId × Bytes)) : List Bytes :=
  (outs.filter fun out => out.1 = link).map Prod.snd

omit P in
theorem lane_append (link : LinkId) (dest : Fin n) (fs gs : List (InFlight n)) :
    lane link dest (fs ++ gs) = lane link dest fs ++ lane link dest gs := by
  rw [lane, List.filter_append, List.map_append]
  rfl

omit P in
theorem along_append (link : LinkId) (outs outs' : List (LinkId × Bytes)) :
    along link (outs ++ outs') = along link outs ++ along link outs' := by
  rw [along, List.filter_append, List.map_append]
  rfl

/-- What routing an outbox puts in the air. -/
theorem routeAll_aired (i : Fin n) (outs : List (LinkId × Bytes)) (w : World n) :
    ∃ txFrames rng new, outs.foldl (route i) w = { w with txFrames, rng, inflight := w.inflight ++ new } ∧
      new.Sublist (outs.filterMap (w.aired i)) ∧
      ∀ link, Clear w link → new.filter (·.link = link) = (outs.filterMap (w.aired i)).filter (·.link = link) := by
  induction outs generalizing w with
  | nil => exact ⟨w.txFrames, w.rng, [], by simp, List.Sublist.refl _, fun _ _ => rfl⟩
  | cons out outs ih =>
    obtain ⟨txFrames₁, rng₁, new₁, heq₁, hnew₁⟩ := route_cases i w out
    obtain ⟨txFrames₂, rng₂, new₂, heq₂, hsub, hclear⟩ := ih { w with txFrames := txFrames₁, rng := rng₁, inflight := w.inflight ++ new₁ }
    have hcons : (out :: outs).filterMap (w.aired i) = (w.aired i out).toList ++ outs.filterMap (w.aired i) := by
      cases hout : w.aired i out with
      | none => rw [List.filterMap_cons_none hout]; rfl
      | some x => rw [List.filterMap_cons_some hout]; rfl
    refine ⟨txFrames₂, rng₂, new₁ ++ new₂, ?_, ?_, ?_⟩
    · rw [List.foldl_cons, heq₁, heq₂, List.append_assoc]
    · rw [hcons]
      refine List.Sublist.append ?_ hsub
      rcases hnew₁ with rfl | ⟨rfl, -⟩
      · exact List.Sublist.refl _
      · exact List.nil_sublist _
    · intro link hlink
      rw [hcons, List.filter_append, List.filter_append, hclear link hlink]
      congr 1
      rcases hnew₁ with rfl | ⟨rfl, hlossy⟩
      · rfl
      · have hne : out.1 ≠ link := by
          rintro rfl
          exact hlossy hlink
        refine (List.filter_eq_nil_iff.mpr fun f hf => ?_).symm
        obtain ⟨e, -, rfl⟩ := Option.map_eq_some_iff.mp (Option.mem_toList.mp hf)
        simpa using hne

/-- What node `k` puts in the air goes over its links to their far ends. -/
theorem lane_aired {w : World n} {link : LinkId} {e : Edge n} {i : Fin n} (hi : i = e.a ∨ i = e.b)
    (hfit : ∀ e', w.cables[link]? = some e' → e' = e) (k : Fin n) (outs : List (LinkId × Bytes))
    (howns : ∀ out ∈ outs, Owns w.cables k out.1) :
    lane link (e.other i) (outs.filterMap (w.aired k)) = if k = i then along link outs else [] := by
  induction outs with
  | nil => simp [lane, along]
  | cons out outs ih =>
    have ih := ih fun out hout => howns out (List.mem_cons_of_mem _ hout)
    obtain ⟨e', he', hk⟩ := howns out List.mem_cons_self
    obtain ⟨edge, hedge, rfl⟩ : ∃ edge, w.edges[out.1]? = some edge ∧ { edge with up := true } = e' := by
      simpa [cables] using he'
    have haired : w.aired k out = some
        { deliverAt := w.now + edge.latencyMs, dest := edge.other k, link := out.1, frame := out.2 } := by
      rw [aired, hedge]
      rfl
    rw [List.filterMap_cons_some haired]
    by_cases hlink : out.1 = link
    · subst hlink
      obtain rfl := hfit _ he'
      have hdest : edge.other k = Edge.other { edge with up := true } i ↔ k = i := Edge.other_inj hi hk
      simp only [lane, along, List.filter_cons, hdest, true_and, decide_true, if_true] at ih ⊢
      by_cases hki : k = i
      · rw [if_pos hki] at ih ⊢
        simp only [hki, decide_true, if_true, List.map_cons] at ih ⊢
        rw [ih]
      · rw [if_neg hki] at ih ⊢
        simpa only [hki, decide_false, Bool.false_eq_true, if_false] using ih
    · simpa only [lane, along, List.filter_cons, hlink, false_and, decide_false, Bool.false_eq_true, if_false] using ih

omit P in
/-- The lane of a link is made of the frames that go over it. -/
theorem lane_filter (link : LinkId) (dest : Fin n) (fs : List (InFlight n)) :
    lane link dest (fs.filter (·.link = link)) = lane link dest fs := by
  rw [lane, List.filter_filter]
  congr 2
  funext f
  by_cases hf : f.link = link <;> simp [hf]

omit P in
/-- Frames ordered by the time they land part into those that have landed and the others. -/
theorem lane_due {fs : List (InFlight n)} (ordered : fs.Pairwise fun f g => f.link = g.link → f.deliverAt ≤ g.deliverAt)
    (link : LinkId) (dest : Fin n) (now : Millis) :
    lane link dest (fs.filter fun f => f.deliverAt ≤ now) ++ lane link dest (fs.filter fun f => ¬ f.deliverAt ≤ now) =
      lane link dest fs := by
  have hlane : (fs.filter fun f => f.link = link ∧ f.dest = dest).Pairwise fun f g =>
      decide (g.deliverAt ≤ now) = true → decide (f.deliverAt ≤ now) = true := by
    rw [List.pairwise_filter]
    refine ordered.imp fun {f g} hfg hf hg hdue => ?_
    simp only [decide_eq_true_eq] at hf hg hdue ⊢
    exact (hfg (hf.1.trans hg.1.symm)).trans hdue
  have hparts := Sorting.filter_append_filter_not hlane
  simp only [lane, ← List.map_append]
  rw [List.filter_comm, List.filter_comm (p := fun f : InFlight n => decide (f.link = link ∧ f.dest = dest))]
  simp only [decide_not, hparts]

/-- Edges stay for the rest of a scenario. -/
theorem run_cables (script : List (Op n)) {w : World n} {link : LinkId} {e : Edge n} (he : w.cables[link]? = some e) :
    (Runs.run perform w script).cables[link]? = some e := by
  refine Runs.run_invariant perform (fun w => w.cables[link]? = some e) (fun w op he => ?_) w he script
  obtain ⟨more, hmore⟩ := perform_cables w op
  rw [hmore, List.getElem?_append_left (List.getElem?_eq_some_iff.mp he).1, he]

/-! ## One lane -/

/-- The frames that a step of the world hands over. -/
def handed (w : World n) : Op n → List (InFlight n)
  | .step => (w.inflight.filter fun f => f.deliverAt ≤ w.now + w.stepMs).filter fun f => w.isUp f.link
  | _ => []

/-- Every frame of `xs` is in `ys`, in order; where nothing was lost they are the same. -/
def Carried (lossless : Prop) (xs ys : List Bytes) : Prop := xs.Sublist ys ∧ (lossless → xs = ys)

/-- What node `i` has sent on a link of its own has arrived, is in the air, or is in its outbox. -/
structure Lane (link : LinkId) (e : Edge n) (i : Fin n) (lossless : Prop) (arrived : List (InFlight n)) (w : World n) : Prop where
  owned : Owned w
  onTime : OnTime w
  order : Carried lossless
    (lane link (e.other i) arrived ++ lane link (e.other i) w.inflight ++ along link (w.nodes i).outbox)
    (along link ((w.nodes i).node.trace.filterMap Obs.outgoing))

section Lane
variable {link : LinkId} {e : Edge n} {i : Fin n} {lossless : Prop} {arrived : List (InFlight n)} {w : World n}

omit P in
theorem Carried.append {xs ys : List Bytes} (h : Carried lossless xs ys) (zs : List Bytes) : Carried lossless (xs ++ zs) (ys ++ zs) :=
  ⟨h.1.append (List.Sublist.refl zs), fun hl => by rw [h.2 hl]⟩

omit P in
theorem Carried.prepend {xs ys : List Bytes} (h : Carried lossless xs ys) (zs : List Bytes) : Carried lossless (zs ++ xs) (zs ++ ys) :=
  ⟨(List.Sublist.refl zs).append h.1, fun hl => by rw [h.2 hl]⟩

omit P in
theorem Carried.refl (xs : List Bytes) : Carried lossless xs xs := ⟨List.Sublist.refl xs, fun _ => rfl⟩

omit P in
theorem Carried.drop {xs xs' ys : List Bytes} (h : Carried lossless xs ys) (h' : Carried lossless xs' xs) : Carried lossless xs' ys :=
  ⟨h'.1.trans h.1, fun hl => (h'.2 hl).trans (h.2 hl)⟩

theorem OnTime.cables {w w' : World n} (h : OnTime w) (hcables : w'.cables = w.cables) (hnow : w'.now = w.now)
    (hinflight : w'.inflight = w.inflight) : OnTime w' := by
  refine ⟨?_, ?_, ?_⟩
  · rw [hinflight, hnow]
    exact h.due
  · rw [hinflight, hnow, hcables]
    exact h.soon
  · rw [hinflight]
    exact h.ordered

/-- A call only adds to the outbox of its node what it sends. -/
theorem Lane.called (h : Lane link e i lossless arrived w) (k : Fin n) (a : Action) (howned : Owned (w.call k a)) :
    Lane link e i lossless arrived (w.call k a) := by
  obtain ⟨os, htr⟩ : ∃ os, (MeshNode.exec (w.nodes k).node ⟨w.now, a⟩).trace = (w.nodes k).node.trace ++ os :=
    ⟨_, MeshNode.exec_trace (w.nodes k).node ⟨w.now, a⟩⟩
  refine ⟨howned, h.onTime.cables rfl rfl rfl, ?_⟩
  rw [call_outbox w k a htr, call_node]
  by_cases hik : i = k
  · subst hik
    rw [if_pos rfl, Function.update_self, htr, List.filterMap_append, along_append, along_append, ← List.append_assoc]
    exact h.order.append _
  · rw [if_neg hik, Function.update_of_ne hik]
    exact h.order

/-- An outbox is emptied into the air. -/
theorem collect_moves (w : World n) (k : Fin n) : ∃ new,
    (∀ j, ((w.collect k).nodes j).node = ((w.call k .takeEvents).nodes j).node) ∧
    (∀ j, ((w.collect k).nodes j).outbox = if j = k then [] else ((w.call k .takeEvents).nodes j).outbox) ∧
    (w.collect k).inflight = w.inflight ++ new ∧
    new.Sublist (((w.call k .takeEvents).nodes k).outbox.filterMap (w.aired k)) ∧
    ∀ link, Clear w link → new.filter (·.link = link) =
      (((w.call k .takeEvents).nodes k).outbox.filterMap (w.aired k)).filter (·.link = link) := by
  let w₁ : World n := w.call k .takeEvents
  let w₂ : World n := { w₁ with nodes := Function.update w₁.nodes k { w₁.nodes k with
    events := (w₁.nodes k).events ++ (w.nodes k).node.events, outbox := [] } }
  obtain ⟨txFrames, rng, new, heq, hsub, hexact⟩ := routeAll_aired k (w₁.nodes k).outbox w₂
  have hcollect : w.collect k = { w₂ with txFrames, rng, inflight := w.inflight ++ new } := heq
  refine ⟨new, fun j => ?_, fun j => ?_, ?_, hsub, hexact⟩
  · rw [hcollect]
    by_cases hj : j = k
    · subst hj
      simp [w₂, w₁]
    · simp [w₂, w₁, Function.update_of_ne hj]
  · rw [hcollect]
    by_cases hj : j = k
    · subst hj
      simp [w₂]
    · simp [w₂, w₁, hj]
  · rw [hcollect]

theorem mem_aired {w : World n} {k : Fin n} {outs : List (LinkId × Bytes)} {new : List (InFlight n)}
    (hsub : new.Sublist (outs.filterMap (w.aired k))) {f : InFlight n} (hf : f ∈ new) :
    ∃ edge : Edge n, w.cables[f.link]? = some edge ∧ f.deliverAt = w.now + edge.latencyMs ∧ (f.dest = edge.a ∨ f.dest = edge.b) := by
  obtain ⟨out, -, hout⟩ := List.mem_filterMap.mp (hsub.subset hf)
  obtain ⟨edge, hedge, rfl⟩ := Option.map_eq_some_iff.mp hout
  refine ⟨{ edge with up := true }, ?_, rfl, ?_⟩
  · simp only [cables, List.getElem?_map, hedge, Option.map_some]
  · by_cases hak : edge.a = k <;> simp [hak]

theorem collect_cables (w : World n) (k : Fin n) : (w.collect k).cables = w.cables := congrArg (List.map _) (collect_fixed w k).1

theorem Owned.collect (h : Owned w) (k : Fin n) : Owned (w.collect k) := by
  have hcalled := h.acted k (a := .takeEvents) (by simp)
  obtain ⟨new, hnode, hbox, hinflight, hsub, -⟩ := collect_moves w k
  refine ⟨fun j id hj => ?_, fun j out hout => ?_, fun f hf => ?_⟩
  · rw [hnode] at hj
    rw [collect_cables]
    exact hcalled.held j id hj
  · rw [hbox] at hout
    rw [collect_cables]
    split_ifs at hout
    · cases hout
    · exact hcalled.outbox j out hout
  · rw [hinflight, List.mem_append] at hf
    rw [collect_cables]
    rcases hf with hold | hnew
    · exact h.inflight f hold
    · obtain ⟨edge, hedge, -, hdest⟩ := mem_aired hsub hnew
      exact ⟨edge, hedge, hdest⟩

theorem OnTime.collect (h : OnTime w) (k : Fin n) : OnTime (w.collect k) := by
  obtain ⟨new, -, -, hinflight, hsub, -⟩ := collect_moves w k
  have hnow := (collect_fixed w k).2
  refine ⟨fun f hf => ?_, fun f hf => ?_, ?_⟩
  · rw [hinflight, List.mem_append] at hf
    rw [hnow]
    rcases hf with hold | hnew
    · exact h.due f hold
    · obtain ⟨edge, -, hat, -⟩ := mem_aired hsub hnew
      rw [hat]
      exact Nat.le_add_right _ _
  · rw [hinflight, List.mem_append] at hf
    rw [hnow, collect_cables]
    rcases hf with hold | hnew
    · exact h.soon f hold
    · obtain ⟨edge, hedge, hat, -⟩ := mem_aired hsub hnew
      exact ⟨edge, hedge, hat.le⟩
  · rw [hinflight, List.pairwise_append]
    refine ⟨h.ordered, List.pairwise_of_forall_mem_list fun f hf g hg hlink => ?_, fun f hf g hg hlink => ?_⟩
    · obtain ⟨edge, hedge, hat, -⟩ := mem_aired hsub hf
      obtain ⟨edge', hedge', hat', -⟩ := mem_aired hsub hg
      rw [hlink, hedge'] at hedge
      cases hedge
      exact (hat.trans hat'.symm).le
    · obtain ⟨edge, hedge, hsoon⟩ := h.soon f hf
      obtain ⟨edge', hedge', hat', -⟩ := mem_aired hsub hg
      rw [hlink, hedge'] at hedge
      cases hedge
      exact hsoon.trans hat'.ge

theorem Lane.collect (h : Lane link e i lossless arrived w) (hi : i = e.a ∨ i = e.b)
    (hfit : ∀ e', w.cables[link]? = some e' → e' = e) (hclear : lossless → Clear w link) (k : Fin n) :
    Lane link e i lossless arrived (w.collect k) := by
  have hcalled := h.called k .takeEvents (h.owned.acted k (by simp))
  obtain ⟨new, hnode, hbox, hinflight, hsub, hexact⟩ := collect_moves w k
  have hlane : lane link (e.other i) (((w.call k .takeEvents).nodes k).outbox.filterMap (w.aired k)) =
      if k = i then along link ((w.call k .takeEvents).nodes k).outbox else [] :=
    lane_aired hi hfit k _ (hcalled.owned.outbox k)
  have hnew : Carried lossless (lane link (e.other i) new)
      (if k = i then along link ((w.call k .takeEvents).nodes k).outbox else []) := by
    rw [← hlane]
    refine ⟨(hsub.filter _).map _, fun hl => ?_⟩
    rw [← lane_filter, hexact link (hclear hl), lane_filter]
  have hrest : Carried lossless (lane link (e.other i) new ++ along link ((w.collect k).nodes i).outbox)
      (along link ((w.call k .takeEvents).nodes i).outbox) := by
    rw [hbox]
    by_cases hik : i = k
    · subst hik
      rw [if_pos rfl] at hnew ⊢
      simpa [along] using hnew
    · rw [if_neg (Ne.symm hik)] at hnew
      rw [if_neg hik, List.sublist_nil.mp hnew.1, List.nil_append]
      exact .refl _
  refine ⟨h.owned.collect k, h.onTime.collect k, ?_⟩
  rw [hnode, hinflight, lane_append, List.append_assoc, List.append_assoc]
  refine hcalled.order.drop ?_
  rw [call_inflight, List.append_assoc]
  exact (hrest.prepend _).prepend _

theorem Lane.collectAndRoute (h : Lane link e i lossless arrived w) (hi : i = e.a ∨ i = e.b)
    (hfit : ∀ e', w.cables[link]? = some e' → e' = e) (hclear : lossless → Clear w link) :
    Lane link e i lossless arrived w.collectAndRoute := by
  have hall : ∀ (ks : List (Fin n)) {w : World n}, Lane link e i lossless arrived w →
      (∀ e', w.cables[link]? = some e' → e' = e) → (lossless → Clear w link) →
      Lane link e i lossless arrived (ks.foldl World.collect w) := by
    intro ks
    induction ks with
    | nil => exact fun h _ _ => h
    | cons k ks ih =>
      intro w h hfit hclear
      refine ih (h.collect hi hfit hclear k) ?_ ?_
      · rw [collect_cables]
        exact hfit
      · rw [Clear, (collect_fixed w k).1]
        exact hclear
  exact hall _ h hfit hclear

/-! ## Edges and frames -/

theorem Lane.edgesChanged (h : Lane link e i lossless arrived w) {edges : List (Edge n)}
    (hedges : ({ w with edges } : World n).cables = w.cables) : Lane link e i lossless arrived { w with edges } := by
  refine ⟨⟨fun j id hj => ?_, fun j out hout => ?_, fun f hf => ?_⟩, h.onTime.cables hedges rfl rfl, h.order⟩
  · rw [hedges]
    exact h.owned.held j id hj
  · rw [hedges]
    exact h.owned.outbox j out hout
  · rw [hedges]
    exact h.owned.inflight f hf

theorem Lane.both (h : Lane link e i lossless arrived w) (edge : Edge n) (id : LinkId) (mtu : Option ℕ)
    (hedge : ∃ up, w.cables[id]? = some { edge with up }) : Lane link e i lossless arrived (w.both edge (eventLink id mtu)) := by
  have hone : ∀ {w : World n} (k : Fin n), Owns w.cables k id → Lane link e i lossless arrived w →
      Lane link e i lossless arrived (w.call k (.transport (eventLink id mtu))) := by
    intro w k hk h
    refine h.called k _ ?_
    cases mtu with
    | some mtu => exact h.owned.toldUp k id mtu hk
    | none => exact h.owned.toldDown k id
  obtain ⟨up, hup⟩ := hedge
  exact hone edge.b ⟨_, hup, .inr rfl⟩ (hone edge.a ⟨_, hup, .inl rfl⟩ h)

theorem Lane.setEdgeUp (h : Lane link e i lossless arrived w) (id : LinkId) (up : Bool) :
    Lane link e i lossless arrived (w.setEdgeUp id up) := by
  rw [setEdgeUp_eq]
  cases hedge : w.edges[id]? with
  | none => exact h
  | some edge =>
    simp only
    by_cases hsame : edge.up = up
    · rw [if_pos hsame]
      exact h
    · rw [if_neg hsame]
      refine (h.edgesChanged (set_cables hedge up)).both _ _ _ ⟨true, ?_⟩
      rw [set_cables hedge up, cables, List.getElem?_map, hedge]
      rfl

theorem Lane.tearDown (h : Lane link e i lossless arrived w) (k : Fin n) : Lane link e i lossless arrived (w.honorCloses k) := by
  let w₀ : World n := { w with nodes := Function.update w.nodes k { w.nodes k with closed := [] } }
  have hnode : ∀ j, (w₀.nodes j).node = (w.nodes j).node := by
    intro j
    by_cases hj : j = k
    · subst hj
      simp [w₀]
    · simp [w₀, Function.update_of_ne hj]
  have hbox : ∀ j, (w₀.nodes j).outbox = (w.nodes j).outbox := by
    intro j
    by_cases hj : j = k
    · subst hj
      simp [w₀]
    · simp [w₀, Function.update_of_ne hj]
  have h₀ : Lane link e i lossless arrived w₀ := by
    refine ⟨⟨fun j id hj => ?_, fun j out hout => ?_, h.owned.inflight⟩, h.onTime.cables rfl rfl rfl, ?_⟩
    · rw [hnode] at hj
      exact h.owned.held j id hj
    · rw [hbox] at hout
      exact h.owned.outbox j out hout
    · rw [hnode, hbox]
      exact h.order
  have hall : ∀ (links : List LinkId) {w : World n}, Lane link e i lossless arrived w →
      Lane link e i lossless arrived (links.foldl (fun w id => w.setEdgeUp id false) w) := by
    intro links
    induction links with
    | nil => exact id
    | cons id links ih => exact fun h => ih (h.setEdgeUp id false)
  exact hall _ h₀

/-- The clock moves on, and what is due is taken from the air. -/
theorem Lane.landed (h : Lane link e i lossless arrived w) (hclear : lossless → Clear w link) (handed : List (InFlight n))
    (hhanded : handed = (w.inflight.filter fun f => f.deliverAt ≤ w.now + w.stepMs).filter fun f => w.isUp f.link) :
    Lane link e i lossless (arrived ++ handed) { w with
      now := w.now + w.stepMs, inflight := w.inflight.filter fun f => ¬ f.deliverAt ≤ w.now + w.stepMs } := by
  refine ⟨⟨h.owned.held, h.owned.outbox, fun f hf => h.owned.inflight f (List.mem_of_mem_filter hf)⟩,
    ⟨fun f hf => ?_, fun f hf => ?_, h.onTime.ordered.filter _⟩, ?_⟩
  · exact (not_le.mp (of_decide_eq_true (List.mem_filter.mp hf).2)).le
  · obtain ⟨e', he', hsoon⟩ := h.onTime.soon f (List.mem_of_mem_filter hf)
    exact ⟨e', he', hsoon.trans (Nat.add_le_add_right (Nat.le_add_right _ _) _)⟩
  · rw [lane_append, List.append_assoc, List.append_assoc]
    refine h.order.drop ?_
    rw [List.append_assoc, ← lane_due h.onTime.ordered link (e.other i) (w.now + w.stepMs), List.append_assoc]
    refine Carried.prepend ?_ _
    refine Carried.append ?_ _
    subst hhanded
    refine ⟨((List.filter_sublist).filter _).map _, fun hl => ?_⟩
    rw [lane, lane, List.filter_filter]
    congr 1
    refine List.filter_congr fun f hf => ?_
    by_cases hlink : f.link = link
    · obtain ⟨cable, hcable, -⟩ := h.owned.inflight f (List.mem_of_mem_filter hf)
      obtain ⟨edge, hedge, -⟩ : ∃ edge, w.edges[f.link]? = some edge ∧ { edge with up := true } = cable := by
        simpa [cables] using hcable
      have hup : w.isUp f.link = true := by
        rw [isUp, hedge]
        exact (hclear hl edge (hlink ▸ hedge)).1
      rw [hup, Bool.and_true]
    · simp [hlink]

/-- The delivery loop hands over the frames whose edge is up. -/
theorem deliverAll_eq (ready : List (InFlight n)) (w : World n) : ready.foldl deliver w =
    (ready.filter fun f => w.isUp f.link).foldl (fun w f => w.call f.dest (.transport (.frameReceived f.link f.frame))) w := by
  induction ready generalizing w with
  | nil => rfl
  | cons f ready ih =>
    rw [List.foldl_cons, ih]
    have hup : (w.deliver f).isUp = w.isUp := by
      funext l
      rw [isUp, isUp, deliver_edges]
    rw [hup]
    by_cases hf : w.isUp f.link = true
    · rw [List.filter_cons_of_pos (by simpa using hf), List.foldl_cons, deliver, if_pos hf]
    · rw [List.filter_cons_of_neg (by simpa using hf), deliver, if_neg hf]

theorem Lane.heardAll (fs : List (InFlight n)) {w : World n} (h : Lane link e i lossless arrived w)
    (hfs : ∀ f ∈ fs, Owns w.cables f.dest f.link) :
    Lane link e i lossless arrived (fs.foldl (fun w f => w.call f.dest (.transport (.frameReceived f.link f.frame))) w) := by
  induction fs generalizing w with
  | nil => exact h
  | cons f fs ih =>
    exact ih (h.called f.dest _ (h.owned.heard f (hfs f List.mem_cons_self))) fun g hg => hfs g (List.mem_cons_of_mem f hg)

theorem Lane.ticks (ks : List (Fin n)) {w : World n} (h : Lane link e i lossless arrived w) :
    Lane link e i lossless arrived (ks.foldl (fun w k => w.call k .tick) w) := by
  induction ks generalizing w with
  | nil => exact h
  | cons k ks ih => exact ih (h.called k .tick (h.owned.acted k (by simp)))

theorem Lane.tearDownAll (ks : List (Fin n)) {w : World n} (h : Lane link e i lossless arrived w) :
    Lane link e i lossless arrived (ks.foldl World.honorCloses w) := by
  induction ks generalizing w with
  | nil => exact h
  | cons k ks ih => exact ih (h.tearDown k)

theorem Lane.step (h : Lane link e i lossless arrived w) (hi : i = e.a ∨ i = e.b)
    (hfit : ∀ e', w.cables[link]? = some e' → e' = e) (hclear : lossless → Clear w link) :
    Lane link e i lossless (arrived ++ handed w .step) w.step := by
  let later : World n := { w with
    now := w.now + w.stepMs
    inflight := w.inflight.filter fun f => ¬ f.deliverAt ≤ w.now + w.stepMs }
  have hlanded : Lane link e i lossless (arrived ++ handed w .step) later := h.landed hclear _ rfl
  have hready : ∀ f ∈ handed w .step, Owns later.cables f.dest f.link := fun f hf =>
    h.owned.inflight f (List.mem_of_mem_filter (List.mem_of_mem_filter hf))
  have hticked := (hlanded.heardAll _ hready).ticks (List.finRange n)
  have hedges : ((List.finRange n).foldl (fun w k => w.call k .tick) ((handed w .step).foldl
      (fun w f => w.call f.dest (.transport (.frameReceived f.link f.frame))) later)).edges = w.edges := by
    rw [foldl_reading (·.edges) (fun w k => w.call k .tick) (fun _ _ => rfl),
      foldl_reading (·.edges) (fun w (f : InFlight n) => w.call f.dest (.transport (.frameReceived f.link f.frame))) (fun _ _ => rfl)]
  have hrouted := hticked.collectAndRoute hi (by rw [cables, hedges]; exact hfit) (by rw [Clear, hedges]; exact hclear)
  have hstep : w.step = (List.finRange n).foldl honorCloses ((List.finRange n).foldl (fun w k => w.call k .tick)
      ((handed w .step).foldl (fun w f => w.call f.dest (.transport (.frameReceived f.link f.frame))) later)).collectAndRoute := by
    show (List.finRange n).foldl honorCloses ((List.finRange n).foldl (fun w k => w.call k .tick)
      ((w.inflight.filter fun f => f.deliverAt ≤ w.now + w.stepMs).foldl deliver later)).collectAndRoute = _
    rw [deliverAll_eq]
    rfl
  rw [hstep]
  exact hrouted.tearDownAll (List.finRange n)

theorem Lane.imp {lossless' : Prop} (h : Lane link e i lossless arrived w) (himp : lossless' → lossless) :
    Lane link e i lossless' arrived w := ⟨h.owned, h.onTime, h.order.1, fun hl => h.order.2 (himp hl)⟩

/-- An edge more changes nothing. -/
theorem Lane.linked (h : Lane link e i lossless arrived w) (more : Edge n) :
    Lane link e i lossless arrived { w with edges := w.edges ++ [more] } := by
  have hcables : ({ w with edges := w.edges ++ [more] } : World n).cables = w.cables ++ [{ more with up := true }] := List.map_append ..
  refine ⟨⟨fun j id hj => ?_, fun j out hout => ?_, fun f hf => ?_⟩, ⟨h.onTime.due, fun f hf => ?_, h.onTime.ordered⟩, h.order⟩
  · rw [hcables]
    exact (h.owned.held j id hj).more _
  · rw [hcables]
    exact (h.owned.outbox j out hout).more _
  · rw [hcables]
    exact (h.owned.inflight f hf).more _
  · obtain ⟨e', he', hsoon⟩ := h.onTime.soon f hf
    exact ⟨e', by rw [hcables, List.getElem?_append_left (List.getElem?_eq_some_iff.mp he').1, he'], hsoon⟩

theorem Lane.connect (h : Lane link e i lossless arrived w) (a b : Fin n) (latencyMs : Millis) (loss : ℚ) (mtu : ℕ)
    (hi : i = e.a ∨ i = e.b) (hfit : ∀ e', (w.connect a b latencyMs loss mtu).cables[link]? = some e' → e' = e)
    (hclear : lossless → Clear (w.connect a b latencyMs loss mtu) link) :
    Lane link e i lossless arrived (w.connect a b latencyMs loss mtu) := by
  let more : Edge n := { a, b, latencyMs, loss, mtu, up := true }
  have hboth := (h.linked more).both more w.edges.length (some mtu) ⟨true, by
    rw [cables, List.getElem?_map, List.getElem?_concat_length]
    rfl⟩
  have hedges : (w.connect a b latencyMs loss mtu).edges = w.edges ++ [more] := (collectAndRoute_fixed _).1
  refine hboth.collectAndRoute hi ?_ ?_
  · rw [cables, hedges] at hfit
    exact hfit
  · rw [Clear, hedges] at hclear
    exact hclear

theorem Lane.bootstrap (h : Lane link e i lossless arrived w) (hi : i = e.a ∨ i = e.b)
    (hfit : ∀ e', w.cables[link]? = some e' → e' = e) (hclear : lossless → Clear w link) :
    Lane link e i lossless arrived w.bootstrap := by
  have hall : ∀ (es : List (Edge n × ℕ)) {w : World n}, (∀ p ∈ es, w.edges[p.2]? = some p.1) → Lane link e i lossless arrived w →
      Lane link e i lossless arrived (es.foldl (fun w e => w.both e.1 (.linkUp e.2 e.1.mtu)) w) := by
    intro es
    induction es with
    | nil => exact fun _ h => h
    | cons p es ih =>
      intro w hes h
      refine ih (fun q hq => hes q (List.mem_cons_of_mem p hq)) (h.both p.1 p.2 (some p.1.mtu) ⟨true, ?_⟩)
      rw [cables, List.getElem?_map, hes p List.mem_cons_self]
      rfl
  have hedges : (w.edges.zipIdx.foldl (fun w e => w.both e.1 (.linkUp e.2 e.1.mtu)) w).edges = w.edges :=
    foldl_reading (·.edges) (fun w (e : Edge n × ℕ) => w.both e.1 (.linkUp e.2 e.1.mtu)) (fun _ _ => rfl) _ _
  refine (hall w.edges.zipIdx (fun p hp => ?_) h).collectAndRoute hi ?_ ?_
  · exact List.mk_mem_zipIdx_iff_getElem?.mp hp
  · rw [cables, hedges]
    exact hfit
  · rw [Clear, hedges]
    exact hclear

theorem Lane.perform (op : Op n) (h : Lane link e i lossless arrived w) (hi : i = e.a ∨ i = e.b)
    (hfit : ∀ e', (w.perform op).cables[link]? = some e' → e' = e) (hclear : lossless → Clear w link)
    (hclear' : lossless → Clear (w.perform op) link) :
    Lane link e i lossless (arrived ++ handed w op) (w.perform op) := by
  have hfit₀ : ∀ e', w.cables[link]? = some e' → e' = e := fun e' he' => hfit e' (run_cables [op] he')
  have hquiet : handed w op = [] → Lane link e i lossless arrived (w.perform op) →
      Lane link e i lossless (arrived ++ handed w op) (w.perform op) := by
    intro hnone hlane
    rwa [hnone, List.append_nil]
  cases op with
  | setStepMs step =>
    exact hquiet rfl ⟨⟨h.owned.held, h.owned.outbox, h.owned.inflight⟩, h.onTime.cables rfl rfl rfl, h.order⟩
  | link a b latencyMs loss mtu => exact hquiet rfl (h.linked { a, b, latencyMs, loss, mtu, up := true })
  | connect a b latencyMs loss mtu => exact hquiet rfl (h.connect a b latencyMs loss mtu hi hfit hclear')
  | bootstrap => exact hquiet rfl (h.bootstrap hi hfit₀ hclear)
  | setEdgeUp id up => exact hquiet rfl (h.setEdgeUp id up)
  | command k a =>
    refine hquiet rfl ?_
    cases a with
    | transport ev => exact h
    | _ => exact h.called k _ (h.owned.acted k (by simp))
  | step => exact h.step hi hfit₀ hclear

theorem new_lane [KeySeeds] (cfg : Tunables) (seed : ℕ) (entropy : Fin n → ℕ → P.Entropy) :
    Lane link e i lossless [] (new n cfg seed entropy) := by
  refine ⟨⟨fun j id hj => absurd rfl hj, fun j out hout => ?_, fun f hf => ?_⟩, ⟨fun f hf => ?_, fun f hf => ?_, ?_⟩, .refl _⟩
  · cases hout
  · cases hf
  · cases hf
  · cases hf
  · exact List.Pairwise.nil

end Lane

/-- In every scenario, what a node has sent on an edge of its own reaches its neighbour in that order and
once at most: the frames handed over so far, those in the air and those in the outbox are the frames sent,
in order, but for losses; while the edge has always been up and loses nothing they are all of them. No
frame in the air is overdue, or further from landing than the latency of its edge. -/
theorem edges_keep_order [KeySeeds] (cfg : Tunables) (seed : ℕ) (entropy : Fin n → ℕ → P.Entropy) (script : List (Op n))
    (link : LinkId) (e : Edge n) (i : Fin n) (hi : i = e.a ∨ i = e.b)
    (hedge : (Runs.run perform (new n cfg seed entropy) script).cables[link]? = some e) :
    let w₀ := new n cfg seed entropy
    let w := Runs.run perform w₀ script
    let path := lane link (e.other i) (Runs.outputs perform handed w₀ script) ++ lane link (e.other i) w.inflight ++
      along link (w.nodes i).outbox
    let sent := along link ((w.nodes i).node.trace.filterMap Obs.outgoing)
    path.Sublist sent ∧ ((∀ pre, pre <+: script → Clear (Runs.run perform w₀ pre) link) → path = sent) ∧
      ∀ f ∈ w.inflight, f.link = link → w.now ≤ f.deliverAt ∧ f.deliverAt ≤ w.now + e.latencyMs := by
  intro w₀ w
  have hlane : ∀ (script : List (Op n)), (∀ e', (Runs.run perform w₀ script).cables[link]? = some e' → e' = e) →
      Lane link e i (∀ pre, pre <+: script → Clear (Runs.run perform w₀ pre) link) (Runs.outputs perform handed w₀ script)
        (Runs.run perform w₀ script) := by
    intro script
    induction script using List.reverseRecOn with
    | nil => exact fun _ => new_lane cfg seed entropy
    | append_singleton script op ih =>
      rw [Runs.run_snoc, Runs.outputs_append]
      intro hfit
      have hfit₀ : ∀ e', (Runs.run perform w₀ script).cables[link]? = some e' → e' = e :=
        fun e' he' => hfit e' (run_cables [op] he')
      have hbefore := (ih hfit₀).imp fun (hall : ∀ pre, pre <+: script ++ [op] → Clear (Runs.run perform w₀ pre) link) pre hpre =>
        hall pre (hpre.trans (List.prefix_append script [op]))
      have hafter := hbefore.perform op hi hfit (fun hall => hall script (List.prefix_append script [op])) fun hall => by
        have hlast := hall _ List.prefix_rfl
        rwa [Runs.run_snoc] at hlast
      simpa [Runs.outputs] using hafter
  have h := hlane script fun e' he' => by
    rw [hedge] at he'
    exact (Option.some.inj he').symm
  refine ⟨h.order.1, h.order.2, fun f hf hlink => ⟨h.onTime.due f hf, ?_⟩⟩
  obtain ⟨e', he', hsoon⟩ := h.onTime.soon f hf
  rw [hlink, hedge] at he'
  rw [Option.some.inj he']
  exact hsoon

end World
end CockroachChat

namespace CockroachChat.Reference

attribute [local instance] prims seeds

/-- Two nodes greet each other over an edge, and the frames of the first are on their way. -/
theorem edges_keep_order_greeting :
    let w₀ : World 2 := World.new 2 {} 7 fun i k => (k + 1000 * i.1 : ℕ)
    let script : List (World.Op 2) := [.link 0 1 5 0 512, .bootstrap, .step, .step]
    let w := Runs.run World.perform w₀ script
    let path := World.lane 0 1 (Runs.outputs World.perform World.handed w₀ script) ++ World.lane 0 1 w.inflight ++
      World.along 0 (w.nodes 0).outbox
    let sent := World.along 0 ((w.nodes 0).node.trace.filterMap Obs.outgoing)
    path.Sublist sent ∧ ((∀ pre, pre <+: script → World.Clear (Runs.run World.perform w₀ pre) 0) → path = sent) ∧
      ∀ f ∈ w.inflight, f.link = 0 → w.now ≤ f.deliverAt ∧ f.deliverAt ≤ w.now + 5 := by
  refine World.edges_keep_order {} 7 _ _ 0 { a := 0, b := 1, latencyMs := 5, loss := 0, mtu := 512, up := true } 0 (.inl rfl) ?_
  rw [Runs.run_cons]
  exact World.run_cables [.bootstrap, .step, .step] rfl

end CockroachChat.Reference
