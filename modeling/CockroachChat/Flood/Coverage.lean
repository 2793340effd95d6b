import CockroachChat.Flood.Delivery
import CockroachChat.Flood.LinkLocal
import CockroachChat.Flood.Network
import CockroachChat.Foundations.Flooding
import CockroachChat.Node.ReferenceNodes

/-! # How far a message spreads

A channel message is flooded through a network. Which nodes have it, which copies are on their way,
and who still has to pass it on are followed through every run, in whatever order frames arrive and
timers fire. A node passes on the first copy it takes in, with the hops that copy has left. -/
namespace CockroachChat
set_option autoImplicit false

/-- How the links of the nodes are joined. -/
structure Wiring (ι : Type) where
  /-- The far end of a link, with the link's name there. -/
  peer : ι → LinkId → Option (ι × LinkId)
  ports : ι → List LinkId
  listed : ∀ v l, peer v l ≠ none → l ∈ ports v
  symmetric : ∀ v l w l', peer v l = some (w, l') → peer w l' = some (v, l)

def Wiring.linked {ι : Type} (W : Wiring ι) (u v : ι) : Prop := ∃ l l', W.peer u l = some (v, l')

variable [P : Prims] {ι S : Type}

/-! ## The conditions on a run -/

def Action.frame : Action → Option Bytes
  | .transport (.frameReceived _ frame) => some frame
  | _ => none

namespace MeshNode
variable [Store S]

/-- The call does not disturb the flooding of `p`: nothing it builds has the digest of `p`; a packet of
that digest that it hears came in a frame of its own, and is let through by the limiter if it is new;
and the seen cache keeps the digest. -/
structure Clear (p : Packet) (s : MeshNode S) (c : Call) : Prop where
  built : ∀ pkt ∈ builtBy s (exec s c), pkt.digest ≠ p.digest
  whole : ∀ q ∈ (s.at_ c.now).heard c.action, q.digest = p.digest →
    c.action.frame = some (kindComplete :: q.encode)
  admitted : ∀ q ∈ (s.at_ c.now).heard c.action, q.digest = p.digest → (s.at_ c.now).fresh q = true →
    (s.at_ c.now).accepts q = true
  remembered : (s.seen.map[p.digest]? ≠ none ∨ ∃ q ∈ (s.at_ c.now).heard c.action, q.digest = p.digest) →
    (exec s c).seen.map[p.digest]? ≠ none

instance (p : Packet) (s : MeshNode S) (c : Call) : Decidable (Clear p s c) :=
  decidable_of_iff (_ ∧ _ ∧ _ ∧ (_ → _)) ⟨fun h => ⟨h.1, h.2.1, h.2.2.1, h.2.2.2⟩, fun h => ⟨h.1, h.2, h.3, h.4⟩⟩

end MeshNode

namespace Net

/-- Every link is up and takes the message in one frame, every relay is certain, and no node has heard
the message often enough to hold its copy back. -/
structure Open (W : Wiring ι) (p : Packet) (net : Net ι S) : Prop where
  up : ∀ v, ∀ l ∈ W.ports v, ∃ st ∈ (net.node v).links[l]?, fragHeader < st.mtu ∧ p.encode.length < st.mtu
  certain : ∀ v, (net.node v).cfg.relayProbSparse = 1 ∧ (net.node v).cfg.relayProbMid = 1 ∧ (net.node v).cfg.relayProbDense = 1
  unsuppressed : ∀ v, (net.node v).seen.hearCount p.digest < (net.node v).cfg.suppressionThreshold

instance [Fintype ι] (W : Wiring ι) (p : Packet) (net : Net ι S) : Decidable (net.Open W p) :=
  decidable_of_iff (_ ∧ _ ∧ _) ⟨fun h => ⟨h.1, h.2.1, h.2.2⟩, fun h => ⟨h.1, h.2, h.3⟩⟩

/-- The call that an event makes. -/
def made (net : Net ι S) : NetEvent ι → Option (ι × Call)
  | .call v c => if c.action.isFrame then none else some (v, c)
  | .arrive i now => net.transit[i]?.map fun m => (m.dest, ⟨now, .transport (.frameReceived m.link m.frame)⟩)

variable [Store S]

/-- The conditions on one event of a run. -/
structure Undisturbed (W : Wiring ι) (p : Packet) (net : Net ι S) (e : NetEvent ι) : Prop where
  ready : net.Open W p
  clear : ∀ vc ∈ net.made e, (net.node vc.1).Clear p vc.2

instance [Fintype ι] (W : Wiring ι) (p : Packet) (net : Net ι S) (e : NetEvent ι) : Decidable (net.Undisturbed W p e) :=
  decidable_of_iff (_ ∧ _) ⟨fun h => ⟨h.1, h.2⟩, fun h => ⟨h.1, h.2⟩⟩

end Net

/-! ## One node -/

namespace MeshNode

/-- What goes out on a link that takes the packet in one frame. -/
theorem mem_broadcastObs {s : MeshNode S} {pkt : Packet} {exclude : Option LinkId} {link : LinkId} {st : LinkState}
    (held : s.links[link]? = some st) (included : some link ≠ exclude) (header : fragHeader < st.mtu)
    (fits : pkt.encode.length < st.mtu) : Obs.send link (kindComplete :: pkt.encode) ∈ s.broadcastObs pkt exclude := by
  refine List.mem_flatMap.mpr ⟨(link, st), List.mem_filter.mpr ⟨?_, by simpa using included⟩, ?_⟩
  · exact Std.ExtTreeMap.mem_toList_iff_getElem?_eq_some.mpr held
  · rw [sendObs, split_fits header fits]
    exact List.mem_singleton_self _

variable [Store S]

/-- A packet that waits goes out when its time has come. -/
theorem tick_sends {s : MeshNode S} {now : Millis} {d : Digest} {e : Pending} {link : LinkId} {st : LinkState}
    (waits : s.scheduler.pending[d]? = some e) (due : e.sendAtMs ≤ now) (few : s.seen.hearCount d < s.cfg.suppressionThreshold)
    (held : s.links[link]? = some st) (other : link ≠ e.excludeLink) (header : fragHeader < st.mtu)
    (fits : e.packet.encode.length < st.mtu) :
    Obs.send link (kindComplete :: e.packet.encode) ∈ (exec s ⟨now, .tick⟩).trace.drop s.trace.length := by
  have hrelay : { packet := e.packet, excludeLink := e.excludeLink } ∈ (s.at_ now).relays :=
    RelayScheduler.mem_due.mpr ⟨d, e, waits, due, few, rfl⟩
  have hswept : (s.at_ now).swept.trace = s.trace ++ (s.at_ now).relays.flatMap (s.at_ now).forwarded := by
    rw [swept_eq]
    rfl
  obtain ⟨os, htrace, -⟩ := (retryStalledHandshakes_dmOnly (s.at_ now).swept now).marks
  have hexec : (exec s ⟨now, .tick⟩).trace = (s.at_ now).swept.trace ++ os := htrace
  rw [hexec, hswept, List.append_assoc, List.drop_left]
  refine List.mem_append_left _ (List.mem_flatMap.mpr ⟨_, hrelay, ?_⟩)
  exact mem_broadcastObs (s := s.at_ now) held (fun h => other (Option.some.inj h)) header fits

/-- A packet that is taken in with hops left, relays being certain, waits. -/
theorem taken_waits {s : MeshNode S} {c : Call} {q : Packet} (coin : ∀ rng, (P.genF64 rng).1 < 1)
    (certain : s.cfg.relayProbSparse = 1 ∧ s.cfg.relayProbMid = 1 ∧ s.cfg.relayProbDense = 1)
    (taken : (s.at_ c.now).taken c.action = some q) (left : 2 ≤ q.ttl) :
    (exec s c).scheduler.pending[q.digest]? ≠ none := by
  obtain ⟨hheard, haccepts⟩ := Option.filter_eq_some_iff.mp taken
  obtain ⟨link, frame, haction⟩ : ∃ link frame, c.action = .transport (.frameReceived link frame) := by
    unfold heard at hheard
    split at hheard
    · exact ⟨_, _, by assumption⟩
    · cases hheard
  rw [haction] at hheard
  have hassembled : (s.at_ c.now).assembled frame = some q := hheard
  have hexec : exec s c = ((s.at_ c.now).fed frame).onPacket link q := by
    have hframe : exec s c = (s.at_ c.now).onFrame link frame := by
      rw [exec, haction]
      rfl
    rw [hframe, onFrame_eq, hassembled]
  have hsame : ((s.at_ c.now).fed frame).accepts q = true := haccepts
  rw [← tagged_accepts _ link, accepts, Bool.and_eq_true] at hsame
  rw [hexec, onPacket_phased, if_pos hsame.1, if_pos hsame.2]
  generalize hu : ((((s.at_ c.now).fed frame).tagged link q).observed q).charged q = u
  have hcfg : (u.dispatch link q).cfg = s.cfg := by
    obtain ⟨links, os, htag, -⟩ := tagged_update ((s.at_ c.now).fed frame) link q
    rw [show (u.dispatch link q).cfg = u.cfg from congrArg Flow.cfg (dispatch_flow u link q), ← hu, htag]
    rfl
  generalize u.dispatch link q = v at hcfg
  have hone : ∀ degree, rebroadcastProbability degree v.cfg = 1 := by
    intro degree
    rw [hcfg, rebroadcastProbability, certain.1, certain.2.1, certain.2.2, ite_self, ite_self]
  have hgo : (shouldRelay v.links.size v.cfg v.rng).2 = true := by
    rw [shouldRelay, hone]
    exact decide_eq_true (coin v.rng)
  have hhops : ¬ q.ttl ≤ 1 := by
    rw [UInt8.le_iff_toNat_le] at left ⊢
    exact Nat.not_le.mpr left
  unfold maybeRelay
  rw [if_neg hhops]
  simp only [hgo, Bool.not_true, Bool.false_eq_true, if_false]
  rw [RelayScheduler.schedule_pending]
  have hdigest : Packet.digest { q with ttl := q.ttl - 1 } = q.digest := rfl
  by_cases hpending : v.scheduler.pending[q.digest]? = none
  · rw [if_pos ⟨hdigest, hpending⟩]
    exact Option.some_ne_none _
  · rw [if_neg fun h => hpending h.2]
    exact hpending

omit [Store S] in
theorem arrival_link {s : MeshNode S} {link link' : LinkId} {bytes f : Bytes}
    (arrives : s.arrival (.transport (.frameReceived link' f)) = some (link, bytes)) : link' = link := by
  simp only [arrival] at arrives
  split at arrives
  · cases arrives
    rfl
  · cases arrives

omit [Store S] in
theorem heard_frame {s : MeshNode S} {a : Action} {q : Packet} (h : s.heard a = some q) :
    ∃ link frame, a = .transport (.frameReceived link frame) ∧ s.assembled frame = some q := by
  unfold heard at h
  split at h
  · exact ⟨_, _, rfl, h⟩
  · cases h

end MeshNode

/-! ## The network -/

namespace Net
variable (W : Wiring ι) (p : Packet) (o : ι)

/-- Node `v` has heard the message, or originated it. -/
def Has (net : Net ι S) (v : ι) : Prop := (net.node v).seen.map[p.digest]? ≠ none

/-- The message came to `v` along these nodes, the last one first. -/
def Along (net : Net ι S) (v : ι) (past : List ι) : Prop :=
  Trail W.linked o (v :: past) ∧ ∀ x ∈ v :: past, Has p net x

/-- A copy that may leave `v`: it has as many hops left as the way to `v` left it. -/
def Left (net : Net ι S) (v : ι) (q : Packet) : Prop :=
  p.IsCopy q ∧ ∃ past, Along W p o net v past ∧ p.ttl.toNat ≤ q.ttl.toNat + past.length

/-- A copy that may arrive at `w` on its link `l'`. -/
def Sent (net : Net ι S) (w : ι) (l' : LinkId) (q : Packet) : Prop :=
  ∃ u l, W.peer u l = some (w, l') ∧ Left W p o net u q

/-- A copy is on its way to `w`. -/
def Coming (net : Net ι S) (w : ι) : Prop :=
  ∃ m ∈ net.transit, m.dest = w ∧ ∃ q, carriedPacket m.frame = some q ∧ q.digest = p.digest

variable [DecidableEq ι] [Store S] [A : ArchiveStore S]

/-- Whatever has the digest of the message is a copy of it, which came along a trail from the origin and
has the hops left that the trail leaves. -/
structure Flooded (net : Net ι S) : Prop where
  origin : Has p net o
  taken : ∀ v q, (v, q) ∈ net.taken → q.digest = p.digest → p.IsCopy q ∧ Has p net v
  came : ∀ v, Has p net v → v ≠ o → ∃ q past, net.first p.digest v = some q ∧ Along W p o net v past ∧
    p.ttl.toNat + 1 ≤ q.ttl.toNat + past.length
  transit : ∀ m ∈ net.transit, ∀ q, carriedPacket m.frame = some q → q.digest = p.digest → Sent W p o net m.dest m.link q
  stored : ∀ v, ∀ m ∈ A.archived (net.node v).store, ∀ q, Packet.decode m.raw = .ok q → q.digest = p.digest → Left W p o net v q
  pending : ∀ v e, (net.node v).scheduler.pending[p.digest]? = some e → Left W p o net v e.packet ∧
    ∀ w l', W.peer v e.excludeLink = some (w, l') → Has p net w
  filed : ∀ v, (net.node v).Filed

/-- A node that has the message with hops left is about to pass it on, or has passed it on to all its
neighbours; `soon` are those that are about to have it. -/
def Passes (net : Net ι S) (soon : ι → Prop) : Prop :=
  ∀ v, Has p net v → (v = o ∨ ∃ q, net.first p.digest v = some q ∧ 2 ≤ q.ttl) →
    (net.node v).scheduler.pending[p.digest]? ≠ none ∨ ∀ w, W.linked v w → Has p net w ∨ Coming p net w ∨ soon w

/-! ### What a call changes -/

section Call
variable {peer : ι → LinkId → Option (ι × LinkId)} {net : Net ι S} {v : ι} {c : Call}

omit A in
theorem call_node_self (net : Net ι S) (v : ι) (c : Call) : (net.call peer v c).node v = MeshNode.exec (net.node v) c :=
  Function.update_self ..

omit A in
theorem call_node_other {x : ι} (c : Call) (h : x ≠ v) : (net.call peer v c).node x = net.node x :=
  Function.update_of_ne h ..

omit A in
theorem first_call {d : Digest} {x : ι} {q : Packet} (h : net.first d x = some q) : (net.call peer v c).first d x = some q := by
  obtain ⟨e, he, rfl⟩ := Option.map_eq_some_iff.mp h
  rw [first, call, List.find?_append, he]
  rfl

omit A in
theorem first_call_new {d : Digest} {q : Packet} (none_before : net.first d v = none)
    (takes : ((net.node v).at_ c.now).taken c.action = some q) (same : q.digest = d) :
    (net.call peer v c).first d v = some q := by
  rw [first, Option.map_eq_none_iff] at none_before
  rw [first, call, List.find?_append, none_before, takes]
  simp [same]

variable {p}

omit A in
theorem Has.call (clear : (net.node v).Clear p c) {x : ι} (h : Has p net x) : Has p (net.call peer v c) x := by
  by_cases hx : x = v
  · subst hx
    rw [Has, call_node_self]
    exact clear.remembered (.inl h)
  · rwa [Has, call_node_other c hx]

omit A in
theorem Coming.call {w : ι} (h : Coming p net w) : Coming p (net.call peer v c) w := by
  obtain ⟨m, hm, hcarries⟩ := h
  exact ⟨m, List.mem_append_left _ hm, hcarries⟩

variable {W o}

omit A in
theorem Along.call (clear : (net.node v).Clear p c) {x : ι} {past : List ι} (h : Along W p o net x past) :
    Along W p o (net.call peer v c) x past := ⟨h.1, fun y hy => (h.2 y hy).call clear⟩

omit A in
theorem Left.call (clear : (net.node v).Clear p c) {x : ι} {q : Packet} (h : Left W p o net x q) :
    Left W p o (net.call peer v c) x q := by
  obtain ⟨hcopy, past, halong, hlen⟩ := h
  exact ⟨hcopy, past, halong.call clear, hlen⟩

omit A in
theorem Sent.call (clear : (net.node v).Clear p c) {w : ι} {l' : LinkId} {q : Packet} (h : Sent W p o net w l' q) :
    Sent W p o (net.call peer v c) w l' q := by
  obtain ⟨u, l, hpeer, hleft⟩ := h
  exact ⟨u, l, hpeer, hleft.call clear⟩

omit [DecidableEq ι] [Store S] A in
/-- A copy that arrives at a node that has none came along one link more. -/
theorem Sent.arrives {l' : LinkId} {q : Packet} (h : Sent W p o net v l' q) (new : ¬ Has p net v) :
    ∃ past, Trail W.linked o (v :: past) ∧ (∀ x ∈ past, Has p net x) ∧ p.ttl.toNat + 1 ≤ q.ttl.toNat + past.length := by
  obtain ⟨u, l, hpeer, -, past, ⟨htrail, hhas⟩, hlen⟩ := h
  refine ⟨u :: past, .hop htrail ⟨l, l', hpeer⟩ fun hv => new (hhas v hv), hhas, ?_⟩
  rw [List.length_cons]
  omega

/-! ### One call -/

theorem Flooded.first_none (inv : Flooded W p o net) (new : ¬ Has p net v) : net.first p.digest v = none := by
  rw [first, Option.map_eq_none_iff, List.find?_eq_none]
  intro e he hmatch
  obtain ⟨rfl, hd⟩ := of_decide_eq_true hmatch
  exact new (inv.taken e.1 e.2 he hd).2

section Keeps
variable (canonical : p.Canonical) (inv : Flooded W p o net) (clear : (net.node v).Clear p c)
include clear

omit [DecidableEq ι] A in
/-- The copies that a call hears have been sent. -/
theorem heard_sent (incoming : ∀ link f, c.action = .transport (.frameReceived link f) → ∀ q, carriedPacket f = some q →
      q.digest = p.digest → Sent W p o net v link q) {q : Packet}
    (heard : ((net.node v).at_ c.now).heard c.action = some q) (same : q.digest = p.digest) :
    ∃ link f, c.action = .transport (.frameReceived link f) ∧ Sent W p o net v link q := by
  obtain ⟨link, f, haction, hassembled⟩ := MeshNode.heard_frame heard
  have hwhole := clear.whole q heard same
  rw [haction] at hwhole
  obtain rfl : f = kindComplete :: q.encode := Option.some.inj hwhole
  rw [MeshNode.assembled_complete] at hassembled
  exact ⟨link, _, haction, incoming link _ haction q hassembled same⟩

omit [DecidableEq ι] A in
/-- A new copy is taken in. -/
theorem takes_new {q : Packet} (heard : ((net.node v).at_ c.now).heard c.action = some q) (same : q.digest = p.digest)
    (new : ¬ Has p net v) : ((net.node v).at_ c.now).taken c.action = some q := by
  have hfresh : ((net.node v).at_ c.now).fresh q = true := by
    rw [MeshNode.fresh_iff, same]
    exact not_not.mp new
  rw [MeshNode.taken, heard, Option.filter_some, if_pos (clear.admitted q heard same hfresh)]

/-- Who has the message after a call. -/
theorem has_call {x : ι} (h : Has p (net.call W.peer v c) x) :
    Has p net x ∨ x = v ∧ ∃ q, ((net.node v).at_ c.now).heard c.action = some q ∧ q.digest = p.digest := by
  by_cases hx : x = v
  · subst hx
    obtain ⟨os, htrace, -, hseen, -⟩ := MeshNode.act_yields ((net.node x).at_ c.now) c.action
    rw [Has, call_node_self] at h
    rcases hseen p.digest h with hold | ⟨pkt, hpkt, hd⟩ | ⟨q, hq, hd⟩
    · exact .inl hold
    · refine absurd hd (clear.built pkt ?_)
      rw [MeshNode.builtBy, show (MeshNode.exec (net.node x) c).trace = (net.node x).trace ++ os from htrace, List.drop_left]
      exact hpkt
    · exact .inr ⟨rfl, q, hq, hd⟩
  · rw [Has, call_node_other c hx] at h
    exact .inl h

include canonical inv

/-- The copies on their way after a call. -/
theorem transit_call {m : Transit ι} (hm : m ∈ (net.call W.peer v c).transit) {q : Packet}
    (carries : carriedPacket m.frame = some q) (same : q.digest = p.digest) :
    m ∈ net.transit ∨ ∃ l, W.peer v l = some (m.dest, m.link) ∧ Left W p o net v q := by
  obtain ⟨os, htrace, hsend, -⟩ := MeshNode.act_yields ((net.node v).at_ c.now) c.action
  have htrace : (MeshNode.exec (net.node v) c).trace = (net.node v).trace ++ os := htrace
  rcases List.mem_append.mp hm with hold | hnew
  · exact .inl hold
  · rw [htrace, List.drop_left] at hnew
    obtain ⟨ob, hob, hcarried⟩ := List.mem_filterMap.mp hnew
    cases ob with
    | send link f =>
      obtain ⟨far, hfar, rfl⟩ := Option.map_eq_some_iff.mp hcarried
      refine .inr ⟨link, hfar, ?_⟩
      have hdecodes : Packet.decode q.encode = .ok q := by
        obtain ⟨b, -, hdec⟩ := carriedPacket_eq_some.mp carries
        rwa [(Packet.canonical_of_decode hdec).2]
      rcases hsend link f hob with ⟨pkt, hpkt, hframed⟩ | ⟨b, hpass, hframed⟩
      · have hencode := framed_carried hframed carries
        refine absurd ((Packet.digest_of_encode hencode).symm.trans same) (clear.built pkt ?_)
        rw [MeshNode.builtBy, htrace, List.drop_left]
        exact hpkt
      · have hencode := framed_carried hframed carries
        rcases hpass with ⟨-, r, hr, rfl⟩ | ⟨stored, hstored, rfl⟩
        · obtain ⟨d, e, hheld, -, -, rfl⟩ := RelayScheduler.mem_due.mp hr
          have hd : d = p.digest := by
            rw [← inv.filed v d e hheld, ← same]
            exact (Packet.digest_of_encode hencode).symm
          subst hd
          have hleft := (inv.pending v e hheld).1
          have hback := Packet.decode_encode (hleft.1.canonical canonical)
          rw [← show q.encode = e.packet.encode from hencode, hdecodes] at hback
          rwa [Except.ok.inj hback]
        · exact inv.stored v stored hstored q (by rw [← hencode, hdecodes]) same
    | _ => cases hcarried

omit canonical in
/-- The messages in the stores after a call. -/
theorem stored_call {x : ι} {m : StoredMessage} (hm : m ∈ A.archived ((net.call W.peer v c).node x).store) {q : Packet}
    (decodes : Packet.decode m.raw = .ok q) (same : q.digest = p.digest) :
    Left W p o net x q ∨ x = v ∧ ((net.node v).at_ c.now).taken c.action = some q := by
  by_cases hx : x = v
  · subst hx
    obtain ⟨os, htrace, -, -, harch⟩ := MeshNode.act_yields ((net.node x).at_ c.now) c.action
    have htrace : (MeshNode.exec (net.node x) c).trace = (net.node x).trace ++ os := htrace
    rw [call_node_self] at hm
    rcases harch m hm with hold | ⟨pkt, hpkt, hraw⟩ | ⟨pkt, hpkt, -, hraw⟩
    · exact .inl (inv.stored x m hold q decodes same)
    · rw [hraw] at decodes
      have hencode := (Packet.canonical_of_decode decodes).2
      refine absurd ((Packet.digest_of_encode hencode).symm.trans same) (clear.built pkt ?_)
      rw [MeshNode.builtBy, htrace, List.drop_left]
      exact hpkt
    · -- what is taken in was decoded, and is found again
      obtain ⟨link, f, -, hassembled⟩ := MeshNode.heard_frame (Option.mem_filter_iff.mp hpkt).1
      have hcanonical : pkt.Canonical := by
        unfold MeshNode.assembled at hassembled
        split at hassembled
        · rename_i bytes _
          cases hdec : Packet.decode bytes with
          | error e =>
            rw [hdec] at hassembled
            cases hassembled
          | ok pkt' =>
            rw [hdec] at hassembled
            cases hassembled
            exact (Packet.canonical_of_decode hdec).1
        · cases hassembled
      rw [hraw, Packet.decode_encode hcanonical] at decodes
      cases decodes
      exact .inr ⟨rfl, hpkt⟩
  · rw [call_node_other c hx] at hm
    exact .inl (inv.stored x m hm q decodes same)

/-- A message that waits goes on waiting, or goes out to every neighbour that may not have it. -/
theorem waits_or_sends (opens : net.Open W p) {e : Pending} (held : (net.node v).scheduler.pending[p.digest]? = some e) :
    ((net.call W.peer v c).node v).scheduler.pending[p.digest]? ≠ none ∨
      ∀ w, W.linked v w → Has p (net.call W.peer v c) w ∨ Coming p (net.call W.peer v c) w := by
  obtain ⟨hleft, hback⟩ := inv.pending v e held
  rw [call_node_self]
  rcases MeshNode.exec_scheduler (net.node v) c with ⟨link, bytes, pkt, delay, now, -, -, -, -, hsched⟩ | ⟨htick, hsched⟩ | ⟨-, hsched⟩
  · left
    rw [hsched, RelayScheduler.schedule_pending, held, if_neg (fun h => by cases h.2)]
    exact Option.some_ne_none _
  · obtain ⟨now, a⟩ := c
    obtain rfl : a = .tick := htick
    by_cases hdue : e.sendAtMs ≤ now
    · right
      rintro w ⟨l, l', hpeer⟩
      by_cases hother : l = e.excludeLink
      · subst hother
        exact .inl ((hback w l' hpeer).call clear)
      · obtain ⟨st, hst, hheader, hfits⟩ := opens.up v l (W.listed v l (by rw [hpeer]; exact Option.some_ne_none _))
        rw [← hleft.1.length] at hfits
        have hsent := MeshNode.tick_sends held hdue (opens.unsuppressed v) hst hother hheader hfits
        refine .inr ⟨{ dest := w, link := l', frame := kindComplete :: e.packet.encode }, ?_, rfl, e.packet, ?_, hleft.1.digest⟩
        · refine List.mem_append_right _ (List.mem_filterMap.mpr ⟨_, hsent, ?_⟩)
          rw [carried, hpeer]
          rfl
        · exact carriedPacket_eq_some.mpr ⟨_, rfl, Packet.decode_encode (hleft.1.canonical canonical)⟩
    · left
      rw [hsched, RelayScheduler.due_pending, held, Option.filter_some, if_pos (by simpa using hdue)]
      exact Option.some_ne_none _
  · left
    rw [hsched, held]
    exact Option.some_ne_none _

variable (incoming : ∀ link f, c.action = .transport (.frameReceived link f) → ∀ q, carriedPacket f = some q →
  q.digest = p.digest → Sent W p o net v link q)
include incoming

omit canonical inv A in
/-- What is taken in came along a trail. -/
theorem taken_along {q : Packet} (takes : ((net.node v).at_ c.now).taken c.action = some q) (same : q.digest = p.digest) :
    p.IsCopy q ∧ ¬ Has p net v ∧ ∃ past, Along W p o (net.call W.peer v c) v past ∧
      p.ttl.toNat + 1 ≤ q.ttl.toNat + past.length := by
  obtain ⟨hheard, haccepts⟩ := Option.filter_eq_some_iff.mp takes
  obtain ⟨link, f, -, hsent⟩ := heard_sent clear incoming hheard same
  have hfresh := (Bool.and_eq_true_iff.mp haccepts).1
  rw [MeshNode.fresh_iff, same] at hfresh
  have hnew : ¬ Has p net v := not_not.mpr hfresh
  obtain ⟨past, htrail, hhas, hlen⟩ := hsent.arrives hnew
  obtain ⟨u, l, -, hcopy, -⟩ := hsent
  refine ⟨hcopy, hnew, past, ⟨htrail, ?_⟩, hlen⟩
  intro x hx
  rcases List.mem_cons.mp hx with rfl | hx
  · rw [Has, call_node_self]
    exact clear.remembered (.inr ⟨q, hheard, same⟩)
  · exact (hhas x hx).call clear

omit canonical in
/-- What waits after a call. -/
theorem pending_call {x : ι} {e : Pending} (held : ((net.call W.peer v c).node x).scheduler.pending[p.digest]? = some e) :
    Left W p o (net.call W.peer v c) x e.packet ∧ ∀ w l', W.peer x e.excludeLink = some (w, l') → Has p (net.call W.peer v c) w := by
  have hold : (net.node x).scheduler.pending[p.digest]? = some e → Left W p o (net.call W.peer v c) x e.packet ∧
      ∀ w l', W.peer x e.excludeLink = some (w, l') → Has p (net.call W.peer v c) w := by
    intro h
    obtain ⟨hleft, hback⟩ := inv.pending x e h
    exact ⟨hleft.call clear, fun w l' hw => (hback w l' hw).call clear⟩
  by_cases hx : x = v
  · subst hx
    rw [call_node_self] at held
    rcases MeshNode.exec_scheduler (net.node x) c with
      ⟨link, bytes, pkt, delay, now, harrival, hdecode, httl, haccepts, hsched⟩ | ⟨-, hsched⟩ | ⟨-, hsched⟩
    · rw [hsched, RelayScheduler.schedule_pending] at held
      split_ifs at held with hnew
      · obtain ⟨hsame, -⟩ := hnew
        cases held
        have hheard := MeshNode.heard_of_arrival harrival hdecode
        have htakes : ((net.node x).at_ c.now).taken c.action = some pkt := by
          rw [MeshNode.taken, hheard, Option.filter_some, if_pos haccepts]
        obtain ⟨hcopy, -, past, halong, hlen⟩ := taken_along clear incoming htakes hsame
        refine ⟨⟨hcopy.lowered, past, halong, ?_⟩, ?_⟩
        · have hsub := UInt8.toNat_sub_of_le pkt.ttl 1 (UInt8.le_iff_toNat_le.mpr (Nat.le_of_succ_le (UInt8.le_iff_toNat_le.mp httl)))
          have hone : (1 : UInt8).toNat = 1 := rfl
          show p.ttl.toNat ≤ (pkt.ttl - 1).toNat + past.length
          rw [hsub, hone]
          omega
        · intro w l' hw
          obtain ⟨link', f, haction, u, l, hpeer, -, past', halong', -⟩ := heard_sent clear incoming hheard hsame
          rw [haction] at harrival
          obtain rfl := MeshNode.arrival_link harrival
          rw [W.symmetric _ _ _ _ hpeer] at hw
          cases hw
          exact (halong'.2 _ List.mem_cons_self).call clear
      · exact hold held
    · rw [hsched, RelayScheduler.due_pending] at held
      exact hold (Option.mem_filter_iff.mp held).1
    · rw [hsched] at held
      exact hold held
  · rw [call_node_other c hx] at held
    exact hold held

theorem Flooded.call : Flooded W p o (net.call W.peer v c) where
  origin := inv.origin.call clear
  taken u q hmem same := by
    rcases List.mem_append.mp hmem with hold | hnew
    · exact ⟨(inv.taken u q hold same).1, (inv.taken u q hold same).2.call clear⟩
    · obtain ⟨q', hq', heq⟩ := List.mem_map.mp hnew
      cases heq
      obtain ⟨hcopy, -, past, halong, -⟩ := taken_along clear incoming (Option.mem_toList.mp hq') same
      exact ⟨hcopy, halong.2 _ List.mem_cons_self⟩
  came x hx hne := by
    by_cases hbefore : Has p net x
    · obtain ⟨q, past, hfirst, halong, hlen⟩ := inv.came x hbefore hne
      exact ⟨q, past, first_call hfirst, halong.call clear, hlen⟩
    · rcases has_call clear hx with hold | ⟨rfl, q, hheard, same⟩
      · exact absurd hold hbefore
      · have htakes := takes_new clear hheard same hbefore
        obtain ⟨-, -, past, halong, hlen⟩ := taken_along clear incoming htakes same
        exact ⟨q, past, first_call_new (inv.first_none hbefore) htakes same, halong, hlen⟩
  transit m hm q carries same := by
    rcases transit_call canonical inv clear hm carries same with hold | ⟨l, hpeer, hleft⟩
    · exact (inv.transit m hold q carries same).call clear
    · exact ⟨v, l, hpeer, hleft.call clear⟩
  stored x m hm q decodes same := by
    rcases stored_call inv clear hm decodes same with hleft | ⟨rfl, htakes⟩
    · exact hleft.call clear
    · obtain ⟨hcopy, -, past, halong, hlen⟩ := taken_along clear incoming htakes same
      exact ⟨hcopy, past, halong, by omega⟩
  pending x e held := pending_call inv clear incoming held
  filed x := by
    by_cases hx : x = v
    · subst hx
      rw [call_node_self]
      exact MeshNode.exec_filed c (inv.filed x)
    · rw [call_node_other c hx]
      exact inv.filed x

theorem Passes.call (opens : net.Open W p) (coin : ∀ rng, (P.genF64 rng).1 < 1) {soon : ι → Prop}
    (passes : Passes W p o net soon)
    (arrives : ∀ w, soon w → w = v ∧ ∃ q, ((net.node v).at_ c.now).heard c.action = some q ∧ q.digest = p.digest) :
    Passes W p o (net.call W.peer v c) fun _ => False := by
  intro x hx hops
  by_cases hbefore : Has p net x
  · have hops' : x = o ∨ ∃ q, net.first p.digest x = some q ∧ 2 ≤ q.ttl := by
      by_cases hne : x = o
      · exact .inl hne
      · obtain ⟨q, -, hfirst, -⟩ := inv.came x hbefore hne
        obtain ⟨q', hfirst', httl⟩ := hops.resolve_left hne
        rw [first_call hfirst] at hfirst'
        cases hfirst'
        exact .inr ⟨q, hfirst, httl⟩
    rcases passes x hbefore hops' with hwaits | hall
    · by_cases hxv : x = v
      · subst hxv
        obtain ⟨e, he⟩ := Option.ne_none_iff_exists'.mp hwaits
        exact (waits_or_sends canonical inv clear opens he).imp id fun h w hw => (h w hw).imp id .inl
      · left
        rwa [call_node_other c hxv]
    · right
      intro w hw
      rcases hall w hw with hhas | hcoming | hsoon
      · exact .inl (hhas.call clear)
      · exact .inr (.inl hcoming.call)
      · obtain ⟨rfl, hheard⟩ := arrives w hsoon
        left
        rw [Has, call_node_self]
        exact clear.remembered (.inr hheard)
  · rcases has_call clear hx with hold | ⟨rfl, q, hheard, same⟩
    · exact absurd hold hbefore
    · have htakes := takes_new clear hheard same hbefore
      have hne : x ≠ o := fun h => hbefore (h ▸ inv.origin)
      obtain ⟨q', hfirst, httl⟩ := hops.resolve_left hne
      rw [first_call_new (inv.first_none hbefore) htakes same] at hfirst
      cases hfirst
      left
      rw [call_node_self, ← same]
      exact MeshNode.taken_waits coin (opens.certain x) htakes httl

end Keeps

end Call

/-! ### The first call -/

/-- The message is not known anywhere. -/
structure Unheard (net : Net ι S) : Prop where
  seen : ∀ v, (net.node v).seen.map[p.digest]? = none
  pending : ∀ v, (net.node v).scheduler.pending[p.digest]? = none
  stored : ∀ v, ∀ m ∈ A.archived (net.node v).store, ∀ q ∈ (Packet.decode m.raw).toOption, q.digest ≠ p.digest
  transit : ∀ m ∈ net.transit, ∀ q ∈ carriedPacket m.frame, q.digest ≠ p.digest
  taken : ∀ e ∈ net.taken, e.2.digest ≠ p.digest

instance [Fintype ι] (net : Net ι S) : Decidable (Unheard p net) :=
  decidable_of_iff (_ ∧ _ ∧ _ ∧ _ ∧ _) ⟨fun h => ⟨h.1, h.2.1, h.2.2.1, h.2.2.2.1, h.2.2.2.2⟩, fun h => ⟨h.1, h.2, h.3, h.4, h.5⟩⟩

/-- No copy is on its way, and none waits. -/
structure Quiet (net : Net ι S) : Prop where
  transit : ∀ m ∈ net.transit, ∀ q ∈ carriedPacket m.frame, q.digest ≠ p.digest
  pending : ∀ v, (net.node v).scheduler.pending[p.digest]? = none

instance [Fintype ι] (net : Net ι S) : Decidable (Quiet p net) :=
  decidable_of_iff (_ ∧ _) ⟨fun h => ⟨h.1, h.2⟩, fun h => ⟨h.1, h.2⟩⟩

end Net

/-- The packet of a message that the user sends. -/
def MeshNode.channelPacket (s : MeshNode S) (channel text : String) : Packet :=
  s.ownPacket .channelMessage none (encodeChannel (normalize channel) text s.cfg)

namespace Net
variable {W : Wiring ι} {p : Packet} {o : ι} [DecidableEq ι] [Store S] [A : ArchiveStore S]

section Origination
variable {net : Net ι S} {now : Millis} {channel text : String}
  (sends : p = ((net.node o).at_ now).channelPacket channel text) (canonical : p.Canonical) (unheard : Unheard p net)
include sends

/-- What the origin has done. -/
theorem originated :
    let s := (net.call W.peer o ⟨now, .sendChannelMessage channel text⟩).node o
    s.trace = (net.node o).trace ++ Obs.originate p :: (net.node o).broadcastObs p none ∧ s.seen.map[p.digest]? ≠ none ∧
      s.scheduler = (net.node o).scheduler ∧
      ∀ m ∈ A.archived s.store, m.raw = p.encode ∨ m ∈ A.archived (net.node o).store := by
  intro s
  have hs : s = ((net.node o).at_ now).sendChannelMessage channel text := call_node_self net o _
  rw [MeshNode.sendChannelMessage_eq, ← MeshNode.channelPacket, ← sends] at hs
  rw [hs]
  refine ⟨rfl, ?_, rfl, fun m hm => ?_⟩
  · show (SeenCache.observe _ _ p.digest _).1.map[p.digest]? ≠ none
    unfold SeenCache.observe
    split
    · simp
    · simp
  · exact (A.put_channel _ _ m hm).imp (fun h => by rw [h]) id

include canonical unheard

theorem originated_flooded (filed : ∀ v, (net.node v).Filed) :
    Flooded W p o (net.call W.peer o ⟨now, .sendChannelMessage channel text⟩) := by
  obtain ⟨htrace, hseen, hsched, hstore⟩ := originated (W := W) sends
  have hself : (net.call W.peer o ⟨now, .sendChannelMessage channel text⟩).node o = _ := call_node_self net o _
  have hsame : ∀ x, x ≠ o → (net.call W.peer o ⟨now, .sendChannelMessage channel text⟩).node x = net.node x :=
    fun x hx => call_node_other _ hx
  have hleft : Left W p o (net.call W.peer o ⟨now, .sendChannelMessage channel text⟩) o p := by
    refine ⟨.refl p, [], ⟨.start, ?_⟩, le_self_add⟩
    intro x hx
    rw [List.mem_singleton.mp hx]
    exact hseen
  have hback : ∀ q, Packet.decode p.encode = .ok q → q = p := by
    intro q hq
    rw [Packet.decode_encode canonical] at hq
    exact (Except.ok.inj hq).symm
  have hwaits : ∀ x, ((net.call W.peer o ⟨now, .sendChannelMessage channel text⟩).node x).scheduler = (net.node x).scheduler := by
    intro x
    by_cases hx : x = o
    · rw [hx, hsched]
    · rw [hsame x hx]
  refine ⟨hseen, ?_, ?_, ?_, ?_, ?_, ?_⟩
  · intro v q hmem same
    rcases List.mem_append.mp hmem with hold | hnew
    · exact absurd same (unheard.taken _ hold)
    · cases hnew
  · intro x hx hne
    rw [Has, hsame x hne, unheard.seen] at hx
    exact absurd rfl hx
  · intro m hm q carries same
    rcases List.mem_append.mp hm with hold | hnew
    · exact absurd same (unheard.transit m hold q carries)
    · rw [← hself, htrace, List.drop_left] at hnew
      obtain ⟨ob, hob, hcarried⟩ := List.mem_filterMap.mp hnew
      cases ob with
      | send link f =>
        obtain ⟨far, hfar, rfl⟩ := Option.map_eq_some_iff.mp hcarried
        have hframed := MeshNode.framed_of_broadcastObs ((List.mem_cons.mp hob).resolve_left Obs.noConfusion)
        obtain ⟨b, hb, hdec⟩ := carriedPacket_eq_some.mp carries
        have hencode := framed_carried hframed carries
        rw [← (Packet.canonical_of_decode hdec).2, hencode] at hdec
        rw [hback q hdec]
        exact ⟨o, link, hfar, hleft⟩
      | _ => cases hcarried
  · intro x m hm q decodes same
    have hold : m ∈ A.archived (net.node x).store → Left W p o (net.call W.peer o ⟨now, .sendChannelMessage channel text⟩) x q := by
      intro hm
      refine absurd same (unheard.stored x m hm q ?_)
      rw [decodes]
      rfl
    by_cases hx : x = o
    · subst hx
      rcases hstore m hm with hraw | hm
      · rw [hraw] at decodes
        rw [hback q decodes]
        exact hleft
      · exact hold hm
    · rw [hsame x hx] at hm
      exact hold hm
  · intro x e held
    rw [hwaits, unheard.pending] at held
    cases held
  · intro x d e held
    rw [hwaits] at held
    exact filed x d e held

theorem originated_passes (opens : net.Open W p) :
    Passes W p o (net.call W.peer o ⟨now, .sendChannelMessage channel text⟩) fun _ => False := by
  obtain ⟨htrace, -, -, -⟩ := originated (W := W) sends
  have hself : (net.call W.peer o ⟨now, .sendChannelMessage channel text⟩).node o = _ := call_node_self net o _
  intro x hx _
  by_cases hxo : x = o
  · subst hxo
    right
    rintro w ⟨l, l', hpeer⟩
    obtain ⟨st, hst, hheader, hfits⟩ := opens.up x l (W.listed x l (by rw [hpeer]; exact Option.some_ne_none _))
    refine .inr (.inl ⟨{ dest := w, link := l', frame := kindComplete :: p.encode }, ?_, rfl, p, ?_, rfl⟩)
    · refine List.mem_append_right _ (List.mem_filterMap.mpr ⟨.send l (kindComplete :: p.encode), ?_, ?_⟩)
      · rw [← hself, htrace, List.drop_left]
        exact List.mem_cons_of_mem _ (MeshNode.mem_broadcastObs hst (Option.some_ne_none _) hheader hfits)
      · rw [carried, hpeer]
        rfl
    · exact carriedPacket_eq_some.mpr ⟨_, rfl, Packet.decode_encode canonical⟩
  · rw [Has, call_node_other _ hxo, unheard.seen] at hx
    exact absurd rfl hx

end Origination

/-! ### Every event -/

theorem step_flooded (canonical : p.Canonical) (coin : ∀ rng, (P.genF64 rng).1 < 1) {net : Net ι S} {e : NetEvent ι}
    (inv : Flooded W p o net ∧ Passes W p o net fun _ => False) (ok : net.Undisturbed W p e) :
    Flooded W p o (net.step W.peer e) ∧ Passes W p o (net.step W.peer e) fun _ => False := by
  obtain ⟨flooded, passes⟩ := inv
  cases e with
  | call v c =>
    by_cases hframe : c.action.isFrame = true
    · rw [step, if_pos hframe]
      exact ⟨flooded, passes⟩
    · rw [step, if_neg hframe]
      have clear := ok.clear (v, c) (by rw [made, if_neg hframe]; rfl)
      have incoming : ∀ link f, c.action = .transport (.frameReceived link f) → ∀ q, carriedPacket f = some q →
          q.digest = p.digest → Sent W p o net v link q := by
        intro link f haction
        rw [haction] at hframe
        exact absurd rfl hframe
      exact ⟨flooded.call canonical clear incoming, passes.call canonical flooded clear incoming ok.ready coin fun _ h => h.elim⟩
  | arrive i now =>
    rw [step]
    cases hi : net.transit[i]? with
    | none => exact ⟨flooded, passes⟩
    | some m =>
      have hmem : m ∈ net.transit := List.mem_of_getElem? hi
      have clear : (net.node m.dest).Clear p ⟨now, .transport (.frameReceived m.link m.frame)⟩ :=
        ok.clear (m.dest, _) (by rw [made, hi]; rfl)
      -- the frame has left its link, and is about to be heard
      let taken : Net ι S := { net with transit := net.transit.eraseIdx i }
      have flooded' : Flooded W p o taken :=
        { flooded with transit := fun m' hm' => flooded.transit m' (List.mem_of_mem_eraseIdx hm') }
      have passes' : Passes W p o taken fun w => w = m.dest ∧ ∃ q, carriedPacket m.frame = some q ∧ q.digest = p.digest := by
        intro v hv hops
        refine (passes v hv hops).imp id fun hall w hw => ?_
        rcases hall w hw with hhas | ⟨m', hm', hdest, hcarries⟩ | hno
        · exact .inl hhas
        · obtain ⟨j, hj⟩ := List.mem_iff_getElem?.mp hm'
          by_cases hij : j = i
          · subst hij
            rw [hi] at hj
            cases hj
            exact .inr (.inr ⟨hdest.symm, hcarries⟩)
          · exact .inr (.inl ⟨m', List.mem_eraseIdx_iff_getElem?.mpr ⟨j, hij, hj⟩, hdest, hcarries⟩)
        · exact hno.elim
      have incoming : ∀ link f, Action.transport (.frameReceived m.link m.frame) = .transport (.frameReceived link f) →
          ∀ q, carriedPacket f = some q → q.digest = p.digest → Sent W p o taken m.dest link q := by
        intro link f haction q carries same
        cases haction
        exact flooded.transit m hmem q carries same
      refine ⟨flooded'.call canonical clear incoming, passes'.call canonical flooded' clear incoming ?_ coin ?_⟩
      · exact ⟨ok.ready.up, ok.ready.certain, ok.ready.unsuppressed⟩
      · rintro w ⟨hw, q, carries, same⟩
        refine ⟨hw, q, ?_, same⟩
        obtain ⟨b, hb, -⟩ := carriedPacket_eq_some.mp carries
        show ((net.node m.dest).at_ now).assembled m.frame = some q
        rw [hb, MeshNode.assembled_complete, ← hb, carries]

/-! ## Whole runs -/

omit A in
theorem reachable_run {peer : ι → LinkId → Option (ι × LinkId)} {net : Net ι S} (h : ∀ v, (net.node v).Reachable)
    (events : List (NetEvent ι)) : ∀ v, ((Runs.run (step peer) net events).node v).Reachable := by
  have hcall : ∀ (net : Net ι S) (v : ι) (c : Call), (∀ v, (net.node v).Reachable) → ∀ x, ((net.call peer v c).node x).Reachable := by
    intro net v c h x
    by_cases hx : x = v
    · subst hx
      rw [call_node_self]
      exact (h x).run [c]
    · rw [call_node_other c hx]
      exact h x
  refine Runs.run_invariant (step peer) (fun net => ∀ v, (net.node v).Reachable) (fun net e h => ?_) net h events
  cases e with
  | call v c =>
    rw [step]
    split_ifs
    · exact h
    · exact hcall net v c h
  | arrive i now =>
    rw [step]
    cases net.transit[i]? with
    | none => exact h
    | some m => exact hcall { net with transit := net.transit.eraseIdx i } m.dest _ h

/-- A message is sent in a network of honest nodes, and the network runs until it is quiet. -/
structure FloodRun (W : Wiring ι) (net₀ : Net ι S) (o : ι) (now : Millis) (channel text : String) (p : Packet)
    (events : List (NetEvent ι)) : Prop where
  honest : ∀ v, (net₀.node v).Reachable
  sends : p = ((net₀.node o).at_ now).channelPacket channel text
  canonical : p.Canonical
  unheard : Unheard p net₀
  opens : net₀.Open W p
  undisturbed : Runs.Guarded (step W.peer) (Undisturbed W p) (net₀.call W.peer o ⟨now, .sendChannelMessage channel text⟩) events
  quiet : Quiet p (Runs.run (step W.peer) (net₀.call W.peer o ⟨now, .sendChannelMessage channel text⟩) events)

/-- The node took the message in, or sent it. -/
def Received (p : Packet) (o : ι) (net : Net ι S) (v : ι) : Prop := v = o ∨ ∃ q, (v, q) ∈ net.taken ∧ p.IsCopy q

theorem Flooded.received {net : Net ι S} (inv : Flooded W p o net) {v : ι} (h : Has p net v) : Received p o net v := by
  by_cases hv : v = o
  · exact .inl hv
  · obtain ⟨q, -, hfirst, -⟩ := inv.came v h hv
    obtain ⟨e, he, rfl⟩ := Option.map_eq_some_iff.mp hfirst
    have hmatch := List.find?_some he
    rw [decide_eq_true_eq] at hmatch
    obtain ⟨rfl, same⟩ := hmatch
    exact .inr ⟨e.2, List.mem_of_find?_eq_some he, (inv.taken e.1 e.2 (List.mem_of_find?_eq_some he) same).1⟩

omit [DecidableEq ι] A in
theorem filed_of_reachable {s : MeshNode S} (h : s.Reachable) : s.Filed := by
  obtain ⟨s₀, ⟨_, _, _, _, _, _, _, rfl⟩, calls, rfl⟩ := h
  refine Runs.run_invariant MeshNode.exec MeshNode.Filed (fun s c h => MeshNode.exec_filed c h) _ ?_ calls
  intro d e held
  simp [MeshNode.new] at held

/-- Where the message has come, once the network is quiet: over a trail of fewer links than it has
hops, or with hops left, it goes on to every neighbour. -/
theorem FloodRun.settled (coin : ∀ rng, (P.genF64 rng).1 < 1) {net₀ : Net ι S} {now : Millis} {channel text : String}
    {events : List (NetEvent ι)} (run : FloodRun W net₀ o now channel text p events) :
    let net := Runs.run (step W.peer) (net₀.call W.peer o ⟨now, .sendChannelMessage channel text⟩) events
    Flooded W p o net ∧ ∀ v, Has p net v → (v = o ∨ ∃ q, net.first p.digest v = some q ∧ 2 ≤ q.ttl) →
      ∀ w, W.linked v w → Has p net w := by
  intro net
  have hstart := originated_flooded (W := W) run.sends run.canonical run.unheard fun v => filed_of_reachable (run.honest v)
  have hpasses := originated_passes (W := W) run.sends run.canonical run.unheard run.opens
  have hstep : ∀ (net : Net ι S) (e : NetEvent ι), (Flooded W p o net ∧ Passes W p o net fun _ => False) → Undisturbed W p net e →
      Flooded W p o (net.step W.peer e) ∧ Passes W p o (net.step W.peer e) fun _ => False :=
    fun _ _ inv ok => step_flooded run.canonical coin inv ok
  obtain ⟨flooded, passes⟩ := Runs.Guarded.invariant (step W.peer) hstep ⟨hstart, hpasses⟩ run.undisturbed
  refine ⟨flooded, fun v hv hops w hw => ?_⟩
  rcases passes v hv hops with hwaits | hall
  · exact absurd (run.quiet.pending v) hwaits
  · rcases hall w hw with hhas | ⟨m, hm, -, q, carries, same⟩ | hno
    · exact hhas
    · exact absurd same (run.quiet.transit m hm q carries)
    · exact hno.elim

/-- A message reaches every node that no trail longer than its TTL leads to; and every node within the
radius of its TTL, if the first copies that the nodes on the way take in come over as few links as any. -/
theorem coverage (coin : ∀ rng, (P.genF64 rng).1 < 1) {net₀ : Net ι S} {now : Millis} {channel text : String}
    {events : List (NetEvent ι)} (run : FloodRun W net₀ o now channel text p events) {n : ℕ} {v : ι}
    (reach : Hops W.linked o n v) :
    let net := Runs.run (step W.peer) (net₀.call W.peer o ⟨now, .sendChannelMessage channel text⟩) events
    ((∀ past, Trail W.linked o (v :: past) → past.length ≤ p.ttl.toNat) → Received p o net v) ∧
      (n ≤ p.ttl.toNat → (∀ m u q, 0 < m → m < n → Hops W.linked o m u → net.first p.digest u = some q →
        p.ttl.toNat + 1 ≤ q.ttl.toNat + m) → Received p o net v) := by
  intro net
  obtain ⟨flooded, settled⟩ := run.settled coin
  have hops : ∀ (q : Packet) (m : ℕ), p.ttl.toNat + 1 ≤ q.ttl.toNat + m → m < p.ttl.toNat → 2 ≤ q.ttl := by
    intro q m hle hlt
    rw [UInt8.le_iff_toNat_le]
    show 2 ≤ q.ttl.toNat
    omega
  constructor
  · intro short
    refine flooded.received (reach.spread_short flooded.origin (t := p.ttl.toNat) (fun u hu => ?_) short)
    by_cases huo : u = o
    · subst huo
      exact ⟨[], .start, fun x hx => by rwa [List.mem_singleton.mp hx], fun _ w hw => settled u hu (.inl rfl) w hw⟩
    · obtain ⟨q, past, hfirst, ⟨htrail, hhas⟩, hlen⟩ := flooded.came u hu huo
      exact ⟨past, htrail, hhas, fun hlt w hw => settled u hu (.inr ⟨q, hfirst, hops q past.length hlen hlt⟩) w hw⟩
  · intro within shortest
    refine flooded.received (reach.spread flooded.origin (fun m u w hm hlt hu hw => ?_) le_rfl)
    by_cases huo : u = o
    · exact settled u hu (.inl huo) w hw
    · obtain ⟨q, -, hfirst, -⟩ := flooded.came u hu huo
      have hpos : 0 < m := by
        cases hm with
        | start => exact absurd rfl huo
        | hop => exact Nat.succ_pos _
      exact settled u hu (.inr ⟨q, hfirst, hops q m (shortest m u q hpos hlt hm hfirst) (hlt.trans_le within)⟩) w hw

end Net

end CockroachChat

namespace CockroachChat.Reference
open Net
attribute [local instance] prims

/-- Node 0 reaches node 1 directly and by way of node 2; node 3 lies behind node 1. -/
def detourPeer : Fin 4 → LinkId → Option (Fin 4 × LinkId)
  | 0, 0 => some (1, 0)
  | 0, 1 => some (2, 0)
  | 1, 0 => some (0, 0)
  | 1, 1 => some (2, 1)
  | 1, 2 => some (3, 0)
  | 2, 0 => some (0, 1)
  | 2, 1 => some (1, 1)
  | 3, 0 => some (1, 2)
  | _, _ => none

theorem detourPeer_far (v : Fin 4) (l : ℕ) : detourPeer v (l + 3) = none := by
  fin_cases v <;> rfl

def detour : Wiring (Fin 4) where
  peer := detourPeer
  ports v := (List.range 3).filter fun l => (detourPeer v l).isSome
  listed v l h := by
    rcases Nat.lt_or_ge l 3 with hl | hl
    · exact List.mem_filter.mpr ⟨List.mem_range.mpr hl, Option.isSome_iff_ne_none.mpr h⟩
    · obtain ⟨l, rfl⟩ := Nat.exists_eq_add_of_le' hl
      exact absurd (detourPeer_far v l) h
  symmetric v l w l' h := by
    rcases Nat.lt_or_ge l 3 with hl | hl
    · have hall : ∀ v, ∀ l < 3, ∀ far ∈ detourPeer v l, detourPeer far.1 far.2 = some (v, l) := by decide
      exact hall v l hl (w, l') h
    · obtain ⟨l, rfl⟩ := Nat.exists_eq_add_of_le' hl
      rw [detourPeer_far] at h
      cases h

/-- Announces stay with the neighbours, and a message has two hops. -/
def twoHops : Tunables := { ttlAnnounce := 1, ttlChannel := 2, relayProbMid := 1, relayProbDense := 1 }

def nodesOf (n : ℕ) : Net (Fin n) MemoryStore := { node := fun v => node (UInt8.ofNat (v.val + 1)) twoHops }

/-- The links come up at time 0; the one between 0 and 1 takes a second, the others a millisecond. -/
def wired : Net (Fin 4) MemoryStore :=
  Runs.run (step detour.peer) (nodesOf 4)
    ([.call 0 (up 0 0), .call 0 (up 0 1), .call 1 (up 0 0), .call 1 (up 0 1), .call 1 (up 0 2), .call 2 (up 0 0),
      .call 2 (up 0 1), .call 3 (up 0 0)] ++
      ([3, 3, 6, 6].map (.arrive · 1) ++ List.replicate 10 (.arrive 7 1) ++ List.replicate 7 (.arrive 0 1000)))

def greeting : Packet := ((wired.node 0).at_ 5000).channelPacket defaultChannel "hi"

/-- Node 2 has the message first and passes it on; node 1 hears this copy before the direct one. -/
def detoured : List (NetEvent (Fin 4)) :=
  [.arrive 1 5001, .call 2 ⟨5020, .tick⟩, .arrive 1 5021, .arrive 0 6000, .call 1 ⟨6500, .tick⟩, .call 3 ⟨6500, .tick⟩]

def flooded : Net (Fin 4) MemoryStore :=
  Runs.run (step detour.peer) (wired.call detour.peer 0 ⟨5000, .sendChannelMessage defaultChannel "hi"⟩) detoured

theorem detoured_checks : greeting.payload.length ≤ 65535 ∧ greeting.ttl = 2 ∧ Unheard greeting wired ∧ wired.Open detour greeting ∧
    Runs.Guarded (step detour.peer) (Undisturbed detour greeting)
      (wired.call detour.peer 0 ⟨5000, .sendChannelMessage defaultChannel "hi"⟩) detoured ∧
    Quiet greeting flooded ∧ ∀ e ∈ flooded.taken, e.1 = 3 → ¬ greeting.IsCopy e.2 := by
  decide +kernel

theorem detoured_run : FloodRun detour wired 0 5000 defaultChannel "hi" greeting detoured where
  honest := by
    rw [wired]
    exact reachable_run (fun _ => (node_initial _ _).reachable) _
  sends := by rw [greeting]
  canonical := ⟨rfl, rfl, rfl, detoured_checks.1⟩
  unheard := detoured_checks.2.2.1
  opens := detoured_checks.2.2.2.1
  undisturbed := detoured_checks.2.2.2.2.1
  quiet := detoured_checks.2.2.2.2.2.1

theorem coin (rng : prims.Rng) : (prims.genF64 rng).1 < 1 := one_pos

/-- The neighbours of the origin have the message. -/
theorem neighbours_received : Received greeting 0 flooded 1 ∧ Received greeting 0 flooded 2 := by
  have httl : 1 ≤ greeting.ttl.toNat := by
    rw [detoured_checks.2.1]
    decide
  exact ⟨(coverage coin detoured_run (.hop .start ⟨0, 0, rfl⟩)).2 httl fun m _ _ hpos hlt => absurd hlt (by omega),
    (coverage coin detoured_run (.hop .start ⟨1, 0, rfl⟩)).2 httl fun m _ _ hpos hlt => absurd hlt (by omega)⟩

/-- Node 3 is two hops away, as far as the message goes, and does not receive it. -/
theorem late_copy_stops : FloodRun detour wired 0 5000 defaultChannel "hi" greeting detoured ∧ greeting.ttl = 2 ∧
    Hops detour.linked 0 2 3 ∧ ¬ Received greeting 0 flooded 3 := by
  refine ⟨detoured_run, detoured_checks.2.1, .hop (.hop .start ⟨0, 0, rfl⟩) ⟨2, 0, rfl⟩, ?_⟩
  rintro (hzero | ⟨q, hq, hcopy⟩)
  · cases hzero
  · exact detoured_checks.2.2.2.2.2.2 _ hq rfl hcopy

end CockroachChat.Reference
