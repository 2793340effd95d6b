import CockroachChat.Flood.Relaying
import CockroachChat.Flood.Inventory
import CockroachChat.Flood.Copies

/-! # A network of nodes

Nodes joined by links. What a node sends on a link is on its way to the node at the far end; frames
arrive one at a time, in any order, while users and timers act in between. -/
namespace CockroachChat
set_option autoImplicit false

/-- A frame on its way: the node it goes to, that node's link, and the bytes. -/
structure Transit (ι : Type) where
  dest : ι
  link : LinkId
  frame : Bytes
  deriving DecidableEq

inductive NetEvent (ι : Type) where
  /-- A user or the timer acts at a node. -/
  | call (v : ι) (c : Call)
  /-- The `i`-th frame on its way arrives. -/
  | arrive (i : ℕ) (now : Millis)

variable [P : Prims]

structure Net (ι S : Type) where
  node : ι → MeshNode S
  transit : List (Transit ι) := []
  /-- The packets that nodes have handed to their handlers, in order (an observer). -/
  taken : List (ι × Packet) := []

variable {ι S : Type}

/-- What a node does on its links, as seen by the links: `peer v l` is the far end of link `l` of `v`. -/
def carried (peer : ι → LinkId → Option (ι × LinkId)) (v : ι) : Obs → Option (Transit ι)
  | .send link frame => (peer v link).map fun far => { dest := far.1, link := far.2, frame }
  | _ => none

/-- Calls that do not bring a frame. -/
def Action.isFrame : Action → Bool
  | .transport (.frameReceived _ _) => true
  | _ => false

namespace Net
variable [DecidableEq ι] [Store S] (peer : ι → LinkId → Option (ι × LinkId))

/-- Node `v` makes a call; what it sends is on its way. -/
def call (net : Net ι S) (v : ι) (c : Call) : Net ι S :=
  let s := net.node v
  let s' := MeshNode.exec s c
  { node := Function.update net.node v s'
    transit := net.transit ++ (s'.trace.drop s.trace.length).filterMap (carried peer v)
    taken := net.taken ++ ((s.at_ c.now).taken c.action).toList.map fun pkt => (v, pkt) }

def step (net : Net ι S) : NetEvent ι → Net ι S
  | .call v c => if c.action.isFrame then net else net.call peer v c
  | .arrive i now => match net.transit[i]? with
    | some m => { net with transit := net.transit.eraseIdx i }.call peer m.dest
        ⟨now, .transport (.frameReceived m.link m.frame)⟩
    | none => net

/-- The first packet with this digest that a node took in. -/
def first (net : Net ι S) (digest : Digest) (v : ι) : Option Packet :=
  (net.taken.find? fun e => e.1 = v ∧ e.2.digest = digest).map Prod.snd

end Net

/-! ## Copies of one packet -/

namespace Packet

/-- The same packet, up to the hops it has left. -/
def IsCopy (p q : Packet) : Prop := { q with ttl := p.ttl } = p

instance (p q : Packet) : Decidable (p.IsCopy q) := inferInstanceAs (Decidable (_ = _))

omit P in
theorem IsCopy.length {p q : Packet} (h : p.IsCopy q) : q.encode.length = p.encode.length := by
  rw [← encode_ttl_length q p.ttl, show { q with ttl := p.ttl } = p from h]

omit P in
theorem IsCopy.canonical {p q : Packet} (h : p.IsCopy q) (canonical : p.Canonical) : q.Canonical := by
  rw [← show { q with ttl := p.ttl } = p from h] at canonical
  exact ⟨canonical.version, canonical.msgType, canonical.flags, canonical.payload⟩

theorem IsCopy.digest {p q : Packet} (h : p.IsCopy q) : q.digest = p.digest := by
  rw [← show { q with ttl := p.ttl } = p from h]
  rfl

omit P in
theorem IsCopy.lowered {p q : Packet} (h : p.IsCopy q) : p.IsCopy { q with ttl := q.ttl - 1 } := h

omit P in
theorem IsCopy.refl (p : Packet) : p.IsCopy p := rfl

theorem digest_of_encode {p q : Packet} (h : p.encode = q.encode) : p.digest = q.digest := by
  have hsig : p.signature.toList = q.signature.toList := by
    have hdrop := congrArg (fun b : Bytes => b.drop (b.length - 64)) h
    have hlen : ∀ r : Packet, (r.writeBody none ++ r.signature.toList).drop
        ((r.writeBody none ++ r.signature.toList).length - 64) = r.signature.toList := by
      intro r
      have hlast : (r.writeBody none ++ r.signature.toList).length - 64 = (r.writeBody none).length := by simp
      rw [hlast, List.drop_left]
    simpa only [encode, hlen] using hdrop
  rw [digest, digest, hsig]

end Packet

/-! ## Packets in one frame -/

omit P in
theorem split_fits {bytes : Bytes} {digest : Digest} {mtu : ℕ} (header : fragHeader < mtu) (fits : bytes.length < mtu) :
    split bytes digest mtu = .ok [kindComplete :: bytes] := by
  rw [split, if_neg (Nat.not_le.mpr header), if_pos fits]

omit P in
/-- A complete frame carries the packet it was made of. -/
theorem framed_complete {bytes b : Bytes} (h : Framed bytes (kindComplete :: b)) : b = bytes := by
  obtain ⟨digest, mtu, frames, hsplit, hmem⟩ := h
  simp only [split] at hsplit
  split_ifs at hsplit
  · cases hsplit
    exact (List.cons.inj (List.mem_singleton.mp hmem)).2
  · cases hsplit
    obtain ⟨i, hi, hframe⟩ := List.mem_mapIdx.mp hmem
    have hkind : kindFragment = kindComplete := (List.cons.inj hframe).1
    exact absurd hkind (by decide)

/-- The packet that a complete frame carries. -/
def carriedPacket (frame : Bytes) : Option Packet :=
  match frame with
  | kind :: rest => if kind = kindComplete then (Packet.decode rest).toOption else none
  | [] => none

omit P in
theorem carriedPacket_eq_some {frame : Bytes} {q : Packet} :
    carriedPacket frame = some q ↔ ∃ b, frame = kindComplete :: b ∧ Packet.decode b = .ok q := by
  cases frame with
  | nil => simp [carriedPacket]
  | cons kind rest =>
    simp only [carriedPacket, List.cons.injEq]
    by_cases hkind : kind = kindComplete
    · subst hkind
      cases hdec : Packet.decode rest with
      | error e =>
        refine iff_of_false (by simp [Except.toOption]) ?_
        rintro ⟨b, ⟨-, rfl⟩, h⟩
        rw [hdec] at h
        cases h
      | ok p =>
        simp only [if_true, Except.toOption, Option.some.injEq]
        constructor
        · rintro rfl
          exact ⟨rest, ⟨trivial, rfl⟩, hdec⟩
        · rintro ⟨b, ⟨-, rfl⟩, h⟩
          rw [hdec] at h
          exact Except.ok.inj h
    · simp [hkind]

/-- A node takes a complete frame for the packet it carries. -/
theorem MeshNode.assembled_complete (s : MeshNode S) (b : Bytes) :
    s.assembled (kindComplete :: b) = carriedPacket (kindComplete :: b) := by
  simp only [assembled, Reassembler.ingest, carriedPacket, if_true]

omit P in
/-- A frame of a built packet, or of other bytes, carries that packet. -/
theorem framed_carried {bytes f : Bytes} {q : Packet} (h : Framed bytes f) (carries : carriedPacket f = some q) :
    q.encode = bytes := by
  obtain ⟨b, rfl, hdec⟩ := carriedPacket_eq_some.mp carries
  rw [framed_complete h] at hdec
  exact (Packet.canonical_of_decode hdec).2

end CockroachChat
