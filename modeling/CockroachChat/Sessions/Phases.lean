import CockroachChat.Sessions.Outbound

/-! # Phases of a frame and of a tick

A frame is reassembled, decoded, tagged, deduplicated, rate limited, dispatched and relayed; a tick
sweeps and then retries. The phases around the handlers are described here. -/
namespace CockroachChat.MeshNode
set_option autoImplicit false

variable [P : Prims] {S : Type}

/-- `tick` up to the retries: due relays go out, expired entries go. -/
def swept (s : MeshNode S) : MeshNode S :=
  let now := s.clock
  let (scheduler, due) := s.scheduler.due s.cfg now s.seen
  let s := { s with scheduler := scheduler }
  let s := due.foldl
    (fun s d => { s with relaysFired := s.relaysFired + 1 }.broadcast d.packet (some d.excludeLink)) s
  { s with
    seen := s.seen.evictExpired s.cfg now
    reassembler := s.reassembler.evictExpired s.cfg now }

theorem tick_eq (s : MeshNode S) : s.tick = s.swept.retryStalledHandshakes s.clock := rfl

/-- The pending packets that `tick` rebroadcasts. -/
def relays (s : MeshNode S) : List DueRelay := (s.scheduler.due s.cfg s.clock s.seen).2

/-- The frames of one rebroadcast. -/
def forwarded (s : MeshNode S) (r : DueRelay) : List Obs := s.broadcastObs r.packet (some r.excludeLink)

theorem relayAll_eq (s : MeshNode S) (due : List DueRelay) :
    due.foldl (fun s d => { s with relaysFired := s.relaysFired + 1 }.broadcast d.packet (some d.excludeLink)) s =
      { s with relaysFired := s.relaysFired + due.length, trace := s.trace ++ due.flatMap s.forwarded } := by
  induction due generalizing s with
  | nil => simp
  | cons d due ih =>
    rw [List.foldl_cons, ih, broadcast_eq]
    simp only [List.flatMap_cons, List.length_cons, List.append_assoc, Nat.add_assoc, Nat.add_comm 1]
    rfl

/-- Due packets are sent and leave the scheduler; expired entries leave the caches. -/
theorem swept_eq (s : MeshNode S) :
    s.swept = { s with
      scheduler := (s.scheduler.due s.cfg s.clock s.seen).1
      relaysFired := s.relaysFired + s.relays.length
      seen := s.seen.evictExpired s.cfg s.clock
      reassembler := s.reassembler.evictExpired s.cfg s.clock
      trace := s.trace ++ s.relays.flatMap s.forwarded } := by
  unfold swept
  simp only [relayAll_eq]
  rfl

theorem forwarded_quiet (s : MeshNode S) (due : List DueRelay) : ∀ o ∈ due.flatMap s.forwarded, o.Quiet s.identity := by
  intro o ho
  obtain ⟨r, -, hr⟩ := List.mem_flatMap.mp ho
  exact broadcastObs_quiet s _ _ o hr

theorem swept_update (s : MeshNode S) :
    ∃ scheduler fired seen reassembler os,
      s.swept = { s with
        scheduler := scheduler, relaysFired := fired, seen := seen, reassembler := reassembler
        trace := s.trace ++ os } ∧
      ∀ o ∈ os, o.Quiet s.identity :=
  ⟨_, _, _, _, _, swept_eq s, forwarded_quiet s s.relays⟩

/-- Relaying draws from the generator and may schedule one packet. -/
theorem maybeRelay_update (s : MeshNode S) (link : LinkId) (pkt : Packet) :
    ∃ rng scheduler, s.maybeRelay link pkt = { s with rng := rng, scheduler := scheduler } := by
  unfold maybeRelay
  split_ifs
  · exact ⟨s.rng, s.scheduler, rfl⟩
  · rcases shouldRelay s.links.size s.cfg s.rng with ⟨rng, go⟩
    cases go
    · exact ⟨rng, s.scheduler, rfl⟩
    · exact ⟨_, _, rfl⟩

variable [Store S]

/-- The tag of a sync request, before dedup. -/
def tagged (s : MeshNode S) (link : LinkId) (pkt : Packet) : MeshNode S :=
  if pkt.msgType = .syncRequest then s.noteLinkIdentity link pkt.sender else s

/-- `onPacket` by its three outcomes: a duplicate, refused by the limiter, or dispatched. -/
theorem onPacket_eq (s : MeshNode S) (link : LinkId) (pkt : Packet) :
    let t := s.tagged link pkt
    let u : MeshNode S := { t with seen := (t.seen.observe t.cfg pkt.digest t.clock).1 }
    let v : MeshNode S := { u with rate := (u.rate.allow u.cfg pkt.sender u.clock).1 }
    s.onPacket link pkt =
      if (t.seen.observe t.cfg pkt.digest t.clock).2.isNew then
        if (u.rate.allow u.cfg pkt.sender u.clock).2 then (v.dispatch link pkt).maybeRelay link pkt else v
      else u := by
  simp only [onPacket, tagged, Bool.not_eq_true', ← Bool.not_eq_true, ite_not]
  rfl

/-- A copy of the packet has been heard. -/
def observed (s : MeshNode S) (pkt : Packet) : MeshNode S :=
  { s with seen := (s.seen.observe s.cfg pkt.digest s.clock).1 }

/-- The sender has been charged for the packet. -/
def charged (s : MeshNode S) (pkt : Packet) : MeshNode S :=
  { s with rate := (s.rate.allow s.cfg pkt.sender s.clock).1 }

/-- No copy of the packet has been heard yet. -/
def fresh (s : MeshNode S) (pkt : Packet) : Bool := (s.seen.observe s.cfg pkt.digest s.clock).2.isNew

/-- The limiter lets the packet through. -/
def admits (s : MeshNode S) (pkt : Packet) : Bool := (s.rate.allow s.cfg pkt.sender s.clock).2

/-- What is dispatched: a fresh packet that the limiter lets through. -/
def accepts (s : MeshNode S) (pkt : Packet) : Bool := s.fresh pkt && (s.observed pkt).admits pkt

theorem onPacket_phased (s : MeshNode S) (link : LinkId) (pkt : Packet) :
    s.onPacket link pkt =
      if (s.tagged link pkt).fresh pkt then
        if ((s.tagged link pkt).observed pkt).admits pkt then
          ((((s.tagged link pkt).observed pkt).charged pkt).dispatch link pkt).maybeRelay link pkt
        else ((s.tagged link pkt).observed pkt).charged pkt
      else (s.tagged link pkt).observed pkt := onPacket_eq s link pkt

/-- The packet that a frame completes. -/
def assembled (s : MeshNode S) (frame : Bytes) : Option Packet :=
  match (s.reassembler.ingest s.cfg frame s.clock).2 with
  | .ok (some bytes) => (Packet.decode bytes).toOption
  | _ => none

/-- The reassembler has taken the frame. -/
def fed (s : MeshNode S) (frame : Bytes) : MeshNode S :=
  { s with reassembler := (s.reassembler.ingest s.cfg frame s.clock).1 }

theorem onFrame_eq (s : MeshNode S) (link : LinkId) (frame : Bytes) :
    s.onFrame link frame = match s.assembled frame with
      | some pkt => (s.fed frame).onPacket link pkt
      | none => s.fed frame := by
  unfold onFrame assembled fed
  rcases s.reassembler.ingest s.cfg frame s.clock with ⟨reassembler, result⟩
  rcases result with e | none | bytes
  · rfl
  · rfl
  · cases hdec : Packet.decode bytes <;> simp only [hdec, Except.toOption]

/-- A frame does nothing but feed the reassembler, unless it completes a packet. -/
theorem onFrame_cases (s : MeshNode S) (link : LinkId) (frame : Bytes) :
    ∃ reassembler, s.onFrame link frame = { s with reassembler := reassembler } ∨
      ∃ pkt, s.onFrame link frame = ({ s with reassembler := reassembler } : MeshNode S).onPacket link pkt := by
  unfold onFrame
  rcases s.reassembler.ingest s.cfg frame s.clock with ⟨reassembler, result⟩
  refine ⟨reassembler, ?_⟩
  rcases result with e | none | bytes
  · exact .inl rfl
  · exact .inl rfl
  · cases hdec : Packet.decode bytes with
    | error e => exact .inl (by simp only [hdec])
    | ok pkt => exact .inr ⟨pkt, by simp only [hdec]⟩

end CockroachChat.MeshNode
