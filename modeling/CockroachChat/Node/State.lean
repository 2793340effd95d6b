import CockroachChat.Core.Payloads

/-! # The node: state, observations, outbound fanout

`MeshNode` has the fields of the source. Its clock is the reading every call made until the next
change of it sees, and its transport is `trace`, the list of what the node did: the calls on the
transport, and the internal acts that the properties speak about (packets it built and signed,
announces it accepted, handshake messages it wrote, texts it encrypted and decrypted). -/
namespace CockroachChat
set_option autoImplicit false

def dmHandshakeRetryMs : Millis := 2000
def dmHandshakeMaxAttempts : ℕ := 12
/-- DM plaintext framing: `kind(1) ‖ body`. Ordinary chat text. -/
def dmKindText : UInt8 := 0
def dmKindVerifyNotice : UInt8 := 1
def dmKindVerifyAck : UInt8 := 2
/-- Local-only marker row, never transmitted. -/
def dmKindKeyChanged : UInt8 := 3
def resyncHandshakeThreshold : ℕ := 2
/-- The length of the first XX message. -/
def xxMsg1Len : ℕ := 32

inductive MeshEvent where
  | messageReceived (channel : String) (sender : EphId) (body : String) (timestampMs : Millis)
      (verified : Bool)
  | peerAppeared (fingerprint : Fingerprint) (eph : EphId) (petname : Option String)
  | dmReceived (senderFp : Fingerprint) (fromEph : EphId) (text : String) (kind : UInt8)
  | dmSession (peerFp : Fingerprint) (verified : Bool)
  | peerKeyChanged (peerFp : Fingerprint)
  | peerLost (link : LinkId)
  deriving DecidableEq

/-- What a session is bound to: its handshake messages, its role and the peer's static key. -/
structure SessionView where
  transcript : List Bytes
  initiator : Bool
  remoteStatic : Option Key32
  deriving DecidableEq

inductive Obs where
  | send (link : LinkId) (frame : Bytes)
  | close (link : LinkId)
  /-- An event for the UI; for a DM event, with the session held for that peer at the time. -/
  | event (e : MeshEvent) (side : Option SessionView)
  /-- A packet this node built and signed. -/
  | originate (pkt : Packet)
  /-- An announce whose signature verified under the key it carries. -/
  | accept (pkt : Packet)
  | wrote (fp : Fingerprint) (initiator : Bool) (msg : Bytes)
  /-- A plaintext handed to `encrypt`, whatever came of it. -/
  | encryptCall (fp : Fingerprint) (side : SessionView) (plaintext : Bytes)
  | encrypted (fp : Fingerprint) (side : SessionView) (nonce : ℕ) (plaintext : Bytes)
  | decrypted (fp : Fingerprint) (side : SessionView) (nonce : ℕ) (plaintext : Bytes)
  deriving DecidableEq

structure LinkState where
  mtu : ℕ
  peerEph : Option EphId
  /-- The peer's stable identity on this link, once learned from its announce. -/
  peerFp : Option Fingerprint
  deriving DecidableEq

variable [P : Prims]

structure LocalIdentity where
  signing : P.SigningKey
  dhSecret : P.DhSecret
  ephId : EphId

namespace LocalIdentity

def edPublic (id : LocalIdentity) : Key32 := P.vkAsBytes (P.verifyingKey id.signing)

def fingerprint (id : LocalIdentity) : Fingerprint := P.sha256 id.edPublic.toList

def dhPublic (id : LocalIdentity) : Key32 := P.dhPublic id.dhSecret

def dhPrivateBytes (id : LocalIdentity) : Key32 := P.dhPrivateBytes id.dhSecret

end LocalIdentity

def NoiseSession.view (s : NoiseSession) : SessionView where
  transcript := s.transcript
  initiator := s.initiator
  remoteStatic := s.remoteStatic

structure MeshNode (S : Type) where
  identity : LocalIdentity
  cfg : Tunables
  trace : List Obs := []
  clock : Millis
  store : S
  seen : SeenCache := {}
  rate : RateLimiter := {}
  scheduler : RelayScheduler := {}
  reassembler : Reassembler := {}
  rng : P.Rng
  /-- The operating system's randomness, read by the Noise engine one draw at a time. -/
  entropy : ℕ → P.Entropy
  drawn : ℕ := 0
  links : Std.ExtTreeMap LinkId LinkState := ∅
  ephKeys : Std.ExtTreeMap EphId Key32 := ∅
  subscribed : Std.ExtTreeSet String := {defaultChannel}
  events : List MeshEvent := []
  nickname : String
  relaysFired : ℕ := 0
  -- direct messaging
  noiseSessions : Std.ExtTreeMap Fingerprint NoiseSession := ∅
  pendingDms : Std.ExtTreeMap Fingerprint (List String) := ∅
  fpToEph : Std.ExtTreeMap Fingerprint EphId := ∅
  peerStaticDh : Std.ExtTreeMap Fingerprint Key32 := ∅
  pendingInboundDms : Std.ExtTreeMap Fingerprint (List Bytes) := ∅
  handshakeLastMs : Std.ExtTreeMap Fingerprint Millis := ∅
  handshakeAttempts : Std.ExtTreeMap Fingerprint ℕ := ∅
  resyncPending : Std.ExtTreeMap Fingerprint ℕ := ∅
  noticePending : Std.ExtTreeSet Fingerprint := ∅

namespace MeshNode
variable {S : Type}

def new (identity : LocalIdentity) (cfg : Tunables) (clock : Millis) (store : S) (nickname : String)
    (rngSeed : ℕ) (entropy : ℕ → P.Entropy) : MeshNode S :=
  { identity, cfg, clock, store, rng := P.seedFromU64 rngSeed, entropy, nickname }

def fingerprint (s : MeshNode S) : Fingerprint := s.identity.fingerprint

def ephId (s : MeshNode S) : EphId := s.identity.ephId

/-- Record something the node did. -/
def note (s : MeshNode S) (o : Obs) : MeshNode S := { s with trace := s.trace ++ [o] }

/-- `self.events.push(e)`. -/
def emit (s : MeshNode S) (e : MeshEvent) : MeshNode S :=
  { s with events := s.events ++ [e], trace := s.trace ++ [.event e none] }

def sessionView (s : MeshNode S) (fp : Fingerprint) : Option SessionView := s.noiseSessions[fp]?.map (·.view)

/-- `self.events.push(e)` for an event about the session with `fp`. -/
def emitFor (s : MeshNode S) (fp : Fingerprint) (e : MeshEvent) : MeshNode S :=
  { s with events := s.events ++ [e], trace := s.trace ++ [.event e (s.sessionView fp)] }

def ephToFp (s : MeshNode S) (eph : EphId) : Option Fingerprint :=
  s.ephKeys[eph]?.map fun pk => P.sha256 pk.toList

def sessionReady (s : MeshNode S) (fp : Fingerprint) : Bool :=
  (s.noiseSessions[fp]?.map (·.isReady)).getD false

/-- `self.seen.observe(digest, now)`, result unused. -/
def markSeen (s : MeshNode S) (digest : Digest) : MeshNode S :=
  { s with seen := (s.seen.observe s.cfg digest s.clock).1 }

/-! ## Outbound fanout -/

def sendBytes (s : MeshNode S) (link : LinkId) (bytes : Bytes) (digest : Digest) (mtu : ℕ) : MeshNode S :=
  match split bytes digest mtu with
  | .ok frames => { s with trace := s.trace ++ frames.map (.send link) }
  | .error _ => s -- packet too large to frame: drop

def broadcast (s : MeshNode S) (pkt : Packet) (exclude : Option LinkId) : MeshNode S :=
  let bytes := pkt.encode
  let digest := pkt.digest
  let targets := s.links.toList.filter fun e => some e.1 ≠ exclude
  targets.foldl (fun s e => s.sendBytes e.1 bytes digest e.2.mtu) s

def linkMtu (s : MeshNode S) (link : LinkId) : ℕ := (s.links[link]?.map (·.mtu)).getD s.cfg.defaultMtu

def sendOnLink (s : MeshNode S) (link : LinkId) (pkt : Packet) : MeshNode S :=
  s.sendBytes link pkt.encode pkt.digest (s.linkMtu link)

/-- Our signed packet, with the origin TTL of its type. -/
def ownPacket (s : MeshNode S) (msgType : MsgType) (recipient : Option EphId) (payload : Bytes) : Packet :=
  (Packet.new msgType (s.cfg.originTtl msgType s.links.size) s.clock s.identity.ephId recipient payload).signWith
    s.identity.signing

/-- Build, sign and flood a directed packet toward `peerFp`'s current eph. -/
def sendDirected (s : MeshNode S) (msgType : MsgType) (peerFp : Fingerprint) (payload : Bytes) : MeshNode S :=
  match s.fpToEph[peerFp]? with
  | none => s -- we don't know where this peer is right now
  | some recipient =>
      let pkt := s.ownPacket msgType (some recipient) payload
      ((s.note (.originate pkt)).markSeen pkt.digest).broadcast pkt none

def announcePayload (s : MeshNode S) : Bytes :=
  encodeAnnounce s.identity.edPublic s.identity.dhPublic s.nickname

/-- Send our signed announce on every link. -/
def announce (s : MeshNode S) : MeshNode S :=
  let pkt := s.ownPacket .announce none s.announcePayload
  ((s.note (.originate pkt)).markSeen pkt.digest).broadcast pkt none

variable [Store S]

def syncPacket (s : MeshNode S) (channel : String) : Packet :=
  let filter := SyncFilter.new channel (Store.channelDigests s.store channel)
  -- one hop: only the direct neighbour answers
  (Packet.new .syncRequest 1 s.clock s.identity.ephId none (encodeSync filter)).signWith s.identity.signing

def sendSyncRequests (s : MeshNode S) (link : LinkId) : MeshNode S :=
  s.subscribed.toList.foldl
    (fun s channel =>
      let pkt := s.syncPacket channel
      (s.note (.originate pkt)).sendOnLink link pkt) s

end MeshNode
end CockroachChat
