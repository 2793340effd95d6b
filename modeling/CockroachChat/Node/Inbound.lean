import CockroachChat.Node.DirectMessages

/-! # Inbound frames and the user's commands -/
namespace CockroachChat.MeshNode
set_option autoImplicit false

variable [P : Prims] {S : Type} [Store S]

/-! ## Link identities -/

/-- Resolve link fingerprints from learned announces. -/
def resolveLinks (s : MeshNode S) : MeshNode S :=
  { s with links := s.links.map fun _ l =>
      match l.peerFp, l.peerEph with
      | none, some eph => { l with peerFp := s.ephToFp eph }
      | _, _ => l }

/-- The links of each resolved identity, ascending. -/
def linksByFp (s : MeshNode S) : Std.ExtTreeMap Fingerprint (List LinkId) :=
  s.links.toList.foldl
    (fun byFp e => match e.2.peerFp with
      | some fp => byFp.insert fp (byFp[fp]?.getD [] ++ [e.1])
      | none => byFp) ∅

/-- Every link but the lowest of its identity. -/
def redundantLinks (s : MeshNode S) : List LinkId := s.linksByFp.values.flatMap (·.drop 1)

def closeLink (s : MeshNode S) (id : LinkId) : MeshNode S :=
  { s with links := s.links.erase id }.note (.close id)

/-- Keep exactly one link per peer identity (the lowest id), closing the rest. -/
def dedupLinks (s : MeshNode S) : MeshNode S :=
  let s := s.resolveLinks
  s.redundantLinks.foldl closeLink s

/-- Record which peer a link reaches, then drop redundant links to the same identity. -/
def noteLinkIdentity (s : MeshNode S) (link : LinkId) (eph : EphId) : MeshNode S :=
  let s := match s.links[link]? with
    | some l =>
        if l.peerEph ≠ some eph then
          { s with links := s.links.insert link { l with peerEph := some eph, peerFp := none } }
        else s
    | none => s
  s.dedupLinks

/-! ## Handlers -/

/-- The key change marker of `handle_announce`. -/
def noteKeyChange (s : MeshNode S) (fingerprint : Fingerprint) (prevDh : Option Key32) (dhPub : Key32) :
    MeshNode S :=
  match prevDh with
  | none => s
  | some prev =>
      if prev ≠ dhPub ∧ (Store.getPeer s.store fingerprint).isSome then
        let dm : StoredDm :=
          { peer := fingerprint, mine := false, timestampMs := s.clock, body := [dmKindKeyChanged] }
        { s with store := Store.putDm s.store dm }.emit (.peerKeyChanged fingerprint)
      else s

/-- Refresh the peer's record, keeping its petname and verification. -/
def recordPeer (s : MeshNode S) (fingerprint : Fingerprint) (pkt : Packet) : MeshNode S :=
  let existing := Store.getPeer s.store fingerprint
  let record : PeerRecord :=
    { fingerprint
      petname := existing.bind (·.petname)
      verified := (existing.map (·.verified)).getD false
      lastEph := pkt.sender
      lastSeenMs := pkt.timestampMs.toNat }
  { s with store := Store.upsertPeer s.store record }

/-- Send the messages that were held while the peer was unreachable. -/
def deliverHeld (s : MeshNode S) (fingerprint : Fingerprint) : MeshNode S :=
  let (store, held) := Store.takeEnvelopes s.store fingerprint
  held.foldl (fun s bytes => s.sendDm fingerprint (fromUtf8Lossy bytes)) { s with store := store }

def handleAnnounce (s : MeshNode S) (pkt : Packet) : MeshNode S :=
  match decodeAnnounce pkt.payload with
  | none => s
  | some (pubkey, dhPub, nick) =>
      match P.vkFromBytes pubkey with
      | none => s
      | some vk =>
          match pkt.verifyWith vk with
          | .error _ => s -- not signed by the key it carries
          | .ok _ =>
              let s := s.note (.accept pkt)
              let fingerprint : Fingerprint := P.sha256 pubkey.toList
              let prevDh := s.peerStaticDh[fingerprint]?
              let s := { s with
                ephKeys := s.ephKeys.insert pkt.sender pubkey
                fpToEph := s.fpToEph.insert fingerprint pkt.sender
                peerStaticDh := s.peerStaticDh.insert fingerprint dhPub }
              let s := s.noteKeyChange fingerprint prevDh dhPub
              let s := s.recordPeer fingerprint pkt
              let s := s.emit (.peerAppeared fingerprint pkt.sender (if nick.isEmpty then none else some nick))
              (s.dedupLinks).deliverHeld fingerprint

/-- `none` for a forgery: a known identity the packet is not signed by. -/
def channelVerified (s : MeshNode S) (pkt : Packet) : Option Bool :=
  match s.ephKeys[pkt.sender]?.bind P.vkFromBytes with
  | some vk => if (pkt.verifyWith vk).isOk then some true else none
  | none => some false

def handleChannel (s : MeshNode S) (pkt : Packet) : MeshNode S :=
  match decodeChannel pkt.payload s.cfg with
  | none => s
  | some (channel, text) =>
      match s.channelVerified pkt with
      | none => s
      | some verified =>
          let msg : StoredMessage :=
            { digest := pkt.digest, channel, sender := pkt.sender, timestampMs := pkt.timestampMs.toNat,
              body := asBytes text, raw := pkt.encode }
          let s := { s with store := Store.putChannelMessage s.store msg }
          if s.subscribed.contains channel then
            s.emit (.messageReceived channel pkt.sender text pkt.timestampMs.toNat verified)
          else s

/-- Resend one stored message verbatim, so its digest and signature are preserved. -/
def resendStored (s : MeshNode S) (link : LinkId) (digest : Digest) : MeshNode S :=
  match Store.messageByDigest s.store digest with
  | some m => if m.raw ≠ [] then s.sendBytes link m.raw digest (s.linkMtu link) else s
  | none => s

/-- A peer asked what we have for a channel; reply with whatever they're missing. -/
def handleSyncRequest (s : MeshNode S) (link : LinkId) (pkt : Packet) : MeshNode S :=
  match decodeSync pkt.payload with
  | none => s
  | some remote =>
      let mine := SyncFilter.new remote.channel (Store.channelDigests s.store remote.channel)
      (mine.missingFrom remote).foldl (fun s digest => s.resendStored link digest) s

def maybeRelay (s : MeshNode S) (arrivedLink : LinkId) (pkt : Packet) : MeshNode S :=
  if pkt.ttl ≤ 1 then s -- no hops left
  else
    let (rng, go) := shouldRelay s.links.size s.cfg s.rng
    let s := { s with rng := rng }
    if !go then s
    else
      let pkt := { pkt with ttl := pkt.ttl - 1 }
      let (rng, delay) := relayDelay s.cfg s.rng
      { s with
        rng := rng
        scheduler := s.scheduler.schedule pkt.digest pkt arrivedLink delay s.clock }

def dispatch (s : MeshNode S) (link : LinkId) (pkt : Packet) : MeshNode S :=
  match pkt.msgType with
  | .announce => s.handleAnnounce pkt
  | .channelMessage => s.handleChannel pkt
  | .syncRequest => s.handleSyncRequest link pkt
  | .noiseHandshake => s.handleNoiseHandshake pkt
  | .directMessage => s.handleDirectMessage pkt
  | _ => s -- unknown/other: relayed, not parsed

/-- `on_frame` from the decoded packet on. -/
def onPacket (s : MeshNode S) (link : LinkId) (pkt : Packet) : MeshNode S :=
  -- tag before dedup: the per-link SyncRequests share a digest
  let s := if pkt.msgType = .syncRequest then s.noteLinkIdentity link pkt.sender else s
  let (seen, obs) := s.seen.observe s.cfg pkt.digest s.clock
  let s := { s with seen := seen }
  if !obs.isNew then s -- duplicate
  else
    let (rate, admitted) := s.rate.allow s.cfg pkt.sender s.clock
    let s := { s with rate := rate }
    if !admitted then s
    else (s.dispatch link pkt).maybeRelay link pkt

def onFrame (s : MeshNode S) (link : LinkId) (frame : Bytes) : MeshNode S :=
  let (reassembler, result) := s.reassembler.ingest s.cfg frame s.clock
  let s := { s with reassembler := reassembler }
  match result with
  | .ok (some packetBytes) =>
      match Packet.decode packetBytes with
      | .ok pkt => s.onPacket link pkt
      | .error _ => s
  | _ => s -- incomplete or malformed framing

/-! ## Transport events and the timer -/

inductive TransportEvent where
  | linkUp (link : LinkId) (mtu : ℕ)
  | linkDown (link : LinkId)
  | frameReceived (link : LinkId) (frame : Bytes)
  | mtuChanged (link : LinkId) (mtu : ℕ)

def onTransportEvent (s : MeshNode S) (ev : TransportEvent) : MeshNode S :=
  match ev with
  | .linkUp link mtu =>
      let s := { s with links := s.links.insert link { mtu, peerEph := none, peerFp := none } }
      (s.announce).sendSyncRequests link
  | .mtuChanged link mtu =>
      match s.links[link]? with
      | some l => { s with links := s.links.insert link { l with mtu := mtu } }
      | none => s
  | .linkDown link => { s with links := s.links.erase link }.emit (.peerLost link)
  | .frameReceived link frame => s.onFrame link frame

def tick (s : MeshNode S) : MeshNode S :=
  let now := s.clock
  let (scheduler, due) := s.scheduler.due s.cfg now s.seen
  let s := { s with scheduler := scheduler }
  let s := due.foldl
    (fun s d => { s with relaysFired := s.relaysFired + 1 }.broadcast d.packet (some d.excludeLink)) s
  let s := { s with
    seen := s.seen.evictExpired s.cfg now
    reassembler := s.reassembler.evictExpired s.cfg now }
  s.retryStalledHandshakes now

/-! ## Commands -/

def joinChannel (s : MeshNode S) (name : String) : MeshNode S :=
  { s with subscribed := s.subscribed.insert (normalize name) }

def sendChannelMessage (s : MeshNode S) (channel text : String) : MeshNode S :=
  let channel := normalize channel
  let s := { s with subscribed := s.subscribed.insert channel }
  let pkt := s.ownPacket .channelMessage none (encodeChannel channel text s.cfg)
  let s := s.note (.originate pkt)
  let msg : StoredMessage :=
    { digest := pkt.digest, channel, sender := s.identity.ephId, timestampMs := s.clock,
      body := asBytes text, raw := pkt.encode }
  let s := { s with store := Store.putChannelMessage s.store msg }
  (s.markSeen pkt.digest).broadcast pkt none

def peerOrNew (s : MeshNode S) (fp : Fingerprint) : PeerRecord :=
  (Store.getPeer s.store fp).getD
    { fingerprint := fp, petname := none, verified := false,
      lastEph := Vector.replicate 8 0, lastSeenMs := s.clock }

def verifyPeer (s : MeshNode S) (fp : Fingerprint) : MeshNode S :=
  let s := { s with store := Store.upsertPeer s.store { s.peerOrNew fp with verified := true } }
  let s := { s with store := Store.deleteDms s.store fp true }
  let s := { s with noticePending := s.noticePending.insert fp }
  s.trySendVerifyNotice fp

def unverifyPeer (s : MeshNode S) (fp : Fingerprint) : MeshNode S :=
  let s := match Store.getPeer s.store fp with
    | some p => { s with store := Store.upsertPeer s.store { p with verified := false } }
    | none => s
  { s with store := Store.deleteDms s.store fp true }.dropPeerSessionState fp

def forgetPeer (s : MeshNode S) (fp : Fingerprint) : MeshNode S :=
  let s := { s with store := Store.deletePeer (Store.deleteDms s.store fp false) fp }
  let s := s.dropPeerSessionState fp
  { s with fpToEph := s.fpToEph.erase fp }

def setPetname (s : MeshNode S) (fp : Fingerprint) (name : String) : MeshNode S :=
  let petname := if name.isEmpty then none else some name
  { s with store := Store.upsertPeer s.store { s.peerOrNew fp with petname := petname } }

def peerVerified (s : MeshNode S) (fp : Fingerprint) : Bool :=
  ((Store.getPeer s.store fp).map (·.verified)).getD false

def peerPetname (s : MeshNode S) (fp : Fingerprint) : Option String :=
  (Store.getPeer s.store fp).bind (·.petname)

def panicWipe (s : MeshNode S) : MeshNode S :=
  { s with
    store := Store.panicWipe s.store
    ephKeys := ∅
    noiseSessions := ∅
    pendingDms := ∅
    fpToEph := ∅
    peerStaticDh := ∅
    pendingInboundDms := ∅
    handshakeLastMs := ∅
    handshakeAttempts := ∅
    resyncPending := ∅
    noticePending := ∅
    events := [] }

def takeEvents (s : MeshNode S) : MeshNode S × List MeshEvent := ({ s with events := [] }, s.events)

end CockroachChat.MeshNode
