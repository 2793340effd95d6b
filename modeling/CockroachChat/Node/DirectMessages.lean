import CockroachChat.Node.State

/-! # Direct messages: sessions, handshakes, retries

The methods of the source in the order they call each other. -/
namespace CockroachChat.MeshNode
set_option autoImplicit false

variable [P : Prims] {S : Type} [Store S]

/-! ## Encrypting and decrypting -/

/-- Encrypt and send one framed plaintext (`kind ‖ body`) over the peer's ready session. -/
def encryptAndSendDm (s : MeshNode S) (fp : Fingerprint) (kind : UInt8) (body : Bytes) : MeshNode S :=
  match s.noiseSessions[fp]? with
  | none => s
  | some session =>
      let s := s.note (.encryptCall fp session.view (kind :: body))
      match session.encrypt (kind :: body) with
      | .error _ => s
      | .ok (session', ciphertext) =>
          let s := { s with noiseSessions := s.noiseSessions.insert fp session' }
          let s := s.note (.encrypted fp session.view session.sendNonce (kind :: body))
          s.sendDirected .directMessage fp ciphertext

/-- Persist and send a control DM; the stored body is the bare kind byte. -/
def sendControlDm (s : MeshNode S) (fp : Fingerprint) (kind : UInt8) : MeshNode S :=
  let dm : StoredDm := { peer := fp, mine := true, timestampMs := s.clock, body := [kind] }
  { s with store := Store.putDm s.store dm }.encryptAndSendDm fp kind []

def trySendVerifyNotice (s : MeshNode S) (fp : Fingerprint) : MeshNode S :=
  if s.sessionReady fp && s.noticePending.contains fp then
    { s with noticePending := s.noticePending.erase fp }.sendControlDm fp dmKindVerifyNotice
  else s

/-- The kind prefix; anything that does not look framed is legacy plain text. -/
def splitKind (plaintext : Bytes) : UInt8 × Bytes :=
  match plaintext with
  | k :: rest => if k ≤ dmKindVerifyAck then (k, rest) else (dmKindText, plaintext)
  | [] => (dmKindText, [])

def decryptAndEmit (s : MeshNode S) (fp : Fingerprint) (ciphertext : Bytes) : MeshNode S :=
  match s.noiseSessions[fp]? with
  | none => s
  | some session =>
      let (session', result) := session.decrypt ciphertext
      let s := { s with noiseSessions := s.noiseSessions.insert fp session' }
      match result with
      | .error _ => s
      | .ok plaintext =>
          let s := s.note (.decrypted fp session.view (ofBe (ciphertext.take 8)) plaintext)
          -- a successful decrypt proves this session is live, not a zombie
          let s := { s with resyncPending := s.resyncPending.erase fp }
          let (kind, body) := splitKind plaintext
          let dm : StoredDm :=
            { peer := fp, mine := false, timestampMs := s.clock,
              body := if kind = dmKindText then body else [kind] }
          let s := { s with store := Store.putDm s.store dm }
          let fromEph : EphId := s.fpToEph[fp]?.getD (Vector.replicate 8 0)
          let text := if kind = dmKindText then fromUtf8Lossy body else ""
          let s := s.emitFor fp (.dmReceived fp fromEph text kind)
          if kind = dmKindVerifyNotice then s.sendControlDm fp dmKindVerifyAck else s

/-! ## Completing a handshake -/

/-- The Noise remote static must equal the X25519 key the peer announced. -/
def bound (s : MeshNode S) (fp : Fingerprint) : Bool :=
  match s.noiseSessions[fp]?.bind (·.remoteStatic), s.peerStaticDh[fp]? with
  | some remote, some known => decide (remote = known)
  | _, _ => false

/-- The rejection branch of `finish_session`. -/
def rejectSession (s : MeshNode S) (fp : Fingerprint) : MeshNode S :=
  { s with
    noiseSessions := s.noiseSessions.erase fp
    pendingDms := s.pendingDms.erase fp
    handshakeLastMs := s.handshakeLastMs.erase fp
    handshakeAttempts := s.handshakeAttempts.erase fp }.emit (.dmSession fp false)

def drainOutbound (s : MeshNode S) (fp : Fingerprint) : MeshNode S :=
  let pending := s.pendingDms[fp]?.getD []
  pending.foldl (fun s text => s.encryptAndSendDm fp dmKindText (asBytes text))
    { s with pendingDms := s.pendingDms.erase fp }

def drainInbound (s : MeshNode S) (fp : Fingerprint) : MeshNode S :=
  let inbound := s.pendingInboundDms[fp]?.getD []
  inbound.foldl (fun s ct => s.decryptAndEmit fp ct)
    { s with pendingInboundDms := s.pendingInboundDms.erase fp }

def finishSession (s : MeshNode S) (fp : Fingerprint) : MeshNode S :=
  if !s.bound fp then s.rejectSession fp
  else
    let s := { s with
      handshakeLastMs := s.handshakeLastMs.erase fp
      handshakeAttempts := s.handshakeAttempts.erase fp
      resyncPending := s.resyncPending.erase fp }.emitFor fp (.dmSession fp true)
    ((s.trySendVerifyNotice fp).drainOutbound fp).drainInbound fp

/-! ## Driving a handshake -/

def beginHandshake (s : MeshNode S) (peerFp : Fingerprint) : MeshNode S :=
  match NoiseSession.newInitiator s.identity.dhPrivateBytes with
  | .error _ => s
  | .ok session =>
      let ent := s.entropy s.drawn
      let s := { s with drawn := s.drawn + 1 }
      match session.writeHandshake ent with
      | .error _ => s
      | .ok (session, msg) =>
          let s := { s with noiseSessions := s.noiseSessions.insert peerFp session }
          let s := (s.note (.wrote peerFp true msg)).sendDirected .noiseHandshake peerFp msg
          { s with
            handshakeLastMs := s.handshakeLastMs.insert peerFp s.clock
            handshakeAttempts := s.handshakeAttempts.insert peerFp (s.handshakeAttempts[peerFp]?.getD 0 + 1) }

def advanceHandshake (s : MeshNode S) (fp : Fingerprint) : MeshNode S :=
  match s.noiseSessions[fp]? with
  | none => s -- the source unwraps: the caller has just looked the session up
  | some session =>
      if session.isReady then s.finishSession fp
      else
        let ent := s.entropy s.drawn
        let s := { s with drawn := s.drawn + 1 }
        match session.writeHandshake ent with
        | .error _ => { s with noiseSessions := s.noiseSessions.erase fp }
        | .ok (session, msg) =>
            let s := { s with noiseSessions := s.noiseSessions.insert fp session }
            let s := (s.note (.wrote fp session.initiator msg)).sendDirected .noiseHandshake fp msg
            if s.sessionReady fp then s.finishSession fp else s

/-- The first branch of `handle_noise_handshake`: a fresh handshake against a live session. `none`
when the packet is ignored. -/
def resyncGate (s : MeshNode S) (fp : Fingerprint) : MeshNode S × Bool :=
  if s.sessionReady fp then
    let tries := s.resyncPending[fp]?.getD 0 + 1
    if tries < resyncHandshakeThreshold then
      ({ s with resyncPending := s.resyncPending.insert fp tries }, false)
    else
      ({ s with
          resyncPending := s.resyncPending.erase fp
          noiseSessions := s.noiseSessions.erase fp }, true)
  else (s, true)

/-- The glare tie-breaker: the lower fingerprint stays initiator, the higher one yields. -/
def glareGate (s : MeshNode S) (fp : Fingerprint) (payload : Bytes) : MeshNode S × Bool :=
  if payload.length = xxMsg1Len then
    match s.noiseSessions[fp]? with
    | some session =>
        if session.isHandshaking && session.initiator then
          if compare s.fingerprint fp = .lt then (s, false) -- we win: keep initiating
          else ({ s with noiseSessions := s.noiseSessions.erase fp }, true) -- we yield
        else (s, true)
    | none => (s, true)
  else (s, true)

/-- Create the responder session on the first handshake packet. -/
def ensureResponder (s : MeshNode S) (fp : Fingerprint) : MeshNode S × Bool :=
  if s.noiseSessions.contains fp then (s, true)
  else
    match NoiseSession.newResponder s.identity.dhPrivateBytes with
    | .error _ => (s, false)
    | .ok session =>
        ({ s with
            noiseSessions := s.noiseSessions.insert fp session
            handshakeLastMs := s.handshakeLastMs.insert fp s.clock
            handshakeAttempts := s.handshakeAttempts.insertIfNew fp 0 }, true)

/-- Feed the packet to the session; a failed read drops it, a successful one is progress. -/
def readAndAdvance (s : MeshNode S) (fp : Fingerprint) (payload : Bytes) : MeshNode S :=
  match s.noiseSessions[fp]? with
  | none => s
  | some session =>
      match session.readHandshake payload with
      | .error _ => { s with noiseSessions := s.noiseSessions.erase fp }
      | .ok session =>
          let s := { s with
            noiseSessions := s.noiseSessions.insert fp session
            handshakeLastMs := s.handshakeLastMs.insert fp s.clock }
          s.advanceHandshake fp

def handleNoiseHandshake (s : MeshNode S) (pkt : Packet) : MeshNode S :=
  if pkt.recipient ≠ some s.identity.ephId then s else
  match s.ephToFp pkt.sender with
  | none => s -- we haven't learned this peer's identity yet
  | some fp =>
      let (s, go) := s.resyncGate fp
      if !go then s else
      let (s, go) := s.glareGate fp pkt.payload
      if !go then s else
      let (s, go) := s.ensureResponder fp
      if !go then s else
      s.readAndAdvance fp pkt.payload

def handleDirectMessage (s : MeshNode S) (pkt : Packet) : MeshNode S :=
  if pkt.recipient ≠ some s.identity.ephId then s else
  match s.ephToFp pkt.sender with
  | none => s
  | some fp =>
      if !s.sessionReady fp then
        -- the DM overtook the final handshake message: hold it until the session is ready
        let buf := s.pendingInboundDms[fp]?.getD []
        let buf := if buf.length < 32 then buf ++ [pkt.payload] else buf
        let s := { s with pendingInboundDms := s.pendingInboundDms.insert fp buf }
        -- no session at all: the peer is sending on one we lost, so kick a fresh handshake
        if !s.noiseSessions.contains fp then s.beginHandshake fp else s
      else s.decryptAndEmit fp pkt.payload

/-! ## Retries -/

/-- The filter of `retry_stalled_handshakes`. -/
def stalled (s : MeshNode S) (now : Millis) (fp : Fingerprint) : Bool :=
  !s.sessionReady fp && s.fpToEph.contains fp
    && decide (s.handshakeAttempts[fp]?.getD 0 < dmHandshakeMaxAttempts)
    && decide (now - s.handshakeLastMs[fp]?.getD 0 ≥ dmHandshakeRetryMs)

def retryStalledHandshakes (s : MeshNode S) (now : Millis) : MeshNode S :=
  let stalled := s.handshakeAttempts.keys.filter (s.stalled now)
  stalled.foldl
    (fun s fp => { s with noiseSessions := s.noiseSessions.erase fp }.beginHandshake fp) s

/-! ## Commands -/

/-- On first use this establishes a session, queuing the message until the handshake completes. -/
def sendDm (s : MeshNode S) (peerFp : Fingerprint) (text : String) : MeshNode S :=
  let dm : StoredDm := { peer := peerFp, mine := true, timestampMs := s.clock, body := asBytes text }
  let s := { s with store := Store.putDm s.store dm }
  if s.sessionReady peerFp then s.encryptAndSendDm peerFp dmKindText (asBytes text)
  else if !s.fpToEph.contains peerFp then
    -- store-and-forward
    { s with store := Store.queueEnvelope s.store peerFp (asBytes text) s.clock }
  else
    let queue := s.pendingDms[peerFp]?.getD [] ++ [text]
    let s := { s with pendingDms := s.pendingDms.insert peerFp queue }
    if !s.noiseSessions.contains peerFp then s.beginHandshake peerFp
    else
      { s with
        handshakeAttempts := s.handshakeAttempts.erase peerFp
        handshakeLastMs := s.handshakeLastMs.erase peerFp }

/-- Establish a session without sending a message. -/
def startDmSession (s : MeshNode S) (peerFp : Fingerprint) : MeshNode S :=
  if s.sessionReady peerFp then s.emitFor peerFp (.dmSession peerFp true)
  else if !s.fpToEph.contains peerFp then s
  else if !s.noiseSessions.contains peerFp then s.beginHandshake peerFp
  else s

def dropPeerSessionState (s : MeshNode S) (fp : Fingerprint) : MeshNode S :=
  { s with
    noiseSessions := s.noiseSessions.erase fp
    pendingDms := s.pendingDms.erase fp
    pendingInboundDms := s.pendingInboundDms.erase fp
    handshakeLastMs := s.handshakeLastMs.erase fp
    handshakeAttempts := s.handshakeAttempts.erase fp
    resyncPending := s.resyncPending.erase fp
    noticePending := s.noticePending.erase fp }

end CockroachChat.MeshNode
