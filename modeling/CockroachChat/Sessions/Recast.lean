import CockroachChat.Sessions.Surroundings

/-! # What a node does not look at

What a node did, how many relays it fired and which random draws it used up have no influence on
what it does next, nor has the way its store keeps things: every call commutes with putting a past in
front of the node's own and with carrying its store over to another that answers alike. -/
namespace CockroachChat
set_option autoImplicit false

/-- A map between stores that every operation goes along with. -/
class StoreHom {S T : Type} [Store S] [Store T] (g : S → T) : Prop where
  putChannelMessage : ∀ s msg, Store.putChannelMessage (g s) msg = g (Store.putChannelMessage s msg)
  channelDigests : ∀ s channel, Store.channelDigests (g s) channel = Store.channelDigests s channel
  messageByDigest : ∀ s digest, Store.messageByDigest (g s) digest = Store.messageByDigest s digest
  upsertPeer : ∀ s peer, Store.upsertPeer (g s) peer = g (Store.upsertPeer s peer)
  getPeer : ∀ s fp, Store.getPeer (g s) fp = Store.getPeer s fp
  putDm : ∀ s dm, Store.putDm (g s) dm = g (Store.putDm s dm)
  queueEnvelope : ∀ s fp b now, Store.queueEnvelope (g s) fp b now = g (Store.queueEnvelope s fp b now)
  takeEnvelopes : ∀ s fp, Store.takeEnvelopes (g s) fp = (g (Store.takeEnvelopes s fp).1, (Store.takeEnvelopes s fp).2)
  deletePeer : ∀ s fp, Store.deletePeer (g s) fp = g (Store.deletePeer s fp)
  deleteDms : ∀ s fp only, Store.deleteDms (g s) fp only = g (Store.deleteDms s fp only)
  panicWipe : ∀ s, Store.panicWipe (g s) = g (Store.panicWipe s)

instance {S : Type} [Store S] : StoreHom (id : S → S) :=
  ⟨fun _ _ => rfl, fun _ _ => rfl, fun _ _ => rfl, fun _ _ => rfl, fun _ _ => rfl, fun _ _ => rfl, fun _ _ _ _ => rfl,
    fun _ _ => rfl, fun _ _ => rfl, fun _ _ _ => rfl, fun _ => rfl⟩

variable [P : Prims] {S T : Type}

structure Past where
  trace : List Obs
  fired : ℕ
  /-- The draws of the operating system's randomness used so far. -/
  spent : List P.Entropy

namespace MeshNode

/-- The node with its store carried over and an earlier past: its own draws come after those already
spent. -/
def recast (s : MeshNode S) (g : S → T) (p : Past) : MeshNode T :=
  { s with
    store := g s.store
    trace := p.trace ++ s.trace
    relaysFired := p.fired + s.relaysFired
    entropy := fun n => (p.spent[n]?).getD (s.entropy (n - p.spent.length))
    drawn := p.spent.length + s.drawn }

variable {g : S → T}

theorem recast_store (s : MeshNode S) (p : Past) : (s.recast g p).store = g s.store := rfl

/-- The next draw is the same. -/
theorem recast_draw (s : MeshNode S) (p : Past) : (s.recast g p).entropy (s.recast g p).drawn = s.entropy s.drawn := by
  simp [recast]

theorem foldl_recast {β : Type} (p : Past) (body : MeshNode S → β → MeshNode S) (body' : MeshNode T → β → MeshNode T)
    (hbody : ∀ s b, body' (s.recast g p) b = (body s b).recast g p) (l : List β) (s : MeshNode S) :
    l.foldl body' (s.recast g p) = (l.foldl body s).recast g p :=
  List.foldl_hom (fun s => s.recast g p) (fun s b => hbody s b)

/-! ## Recording and sending -/

variable (s : MeshNode S) (p : Past)

theorem note_recast (o : Obs) : (s.recast g p).note o = (s.note o).recast g p := by
  simp [note, recast]

theorem emit_recast (e : MeshEvent) : (s.recast g p).emit e = (s.emit e).recast g p := by
  simp [emit, recast]

theorem emitFor_recast (fp : Fingerprint) (e : MeshEvent) : (s.recast g p).emitFor fp e = (s.emitFor fp e).recast g p := by
  simp [emitFor, recast, sessionView]

theorem sendBytes_recast (link : LinkId) (bytes : Bytes) (digest : Digest) (mtu : ℕ) :
    (s.recast g p).sendBytes link bytes digest mtu = (s.sendBytes link bytes digest mtu).recast g p := by
  simp [sendBytes_eq, recast]

theorem flood_recast (pkt : Packet) : (s.recast g p).flood pkt = (s.flood pkt).recast g p := by
  simp [flood, recast, broadcastObs]

theorem sendDirected_recast (t : MsgType) (fp : Fingerprint) (payload : Bytes) :
    (s.recast g p).sendDirected t fp payload = (s.sendDirected t fp payload).recast g p := by
  cases h : s.fpToEph[fp]? with
  | none => rw [sendDirected_none h, sendDirected_none (s := s.recast g p) h]
  | some eph => rw [sendDirected_some h, sendDirected_some (s := s.recast g p) h, ← flood_recast]; rfl

theorem announce_recast : (s.recast g p).announce = s.announce.recast g p := by
  rw [announce_eq, announce_eq, ← flood_recast]
  rfl

variable [Store S] [Store T] [H : StoreHom g]

theorem sendSyncRequests_recast (link : LinkId) : (s.recast g p).sendSyncRequests link = (s.sendSyncRequests link).recast g p := by
  refine foldl_recast p _ _ (fun t channel => ?_) s.subscribed.toList s
  have hpkt : (t.recast g p).syncPacket channel = t.syncPacket channel := by
    rw [syncPacket, recast_store, H.channelDigests]
    rfl
  simp only [hpkt, sendOnLink]
  rw [← sendBytes_recast, ← note_recast]
  rfl

/-! ## Sessions -/

omit [Store S] [Store T] H in
theorem encryptAndSendDm_recast (fp : Fingerprint) (kind : UInt8) (body : Bytes) :
    (s.recast g p).encryptAndSendDm fp kind body = (s.encryptAndSendDm fp kind body).recast g p := by
  have hheld : (s.recast g p).noiseSessions = s.noiseSessions := rfl
  unfold encryptAndSendDm
  rw [hheld]
  cases s.noiseSessions[fp]? with
  | none => rfl
  | some σ =>
    cases henc : σ.encrypt (kind :: body) with
    | error e => simp only [henc, note_recast]
    | ok r =>
      simp only [henc]
      rw [← sendDirected_recast, ← note_recast, note_recast s]
      rfl

theorem sendControlDm_recast (fp : Fingerprint) (kind : UInt8) :
    (s.recast g p).sendControlDm fp kind = (s.sendControlDm fp kind).recast g p := by
  unfold sendControlDm
  simp only [recast_store, H.putDm]
  rw [← encryptAndSendDm_recast]
  rfl

theorem trySendVerifyNotice_recast (fp : Fingerprint) :
    (s.recast g p).trySendVerifyNotice fp = (s.trySendVerifyNotice fp).recast g p := by
  have hcond : ((s.recast g p).sessionReady fp && (s.recast g p).noticePending.contains fp) =
      (s.sessionReady fp && s.noticePending.contains fp) := rfl
  unfold trySendVerifyNotice
  rw [hcond]
  split_ifs
  · rw [← sendControlDm_recast]
    rfl
  · rfl

theorem received_recast (fp : Fingerprint) (σ σ' : NoiseSession) (n : ℕ) (pt : Bytes) :
    (s.recast g p).received fp σ σ' n pt = (s.received fp σ σ' n pt).recast g p := by
  simp [received, recast, H.putDm]

theorem decryptAndEmit_recast (fp : Fingerprint) (ct : Bytes) :
    (s.recast g p).decryptAndEmit fp ct = (s.decryptAndEmit fp ct).recast g p := by
  have hsame : (s.recast g p).noiseSessions = s.noiseSessions := rfl
  cases hheld : s.noiseSessions[fp]? with
  | none =>
    unfold decryptAndEmit
    rw [hsame, hheld]
  | some σ =>
    rcases hdec : σ.decrypt ct with ⟨σ', e | pt⟩
    · unfold decryptAndEmit
      rw [hsame, hheld]
      simp only [hdec]
      rfl
    · rw [decryptAndEmit_ok hheld hdec, decryptAndEmit_ok (s := s.recast g p) hheld hdec]
      split_ifs
      · rw [received_recast, sendControlDm_recast]
      · exact received_recast ..

omit [Store S] [Store T] H in
theorem rejectSession_recast (fp : Fingerprint) : (s.recast g p).rejectSession fp = (s.rejectSession fp).recast g p := by
  unfold rejectSession
  rw [← emit_recast]
  rfl

omit [Store S] [Store T] H in
theorem drainOutbound_recast (fp : Fingerprint) : (s.recast g p).drainOutbound fp = (s.drainOutbound fp).recast g p :=
  foldl_recast p _ _ (fun t text => encryptAndSendDm_recast t p fp dmKindText (asBytes text)) (s.pendingDms[fp]?.getD [])
    { s with pendingDms := s.pendingDms.erase fp }

theorem drainInbound_recast (fp : Fingerprint) : (s.recast g p).drainInbound fp = (s.drainInbound fp).recast g p :=
  foldl_recast p _ _ (fun t ct => decryptAndEmit_recast t p fp ct) (s.pendingInboundDms[fp]?.getD [])
    { s with pendingInboundDms := s.pendingInboundDms.erase fp }

theorem finishSession_recast (fp : Fingerprint) : (s.recast g p).finishSession fp = (s.finishSession fp).recast g p := by
  have hbound : (s.recast g p).bound fp = s.bound fp := rfl
  unfold finishSession
  rw [hbound]
  split_ifs
  · exact rejectSession_recast s p fp
  · simp only
    rw [← drainInbound_recast, ← drainOutbound_recast, ← trySendVerifyNotice_recast, ← emitFor_recast]
    rfl

/-! ## Handshakes -/

omit [Store S] [Store T] H in
/-- A handshake message goes out. -/
theorem handshaking_recast (fp : Fingerprint) (σ : NoiseSession) (initiator : Bool) (m : Bytes) :
    (({ s.recast g p with
        drawn := (s.recast g p).drawn + 1
        noiseSessions := (s.recast g p).noiseSessions.insert fp σ } : MeshNode T).note (.wrote fp initiator m)).sendDirected
      .noiseHandshake fp m =
    ((({ s with drawn := s.drawn + 1, noiseSessions := s.noiseSessions.insert fp σ } : MeshNode S).note
      (.wrote fp initiator m)).sendDirected .noiseHandshake fp m).recast g p := by
  rw [← sendDirected_recast, ← note_recast]
  rfl

omit [Store S] [Store T] H in
theorem beginHandshake_recast (fp : Fingerprint) : (s.recast g p).beginHandshake fp = (s.beginHandshake fp).recast g p := by
  have hid : (s.recast g p).identity.dhPrivateBytes = s.identity.dhPrivateBytes := rfl
  unfold beginHandshake
  rw [hid]
  cases NoiseSession.newInitiator s.identity.dhPrivateBytes with
  | error e => rfl
  | ok σ =>
    simp only [recast_draw]
    cases hw : σ.writeHandshake (s.entropy s.drawn) with
    | error e => rfl
    | ok r =>
      simp only
      rw [handshaking_recast]
      rfl

theorem advanceHandshake_recast (fp : Fingerprint) : (s.recast g p).advanceHandshake fp = (s.advanceHandshake fp).recast g p := by
  have hsame : (s.recast g p).noiseSessions = s.noiseSessions := rfl
  unfold advanceHandshake
  cases hheld : s.noiseSessions[fp]? with
  | none => simp only [hsame, hheld]
  | some σ =>
    simp only [hsame, hheld, recast_draw]
    by_cases hready : σ.isReady = true
    · simp only [hready, if_true, finishSession_recast]
    · simp only [hready, Bool.false_eq_true, if_false]
      cases hw : σ.writeHandshake (s.entropy s.drawn) with
      | error e => rfl
      | ok r =>
        simp only
        rw [← hsame, handshaking_recast]
        split_ifs
        · exact finishSession_recast _ p fp
        · contradiction
        · contradiction
        · rfl

omit [Store S] [Store T] H in
theorem resyncGate_recast (fp : Fingerprint) :
    (s.recast g p).resyncGate fp = ((s.resyncGate fp).1.recast g p, (s.resyncGate fp).2) := by
  have hready : (s.recast g p).sessionReady fp = s.sessionReady fp := rfl
  have htries : (s.recast g p).resyncPending = s.resyncPending := rfl
  simp only [resyncGate, hready, htries]
  split_ifs <;> rfl

omit [Store S] [Store T] H in
theorem glareGate_recast (fp : Fingerprint) (payload : Bytes) :
    (s.recast g p).glareGate fp payload = ((s.glareGate fp payload).1.recast g p, (s.glareGate fp payload).2) := by
  have hheld : (s.recast g p).noiseSessions = s.noiseSessions := rfl
  have hfp : (s.recast g p).fingerprint = s.fingerprint := rfl
  simp only [glareGate, hheld, hfp]
  cases s.noiseSessions[fp]? with
  | none => split_ifs <;> rfl
  | some σ =>
    simp only
    split_ifs <;> rfl

omit [Store S] [Store T] H in
theorem ensureResponder_recast (fp : Fingerprint) :
    (s.recast g p).ensureResponder fp = ((s.ensureResponder fp).1.recast g p, (s.ensureResponder fp).2) := by
  have hheld : (s.recast g p).noiseSessions = s.noiseSessions := rfl
  have hid : (s.recast g p).identity = s.identity := rfl
  simp only [ensureResponder, hheld, hid]
  cases NoiseSession.newResponder s.identity.dhPrivateBytes <;> split_ifs <;> rfl

theorem readAndAdvance_recast (fp : Fingerprint) (payload : Bytes) :
    (s.recast g p).readAndAdvance fp payload = (s.readAndAdvance fp payload).recast g p := by
  have hsame : (s.recast g p).noiseSessions = s.noiseSessions := rfl
  unfold readAndAdvance
  cases hheld : s.noiseSessions[fp]? with
  | none => simp only [hsame, hheld]
  | some σ =>
    simp only [hsame, hheld]
    cases hread : σ.readHandshake payload with
    | error e => rfl
    | ok σ' =>
      simp only
      rw [← advanceHandshake_recast]
      rfl

theorem handleNoiseHandshake_recast (pkt : Packet) :
    (s.recast g p).handleNoiseHandshake pkt = (s.handleNoiseHandshake pkt).recast g p := by
  have hid : (s.recast g p).identity = s.identity := rfl
  have hfp : (s.recast g p).ephToFp pkt.sender = s.ephToFp pkt.sender := rfl
  unfold handleNoiseHandshake
  rw [hid, hfp]
  split_ifs
  · rfl
  · cases s.ephToFp pkt.sender with
    | none => rfl
    | some fp =>
      simp only [resyncGate_recast, glareGate_recast, ensureResponder_recast, readAndAdvance_recast]
      split_ifs <;> rfl

theorem handleDirectMessage_recast (pkt : Packet) :
    (s.recast g p).handleDirectMessage pkt = (s.handleDirectMessage pkt).recast g p := by
  have hid : (s.recast g p).identity = s.identity := rfl
  have hfp : (s.recast g p).ephToFp pkt.sender = s.ephToFp pkt.sender := rfl
  unfold handleDirectMessage
  rw [hid, hfp]
  split_ifs
  · rfl
  · cases s.ephToFp pkt.sender with
    | none => rfl
    | some fp =>
      have hready : (s.recast g p).sessionReady fp = s.sessionReady fp := rfl
      have hknown : (s.recast g p).noiseSessions = s.noiseSessions := rfl
      have hheld : (s.recast g p).pendingInboundDms = s.pendingInboundDms := rfl
      simp only [hready, hknown, hheld]
      generalize s.pendingInboundDms.insert fp _ = inbound
      split_ifs
      · rw [← beginHandshake_recast]
        rfl
      · rfl
      · exact decryptAndEmit_recast s p fp pkt.payload

omit [Store S] [Store T] H in
theorem retryStalledHandshakes_recast (now : Millis) :
    (s.recast g p).retryStalledHandshakes now = (s.retryStalledHandshakes now).recast g p := by
  refine foldl_recast p _ _ (fun t fp => ?_) (s.handshakeAttempts.keys.filter (s.stalled now)) s
  rw [← beginHandshake_recast]
  rfl

theorem sendDm_recast (fp : Fingerprint) (text : String) : (s.recast g p).sendDm fp text = (s.sendDm fp text).recast g p := by
  let t : MeshNode S :=
    { s with store := Store.putDm s.store { peer := fp, mine := true, timestampMs := s.clock, body := asBytes text } }
  have hput : (s.recast g p).sendDm fp text =
      if t.sessionReady fp then (t.recast g p).encryptAndSendDm fp dmKindText (asBytes text)
      else if !t.fpToEph.contains fp then
        MeshNode.recast { t with store := Store.queueEnvelope t.store fp (asBytes text) t.clock } g p
      else if !t.noiseSessions.contains fp then
        (MeshNode.recast { t with pendingDms := t.pendingDms.insert fp (t.pendingDms[fp]?.getD [] ++ [text]) } g p).beginHandshake fp
      else
        MeshNode.recast { t with
          pendingDms := t.pendingDms.insert fp (t.pendingDms[fp]?.getD [] ++ [text])
          handshakeAttempts := t.handshakeAttempts.erase fp
          handshakeLastMs := t.handshakeLastMs.erase fp } g p := by
    unfold sendDm
    simp only [recast_store, H.putDm, H.queueEnvelope]
    rfl
  rw [hput, encryptAndSendDm_recast, beginHandshake_recast]
  unfold sendDm
  simp only [t]
  split_ifs <;> rfl

omit [Store S] [Store T] H in
theorem startDmSession_recast (fp : Fingerprint) : (s.recast g p).startDmSession fp = (s.startDmSession fp).recast g p := by
  have hready : (s.recast g p).sessionReady fp = s.sessionReady fp := rfl
  have hroute : (s.recast g p).fpToEph = s.fpToEph := rfl
  have hknown : (s.recast g p).noiseSessions = s.noiseSessions := rfl
  unfold startDmSession
  rw [hready, hroute, hknown]
  split_ifs
  · exact emitFor_recast s p fp _
  · rfl
  · exact beginHandshake_recast s p fp
  · rfl

/-! ## Links -/

omit [Store S] [Store T] H in
theorem closeLink_recast (id : LinkId) : (s.recast g p).closeLink id = (s.closeLink id).recast g p := by
  unfold closeLink
  rw [← note_recast]
  rfl

omit [Store S] [Store T] H in
theorem dedupLinks_recast : (s.recast g p).dedupLinks = s.dedupLinks.recast g p :=
  foldl_recast p closeLink _ (fun t id => closeLink_recast t p id) s.resolveLinks.redundantLinks s.resolveLinks

omit [Store S] [Store T] H in
theorem noteLinkIdentity_recast (link : LinkId) (eph : EphId) :
    (s.recast g p).noteLinkIdentity link eph = (s.noteLinkIdentity link eph).recast g p := by
  have hlinks : (s.recast g p).links = s.links := rfl
  unfold noteLinkIdentity
  rw [← dedupLinks_recast, hlinks]
  cases s.links[link]? with
  | none => rfl
  | some l =>
    simp only
    split_ifs <;> rfl

omit [Store S] [Store T] H in
theorem tagged_recast (link : LinkId) (pkt : Packet) : (s.recast g p).tagged link pkt = (s.tagged link pkt).recast g p := by
  unfold tagged
  split_ifs
  · exact noteLinkIdentity_recast s p link pkt.sender
  · rfl

/-! ## Handlers -/

theorem noteKeyChange_recast (fp : Fingerprint) (prev : Option Key32) (dh : Key32) :
    (s.recast g p).noteKeyChange fp prev dh = (s.noteKeyChange fp prev dh).recast g p := by
  unfold noteKeyChange
  cases prev with
  | none => rfl
  | some prev =>
    simp only [recast_store, H.getPeer, H.putDm]
    split_ifs
    · rw [← emit_recast]
      rfl
    · rfl

theorem deliverHeld_recast (fp : Fingerprint) : (s.recast g p).deliverHeld fp = (s.deliverHeld fp).recast g p := by
  unfold deliverHeld
  rw [recast_store, H.takeEnvelopes]
  exact foldl_recast p _ _ (fun t bytes => sendDm_recast t p fp (fromUtf8Lossy bytes)) (Store.takeEnvelopes s.store fp).2
    { s with store := (Store.takeEnvelopes s.store fp).1 }

theorem recordPeer_recast (fp : Fingerprint) (pkt : Packet) : (s.recast g p).recordPeer fp pkt = (s.recordPeer fp pkt).recast g p := by
  unfold recordPeer
  simp only [recast_store, H.getPeer, H.upsertPeer]
  rfl

theorem announced_recast (pkt : Packet) (ed dh : Key32) (nick : String) :
    (s.recast g p).announced pkt ed dh nick = (s.announced pkt ed dh nick).recast g p := by
  unfold announced
  simp only
  rw [← emit_recast, ← recordPeer_recast, ← noteKeyChange_recast, note_recast]
  rfl

theorem handleAnnounce_recast (pkt : Packet) : (s.recast g p).handleAnnounce pkt = (s.handleAnnounce pkt).recast g p := by
  cases hdec : decodeAnnounce pkt.payload with
  | none => simp only [handleAnnounce, hdec]
  | some keys =>
    obtain ⟨ed, dh, nick⟩ := keys
    cases hvk : P.vkFromBytes ed with
    | none => simp only [handleAnnounce, hdec, hvk]
    | some vk =>
      cases hver : pkt.verifyWith vk with
      | error e => simp only [handleAnnounce, hdec, hvk, hver]
      | ok u =>
        have haccepted : ∀ {R : Type} [Store R] (t : MeshNode R), t.handleAnnounce pkt =
            ((t.announced pkt ed dh nick).dedupLinks).deliverHeld (P.sha256 ed.toList) := by
          intro R _ t
          simp only [handleAnnounce, hdec, hvk, hver]
          rfl
        rw [haccepted, haccepted, announced_recast, dedupLinks_recast, deliverHeld_recast]

theorem handleChannel_recast (pkt : Packet) : (s.recast g p).handleChannel pkt = (s.handleChannel pkt).recast g p := by
  have hcfg : (s.recast g p).cfg = s.cfg := rfl
  have hver : (s.recast g p).channelVerified pkt = s.channelVerified pkt := rfl
  have hsub : (s.recast g p).subscribed = s.subscribed := rfl
  unfold handleChannel
  rw [hcfg, hver]
  cases decodeChannel pkt.payload s.cfg with
  | none => rfl
  | some named =>
    cases s.channelVerified pkt with
    | none => rfl
    | some verified =>
      simp only [hsub, recast_store, H.putChannelMessage]
      split_ifs
      · rw [← emit_recast]
        rfl
      · rfl

theorem resendStored_recast (link : LinkId) (digest : Digest) :
    (s.recast g p).resendStored link digest = (s.resendStored link digest).recast g p := by
  have hmtu : (s.recast g p).linkMtu link = s.linkMtu link := rfl
  unfold resendStored
  rw [recast_store, H.messageByDigest, hmtu]
  cases Store.messageByDigest s.store digest with
  | none => rfl
  | some m =>
    simp only
    split_ifs
    · exact sendBytes_recast s p link m.raw digest (s.linkMtu link)
    · rfl

theorem handleSyncRequest_recast (link : LinkId) (pkt : Packet) :
    (s.recast g p).handleSyncRequest link pkt = (s.handleSyncRequest link pkt).recast g p := by
  unfold handleSyncRequest
  cases decodeSync pkt.payload with
  | none => rfl
  | some remote =>
    simp only [recast_store, H.channelDigests]
    exact foldl_recast p _ _ (fun t digest => resendStored_recast t p link digest) _ s

theorem dispatch_recast (link : LinkId) (pkt : Packet) : (s.recast g p).dispatch link pkt = (s.dispatch link pkt).recast g p := by
  unfold dispatch
  split
  · exact handleAnnounce_recast s p pkt
  · exact handleChannel_recast s p pkt
  · exact handleSyncRequest_recast s p link pkt
  · exact handleNoiseHandshake_recast s p pkt
  · exact handleDirectMessage_recast s p pkt
  · rfl

omit [Store S] [Store T] H in
theorem maybeRelay_recast (link : LinkId) (pkt : Packet) : (s.recast g p).maybeRelay link pkt = (s.maybeRelay link pkt).recast g p := by
  have hcoin : shouldRelay (s.recast g p).links.size (s.recast g p).cfg (s.recast g p).rng = shouldRelay s.links.size s.cfg s.rng := rfl
  unfold maybeRelay
  split_ifs
  · rfl
  · rw [hcoin]
    rcases shouldRelay s.links.size s.cfg s.rng with ⟨rng, go⟩
    cases go <;> rfl

/-! ## Packets, frames, timers -/

theorem onPacket_recast (link : LinkId) (pkt : Packet) : (s.recast g p).onPacket link pkt = (s.onPacket link pkt).recast g p := by
  have hfresh : ∀ t : MeshNode S, (t.recast g p).fresh pkt = t.fresh pkt := fun _ => rfl
  have hobserved : ∀ t : MeshNode S, (t.recast g p).observed pkt = (t.observed pkt).recast g p := fun _ => rfl
  have hadmits : ∀ t : MeshNode S, (t.recast g p).admits pkt = t.admits pkt := fun _ => rfl
  have hcharged : ∀ t : MeshNode S, (t.recast g p).charged pkt = (t.charged pkt).recast g p := fun _ => rfl
  rw [onPacket_phased, onPacket_phased]
  simp only [tagged_recast, hfresh, hobserved, hadmits, hcharged, dispatch_recast, maybeRelay_recast]
  split_ifs <;> rfl

theorem onFrame_recast (link : LinkId) (frame : Bytes) : (s.recast g p).onFrame link frame = (s.onFrame link frame).recast g p := by
  have hassembled : (s.recast g p).assembled frame = s.assembled frame := rfl
  have hfed : (s.recast g p).fed frame = (s.fed frame).recast g p := rfl
  rw [onFrame_eq, onFrame_eq, hassembled, hfed]
  cases s.assembled frame with
  | none => rfl
  | some pkt => exact onPacket_recast (s.fed frame) p link pkt

theorem onTransportEvent_recast (ev : TransportEvent) :
    (s.recast g p).onTransportEvent ev = (s.onTransportEvent ev).recast g p := by
  have hlinks : (s.recast g p).links = s.links := rfl
  cases ev with
  | linkUp link mtu =>
    simp only [onTransportEvent]
    rw [← sendSyncRequests_recast, ← announce_recast]
    rfl
  | mtuChanged link mtu =>
    simp only [onTransportEvent, hlinks]
    cases s.links[link]? <;> rfl
  | linkDown link =>
    simp only [onTransportEvent]
    rw [← emit_recast]
    rfl
  | frameReceived link frame => exact onFrame_recast s p link frame

omit [Store S] [Store T] H in
theorem swept_recast : (s.recast g p).swept = s.swept.recast g p := by
  have hrelays : (s.recast g p).relays = s.relays := rfl
  have hforwarded : (s.recast g p).forwarded = s.forwarded := rfl
  rw [swept_eq, swept_eq, hrelays, hforwarded]
  simp only [recast, List.append_assoc, Nat.add_assoc]

omit [Store S] [Store T] H in
theorem tick_recast : (s.recast g p).tick = s.tick.recast g p := by
  have hnow : (s.recast g p).clock = s.clock := rfl
  rw [tick_eq, tick_eq, swept_recast, hnow, retryStalledHandshakes_recast]

/-! ## Commands -/

theorem sendChannelMessage_recast (channel text : String) :
    (s.recast g p).sendChannelMessage channel text = (s.sendChannelMessage channel text).recast g p := by
  rw [sendChannelMessage_eq, sendChannelMessage_eq, ← flood_recast]
  simp only [recast_store, H.putChannelMessage]
  rfl

theorem peerOrNew_recast (fp : Fingerprint) : (s.recast g p).peerOrNew fp = s.peerOrNew fp := by
  unfold peerOrNew
  rw [recast_store, H.getPeer]
  rfl

theorem verifyPeer_recast (fp : Fingerprint) : (s.recast g p).verifyPeer fp = (s.verifyPeer fp).recast g p := by
  unfold verifyPeer
  simp only [recast_store, peerOrNew_recast, H.upsertPeer, H.deleteDms]
  rw [← trySendVerifyNotice_recast]
  rfl

theorem unverifyPeer_recast (fp : Fingerprint) : (s.recast g p).unverifyPeer fp = (s.unverifyPeer fp).recast g p := by
  unfold unverifyPeer
  simp only [recast_store, H.getPeer]
  cases Store.getPeer s.store fp with
  | none =>
    simp only [recast_store, H.deleteDms]
    rfl
  | some peer =>
    simp only [H.upsertPeer, H.deleteDms]
    rfl

theorem forgetPeer_recast (fp : Fingerprint) : (s.recast g p).forgetPeer fp = (s.forgetPeer fp).recast g p := by
  unfold forgetPeer
  simp only [recast_store, H.deleteDms, H.deletePeer]
  rfl

theorem setPetname_recast (fp : Fingerprint) (name : String) :
    (s.recast g p).setPetname fp name = (s.setPetname fp name).recast g p := by
  unfold setPetname
  simp only [recast_store, peerOrNew_recast, H.upsertPeer]
  rfl

theorem panicWipe_recast : (s.recast g p).panicWipe = s.panicWipe.recast g p := by
  unfold panicWipe
  rw [recast_store, H.panicWipe]
  rfl

theorem act_recast (a : Action) : (s.recast g p).act a = (s.act a).recast g p := by
  cases a with
  | transport ev => exact onTransportEvent_recast s p ev
  | tick => exact tick_recast s p
  | sendChannelMessage channel text => exact sendChannelMessage_recast s p channel text
  | announce => exact announce_recast s p
  | sendDm fp text => exact sendDm_recast s p fp text
  | startDmSession fp => exact startDmSession_recast s p fp
  | verifyPeer fp => exact verifyPeer_recast s p fp
  | unverifyPeer fp => exact unverifyPeer_recast s p fp
  | forgetPeer fp => exact forgetPeer_recast s p fp
  | setPetname fp name => exact setPetname_recast s p fp name
  | panicWipe => exact panicWipe_recast s p
  | takeEvents | joinChannel _ => rfl

/-- No call looks at the past, or at how the store keeps things. -/
theorem run_recast (calls : List Call) : Runs.run exec (s.recast g p) calls = (Runs.run exec s calls).recast g p :=
  List.foldl_hom (fun t : MeshNode S => t.recast g p) (fun t c => act_recast (t.at_ c.now) p c.action)

end MeshNode
end CockroachChat
