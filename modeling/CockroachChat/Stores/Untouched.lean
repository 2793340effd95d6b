import CockroachChat.Peers.Bindings

/-! # What direct messages leave alone

Handshakes and retries write nothing, and what is received, read and answered only adds rows to the
threads. Whatever a reading of the store that a new row does not change shows, only a text for a peer
without a route and an announce can change it. -/
namespace CockroachChat.MeshNode
set_option autoImplicit false

variable [P : Prims] {S : Type}

/-! ## What writes nothing -/

theorem sendDirected_store (s : MeshNode S) (t : MsgType) (fp : Fingerprint) (payload : Bytes) :
    (s.sendDirected t fp payload).store = s.store := by
  cases h : s.fpToEph[fp]? with
  | none => rw [sendDirected_none h]
  | some eph =>
    rw [sendDirected_some h]
    rfl

theorem beginHandshake_store (s : MeshNode S) (fp : Fingerprint) : (s.beginHandshake fp).store = s.store := by
  unfold beginHandshake
  cases NoiseSession.newInitiator s.identity.dhPrivateBytes with
  | error e => rfl
  | ok σ =>
    cases hw : σ.writeHandshake (s.entropy s.drawn) with
    | error e => simp only [hw]
    | ok r =>
      simp only [hw]
      exact sendDirected_store _ _ _ _

theorem resyncGate_store (s : MeshNode S) (fp : Fingerprint) : (s.resyncGate fp).1.store = s.store := by
  simp only [resyncGate]
  split_ifs <;> rfl

theorem glareGate_store (s : MeshNode S) (fp : Fingerprint) (payload : Bytes) : (s.glareGate fp payload).1.store = s.store := by
  simp only [glareGate]
  cases s.noiseSessions[fp]? with
  | none => simp
  | some σ =>
    simp only
    split_ifs <;> rfl

theorem ensureResponder_store (s : MeshNode S) (fp : Fingerprint) : (s.ensureResponder fp).1.store = s.store := by
  simp only [ensureResponder]
  cases NoiseSession.newResponder s.identity.dhPrivateBytes <;> split_ifs <;> rfl

theorem retryStalledHandshakes_store (s : MeshNode S) (now : Millis) : (s.retryStalledHandshakes now).store = s.store := by
  unfold retryStalledHandshakes
  generalize s.handshakeAttempts.keys.filter (s.stalled now) = stalled
  induction stalled generalizing s with
  | nil => rfl
  | cons fp stalled ih =>
    rw [List.foldl_cons, ih, beginHandshake_store]

theorem encryptAndSendDm_store (s : MeshNode S) (fp : Fingerprint) (kind : UInt8) (body : Bytes) :
    (s.encryptAndSendDm fp kind body).store = s.store := by
  unfold encryptAndSendDm
  cases s.noiseSessions[fp]? with
  | none => rfl
  | some σ =>
    cases henc : σ.encrypt (kind :: body) with
    | error e =>
      simp only [henc]
      rfl
    | ok r =>
      simp only [henc]
      rw [sendDirected_store]
      rfl

theorem startDmSession_store (s : MeshNode S) (fp : Fingerprint) : (s.startDmSession fp).store = s.store := by
  unfold startDmSession
  split_ifs
  · rfl
  · rfl
  · exact beginHandshake_store s fp
  · rfl

theorem drainOutbound_store (s : MeshNode S) (fp : Fingerprint) : (s.drainOutbound fp).store = s.store := by
  have hfold : ∀ (texts : List String) (t : MeshNode S),
      (texts.foldl (fun t text => t.encryptAndSendDm fp dmKindText (asBytes text)) t).store = t.store := by
    intro texts
    induction texts with
    | nil => exact fun _ => rfl
    | cons text texts ih =>
      intro t
      rw [List.foldl_cons, ih, encryptAndSendDm_store]
  exact hfold _ _

variable [Store S]

/-! ## What only writes rows -/

section Rows
variable {β : Type} {g : S → β} (hput : ∀ (st : S) (dm : StoredDm), g (Store.putDm st dm) = g st)
include hput

theorem sendControlDm_reads (s : MeshNode S) (fp : Fingerprint) (kind : UInt8) : g (s.sendControlDm fp kind).store = g s.store := by
  rw [sendControlDm, encryptAndSendDm_store]
  exact hput _ _

theorem trySendVerifyNotice_reads (s : MeshNode S) (fp : Fingerprint) : g (s.trySendVerifyNotice fp).store = g s.store := by
  unfold trySendVerifyNotice
  split_ifs
  · exact sendControlDm_reads hput _ fp dmKindVerifyNotice
  · rfl

theorem decryptAndEmit_reads (s : MeshNode S) (fp : Fingerprint) (ct : Bytes) : g (s.decryptAndEmit fp ct).store = g s.store := by
  cases hheld : s.noiseSessions[fp]? with
  | none => rw [decryptAndEmit, hheld]
  | some σ =>
    rcases hdec : σ.decrypt ct with ⟨σ', e | pt⟩
    · simp only [decryptAndEmit, hheld, hdec]
    · have hreceived : g (s.received fp σ σ' (ofBe (ct.take 8)) pt).store = g s.store := hput _ _
      rw [decryptAndEmit_ok hheld hdec]
      split_ifs
      · exact (sendControlDm_reads hput _ fp dmKindVerifyAck).trans hreceived
      · exact hreceived

theorem drainInbound_reads (s : MeshNode S) (fp : Fingerprint) : g (s.drainInbound fp).store = g s.store := by
  have hfold : ∀ (cts : List Bytes) (t : MeshNode S),
      g (cts.foldl (fun t ct => t.decryptAndEmit fp ct) t).store = g t.store := by
    intro cts
    induction cts with
    | nil => exact fun _ => rfl
    | cons ct cts ih =>
      intro t
      rw [List.foldl_cons, ih, decryptAndEmit_reads hput]
  exact hfold _ _

theorem finishSession_reads (s : MeshNode S) (fp : Fingerprint) : g (s.finishSession fp).store = g s.store := by
  unfold finishSession
  split_ifs
  · rfl
  · rw [drainInbound_reads hput, drainOutbound_store, trySendVerifyNotice_reads hput]
    rfl

theorem advanceHandshake_reads (s : MeshNode S) (fp : Fingerprint) : g (s.advanceHandshake fp).store = g s.store := by
  unfold advanceHandshake
  cases s.noiseSessions[fp]? with
  | none => rfl
  | some σ =>
    simp only
    split_ifs
    · exact finishSession_reads hput s fp
    · cases hw : σ.writeHandshake (s.entropy s.drawn) with
      | error e => rfl
      | ok r =>
        simp only
        split_ifs
        · rw [finishSession_reads hput, sendDirected_store]
          rfl
        · rw [sendDirected_store]
          rfl

theorem readAndAdvance_reads (s : MeshNode S) (fp : Fingerprint) (payload : Bytes) :
    g (s.readAndAdvance fp payload).store = g s.store := by
  unfold readAndAdvance
  cases s.noiseSessions[fp]? with
  | none => rfl
  | some σ =>
    cases hread : σ.readHandshake payload with
    | error e => simp only [hread]
    | ok σ' =>
      simp only [hread]
      rw [advanceHandshake_reads hput]

theorem handleNoiseHandshake_reads (s : MeshNode S) (pkt : Packet) : g (s.handleNoiseHandshake pkt).store = g s.store := by
  unfold handleNoiseHandshake
  split_ifs
  · rfl
  · cases s.ephToFp pkt.sender with
    | none => rfl
    | some fp =>
      have h₁ := resyncGate_store s fp
      have h₂ := (glareGate_store (s.resyncGate fp).1 fp pkt.payload).trans h₁
      have h₃ := (ensureResponder_store ((s.resyncGate fp).1.glareGate fp pkt.payload).1 fp).trans h₂
      simp only
      split_ifs
      · rw [h₁]
      · rw [h₂]
      · rw [h₃]
      · rw [readAndAdvance_reads hput, h₃]

theorem handleDirectMessage_reads (s : MeshNode S) (pkt : Packet) : g (s.handleDirectMessage pkt).store = g s.store := by
  unfold handleDirectMessage
  split_ifs
  · rfl
  · cases s.ephToFp pkt.sender with
    | none => rfl
    | some fp =>
      simp only
      by_cases hready : s.sessionReady fp = true
      · simpa [hready] using decryptAndEmit_reads hput s fp pkt.payload
      · simp only [hready, Bool.not_false, if_true]
        generalize s.pendingInboundDms.insert fp _ = inbound
        split_ifs
        · rw [beginHandshake_store]
        · rfl

/-- A text for a peer with a route is written into the thread, and goes nowhere else in the store. -/
theorem sendDm_routed_reads (s : MeshNode S) {fp : Fingerprint} (routed : s.fpToEph.contains fp = true) (text : String) :
    g (s.sendDm fp text).store = g s.store := by
  unfold sendDm
  simp only
  split_ifs with hready hunknown
  · rw [encryptAndSendDm_store]
    exact hput _ _
  · rw [routed] at hunknown
    cases hunknown
  · rw [beginHandshake_store]
    exact hput _ _
  · exact hput _ _

/-- What is taken up for a peer with a route does not come back. -/
theorem deliverHeld_reads (s : MeshNode S) {fp : Fingerprint} (routed : s.fpToEph.contains fp = true) :
    g (s.deliverHeld fp).store = g (Store.takeEnvelopes s.store fp).1 := by
  have hfold : ∀ (held : List Bytes) (t : MeshNode S), t.fpToEph.contains fp = true →
      g (held.foldl (fun t b => t.sendDm fp (fromUtf8Lossy b)) t).store = g t.store := by
    intro held
    induction held with
    | nil => exact fun _ _ => rfl
    | cons b held ih =>
      intro t ht
      have hnext : (t.sendDm fp (fromUtf8Lossy b)).fpToEph = t.fpToEph := (sendDm_dmOnly t fp _).fpToEph
      rw [List.foldl_cons, ih _ (by rw [hnext, ht]), sendDm_routed_reads hput t ht]
  exact hfold _ { s with store := (Store.takeEnvelopes s.store fp).1 } routed

end Rows

/-! ## What a call leaves alone -/

/-- An announce counts when it is signed by the key it carries. -/
theorem handleAnnounce_keyed (s : MeshNode S) (pkt : Packet) :
    announcedKey pkt = none ∧ s.handleAnnounce pkt = s ∨ ∃ ed dh nick, announcedKey pkt = some ed ∧
      s.handleAnnounce pkt = ((s.announced pkt ed dh nick).dedupLinks).deliverHeld (P.sha256 ed.toList) := by
  unfold announcedKey handleAnnounce
  cases decodeAnnounce pkt.payload with
  | none => exact .inl ⟨rfl, rfl⟩
  | some keys =>
    obtain ⟨ed, dh, nick⟩ := keys
    simp only
    cases P.vkFromBytes ed with
    | none => exact .inl ⟨rfl, rfl⟩
    | some vk =>
      simp only
      cases pkt.verifyWith vk with
      | error e => exact .inl ⟨rfl, rfl⟩
      | ok u => exact .inr ⟨ed, dh, nick, rfl, rfl⟩

theorem announced_fpToEph (s : MeshNode S) (pkt : Packet) (ed dh : Key32) (nick : String) :
    (s.announced pkt ed dh nick).fpToEph = s.fpToEph.insert (P.sha256 ed.toList) pkt.sender :=
  (noteKeyChange_dmOnly _ _ _ dh).fpToEph

/-- Readings that neither a row of a thread, nor a channel message, nor a peer record changes. -/
structure Apart {β : Type} (g : S → β) : Prop where
  put : ∀ (st : S) (dm : StoredDm), g (Store.putDm st dm) = g st
  channel : ∀ (st : S) (m : StoredMessage), g (Store.putChannelMessage st m) = g st
  peer : ∀ (st : S) (p : PeerRecord), g (Store.upsertPeer st p) = g st
  gone : ∀ (st : S) (fp : Fingerprint), g (Store.deletePeer st fp) = g st
  dms : ∀ (st : S) (fp : Fingerprint) (only : Bool), g (Store.deleteDms st fp only) = g st
  take : ∀ (st st' : S) (fp : Fingerprint), g st = g st' → g (Store.takeEnvelopes st fp).1 = g (Store.takeEnvelopes st' fp).1

section Calls
variable {β : Type} {g : S → β} (apart : Apart g)
include apart

theorem announced_reads (s : MeshNode S) (pkt : Packet) (ed dh : Key32) (nick : String) :
    g (s.announced pkt ed dh nick).store = g s.store := by
  unfold announced
  refine (apart.peer _ _).trans ?_
  unfold noteKeyChange
  split
  · rfl
  · split_ifs
    · exact apart.put _ _
    · rfl

/-- An announce takes up what was held for its peer. -/
theorem handleAnnounce_reads (s : MeshNode S) (pkt : Packet) :
    g (s.handleAnnounce pkt).store =
      ((announcedKey pkt).map fun ed => g (Store.takeEnvelopes s.store (P.sha256 ed.toList)).1).getD (g s.store) := by
  rcases handleAnnounce_keyed s pkt with ⟨hnone, heq⟩ | ⟨ed, dh, nick, hkey, heq⟩
  · rw [hnone, heq]
    rfl
  · obtain ⟨links, os, hdedup, -⟩ := dedupLinks_update (s.announced pkt ed dh nick)
    have hrouted : (s.announced pkt ed dh nick).dedupLinks.fpToEph.contains (P.sha256 ed.toList) = true := by
      rw [hdedup, announced_fpToEph]
      simp
    have hstore : (s.announced pkt ed dh nick).dedupLinks.store = (s.announced pkt ed dh nick).store := by rw [hdedup]
    rw [hkey, heq, deliverHeld_reads apart.put _ hrouted, hstore]
    exact apart.take _ _ _ (announced_reads apart s pkt ed dh nick)

theorem dispatch_reads (s : MeshNode S) (link : LinkId) {pkt : Packet} (other : pkt.msgType ≠ .announce) :
    g (s.dispatch link pkt).store = g s.store := by
  unfold dispatch
  split
  · contradiction
  · rcases handleChannel_update s pkt with heq | ⟨channel, text, verified, -, -, heq⟩
    · rw [heq]
    · rw [heq]
      simp only
      split_ifs <;> exact apart.channel _ _
  · obtain ⟨os, heq, -⟩ := handleSyncRequest_update s link pkt
    rw [heq]
  · exact handleNoiseHandshake_reads apart.put s pkt
  · exact handleDirectMessage_reads apart.put s pkt
  · rfl

theorem onPacket_reads (s : MeshNode S) (link : LinkId) (pkt : Packet) :
    g (s.onPacket link pkt).store =
      ((if pkt.msgType = .announce ∧ s.accepts pkt = true then announcedKey pkt else none).map fun ed =>
        g (Store.takeEnvelopes s.store (P.sha256 ed.toList)).1).getD (g s.store) := by
  obtain ⟨links, os, htag, -⟩ := tagged_update s link pkt
  have hstore : (((s.tagged link pkt).observed pkt).charged pkt).store = s.store := by
    rw [htag]
    rfl
  rw [onPacket_phased, ← tagged_accepts s link, accepts]
  by_cases hfresh : (s.tagged link pkt).fresh pkt = true
  · by_cases hadmits : ((s.tagged link pkt).observed pkt).admits pkt = true
    · obtain ⟨rng, scheduler, hrelay⟩ := maybeRelay_update
        ((((s.tagged link pkt).observed pkt).charged pkt).dispatch link pkt) link pkt
      rw [if_pos hfresh, if_pos hadmits, hrelay, hfresh, hadmits]
      by_cases hann : pkt.msgType = .announce
      · have hdispatch : (((s.tagged link pkt).observed pkt).charged pkt).dispatch link pkt =
            (((s.tagged link pkt).observed pkt).charged pkt).handleAnnounce pkt := by
          simp only [dispatch, hann]
        rw [if_pos ⟨hann, rfl⟩, hdispatch, handleAnnounce_reads apart, hstore]
      · rw [if_neg (fun h => hann h.1), dispatch_reads apart _ link hann, hstore]
        rfl
    · rw [if_pos hfresh, if_neg hadmits, if_neg (by simp [hadmits]), hstore]
      rfl
  · rw [if_neg hfresh, if_neg (by simp [hfresh]), htag]
    rfl

/-- Of all calls but a text and a wipe only the announce that binds a peer takes anything up. -/
theorem exec_reads (s : MeshNode S) (c : Call) (notText : ∀ fp text, c.action ≠ .sendDm fp text)
    (notWipe : c.action ≠ .panicWipe) :
    g (exec s c).store = (((s.at_ c.now).learned c.action).map fun b =>
      g (Store.takeEnvelopes s.store (P.sha256 b.2.toList)).1).getD (g s.store) := by
  obtain ⟨now, a⟩ := c
  cases a with
  | transport ev =>
    cases ev with
    | linkUp link mtu =>
      obtain ⟨seen, os, heq⟩ := linkUp_update (s.at_ now) link mtu
      rw [exec, act, heq]
      rfl
    | linkDown link => rfl
    | mtuChanged link mtu =>
      simp only [exec, act, onTransportEvent]
      split <;> rfl
    | frameReceived link frame =>
      have hexec : exec s ⟨now, .transport (.frameReceived link frame)⟩ = (s.at_ now).onFrame link frame := rfl
      simp only [hexec, onFrame_eq, learned]
      cases (s.at_ now).assembled frame with
      | none => rfl
      | some pkt =>
        simp only
        rw [onPacket_reads apart]
        have hstore : ((s.at_ now).fed frame).store = s.store := rfl
        rw [hstore]
        split_ifs
        · rw [Option.map_map]
          rfl
        · rfl
  | tick =>
    have hswept : (s.at_ now).swept.store = s.store := by
      rw [swept_eq]
      rfl
    have htick : (exec s ⟨now, .tick⟩).store = (s.at_ now).swept.store := retryStalledHandshakes_store _ _
    rw [htick, hswept]
    rfl
  | takeEvents => rfl
  | joinChannel name => rfl
  | sendChannelMessage channel text =>
    rw [exec, act, sendChannelMessage_eq]
    exact apart.channel _ _
  | announce =>
    rw [exec, act, announce_eq]
    rfl
  | sendDm fp text => exact absurd rfl (notText fp text)
  | startDmSession fp => exact congrArg g (startDmSession_store (s.at_ now) fp)
  | verifyPeer fp =>
    refine (trySendVerifyNotice_reads apart.put _ fp).trans ?_
    exact (apart.dms _ _ _).trans (apart.peer _ _)
  | unverifyPeer fp =>
    simp only [exec, act, unverifyPeer]
    refine (apart.dms _ _ _).trans ?_
    split
    · exact apart.peer _ _
    · rfl
  | forgetPeer fp => exact (apart.gone _ _).trans (apart.dms _ _ _)
  | setPetname fp name => exact apart.peer _ _
  | panicWipe => exact absurd rfl notWipe

end Calls
end CockroachChat.MeshNode
