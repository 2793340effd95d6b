import CockroachChat.Sessions.Chains

/-! # Every call is a chain of moves -/
namespace CockroachChat.MeshNode
set_option autoImplicit false

variable [P : Prims] {S : Type} [Store S]

/-! ## Links, relaying and the store -/

theorem emit_untouched (s : MeshNode S) {e : MeshEvent} (h : (Obs.event e none).Neutral s.identity) :
    Untouched s (s.emit e) :=
  .of_trace rfl rfl rfl rfl rfl rfl rfl (l := [.event e none]) (by simpa using h)

theorem closeLink_untouched (s : MeshNode S) (id : LinkId) : Untouched s (s.closeLink id) :=
  .of_trace rfl rfl rfl rfl rfl rfl rfl (l := [.close id]) (by simp [Obs.Neutral])

theorem dedupLinks_untouched (s : MeshNode S) : Untouched s s.dedupLinks := by
  have hresolve : Untouched s s.resolveLinks := .of_eq rfl rfl rfl rfl rfl rfl rfl
  exact hresolve.trans (.foldl _ closeLink_untouched _ _)

theorem noteLinkIdentity_untouched (s : MeshNode S) (link : LinkId) (eph : EphId) :
    Untouched s (s.noteLinkIdentity link eph) := by
  unfold noteLinkIdentity
  cases s.links[link]? with
  | none => exact dedupLinks_untouched s
  | some l =>
    simp only
    split_ifs
    · refine Untouched.trans ?_ (dedupLinks_untouched _)
      exact .of_eq rfl rfl rfl rfl rfl rfl rfl
    · exact dedupLinks_untouched s

theorem noteKeyChange_untouched (s : MeshNode S) (fp : Fingerprint) (prev : Option Key32) (dh : Key32) :
    Untouched s (s.noteKeyChange fp prev dh) := by
  unfold noteKeyChange
  cases prev with
  | none => exact .refl s
  | some prev =>
    simp only
    split_ifs
    · refine Untouched.trans ?_ (emit_untouched _ ?_)
      · exact .of_eq rfl rfl rfl rfl rfl (EnvelopeStore.put_dm _ _) rfl
      · trivial
    · exact .refl s

theorem recordPeer_untouched (s : MeshNode S) (fp : Fingerprint) (pkt : Packet) : Untouched s (s.recordPeer fp pkt) :=
  .of_eq rfl rfl rfl rfl rfl (EnvelopeStore.upsert_peer _ _) rfl

theorem handleChannel_untouched (s : MeshNode S) (pkt : Packet) : Untouched s (s.handleChannel pkt) := by
  unfold handleChannel
  cases decodeChannel pkt.payload s.cfg with
  | none => exact .refl s
  | some named =>
    cases s.channelVerified pkt with
    | none => exact .refl s
    | some verified =>
      simp only
      split_ifs
      · refine Untouched.trans ?_ (emit_untouched _ ?_)
        · exact .of_eq rfl rfl rfl rfl rfl (EnvelopeStore.put_channel _ _) rfl
        · trivial
      · exact .of_eq rfl rfl rfl rfl rfl (EnvelopeStore.put_channel _ _) rfl

theorem resendStored_untouched (s : MeshNode S) (link : LinkId) (digest : Digest) :
    Untouched s (s.resendStored link digest) := by
  unfold resendStored
  cases Store.messageByDigest s.store digest with
  | none => exact .refl s
  | some m =>
    simp only
    split_ifs
    · exact sendBytes_untouched s link m.raw digest _
    · exact .refl s

theorem handleSyncRequest_untouched (s : MeshNode S) (link : LinkId) (pkt : Packet) :
    Untouched s (s.handleSyncRequest link pkt) := by
  unfold handleSyncRequest
  cases decodeSync pkt.payload with
  | none => exact .refl s
  | some remote => exact .foldl _ (fun s digest => resendStored_untouched s link digest) _ s

theorem maybeRelay_untouched (s : MeshNode S) (link : LinkId) (pkt : Packet) : Untouched s (s.maybeRelay link pkt) := by
  obtain ⟨rng, scheduler, heq⟩ := maybeRelay_update s link pkt
  rw [heq]
  exact .of_eq rfl rfl rfl rfl rfl rfl rfl

theorem sendChannelMessage_untouched (s : MeshNode S) (channel text : String) :
    Untouched s (s.sendChannelMessage channel text) := by
  unfold sendChannelMessage
  refine Untouched.trans ?_ (broadcast_untouched _ _ _)
  refine .of_trace rfl rfl rfl rfl rfl (EnvelopeStore.put_channel _ _) rfl fun o ho => ?_
  rw [List.mem_singleton.mp ho]
  exact fun h => absurd (show MsgType.channelMessage.toU8 = MsgType.announce.toU8 from h) (by decide)

/-! ## Announces -/

/-- Held messages are sent again, each of them once. -/
theorem deliverHeld_moves (laws : SnowLaws P) (s : MeshNode S) (fp : Fingerprint) (hand : Hand) :
    Moves (s, hand) (s.deliverHeld fp, hand) := by
  have hloop : ∀ (l : List Bytes) (t : MeshNode S), Moves (t, l.map (fun b => (fp, fromUtf8Lossy b)) ++ hand)
      (l.foldl (fun s bytes => s.sendDm fp (fromUtf8Lossy bytes)) t, hand) := by
    intro l
    induction l with
    | nil => exact fun t => .refl
    | cons b l ih => exact fun t => (sendDm_moves laws t fp (fromUtf8Lossy b) _).trans (ih _)
  rcases htake : Store.takeEnvelopes s.store fp with ⟨store, held⟩
  have hgrab : Moves (s, hand)
      ({ s with store := store }, held.map (fun b => (fp, fromUtf8Lossy b)) ++ hand) := by
    refine .single ⟨⟨rfl, fun h => h, fun x => ?_⟩, .neutral [] (by simp) (by simp) (.refl _) (.refl _)⟩
    have hsub := EnvelopeStore.take_held s.store fp
    have hleft := EnvelopeStore.take_left s.store fp
    rw [htake] at hsub hleft
    obtain ⟨fp', text⟩ := x
    have hcount : (held.map fun b => (fp, fromUtf8Lossy b)) = (held.map fromUtf8Lossy).map (fp, ·) := by
      rw [List.map_map]
      rfl
    simp only [load, hleft, List.count_append, hcount]
    by_cases h : fp' = fp
    · subst h
      have hle := (hsub.map fromUtf8Lossy).count_le text
      have hmap : ((held.map fromUtf8Lossy).map fun t => (fp', t)).count (fp', text) =
          (held.map fromUtf8Lossy).count text :=
        List.count_map_of_injective _ _ (Prod.mk_right_injective fp') text
      simp only [if_true, List.map_nil, List.count_nil] at hle ⊢
      omega
    · have hzero : ((held.map fromUtf8Lossy).map (fp, ·)).count (fp', text) = 0 := by
        rw [List.count_eq_zero]
        simp [Ne.symm h]
      simp only [if_neg h]
      omega
  have heq : s.deliverHeld fp =
      held.foldl (fun s bytes => s.sendDm fp (fromUtf8Lossy bytes)) { s with store := store } := by
    simp only [deliverHeld, htake]
  rw [heq]
  exact hgrab.trans (hloop held _)

theorem handleAnnounce_moves (laws : SnowLaws P) (s : MeshNode S) {pkt : Packet} (htype : pkt.msgType = .announce)
    (hand : Hand) : Moves (s, hand) (s.handleAnnounce pkt, hand) := by
  unfold handleAnnounce
  cases hdec : decodeAnnounce pkt.payload with
  | none => exact .refl
  | some keys =>
    obtain ⟨ed, dh, nick⟩ := keys
    simp only
    cases hvk : P.vkFromBytes ed with
    | none => exact .refl
    | some vk =>
      simp only
      cases hver : pkt.verifyWith vk with
      | error e => exact .refl
      | ok u =>
        simp only
        refine Relation.ReflTransGen.trans ?_ (deliverHeld_moves laws _ _ hand)
        refine Relation.ReflTransGen.trans ?_ ((dedupLinks_untouched _).moves hand)
        refine Relation.ReflTransGen.trans ?_ ((emit_untouched _ ?_).moves hand)
        · refine Relation.ReflTransGen.trans ?_ ((recordPeer_untouched _ _ pkt).moves hand)
          refine Relation.ReflTransGen.trans ?_ ((noteKeyChange_untouched _ _ _ dh).moves hand)
          refine .single ⟨⟨rfl, fun h => h, fun x => ?_⟩,
            .learn pkt (P.sha256 ed.toList) dh ⟨htype, ed, nick, vk, hdec, hvk, hver, rfl⟩ rfl rfl rfl⟩
          have hnone : [Obs.accept pkt].filterMap Obs.sentText = [] := rfl
          simp [load, note, hnone]
        · trivial

/-! ## Frames, events and commands -/

theorem dispatch_moves (laws : SnowLaws P) {s : MeshNode S} (shaped : s.Shaped) (link : LinkId) (pkt : Packet)
    (hand : Hand) : Moves (s, hand) (s.dispatch link pkt, hand) := by
  unfold dispatch
  split
  · exact handleAnnounce_moves laws s (by assumption) hand
  · exact (handleChannel_untouched s pkt).moves hand
  · exact (handleSyncRequest_untouched s link pkt).moves hand
  · exact handleNoiseHandshake_moves laws shaped pkt hand
  · exact handleDirectMessage_moves laws s pkt hand
  · exact .refl

theorem tagged_untouched (s : MeshNode S) (link : LinkId) (pkt : Packet) : Untouched s (s.tagged link pkt) := by
  unfold tagged
  split_ifs
  · exact noteLinkIdentity_untouched s link pkt.sender
  · exact .refl s

theorem onPacket_moves (laws : SnowLaws P) {s : MeshNode S} (shaped : s.Shaped) (link : LinkId) (pkt : Packet)
    (hand : Hand) : Moves (s, hand) (s.onPacket link pkt, hand) := by
  have htag := tagged_untouched s link pkt
  refine (htag.moves hand).trans ?_
  rw [onPacket_eq]
  split_ifs
  · refine Relation.ReflTransGen.trans ?_ ((maybeRelay_untouched _ link pkt).moves hand)
    refine Relation.ReflTransGen.trans ?_ (dispatch_moves laws (shaped.of_sessions ?_) link pkt hand)
    · exact same_moves hand rfl rfl rfl rfl rfl rfl rfl
    · exact htag.sessions
  · exact same_moves hand rfl rfl rfl rfl rfl rfl rfl
  · exact same_moves hand rfl rfl rfl rfl rfl rfl rfl

theorem onFrame_moves (laws : SnowLaws P) {s : MeshNode S} (shaped : s.Shaped) (link : LinkId) (frame : Bytes)
    (hand : Hand) : Moves (s, hand) (s.onFrame link frame, hand) := by
  obtain ⟨reassembler, heq | ⟨pkt, heq⟩⟩ := onFrame_cases s link frame
  · rw [heq]
    exact same_moves hand rfl rfl rfl rfl rfl rfl rfl
  · rw [heq]
    refine Relation.ReflTransGen.trans ?_ (onPacket_moves laws (shaped.of_sessions ?_) link pkt hand)
    · exact same_moves hand rfl rfl rfl rfl rfl rfl rfl
    · rfl

theorem onTransportEvent_moves (laws : SnowLaws P) {s : MeshNode S} (shaped : s.Shaped) (ev : TransportEvent)
    (hand : Hand) : Moves (s, hand) (s.onTransportEvent ev, hand) := by
  cases ev with
  | linkUp link mtu =>
    refine Relation.ReflTransGen.trans ?_ (((announce_untouched _).trans (sendSyncRequests_untouched _ link)).moves hand)
    exact same_moves hand rfl rfl rfl rfl rfl rfl rfl
  | mtuChanged link mtu =>
    simp only [onTransportEvent]
    cases s.links[link]? with
    | none => exact .refl
    | some l => exact same_moves hand rfl rfl rfl rfl rfl rfl rfl
  | linkDown link =>
    refine Relation.ReflTransGen.trans ?_ ((emit_untouched _ ?_).moves hand)
    · exact same_moves hand rfl rfl rfl rfl rfl rfl rfl
    · trivial
  | frameReceived link frame => exact onFrame_moves laws shaped link frame hand

theorem tick_moves (laws : SnowLaws P) (s : MeshNode S) (hand : Hand) : Moves (s, hand) (s.tick, hand) := by
  obtain ⟨scheduler, fired, seen, reassembler, os, heq, hos⟩ := swept_update s
  rw [tick_eq, heq]
  refine Relation.ReflTransGen.trans ?_ (retryStalledHandshakes_moves laws _ s.clock hand)
  refine Untouched.moves ?_ hand
  exact .of_trace rfl rfl rfl rfl rfl rfl rfl fun o ho => (hos o ho).neutral

theorem verifyPeer_moves (laws : SnowLaws P) (s : MeshNode S) (fp : Fingerprint) (hand : Hand) :
    Moves (s, hand) (s.verifyPeer fp, hand) := by
  unfold verifyPeer
  refine Relation.ReflTransGen.trans ?_ (trySendVerifyNotice_moves laws _ fp hand).1
  exact same_moves hand rfl rfl rfl rfl rfl ((EnvelopeStore.delete_dms _ _ _).trans (EnvelopeStore.upsert_peer _ _)) rfl

theorem unverifyPeer_moves (s : MeshNode S) (fp : Fingerprint) (hand : Hand) :
    Moves (s, hand) (s.unverifyPeer fp, hand) := by
  unfold unverifyPeer
  refine Relation.ReflTransGen.trans ?_ (dropPeerSessionState_moves _ fp hand)
  cases Store.getPeer s.store fp with
  | none => exact same_moves hand rfl rfl rfl rfl rfl (EnvelopeStore.delete_dms _ _ _) rfl
  | some p =>
    exact same_moves hand rfl rfl rfl rfl rfl
      ((EnvelopeStore.delete_dms _ _ _).trans (EnvelopeStore.upsert_peer _ _)) rfl

theorem forgetPeer_moves (s : MeshNode S) (fp : Fingerprint) (hand : Hand) :
    Moves (s, hand) (s.forgetPeer fp, hand) := by
  unfold forgetPeer
  let t : MeshNode S := { s with store := Store.deletePeer (Store.deleteDms s.store fp false) fp }
  have hstore : Moves (s, hand) (t, hand) :=
    same_moves hand rfl rfl rfl rfl rfl ((EnvelopeStore.delete_peer _ _).trans (EnvelopeStore.delete_dms _ _ _)) rfl
  refine (hstore.trans (dropPeerSessionState_moves t fp hand)).trans ?_
  exact same_moves hand rfl rfl rfl rfl rfl rfl rfl

theorem panicWipe_moves (s : MeshNode S) (hand : Hand) : Moves (s, hand) (s.panicWipe, hand) := by
  refine forget_moves [] hand rfl (by simp [panicWipe]) (by simp) ?_ ?_ ?_ ?_ ?_
  · intro fp σ h
    simp [panicWipe] at h
  · intro fp k h
    simp [panicWipe] at h
  · intro _ fp _
    simp [panicWipe]
  · intro fp
    simp [panicWipe]
  · intro fp
    simp [panicWipe, EnvelopeStore.wipe]

/-- The text a call asks the node to send. -/
def asked : Action → Hand
  | .sendDm fp text => [(fp, text)]
  | _ => []

/-- Every call is a chain of moves that starts with the text it was asked to send. -/
theorem exec_moves (laws : SnowLaws P) {s : MeshNode S} (shaped : s.Shaped) (c : Call) :
    Moves (s, asked c.action) (exec s c, []) := by
  have hclock : ∀ hand, Moves (s, hand) (s.at_ c.now, hand) :=
    fun hand => same_moves hand rfl rfl rfl rfl rfl rfl rfl
  have hshaped : (s.at_ c.now).Shaped := shaped.of_sessions rfl
  refine (hclock _).trans ?_
  unfold exec
  generalize s.at_ c.now = t at hshaped
  cases c.action with
  | transport ev => exact onTransportEvent_moves laws hshaped ev []
  | tick => exact tick_moves laws t []
  | takeEvents => exact same_moves [] rfl rfl rfl rfl rfl rfl rfl
  | joinChannel name => exact same_moves [] rfl rfl rfl rfl rfl rfl rfl
  | sendChannelMessage channel text => exact (sendChannelMessage_untouched t channel text).moves []
  | announce => exact (announce_untouched t).moves []
  | sendDm fp text => exact sendDm_moves laws t fp text []
  | startDmSession fp => exact startDmSession_moves laws t fp []
  | verifyPeer fp => exact verifyPeer_moves laws t fp []
  | unverifyPeer fp => exact unverifyPeer_moves t fp []
  | forgetPeer fp => exact forgetPeer_moves t fp []
  | setPetname fp name => exact same_moves [] rfl rfl rfl rfl rfl (EnvelopeStore.upsert_peer _ _) rfl
  | panicWipe => exact panicWipe_moves t []

end CockroachChat.MeshNode
