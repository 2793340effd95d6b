import CockroachChat.Sessions.Chains

/-! # What direct messaging leaves alone

Sessions, handshakes and their retries write to the session tables, to the message part of the
store, to the trace, and mark the packets they send as seen. Everything else in the node stays. -/
namespace CockroachChat
set_option autoImplicit false

variable [P : Prims] {S : Type}

/-- The fields that direct messaging does not write. -/
structure Surroundings where
  identity : LocalIdentity
  cfg : Tunables
  clock : Millis
  rate : RateLimiter
  scheduler : RelayScheduler
  reassembler : Reassembler
  rng : P.Rng
  entropy : ℕ → P.Entropy
  links : Std.ExtTreeMap LinkId LinkState
  ephKeys : Std.ExtTreeMap EphId Key32
  subscribed : Std.ExtTreeSet String
  nickname : String
  relaysFired : ℕ
  fpToEph : Std.ExtTreeMap Fingerprint EphId
  peerStaticDh : Std.ExtTreeMap Fingerprint Key32

def MeshNode.surroundings (s : MeshNode S) : Surroundings where
  identity := s.identity
  cfg := s.cfg
  clock := s.clock
  rate := s.rate
  scheduler := s.scheduler
  reassembler := s.reassembler
  rng := s.rng
  entropy := s.entropy
  links := s.links
  ephKeys := s.ephKeys
  subscribed := s.subscribed
  nickname := s.nickname
  relaysFired := s.relaysFired
  fpToEph := s.fpToEph
  peerStaticDh := s.peerStaticDh

/-- The packets have been observed, one after the other. -/
def SeenCache.marked (cfg : Tunables) (now : Millis) (c : SeenCache) (pkts : List Packet) : SeenCache :=
  pkts.foldl (fun c pkt => (c.observe cfg pkt.digest now).1) c

variable [Store S]

omit P in
/-- The store operations of direct messaging. -/
inductive DmWrite : S → S → Prop
  | put (s : S) (dm : StoredDm) : DmWrite s (Store.putDm s dm)
  | queue (s : S) (fp : Fingerprint) (b : Bytes) (now : Millis) : DmWrite s (Store.queueEnvelope s fp b now)
  | take (s : S) (fp : Fingerprint) : DmWrite s (Store.takeEnvelopes s fp).1

namespace MeshNode

structure DmOnly (s s' : MeshNode S) : Prop where
  same : s'.surroundings = s.surroundings
  store : Relation.ReflTransGen DmWrite s.store s'.store
  marks : ∃ os, s'.trace = s.trace ++ os ∧ s'.seen = s.seen.marked s.cfg s.clock (os.filterMap Obs.built) ∧
    Accounted os ∧ ∀ o ∈ os, o.Direct s.identity

namespace DmOnly

theorem refl (s : MeshNode S) : DmOnly s s :=
  ⟨rfl, .refl, [], (List.append_nil _).symm, rfl, accounted_quiet (by simp), by simp⟩

variable {s s₁ s₂ : MeshNode S}

theorem identity (h : DmOnly s s₁) : s₁.identity = s.identity := congrArg Surroundings.identity h.same
theorem cfg (h : DmOnly s s₁) : s₁.cfg = s.cfg := congrArg Surroundings.cfg h.same
theorem clock (h : DmOnly s s₁) : s₁.clock = s.clock := congrArg Surroundings.clock h.same
theorem rate (h : DmOnly s s₁) : s₁.rate = s.rate := congrArg Surroundings.rate h.same
theorem scheduler (h : DmOnly s s₁) : s₁.scheduler = s.scheduler := congrArg Surroundings.scheduler h.same
theorem links (h : DmOnly s s₁) : s₁.links = s.links := congrArg Surroundings.links h.same
theorem ephKeys (h : DmOnly s s₁) : s₁.ephKeys = s.ephKeys := congrArg Surroundings.ephKeys h.same
theorem fpToEph (h : DmOnly s s₁) : s₁.fpToEph = s.fpToEph := congrArg Surroundings.fpToEph h.same

theorem trans (h₁ : DmOnly s s₁) (h₂ : DmOnly s₁ s₂) : DmOnly s s₂ := by
  obtain ⟨os₁, htr₁, hseen₁, hsent₁, hdirect₁⟩ := h₁.marks
  obtain ⟨os₂, htr₂, hseen₂, hsent₂, hdirect₂⟩ := h₂.marks
  refine ⟨h₂.same.trans h₁.same, h₁.store.trans h₂.store, os₁ ++ os₂, ?_, ?_, hsent₁.append hsent₂, ?_⟩
  · rw [htr₂, htr₁, List.append_assoc]
  · rw [hseen₂, hseen₁, h₁.cfg, h₁.clock, List.filterMap_append]
    exact (List.foldl_append ..).symm
  · intro o ho
    rcases List.mem_append.mp ho with ho | ho
    · exact hdirect₁ o ho
    · rw [← h₁.identity]
      exact hdirect₂ o ho

/-- A step on the session tables alone. -/
theorem of_tables (same : s₁.surroundings = s.surroundings) (store : s₁.store = s.store) (trace : s₁.trace = s.trace)
    (seen : s₁.seen = s.seen) : DmOnly s s₁ :=
  ⟨same, store ▸ .refl, [], by rw [trace, List.append_nil], seen, accounted_quiet (by simp), by simp⟩

/-- A step that also writes to the store. -/
theorem of_write (same : s₁.surroundings = s.surroundings) (store : DmWrite s.store s₁.store) (trace : s₁.trace = s.trace)
    (seen : s₁.seen = s.seen) : DmOnly s s₁ :=
  ⟨same, .single store, [], by rw [trace, List.append_nil], seen, accounted_quiet (by simp), by simp⟩

theorem note (s : MeshNode S) {o : Obs} (quiet : o.outward = false) (direct : o.Direct s.identity) : DmOnly s (s.note o) := by
  have hbuilt : o.built = none := by cases o <;> first | rfl | cases quiet
  refine ⟨rfl, .refl, [o], rfl, ?_, accounted_inward (by simpa using quiet), by simpa using direct⟩
  rw [List.filterMap_cons_none hbuilt]
  rfl

theorem emitFor (s : MeshNode S) (fp : Fingerprint) {e : MeshEvent} (direct : (Obs.event e (s.sessionView fp)).Direct s.identity) :
    DmOnly s (s.emitFor fp e) :=
  ⟨rfl, .refl, [.event e (s.sessionView fp)], rfl, rfl, accounted_inward (by simp [Obs.outward]), by simpa using direct⟩

theorem emit (s : MeshNode S) {e : MeshEvent} (direct : (Obs.event e none).Direct s.identity) : DmOnly s (s.emit e) :=
  ⟨rfl, .refl, [.event e none], rfl, rfl, accounted_inward (by simp [Obs.outward]), by simpa using direct⟩

theorem foldl {β : Type} (body : MeshNode S → β → MeshNode S) (hbody : ∀ s b, DmOnly s (body s b)) (l : List β)
    (s : MeshNode S) : DmOnly s (l.foldl body s) := by
  induction l generalizing s with
  | nil => exact refl s
  | cons b l ih => exact (hbody s b).trans (ih (body s b))

end DmOnly

/-! ## The senders -/

theorem sendDirected_dmOnly (s : MeshNode S) (t : MsgType) (fp : Fingerprint) (payload : Bytes) :
    DmOnly s (s.sendDirected t fp payload) := by
  cases h : s.fpToEph[fp]? with
  | none =>
    rw [sendDirected_none h]
    exact .refl s
  | some eph =>
    rw [sendDirected_some h]
    refine ⟨rfl, .refl, _, rfl, ?_, accounted_flood s _ none, ?_⟩
    · rw [List.filterMap_cons_some (show Obs.built (.originate _) = some _ from rfl), filterMap_broadcastObs]
      rfl
    · intro o ho
      rcases List.mem_cons.mp ho with rfl | ho
      · rfl
      · exact direct_of_broadcastObs o ho

theorem encryptAndSendDm_dmOnly (s : MeshNode S) (fp : Fingerprint) (kind : UInt8) (body : Bytes) :
    DmOnly s (s.encryptAndSendDm fp kind body) := by
  unfold encryptAndSendDm
  cases s.noiseSessions[fp]? with
  | none => exact .refl s
  | some σ =>
    have hcall : DmOnly s (s.note (.encryptCall fp σ.view (kind :: body))) := .note s rfl trivial
    cases henc : σ.encrypt (kind :: body) with
    | error e => simpa only [henc] using hcall
    | ok r =>
      simp only [henc]
      refine hcall.trans (.trans ?_ (sendDirected_dmOnly _ _ _ _))
      refine .trans ?_ (.note _ rfl trivial)
      exact .of_tables rfl rfl rfl rfl

theorem sendControlDm_dmOnly (s : MeshNode S) (fp : Fingerprint) (kind : UInt8) : DmOnly s (s.sendControlDm fp kind) := by
  refine .trans ?_ (encryptAndSendDm_dmOnly _ _ _ _)
  exact .of_write rfl (.put s.store _) rfl rfl

theorem trySendVerifyNotice_dmOnly (s : MeshNode S) (fp : Fingerprint) : DmOnly s (s.trySendVerifyNotice fp) := by
  unfold trySendVerifyNotice
  split_ifs
  · refine .trans ?_ (sendControlDm_dmOnly _ _ _)
    exact .of_tables rfl rfl rfl rfl
  · exact .refl s

theorem decryptAndEmit_dmOnly (s : MeshNode S) (fp : Fingerprint) (ct : Bytes) : DmOnly s (s.decryptAndEmit fp ct) := by
  cases hheld : s.noiseSessions[fp]? with
  | none =>
    unfold decryptAndEmit
    rw [hheld]
    exact .refl s
  | some σ =>
    rcases hdec : σ.decrypt ct with ⟨σ', e | pt⟩
    · have herror : s.decryptAndEmit fp ct = { s with noiseSessions := s.noiseSessions.insert fp σ' } := by
        simp only [decryptAndEmit, hheld, hdec]
      rw [herror]
      exact .of_tables rfl rfl rfl rfl
    · rw [decryptAndEmit_ok hheld hdec]
      have hreceived : DmOnly s (s.received fp σ σ' (ofBe (ct.take 8)) pt) := 
        ⟨rfl, .single (.put s.store _), _, rfl, rfl, accounted_inward (by simp [Obs.outward]), by simp [Obs.Direct]⟩
      split_ifs
      · exact hreceived.trans (sendControlDm_dmOnly _ _ _)
      · exact hreceived

/-! ## Handshakes -/

theorem drainOutbound_dmOnly (s : MeshNode S) (fp : Fingerprint) : DmOnly s (s.drainOutbound fp) := by
  refine .trans ?_ (.foldl _ (fun t text => encryptAndSendDm_dmOnly t fp dmKindText (asBytes text)) _ _)
  exact .of_tables rfl rfl rfl rfl

theorem drainInbound_dmOnly (s : MeshNode S) (fp : Fingerprint) : DmOnly s (s.drainInbound fp) := by
  refine .trans ?_ (.foldl _ (fun t ct => decryptAndEmit_dmOnly t fp ct) _ _)
  exact .of_tables rfl rfl rfl rfl

theorem finishSession_dmOnly (s : MeshNode S) (fp : Fingerprint) : DmOnly s (s.finishSession fp) := by
  unfold finishSession
  split_ifs
  · refine .trans ?_ (.emit _ trivial)
    exact .of_tables rfl rfl rfl rfl
  · refine .trans (.trans (.trans ?_ (trySendVerifyNotice_dmOnly _ _)) (drainOutbound_dmOnly _ _)) (drainInbound_dmOnly _ _)
    refine .trans ?_ (.emitFor _ _ trivial)
    exact .of_tables rfl rfl rfl rfl

theorem beginHandshake_dmOnly (s : MeshNode S) (fp : Fingerprint) : DmOnly s (s.beginHandshake fp) := by
  unfold beginHandshake
  cases NoiseSession.newInitiator s.identity.dhPrivateBytes with
  | error e => exact .refl s
  | ok σ =>
    cases hw : σ.writeHandshake (s.entropy s.drawn) with
    | error e =>
      simp only [hw]
      exact .of_tables rfl rfl rfl rfl
    | ok r =>
      simp only [hw]
      refine .trans (.trans (.trans ?_ (.note _ rfl (o := .wrote fp true r.2) trivial)) (sendDirected_dmOnly _ _ _ _)) (.of_tables rfl rfl rfl rfl)
      exact .of_tables rfl rfl rfl rfl

theorem advanceHandshake_dmOnly (s : MeshNode S) (fp : Fingerprint) : DmOnly s (s.advanceHandshake fp) := by
  unfold advanceHandshake
  cases s.noiseSessions[fp]? with
  | none => exact .refl s
  | some σ =>
    simp only
    split_ifs
    · exact finishSession_dmOnly s fp
    · cases hw : σ.writeHandshake (s.entropy s.drawn) with
      | error e => exact .of_tables rfl rfl rfl rfl
      | ok r =>
        simp only
        have hout : DmOnly s ((({ s with drawn := s.drawn + 1, noiseSessions := s.noiseSessions.insert fp r.1 } :
            MeshNode S).note (.wrote fp r.1.initiator r.2)).sendDirected .noiseHandshake fp r.2) := by
          refine .trans (.trans ?_ (.note _ rfl (o := .wrote fp r.1.initiator r.2) trivial)) (sendDirected_dmOnly _ _ _ _)
          exact .of_tables rfl rfl rfl rfl
        split_ifs
        · exact hout.trans (finishSession_dmOnly _ _)
        · exact hout

theorem resyncGate_dmOnly (s : MeshNode S) (fp : Fingerprint) : DmOnly s (s.resyncGate fp).1 := by
  simp only [resyncGate]
  split_ifs <;> exact .of_tables rfl rfl rfl rfl

theorem glareGate_dmOnly (s : MeshNode S) (fp : Fingerprint) (payload : Bytes) : DmOnly s (s.glareGate fp payload).1 := by
  simp only [glareGate]
  cases s.noiseSessions[fp]? with
  | none => simpa using .refl s
  | some σ =>
    simp only
    split_ifs <;> exact .of_tables rfl rfl rfl rfl

theorem ensureResponder_dmOnly (s : MeshNode S) (fp : Fingerprint) : DmOnly s (s.ensureResponder fp).1 := by
  simp only [ensureResponder]
  cases NoiseSession.newResponder s.identity.dhPrivateBytes <;> split_ifs <;> exact .of_tables rfl rfl rfl rfl

theorem readAndAdvance_dmOnly (s : MeshNode S) (fp : Fingerprint) (payload : Bytes) :
    DmOnly s (s.readAndAdvance fp payload) := by
  unfold readAndAdvance
  cases s.noiseSessions[fp]? with
  | none => exact .refl s
  | some σ =>
    cases hread : σ.readHandshake payload with
    | error e =>
      simp only [hread]
      exact .of_tables rfl rfl rfl rfl
    | ok σ' =>
      simp only [hread]
      refine .trans ?_ (advanceHandshake_dmOnly _ _)
      exact .of_tables rfl rfl rfl rfl

theorem handleNoiseHandshake_dmOnly (s : MeshNode S) (pkt : Packet) : DmOnly s (s.handleNoiseHandshake pkt) := by
  unfold handleNoiseHandshake
  split_ifs
  · exact .refl s
  · cases s.ephToFp pkt.sender with
    | none => exact .refl s
    | some fp =>
      have h₁ := resyncGate_dmOnly s fp
      rcases hgate : s.resyncGate fp with ⟨s₁, go₁⟩
      rw [hgate] at h₁
      have h₂ := h₁.trans (glareGate_dmOnly s₁ fp pkt.payload)
      rcases hglare : s₁.glareGate fp pkt.payload with ⟨s₂, go₂⟩
      have h₃ := (hglare ▸ h₂).trans (ensureResponder_dmOnly s₂ fp)
      rcases hopen : s₂.ensureResponder fp with ⟨s₃, go₃⟩
      simp only [hgate, hglare, hopen] at h₂ h₃ ⊢
      split_ifs
      · exact h₁
      · exact h₂
      · exact h₃
      · exact h₃.trans (readAndAdvance_dmOnly s₃ fp pkt.payload)

theorem handleDirectMessage_dmOnly (s : MeshNode S) (pkt : Packet) : DmOnly s (s.handleDirectMessage pkt) := by
  unfold handleDirectMessage
  split_ifs
  · exact .refl s
  · cases s.ephToFp pkt.sender with
    | none => exact .refl s
    | some fp =>
      simp only
      by_cases hready : s.sessionReady fp = true
      · simpa [hready] using decryptAndEmit_dmOnly s fp pkt.payload
      · simp only [hready, Bool.not_false, if_true]
        -- held until the session is ready
        generalize s.pendingInboundDms.insert fp _ = inbound
        have hheld : DmOnly s { s with pendingInboundDms := inbound } := .of_tables rfl rfl rfl rfl
        split_ifs
        · exact hheld.trans (beginHandshake_dmOnly _ _)
        · exact hheld

theorem retryStalledHandshakes_dmOnly (s : MeshNode S) (now : Millis) : DmOnly s (s.retryStalledHandshakes now) := by
  refine .foldl _ (fun t fp => ?_) _ _
  refine .trans ?_ (beginHandshake_dmOnly _ _)
  exact .of_tables rfl rfl rfl rfl

/-! ## Commands -/

theorem sendDm_dmOnly (s : MeshNode S) (fp : Fingerprint) (text : String) : DmOnly s (s.sendDm fp text) := by
  let dm : StoredDm := { peer := fp, mine := true, timestampMs := s.clock, body := asBytes text }
  have hput : DmOnly s { s with store := Store.putDm s.store dm } := .of_write rfl (.put s.store dm) rfl rfl
  unfold sendDm
  simp only
  split_ifs
  · exact hput.trans (encryptAndSendDm_dmOnly _ _ _ _)
  · refine hput.trans ?_
    exact .of_write rfl (.queue _ _ _ _) rfl rfl
  · refine hput.trans (.trans ?_ (beginHandshake_dmOnly _ _))
    exact .of_tables rfl rfl rfl rfl
  · refine hput.trans ?_
    exact .of_tables rfl rfl rfl rfl

theorem startDmSession_dmOnly (s : MeshNode S) (fp : Fingerprint) : DmOnly s (s.startDmSession fp) := by
  unfold startDmSession
  split_ifs
  · exact .emitFor _ _ trivial
  · exact .refl s
  · exact beginHandshake_dmOnly s fp
  · exact .refl s

theorem deliverHeld_dmOnly (s : MeshNode S) (fp : Fingerprint) : DmOnly s (s.deliverHeld fp) := by
  unfold deliverHeld
  refine .trans ?_ (.foldl _ (fun t bytes => sendDm_dmOnly t fp (fromUtf8Lossy bytes)) _ _)
  exact .of_write rfl (.take s.store fp) rfl rfl

/-! ## The other handlers -/

omit [Store S] in
theorem dedupLinks_update (s : MeshNode S) :
    ∃ links os, s.dedupLinks = { s with links := links, trace := s.trace ++ os } ∧ os.filterMap Obs.built = [] := by
  have hfold : ∀ (l : List LinkId) (t : MeshNode S), l.foldl closeLink t =
      { t with links := l.foldl (fun m id => m.erase id) t.links, trace := t.trace ++ l.map .close } := by
    intro l
    induction l with
    | nil => simp
    | cons id l ih =>
      intro t
      rw [List.foldl_cons, ih]
      simp [closeLink, note]
  exact ⟨_, _, hfold _ _, by rw [List.filterMap_map, List.filterMap_eq_nil_iff]; exact fun _ _ => rfl⟩

omit [Store S] in
theorem noteLinkIdentity_update (s : MeshNode S) (link : LinkId) (eph : EphId) :
    ∃ links os, s.noteLinkIdentity link eph = { s with links := links, trace := s.trace ++ os } ∧
      os.filterMap Obs.built = [] := by
  unfold noteLinkIdentity
  cases s.links[link]? with
  | none => exact dedupLinks_update s
  | some l =>
    simp only
    split_ifs
    · exact dedupLinks_update _
    · exact dedupLinks_update s

omit [Store S] in
theorem tagged_update (s : MeshNode S) (link : LinkId) (pkt : Packet) :
    ∃ links os, s.tagged link pkt = { s with links := links, trace := s.trace ++ os } ∧ os.filterMap Obs.built = [] := by
  unfold tagged
  split_ifs
  · exact noteLinkIdentity_update s link pkt.sender
  · exact ⟨s.links, [], by simp, rfl⟩

omit [Store S] in
/-- Tagging a link changes nothing that a packet is let through by. -/
theorem tagged_accepts (s : MeshNode S) (link : LinkId) (pkt : Packet) : (s.tagged link pkt).accepts pkt = s.accepts pkt := by
  obtain ⟨links, os, heq, -⟩ := tagged_update s link pkt
  rw [heq]
  rfl

theorem handleSyncRequest_update (s : MeshNode S) (link : LinkId) (pkt : Packet) :
    ∃ os, s.handleSyncRequest link pkt = { s with trace := s.trace ++ os } ∧ os.filterMap Obs.built = [] := by
  have hone : ∀ (t : MeshNode S) (digest : Digest),
      ∃ os, t.resendStored link digest = { t with trace := t.trace ++ os } ∧ os.filterMap Obs.built = [] := by
    intro t digest
    unfold resendStored
    cases Store.messageByDigest t.store digest with
    | none => exact ⟨[], by simp, rfl⟩
    | some m =>
      simp only
      split_ifs
      · exact ⟨_, sendBytes_eq _ _ _ _ _, filterMap_sendObs _ _ _ _⟩
      · exact ⟨[], by simp, rfl⟩
  have hfold : ∀ (l : List Digest) (t : MeshNode S), ∃ os, l.foldl (fun t digest => t.resendStored link digest) t =
      { t with trace := t.trace ++ os } ∧ os.filterMap Obs.built = [] := by
    intro l
    induction l with
    | nil => exact fun t => ⟨[], by simp, rfl⟩
    | cons digest l ih =>
      intro t
      obtain ⟨os₁, heq₁, hos₁⟩ := hone t digest
      obtain ⟨os₂, heq₂, hos₂⟩ := ih (t.resendStored link digest)
      refine ⟨os₁ ++ os₂, ?_, by rw [List.filterMap_append, hos₁, hos₂]; rfl⟩
      rw [List.foldl_cons, heq₂, heq₁, List.append_assoc]
  unfold handleSyncRequest
  cases decodeSync pkt.payload with
  | none => exact ⟨[], by simp, rfl⟩
  | some remote => exact hfold _ s

/-- The message a channel packet is stored as. -/
def storedMessage (pkt : Packet) (channel text : String) : StoredMessage where
  digest := pkt.digest
  channel := channel
  sender := pkt.sender
  timestampMs := pkt.timestampMs.toNat
  body := asBytes text
  raw := pkt.encode

/-- A channel packet is dropped, or stored and shown to those who read the channel. -/
theorem handleChannel_update (s : MeshNode S) (pkt : Packet) :
    s.handleChannel pkt = s ∨ ∃ channel text verified, decodeChannel pkt.payload s.cfg = some (channel, text) ∧
      s.channelVerified pkt = some verified ∧
      s.handleChannel pkt =
        (let t := { s with store := Store.putChannelMessage s.store (storedMessage pkt channel text) }
        if s.subscribed.contains channel then
          t.emit (.messageReceived channel pkt.sender text pkt.timestampMs.toNat verified)
        else t) := by
  unfold handleChannel
  cases hdec : decodeChannel pkt.payload s.cfg with
  | none => exact .inl rfl
  | some named =>
    obtain ⟨channel, text⟩ := named
    cases hver : s.channelVerified pkt with
    | none => exact .inl rfl
    | some verified => exact .inr ⟨channel, text, verified, rfl, rfl, rfl⟩

/-- An accepted announce: the node before it links and its held messages are seen to. -/
def announced (s : MeshNode S) (pkt : Packet) (ed dh : Key32) (nick : String) : MeshNode S :=
  let s := s.note (.accept pkt)
  let fp : Fingerprint := P.sha256 ed.toList
  let prevDh := s.peerStaticDh[fp]?
  let s := { s with
    ephKeys := s.ephKeys.insert pkt.sender ed
    fpToEph := s.fpToEph.insert fp pkt.sender
    peerStaticDh := s.peerStaticDh.insert fp dh }
  ((s.noteKeyChange fp prevDh dh).recordPeer fp pkt).emit
    (.peerAppeared fp pkt.sender (if nick.isEmpty then none else some nick))

/-- An announce is dropped, or signed by the key it carries and accepted. -/
theorem handleAnnounce_cases (s : MeshNode S) (pkt : Packet) :
    s.handleAnnounce pkt = s ∨ ∃ ed dh nick vk, decodeAnnounce pkt.payload = some (ed, dh, nick) ∧
      P.vkFromBytes ed = some vk ∧ pkt.verifyWith vk = .ok () ∧
      s.handleAnnounce pkt = ((s.announced pkt ed dh nick).dedupLinks).deliverHeld (P.sha256 ed.toList) := by
  unfold handleAnnounce
  cases hdec : decodeAnnounce pkt.payload with
  | none => exact .inl rfl
  | some keys =>
    obtain ⟨ed, dh, nick⟩ := keys
    cases hvk : P.vkFromBytes ed with
    | none => exact .inl (by simp only [hvk])
    | some vk =>
      cases hver : pkt.verifyWith vk with
      | error e => exact .inl (by simp only [hvk, hver])
      | ok u => exact .inr ⟨ed, dh, nick, vk, rfl, hvk, hver, by simp only [hvk, hver]; rfl⟩

theorem noteKeyChange_dmOnly (s : MeshNode S) (fp : Fingerprint) (prev : Option Key32) (dh : Key32) :
    DmOnly s (s.noteKeyChange fp prev dh) := by
  unfold noteKeyChange
  cases prev with
  | none => exact .refl s
  | some prev =>
    simp only
    split_ifs
    · refine .trans ?_ (.emit _ trivial)
      exact .of_write rfl (.put s.store _) rfl rfl
    · exact .refl s

/-! ## Links -/

theorem linkUp_update (s : MeshNode S) (link : LinkId) (mtu : ℕ) :
    ∃ seen os, s.onTransportEvent (.linkUp link mtu) = { s with
      links := s.links.insert link { mtu, peerEph := none, peerFp := none }, seen := seen, trace := s.trace ++ os } := by
  unfold onTransportEvent
  simp only
  rw [announce_eq]
  obtain ⟨os, hsync, -⟩ := sendSyncRequests_update (flood { s with
    links := s.links.insert link { mtu, peerEph := none, peerFp := none } } (ownPacket { s with
    links := s.links.insert link { mtu, peerEph := none, peerFp := none } } .announce none (announcePayload { s with
    links := s.links.insert link { mtu, peerEph := none, peerFp := none } }))) link
  rw [hsync]
  exact ⟨_, _, by rw [flood, List.append_assoc]⟩

/-! ## Everything around the handlers

A call is a handler or a command with bookkeeping before and after it: links, dedup, limits, timers,
pending relays, and what is shown and sent. -/

structure Bookkept (s s' : MeshNode S) : Prop where
  eq : s' = { s with
    trace := s'.trace, seen := s'.seen, rate := s'.rate, scheduler := s'.scheduler, reassembler := s'.reassembler
    rng := s'.rng, links := s'.links, events := s'.events, relaysFired := s'.relaysFired }

omit [Store S] in
theorem Bookkept.trans {s₁ s₂ s₃ : MeshNode S} (h₁ : Bookkept s₁ s₂) (h₂ : Bookkept s₂ s₃) : Bookkept s₁ s₃ := by
  constructor
  rw [h₂.eq, h₁.eq]

omit [Store S] in
theorem tagged_bookkept (s : MeshNode S) (link : LinkId) (pkt : Packet) : Bookkept s (s.tagged link pkt) := by
  obtain ⟨links, os, heq, -⟩ := tagged_update s link pkt
  rw [heq]
  exact ⟨rfl⟩

omit [Store S] in
theorem maybeRelay_bookkept (s : MeshNode S) (link : LinkId) (pkt : Packet) : Bookkept s (s.maybeRelay link pkt) := by
  obtain ⟨rng, scheduler, heq⟩ := maybeRelay_update s link pkt
  rw [heq]
  exact ⟨rfl⟩

omit [Store S] in
theorem Bookkept.store {s s' : MeshNode S} (h : Bookkept s s') : s'.store = s.store := by
  rw [h.eq]

omit [Store S] in
theorem Bookkept.ephKeys {s s' : MeshNode S} (h : Bookkept s s') : s'.ephKeys = s.ephKeys := by
  rw [h.eq]

omit [Store S] in
theorem Bookkept.fpToEph {s s' : MeshNode S} (h : Bookkept s s') : s'.fpToEph = s.fpToEph := by
  rw [h.eq]

/-- A packet is dropped on the way to its handler, or handled between bookkeeping. -/
theorem onPacket_phases (s : MeshNode S) (link : LinkId) (pkt : Packet) :
    Bookkept s (s.onPacket link pkt) ∨ ∃ t, Bookkept s t ∧ Bookkept (t.dispatch link pkt) (s.onPacket link pkt) := by
  have htag := tagged_bookkept s link pkt
  have hobserved : Bookkept s ((s.tagged link pkt).observed pkt) := htag.trans ⟨rfl⟩
  have hcharged : Bookkept s (((s.tagged link pkt).observed pkt).charged pkt) := hobserved.trans ⟨rfl⟩
  rw [onPacket_phased]
  split_ifs
  · exact .inr ⟨_, hcharged, maybeRelay_bookkept _ link pkt⟩
  · exact .inl hcharged
  · exact .inl hobserved

theorem onTransportEvent_phases (s : MeshNode S) (ev : TransportEvent) :
    Bookkept s (s.onTransportEvent ev) ∨
      ∃ t link pkt, Bookkept s t ∧ Bookkept (t.dispatch link pkt) (s.onTransportEvent ev) := by
  cases ev with
  | linkUp link mtu =>
    obtain ⟨seen, os, heq⟩ := linkUp_update s link mtu
    rw [heq]
    exact .inl ⟨rfl⟩
  | linkDown link => exact .inl ⟨rfl⟩
  | mtuChanged link mtu =>
    unfold onTransportEvent
    simp only
    split <;> exact .inl ⟨rfl⟩
  | frameReceived link frame =>
    rw [onTransportEvent]
    obtain ⟨reassembler, heq | ⟨pkt, heq⟩⟩ := onFrame_cases s link frame
    · rw [heq]
      exact .inl ⟨rfl⟩
    · rw [heq]
      have hfed : Bookkept s { s with reassembler := reassembler } := ⟨rfl⟩
      rcases onPacket_phases { s with reassembler := reassembler } link pkt with h | ⟨t, h₁, h₂⟩
      · exact .inl (hfed.trans h)
      · exact .inr ⟨t, link, pkt, hfed.trans h₁, h₂⟩

omit [Store S] in
theorem swept_bookkept (s : MeshNode S) : Bookkept s s.swept := by
  obtain ⟨scheduler, fired, seen, reassembler, os, heq, -⟩ := swept_update s
  rw [heq]
  exact ⟨rfl⟩

/-- A channel message of our own is stored and flooded. -/
theorem sendChannelMessage_eq (s : MeshNode S) (channel text : String) :
    let pkt := s.ownPacket .channelMessage none (encodeChannel (normalize channel) text s.cfg)
    s.sendChannelMessage channel text = MeshNode.flood { s with
      subscribed := s.subscribed.insert (normalize channel)
      store := Store.putChannelMessage s.store
        { digest := pkt.digest, channel := normalize channel, sender := s.identity.ephId, timestampMs := s.clock,
          body := asBytes text, raw := pkt.encode } } pkt := by
  intro pkt
  rw [← flood_eq]
  rfl

/-! ## What a step adds -/

/-- The step adds only observations to the trace that meet `p`. -/
def Adds (p : LocalIdentity → Obs → Prop) (s s' : MeshNode S) : Prop :=
  s'.identity = s.identity ∧ ∃ os, s'.trace = s.trace ++ os ∧ ∀ o ∈ os, p s.identity o

section Adds
variable {p : LocalIdentity → Obs → Prop} {s s₁ s₂ : MeshNode S}

omit [Store S] in
theorem Adds.of_trace (identity : s₁.identity = s.identity) (trace : s₁.trace = s.trace) : Adds p s s₁ :=
  ⟨identity, [], by rw [trace, List.append_nil], by simp⟩

omit [Store S] in
theorem Adds.trans (h₁ : Adds p s s₁) (h₂ : Adds p s₁ s₂) : Adds p s s₂ := by
  obtain ⟨hid₁, os₁, htr₁, hp₁⟩ := h₁
  obtain ⟨hid₂, os₂, htr₂, hp₂⟩ := h₂
  rw [hid₁] at hp₂
  exact ⟨hid₂.trans hid₁, os₁ ++ os₂, by rw [htr₂, htr₁, List.append_assoc],
    fun o ho => (List.mem_append.mp ho).elim (hp₁ o) (hp₂ o)⟩

omit [Store S] in
theorem Adds.foldl {β : Type} (body : MeshNode S → β → MeshNode S) (hbody : ∀ t b, Adds p t (body t b)) (l : List β)
    (s : MeshNode S) : Adds p s (l.foldl body s) := by
  induction l generalizing s with
  | nil => exact .of_trace rfl rfl
  | cons b l ih => exact (hbody s b).trans (ih (body s b))

omit [Store S] in
theorem Adds.imp {q : LocalIdentity → Obs → Prop} (h : Adds p s s₁) (weaker : ∀ id o, p id o → q id o) : Adds q s s₁ := by
  obtain ⟨hid, os, htr, hp⟩ := h
  exact ⟨hid, os, htr, fun o ho => weaker _ o (hp o ho)⟩

omit [Store S] in
theorem Adds.note {o : Obs} (h : p s.identity o) : Adds p s (s.note o) := ⟨rfl, [o], rfl, by simpa using h⟩

omit [Store S] in
theorem Adds.emit {e : MeshEvent} (h : p s.identity (.event e none)) : Adds p s (s.emit e) :=
  ⟨rfl, [.event e none], rfl, by simpa using h⟩

theorem DmOnly.adds (h : DmOnly s s₁) (direct : ∀ id (o : Obs), o.Direct id → p id o) : Adds p s s₁ := by
  obtain ⟨os, htr, -, -, hos⟩ := h.marks
  exact ⟨h.identity, os, htr, fun o ho => direct _ o (hos o ho)⟩

omit [Store S] in
theorem flood_adds {pkt : Packet} (own : pkt.sender = s.identity.ephId) (direct : ∀ id (o : Obs), o.Direct id → p id o) :
    Adds p s (s.flood pkt) := by
  refine ⟨rfl, _, rfl, fun o ho => direct _ o ?_⟩
  rcases List.mem_cons.mp ho with rfl | ho
  · exact own
  · exact direct_of_broadcastObs o ho

omit [Store S] in
theorem sendBytes_adds (link : LinkId) (bytes : Bytes) (digest : Digest) (mtu : ℕ)
    (direct : ∀ id (o : Obs), o.Direct id → p id o) : Adds p s (s.sendBytes link bytes digest mtu) := by
  rw [sendBytes_eq]
  exact ⟨rfl, _, rfl, fun o ho => direct _ o (direct_of_sendObs o ho)⟩

theorem sendSyncRequests_adds (link : LinkId) (direct : ∀ id (o : Obs), o.Direct id → p id o) :
    Adds p s (s.sendSyncRequests link) := by
  refine .foldl _ (fun t channel => ?_) _ _
  exact .trans (.note (direct _ (.originate (t.syncPacket channel)) rfl)) (sendBytes_adds _ _ _ _ direct)

theorem handleSyncRequest_adds (link : LinkId) (pkt : Packet) (direct : ∀ id (o : Obs), o.Direct id → p id o) :
    Adds p s (s.handleSyncRequest link pkt) := by
  have hone : ∀ (t : MeshNode S) (digest : Digest), Adds p t (t.resendStored link digest) := by
    intro t digest
    unfold resendStored
    cases Store.messageByDigest t.store digest with
    | none => exact .of_trace rfl rfl
    | some m =>
      simp only
      split_ifs
      · exact sendBytes_adds _ _ _ _ direct
      · exact .of_trace rfl rfl
  unfold handleSyncRequest
  cases decodeSync pkt.payload with
  | none => exact .of_trace rfl rfl
  | some remote => exact .foldl _ hone _ _

omit [Store S] in
theorem swept_adds (s : MeshNode S) (direct : ∀ id (o : Obs), o.Direct id → p id o) : Adds p s s.swept := by
  rw [swept_eq]
  refine ⟨rfl, _, rfl, fun o ho => direct _ o ?_⟩
  obtain ⟨r, -, hr⟩ := List.mem_flatMap.mp ho
  exact direct_of_broadcastObs o hr

/-- The announce itself, before the links are looked at. -/
theorem announced_adds (s : MeshNode S) (pkt : Packet) (ed dh : Key32) (nick : String)
    (direct : ∀ id (o : Obs), o.Direct id → p id o) : Adds p s (s.announced pkt ed dh nick) := by
  have hrecord : ∀ (t : MeshNode S) (fp : Fingerprint), Adds p t (t.recordPeer fp pkt) := fun _ _ => .of_trace rfl rfl
  unfold announced
  simp only
  refine .trans (.trans (.trans ?_ ((noteKeyChange_dmOnly _ _ _ _).adds direct)) (hrecord _ _)) (.emit (direct _ _ trivial))
  exact .trans (.note (direct _ (.accept pkt) trivial)) (.of_trace rfl rfl)

/-- Commands and timers, and whatever else is not a frame, say only what direct messaging says. -/
theorem act_adds (s : MeshNode S) {a : Action} (still : ∀ link f, a ≠ .transport (.frameReceived link f))
    (direct : ∀ id (o : Obs), o.Direct id → p id o) : Adds p s (s.act a) := by
  cases a with
  | transport ev =>
    cases ev with
    | linkUp link mtu =>
      simp only [act, onTransportEvent]
      rw [announce_eq]
      refine .trans (.trans ?_ (flood_adds rfl direct)) (sendSyncRequests_adds _ direct)
      exact .of_trace rfl rfl
    | linkDown link => exact .trans (.of_trace rfl rfl) (.emit (direct _ _ trivial))
    | frameReceived link frame => exact absurd rfl (still link frame)
    | mtuChanged link mtu =>
      rw [act, onTransportEvent]
      split <;> exact .of_trace rfl rfl
  | tick => exact (swept_adds s direct).trans ((retryStalledHandshakes_dmOnly s.swept s.clock).adds direct)
  | takeEvents => exact .of_trace rfl rfl
  | joinChannel name => exact .of_trace rfl rfl
  | sendChannelMessage channel text =>
    rw [act, sendChannelMessage_eq]
    refine .trans ?_ (flood_adds rfl direct)
    exact .of_trace rfl rfl
  | announce =>
    rw [act, announce_eq]
    exact flood_adds rfl direct
  | sendDm fp text => exact (sendDm_dmOnly s fp text).adds direct
  | startDmSession fp => exact (startDmSession_dmOnly s fp).adds direct
  | verifyPeer fp =>
    refine .trans ?_ ((trySendVerifyNotice_dmOnly _ fp).adds direct)
    exact .of_trace rfl rfl
  | unverifyPeer fp =>
    rw [act, unverifyPeer]
    split <;> exact .of_trace rfl rfl
  | forgetPeer fp => exact .of_trace rfl rfl
  | setPetname fp name => exact .of_trace rfl rfl
  | panicWipe => exact .of_trace rfl rfl

omit [Store S] in
theorem dedupLinks_adds (s : MeshNode S) (close : ∀ id link, p id (.close link)) : Adds p s s.dedupLinks := by
  refine .trans (.of_trace rfl rfl) (.foldl closeLink (fun t id => ?_) s.resolveLinks.redundantLinks s.resolveLinks)
  exact ⟨rfl, [.close id], rfl, by simpa using close _ id⟩

omit [Store S] in
theorem tagged_adds (s : MeshNode S) (link : LinkId) (pkt : Packet) (close : ∀ id link, p id (.close link)) :
    Adds p s (s.tagged link pkt) := by
  unfold tagged noteLinkIdentity
  split_ifs
  · cases s.links[link]? with
    | none => exact dedupLinks_adds s close
    | some l =>
      simp only
      split_ifs
      · exact .trans (.of_trace rfl rfl) (dedupLinks_adds _ close)
      · exact dedupLinks_adds s close
  · exact .of_trace rfl rfl

theorem handleAnnounce_adds (s : MeshNode S) (pkt : Packet) (close : ∀ id link, p id (.close link))
    (direct : ∀ id (o : Obs), o.Direct id → p id o) : Adds p s (s.handleAnnounce pkt) := by
  rcases handleAnnounce_cases s pkt with heq | ⟨ed, dh, nick, vk, -, -, -, heq⟩
  · exact .of_trace (by rw [heq]) (by rw [heq])
  · rw [heq]
    exact .trans (.trans (announced_adds s pkt ed dh nick direct) (dedupLinks_adds _ close))
      ((deliverHeld_dmOnly _ _).adds direct)

theorem handleChannel_adds (s : MeshNode S) (pkt : Packet) (told : ∀ id e, p id (.event e none)) :
    Adds p s (s.handleChannel pkt) := by
  rcases handleChannel_update s pkt with hdrop | ⟨channel, text, verified, -, -, hput⟩
  · exact .of_trace (by rw [hdrop]) (by rw [hdrop])
  · rw [hput]
    simp only
    split_ifs
    · exact .trans (.of_trace rfl rfl) (.emit (told _ _))
    · exact .of_trace rfl rfl

theorem dispatch_adds (s : MeshNode S) (link : LinkId) (pkt : Packet) (close : ∀ id l, p id (.close l))
    (direct : ∀ id (o : Obs), o.Direct id → p id o) (told : ∀ id e, p id (.event e none)) :
    Adds p s (s.dispatch link pkt) := by
  unfold dispatch
  split
  · exact handleAnnounce_adds s pkt close direct
  · exact handleChannel_adds s pkt told
  · exact handleSyncRequest_adds link pkt direct
  · exact (handleNoiseHandshake_dmOnly s pkt).adds direct
  · exact (handleDirectMessage_dmOnly s pkt).adds direct
  · exact .of_trace rfl rfl

omit [Store S] in
theorem maybeRelay_adds (s : MeshNode S) (link : LinkId) (pkt : Packet) : Adds p s (s.maybeRelay link pkt) := by
  obtain ⟨rng, scheduler, heq⟩ := maybeRelay_update s link pkt
  exact .of_trace (by rw [heq]) (by rw [heq])

theorem onPacket_adds (s : MeshNode S) (link : LinkId) (pkt : Packet) (close : ∀ id l, p id (.close l))
    (direct : ∀ id (o : Obs), o.Direct id → p id o) (told : ∀ id e, p id (.event e none)) :
    Adds p s (s.onPacket link pkt) := by
  have htag : Adds p s (s.tagged link pkt) := tagged_adds s link pkt close
  have hcharged : Adds p s (((s.tagged link pkt).observed pkt).charged pkt) := htag.trans (.of_trace rfl rfl)
  rw [onPacket_phased]
  split_ifs
  · exact (hcharged.trans (dispatch_adds _ link pkt close direct told)).trans (maybeRelay_adds _ link pkt)
  · exact hcharged
  · exact htag.trans (.of_trace rfl rfl)

/-- What any call says: what direct messaging says, links it closes, and what it tells the UI. -/
theorem exec_adds (s : MeshNode S) (c : Call) (close : ∀ id l, p id (.close l))
    (direct : ∀ id (o : Obs), o.Direct id → p id o) (told : ∀ id e, p id (.event e none)) : Adds p s (exec s c) := by
  have hstart : Adds p s (s.at_ c.now) := .of_trace rfl rfl
  by_cases hframe : ∃ link f, c.action = .transport (.frameReceived link f)
  · obtain ⟨link, f, haction⟩ := hframe
    have hexec : exec s c = (s.at_ c.now).onFrame link f := by
      rw [exec, haction]
      rfl
    rw [hexec, onFrame_eq]
    cases (s.at_ c.now).assembled f with
    | none => exact hstart.trans (.of_trace rfl rfl)
    | some pkt => exact hstart.trans (.trans (.of_trace rfl rfl) (onPacket_adds _ link pkt close direct told))
  · exact hstart.trans (act_adds _ (fun link f h => hframe ⟨link, f, h⟩) direct)

/-! ## Sending says nothing to the UI -/

omit P in
/-- Anything but an event. -/
def Wordless (_ : LocalIdentity) : Obs → Prop
  | .event _ _ => False
  | _ => True

omit [Store S] in
theorem sendDirected_wordless (s : MeshNode S) (t : MsgType) (fp : Fingerprint) (payload : Bytes) :
    Adds Wordless s (s.sendDirected t fp payload) := by
  cases h : s.fpToEph[fp]? with
  | none =>
    rw [sendDirected_none h]
    exact .of_trace rfl rfl
  | some eph =>
    rw [sendDirected_some h]
    refine ⟨rfl, _, rfl, fun o ho => ?_⟩
    rcases List.mem_cons.mp ho with rfl | ho
    · trivial
    · obtain ⟨link, f, rfl⟩ := broadcastObs_sends _ _ _ o ho
      trivial

omit [Store S] in
theorem encryptAndSendDm_wordless (s : MeshNode S) (fp : Fingerprint) (kind : UInt8) (body : Bytes) :
    Adds Wordless s (s.encryptAndSendDm fp kind body) := by
  unfold encryptAndSendDm
  cases s.noiseSessions[fp]? with
  | none => exact .of_trace rfl rfl
  | some σ =>
    have hcall : Adds Wordless s (s.note (.encryptCall fp σ.view (kind :: body))) := .note trivial
    cases henc : σ.encrypt (kind :: body) with
    | error e => simpa only [henc] using hcall
    | ok r =>
      simp only [henc]
      refine hcall.trans (.trans ?_ (sendDirected_wordless _ _ _ _))
      refine .trans ?_ (.note trivial)
      exact .of_trace rfl rfl

theorem sendControlDm_wordless (s : MeshNode S) (fp : Fingerprint) (kind : UInt8) : Adds Wordless s (s.sendControlDm fp kind) :=
  .trans (.of_trace rfl rfl) (encryptAndSendDm_wordless _ _ _ _)

omit [Store S] in
theorem beginHandshake_wordless (s : MeshNode S) (fp : Fingerprint) : Adds Wordless s (s.beginHandshake fp) := by
  unfold beginHandshake
  cases NoiseSession.newInitiator s.identity.dhPrivateBytes with
  | error e => exact .of_trace rfl rfl
  | ok σ =>
    simp only
    cases σ.writeHandshake (s.entropy s.drawn) with
    | error e => exact .of_trace rfl rfl
    | ok r =>
      simp only
      refine .trans ?_ (.of_trace rfl rfl)
      refine .trans ?_ (sendDirected_wordless _ _ _ _)
      exact .trans (.of_trace rfl rfl) (.note trivial)

theorem sendDm_wordless (s : MeshNode S) (fp : Fingerprint) (text : String) : Adds Wordless s (s.sendDm fp text) := by
  unfold sendDm
  simp only
  split_ifs
  · exact .trans (.of_trace rfl rfl) (encryptAndSendDm_wordless _ _ _ _)
  · exact .of_trace rfl rfl
  · exact .trans (.of_trace rfl rfl) (beginHandshake_wordless _ _)
  · exact .of_trace rfl rfl

theorem deliverHeld_wordless (s : MeshNode S) (fp : Fingerprint) : Adds Wordless s (s.deliverHeld fp) := by
  unfold deliverHeld
  exact .trans (.of_trace rfl rfl) (.foldl _ (fun t bytes => sendDm_wordless t fp (fromUtf8Lossy bytes)) _ _)

end Adds

/-! ## What only frames and timers move -/

end MeshNode

/-- The calls that frames and timers make. -/
def Action.moves : Action → Prop
  | .transport (.frameReceived _ _) | .tick => True
  | _ => False

structure Flow where
  cfg : Tunables
  rate : RateLimiter
  scheduler : RelayScheduler
  reassembler : Reassembler

namespace MeshNode

def flow (s : MeshNode S) : Flow where
  cfg := s.cfg
  rate := s.rate
  scheduler := s.scheduler
  reassembler := s.reassembler

theorem DmOnly.flow {s s' : MeshNode S} (h : DmOnly s s') : s'.flow = s.flow :=
  congrArg (fun t : Surroundings => Flow.mk t.cfg t.rate t.scheduler t.reassembler) h.same

theorem handleAnnounce_flow (s : MeshNode S) (pkt : Packet) : (s.handleAnnounce pkt).flow = s.flow := by
  rcases handleAnnounce_cases s pkt with heq | ⟨ed, dh, nick, vk, -, -, -, heq⟩
  · rw [heq]
  · obtain ⟨links, os, hdedup, -⟩ := dedupLinks_update (s.announced pkt ed dh nick)
    rw [heq, (deliverHeld_dmOnly _ _).flow, hdedup]
    exact (noteKeyChange_dmOnly _ _ _ _).flow

theorem dispatch_flow (s : MeshNode S) (link : LinkId) (pkt : Packet) : (s.dispatch link pkt).flow = s.flow := by
  unfold dispatch
  split
  · exact handleAnnounce_flow s pkt
  · rcases handleChannel_update s pkt with heq | ⟨channel, text, verified, -, -, heq⟩
    · rw [heq]
    · rw [heq]
      simp only
      split_ifs <;> rfl
  · obtain ⟨os, heq, -⟩ := handleSyncRequest_update s link pkt
    rw [heq]
    rfl
  · exact (handleNoiseHandshake_dmOnly s pkt).flow
  · exact (handleDirectMessage_dmOnly s pkt).flow
  · rfl

theorem act_flow (s : MeshNode S) {a : Action} (still : ¬ a.moves) : (s.act a).flow = s.flow := by
  cases a with
  | transport ev =>
    cases ev with
    | linkUp link mtu =>
      obtain ⟨seen, os, heq⟩ := linkUp_update s link mtu
      rw [act, heq]
      rfl
    | linkDown link => rfl
    | frameReceived link frame => exact absurd trivial still
    | mtuChanged link mtu =>
      rw [act, onTransportEvent]
      split <;> rfl
  | tick => exact absurd trivial still
  | takeEvents => rfl
  | joinChannel name => rfl
  | sendChannelMessage channel text =>
    rw [act, sendChannelMessage_eq]
    rfl
  | announce =>
    rw [act, announce_eq]
    rfl
  | sendDm fp text => exact (sendDm_dmOnly s fp text).flow
  | startDmSession fp => exact (startDmSession_dmOnly s fp).flow
  | verifyPeer fp => exact (trySendVerifyNotice_dmOnly _ fp).flow
  | unverifyPeer fp =>
    rw [act, unverifyPeer]
    split <;> rfl
  | forgetPeer fp => rfl
  | setPetname fp name => rfl
  | panicWipe => rfl

end MeshNode
end CockroachChat
