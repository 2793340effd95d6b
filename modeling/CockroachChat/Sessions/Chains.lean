import CockroachChat.Sessions.Handshakes

/-! # Session steps as chains of moves -/
namespace CockroachChat
set_option autoImplicit false

variable [P : Prims] {S : Type}

theorem Obs.filterMap_sentText {id : LocalIdentity} {os : List Obs} (h : ∀ o ∈ os, o.Neutral id) :
    os.filterMap Obs.sentText = [] := by
  rw [List.filterMap_eq_nil_iff]
  exact fun o ho => (h o ho).sentText

namespace MeshNode

theorem sessionReady_iff {s : MeshNode S} {fp : Fingerprint} :
    s.sessionReady fp = true ↔ ∃ σ, s.noiseSessions[fp]? = some σ ∧ σ.isReady = true := by
  unfold sessionReady
  cases s.noiseSessions[fp]? <;> simp

theorem sessionReady_insert {s s' : MeshNode S} {fp : Fingerprint} {σ : NoiseSession}
    (sessions : s'.noiseSessions = s.noiseSessions.insert fp σ) (fp' : Fingerprint) :
    s'.sessionReady fp' = if fp' = fp then σ.isReady else s.sessionReady fp' := by
  unfold sessionReady
  rw [sessions]
  split_ifs with h <;> grind

/-- Putting a ready session in place of a ready one leaves the node settled. -/
theorem settled_of_renew {s s' : MeshNode S} {fp : Fingerprint} {σ : NoiseSession} (ready : s.sessionReady fp = true)
    (sessions : s'.noiseSessions = s.noiseSessions.insert fp σ)
    (attempts : s'.handshakeAttempts = s.handshakeAttempts) (h : s.Settled) : s'.Settled := by
  intro fp' hr
  rw [attempts]
  rw [sessionReady_insert sessions] at hr
  split_ifs at hr with heq
  · exact h fp' (heq ▸ ready)
  · exact h fp' hr

variable [Store S]

/-! ## Steps that leave sessions and texts alone -/

structure Untouched (s s' : MeshNode S) : Prop where
  identity : s'.identity = s.identity
  sessions : s'.noiseSessions = s.noiseSessions
  peers : s'.peerStaticDh = s.peerStaticDh
  attempts : s'.handshakeAttempts = s.handshakeAttempts
  pending : s'.pendingDms = s.pendingDms
  held : ∀ [EnvelopeStore S], EnvelopeStore.envelopes s'.store = EnvelopeStore.envelopes s.store
  trace : ∃ os, s'.trace = s.trace ++ os ∧ ∀ o ∈ os, o.Neutral s.identity

theorem Untouched.refl (s : MeshNode S) : Untouched s s :=
  ⟨rfl, rfl, rfl, rfl, rfl, rfl, [], by simp, by simp⟩

theorem Untouched.trans {s₁ s₂ s₃ : MeshNode S} (h₁ : Untouched s₁ s₂) (h₂ : Untouched s₂ s₃) : Untouched s₁ s₃ := by
  obtain ⟨os₁, htr₁, hos₁⟩ := h₁.trace
  obtain ⟨os₂, htr₂, hos₂⟩ := h₂.trace
  refine ⟨h₂.identity.trans h₁.identity, h₂.sessions.trans h₁.sessions, h₂.peers.trans h₁.peers,
    h₂.attempts.trans h₁.attempts, h₂.pending.trans h₁.pending, h₂.held.trans h₁.held, os₁ ++ os₂, ?_, ?_⟩
  · rw [htr₂, htr₁, List.append_assoc]
  · intro o ho
    rcases List.mem_append.mp ho with ho | ho
    · exact hos₁ o ho
    · exact h₁.identity ▸ hos₂ o ho

theorem Untouched.foldl {β : Type} (body : MeshNode S → β → MeshNode S) (hbody : ∀ s b, Untouched s (body s b))
    (l : List β) (s : MeshNode S) : Untouched s (l.foldl body s) := by
  induction l generalizing s with
  | nil => exact .refl s
  | cons b l ih => exact (hbody s b).trans (ih (body s b))

/-- Only the trace grows, by quiet observations. -/
theorem Untouched.of_trace {s s' : MeshNode S} {l : List Obs} (identity : s'.identity = s.identity)
    (sessions : s'.noiseSessions = s.noiseSessions) (peers : s'.peerStaticDh = s.peerStaticDh)
    (attempts : s'.handshakeAttempts = s.handshakeAttempts) (pending : s'.pendingDms = s.pendingDms)
    (held : ∀ [EnvelopeStore S], EnvelopeStore.envelopes s'.store = EnvelopeStore.envelopes s.store) (trace : s'.trace = s.trace ++ l)
    (quiet : ∀ o ∈ l, o.Neutral s.identity) : Untouched s s' :=
  ⟨identity, sessions, peers, attempts, pending, held, l, trace, quiet⟩

/-- Nothing the moves speak about changes. -/
theorem Untouched.of_eq {s s' : MeshNode S} (identity : s'.identity = s.identity)
    (sessions : s'.noiseSessions = s.noiseSessions) (peers : s'.peerStaticDh = s.peerStaticDh)
    (attempts : s'.handshakeAttempts = s.handshakeAttempts) (pending : s'.pendingDms = s.pendingDms)
    (held : ∀ [EnvelopeStore S], EnvelopeStore.envelopes s'.store = EnvelopeStore.envelopes s.store) (trace : s'.trace = s.trace) :
    Untouched s s' :=
  ⟨identity, sessions, peers, attempts, pending, held, [], by simp [trace], by simp⟩

theorem Untouched.load [EnvelopeStore S] {s s' : MeshNode S} (h : Untouched s s') (x : Fingerprint × String) : s'.load x = s.load x := by
  obtain ⟨os, htr, hos⟩ := h.trace
  simp only [MeshNode.load, htr, h.pending, h.held, List.filterMap_append, Obs.filterMap_sentText hos, List.append_nil]

theorem Untouched.sessionReady {s s' : MeshNode S} (h : Untouched s s') (fp : Fingerprint) :
    s'.sessionReady fp = s.sessionReady fp := by
  simp only [MeshNode.sessionReady, h.sessions]

theorem Untouched.settled {s s' : MeshNode S} (h : Untouched s s') (hs : s.Settled) : s'.Settled := by
  intro fp hready
  rw [h.attempts]
  exact hs fp (h.sessionReady fp ▸ hready)

theorem Untouched.moves {s s' : MeshNode S} (h : Untouched s s') (hand : Hand) : Moves (s, hand) (s', hand) := by
  obtain ⟨os, htr, hos⟩ := h.trace
  refine .single ⟨⟨h.identity, h.settled, fun x => ?_⟩, .neutral os htr hos ?_ ?_⟩
  · rw [h.load]
  · rw [h.sessions]
    exact .refl _
  · rw [h.peers]
    exact .refl _

/-- A move on fields that the moves do not speak about. -/
theorem same_moves {s s' : MeshNode S} (hand : Hand) (identity : s'.identity = s.identity)
    (sessions : s'.noiseSessions = s.noiseSessions) (peers : s'.peerStaticDh = s.peerStaticDh)
    (attempts : s'.handshakeAttempts = s.handshakeAttempts) (pending : s'.pendingDms = s.pendingDms)
    (held : ∀ [EnvelopeStore S], EnvelopeStore.envelopes s'.store = EnvelopeStore.envelopes s.store) (trace : s'.trace = s.trace) :
    Moves (s, hand) (s', hand) :=
  (Untouched.of_eq identity sessions peers attempts pending held trace).moves hand

/-- A move that only forgets: sessions, keys, retry entries or texts. -/
theorem forget_moves {s s' : MeshNode S} (os : List Obs) (hand : Hand) (identity : s'.identity = s.identity)
    (trace : s'.trace = s.trace ++ os) (quiet : ∀ o ∈ os, o.Neutral s.identity)
    (sessions : Part s'.noiseSessions s.noiseSessions) (peers : Part s'.peerStaticDh s.peerStaticDh)
    (settled : s.Settled → s'.Settled)
    (pending : ∀ fp : Fingerprint, (s'.pendingDms[fp]?.getD []).Sublist (s.pendingDms[fp]?.getD []))
    (held : ∀ [EnvelopeStore S] (fp : Fingerprint), (EnvelopeStore.envelopes s'.store fp).Sublist (EnvelopeStore.envelopes s.store fp)) :
    Moves (s, hand) (s', hand) := by
  refine .single ⟨⟨identity, settled, fun x => ?_⟩, .neutral os trace quiet sessions peers⟩
  simp only [MeshNode.load, trace, List.filterMap_append, Obs.filterMap_sentText quiet, List.append_nil]
  have hp := (pending x.1).count_le x.2
  have he := ((held x.1).map fromUtf8Lossy).count_le x.2
  omega

/-! ## Sending -/

theorem sendBytes_untouched (s : MeshNode S) (link : LinkId) (bytes : Bytes) (digest : Digest) (mtu : ℕ) :
    Untouched s (s.sendBytes link bytes digest mtu) := by
  rw [sendBytes_eq]
  exact .of_trace rfl rfl rfl rfl rfl rfl rfl fun o ho => (sendObs_quiet _ _ _ _ _ o ho).neutral

theorem broadcast_untouched (s : MeshNode S) (pkt : Packet) (exclude : Option LinkId) :
    Untouched s (s.broadcast pkt exclude) := by
  rw [broadcast_eq]
  exact .of_trace rfl rfl rfl rfl rfl rfl rfl fun o ho => (broadcastObs_quiet s pkt exclude o ho).neutral

theorem flood_untouched (s : MeshNode S) {pkt : Packet} (h : s.identity.Signs pkt) : Untouched s (s.flood pkt) := by
  refine .of_trace rfl rfl rfl rfl rfl rfl rfl fun o ho => ?_
  rcases List.mem_cons.mp ho with rfl | ho
  · exact h
  · exact (broadcastObs_quiet s pkt none o ho).neutral

theorem announce_untouched (s : MeshNode S) : Untouched s s.announce := by
  rw [announce_eq]
  exact flood_untouched s fun _ => ⟨s.nickname, rfl⟩

theorem note_originate_untouched (s : MeshNode S) {pkt : Packet} (h : s.identity.Signs pkt) :
    Untouched s (s.note (.originate pkt)) :=
  .of_trace rfl rfl rfl rfl rfl rfl rfl (l := [.originate pkt]) (by simpa [Obs.Neutral] using h)

theorem sendSyncRequests_untouched (s : MeshNode S) (link : LinkId) : Untouched s (s.sendSyncRequests link) := by
  refine .foldl _ (fun s channel => ?_) _ s
  refine (note_originate_untouched s ?_).trans (sendBytes_untouched _ _ _ _ _)
  exact fun h => absurd (show MsgType.syncRequest.toU8 = MsgType.announce.toU8 from h) (by decide)

/-! ## Encrypting and decrypting -/

/-- The text that goes out with a plaintext of this kind. -/
def carried (fp : Fingerprint) (kind : UInt8) (body : Bytes) : Hand :=
  if kind = dmKindText then [(fp, fromUtf8Lossy body)] else []

omit P [Store S] in
theorem splitKind_framed {kind : UInt8} (hkind : kind ≤ dmKindVerifyAck) (body : Bytes) :
    splitKind (kind :: body) = (kind, body) := if_pos hkind

omit P [Store S] in
theorem filterMap_encrypted (fp : Fingerprint) (v : SessionView) (n : ℕ) {kind : UInt8} (hkind : kind ≤ dmKindVerifyAck)
    (body : Bytes) : [Obs.encrypted fp v n (kind :: body)].filterMap Obs.sentText = carried fp kind body := by
  have hone : (Obs.encrypted fp v n (kind :: body)).sentText =
      if kind = dmKindText then some (fp, fromUtf8Lossy body) else none := by
    simp only [Obs.sentText, Obs.sealed, Option.bind_some, Transfer.text, splitKind_framed hkind]
  rw [List.filterMap_cons, hone, carried]
  split_ifs <;> rfl

theorem encryptAndSendDm_moves (laws : SnowLaws P) (s : MeshNode S) (fp : Fingerprint) (kind : UInt8)
    (hkind : kind ≤ dmKindVerifyAck) (body : Bytes) (hand : Hand) (ready : s.sessionReady fp = true) :
    Moves (s, carried fp kind body ++ hand) (s.encryptAndSendDm fp kind body, hand) ∧
      (s.encryptAndSendDm fp kind body).sessionReady fp = true := by
  obtain ⟨σ, held, hσ⟩ := sessionReady_iff.mp ready
  cases henc : σ.encrypt (kind :: body) with
  | error e =>
    have heq : s.encryptAndSendDm fp kind body = s.note (.encryptCall fp σ.view (kind :: body)) := by
      simp only [encryptAndSendDm, held, henc]
    rw [heq]
    refine ⟨.single ⟨⟨rfl, fun h => h, fun x => ?_⟩, .encryptFail fp σ _ held hσ rfl rfl rfl⟩, ready⟩
    simp only [load, note, List.filterMap_append, List.count_append]
    have hnone : [Obs.encryptCall fp σ.view (kind :: body)].filterMap Obs.sentText = [] := rfl
    rw [hnone, List.count_nil]
    omega
  | ok r =>
    obtain ⟨σ', ct⟩ := r
    obtain ⟨-, ready', view, window⟩ := NoiseSession.encrypt_spec laws henc
    have heq : s.encryptAndSendDm fp kind body =
        ({ s with
            noiseSessions := s.noiseSessions.insert fp σ'
            trace := s.trace ++ [.encryptCall fp σ.view (kind :: body),
              .encrypted fp σ.view σ.sendNonce (kind :: body)] } : MeshNode S).sendDirected
          .directMessage fp ct := by
      simp [encryptAndSendDm, held, henc, note]
    obtain ⟨seen, os, hsend, hos⟩ := sendDirected_update
      ({ s with
          noiseSessions := s.noiseSessions.insert fp σ'
          trace := s.trace ++ [.encryptCall fp σ.view (kind :: body),
            .encrypted fp σ.view σ.sendNonce (kind :: body)] } : MeshNode S)
      (t := .directMessage) (by decide) fp ct
    rw [heq, hsend]
    have hneutral : ∀ o ∈ os, o.Neutral s.identity := fun o ho => (hos o ho).neutral
    refine ⟨.single ⟨⟨rfl, settled_of_renew ready rfl rfl, fun x => ?_⟩,
      .encrypt fp σ σ' σ.sendNonce (kind :: body) os held hσ ?_ hneutral ready' view window rfl rfl⟩, ?_⟩
    · have hsent : [Obs.encryptCall fp σ.view (kind :: body), .encrypted fp σ.view σ.sendNonce (kind :: body)].filterMap
          Obs.sentText = carried fp kind body := by
        rw [← filterMap_encrypted fp σ.view σ.sendNonce hkind body]
        rfl
      simp only [load, List.filterMap_append, Obs.filterMap_sentText hneutral, List.append_nil, hsent,
        List.count_append]
      omega
    · simp
    · rw [sessionReady_insert rfl, if_pos rfl, ready']

theorem sendControlDm_moves (laws : SnowLaws P) (s : MeshNode S) (fp : Fingerprint) (kind : UInt8)
    (hkind : kind ≠ dmKindText) (hframed : kind ≤ dmKindVerifyAck) (hand : Hand) (ready : s.sessionReady fp = true) :
    Moves (s, hand) (s.sendControlDm fp kind, hand) ∧ (s.sendControlDm fp kind).sessionReady fp = true := by
  let dm : StoredDm := { peer := fp, mine := true, timestampMs := s.clock, body := [kind] }
  have hput : Untouched s { s with store := Store.putDm s.store dm } :=
    .of_eq rfl rfl rfl rfl rfl (EnvelopeStore.put_dm s.store dm) rfl
  have henc := encryptAndSendDm_moves laws { s with store := Store.putDm s.store dm } fp kind hframed [] hand ready
  simp only [carried, if_neg hkind, List.nil_append] at henc
  exact ⟨(hput.moves hand).trans henc.1, henc.2⟩

theorem trySendVerifyNotice_moves (laws : SnowLaws P) (s : MeshNode S) (fp : Fingerprint) (hand : Hand) :
    Moves (s, hand) (s.trySendVerifyNotice fp, hand) ∧
      (s.sessionReady fp = true → (s.trySendVerifyNotice fp).sessionReady fp = true) := by
  unfold trySendVerifyNotice
  split_ifs with h
  · rw [Bool.and_eq_true] at h
    have hsend := sendControlDm_moves laws { s with noticePending := s.noticePending.erase fp } fp
      dmKindVerifyNotice (by decide) (by decide) hand h.1
    have hpend : Untouched s { s with noticePending := s.noticePending.erase fp } := .of_eq rfl rfl rfl rfl rfl rfl rfl
    exact ⟨(hpend.moves hand).trans hsend.1, fun _ => hsend.2⟩
  · exact ⟨.refl, id⟩

/-- The node with a decrypted plaintext stored and surfaced. -/
def received (s : MeshNode S) (fp : Fingerprint) (σ σ' : NoiseSession) (n : ℕ) (pt : Bytes) : MeshNode S :=
  let (kind, body) := splitKind pt
  let dm : StoredDm :=
    { peer := fp, mine := false, timestampMs := s.clock, body := if kind = dmKindText then body else [kind] }
  let e : MeshEvent := .dmReceived fp (s.fpToEph[fp]?.getD (Vector.replicate 8 0))
    (if kind = dmKindText then fromUtf8Lossy body else "") kind
  { s with
    noiseSessions := s.noiseSessions.insert fp σ'
    resyncPending := s.resyncPending.erase fp
    store := Store.putDm s.store dm
    events := s.events ++ [e]
    trace := s.trace ++ [.decrypted fp σ.view n pt, .event e (some σ'.view)] }

theorem decryptAndEmit_ok {s : MeshNode S} {fp : Fingerprint} {σ σ' : NoiseSession} {ct pt : Bytes}
    (held : s.noiseSessions[fp]? = some σ) (hdec : σ.decrypt ct = (σ', .ok pt)) :
    s.decryptAndEmit fp ct =
      if (splitKind pt).1 = dmKindVerifyNotice then
        (s.received fp σ σ' (ofBe (ct.take 8)) pt).sendControlDm fp dmKindVerifyAck
      else s.received fp σ σ' (ofBe (ct.take 8)) pt := by
  simp [decryptAndEmit, held, hdec, note, emitFor, sessionView, received]

theorem decryptAndEmit_error (laws : SnowLaws P) {s : MeshNode S} {fp : Fingerprint} {σ : NoiseSession} {ct : Bytes}
    {e : Error} (held : s.noiseSessions[fp]? = some σ) (hdec : (σ.decrypt ct).2 = .error e) :
    s.decryptAndEmit fp ct = s := by
  have hsame := NoiseSession.decrypt_error laws (Prod.ext rfl hdec : σ.decrypt ct = ((σ.decrypt ct).1, .error e))
  simp only [decryptAndEmit, held, hdec, hsame, Maps.insert_held held]

/-- Any ciphertext: only a session in use yields a plaintext. -/
theorem decryptAndEmit_moves (laws : SnowLaws P) (s : MeshNode S) (fp : Fingerprint) (ct : Bytes) (hand : Hand) :
    Moves (s, hand) (s.decryptAndEmit fp ct, hand) ∧
      (s.sessionReady fp = true → (s.decryptAndEmit fp ct).sessionReady fp = true) := by
  cases held : s.noiseSessions[fp]? with
  | none =>
    simp only [decryptAndEmit, held]
    exact ⟨.refl, id⟩
  | some σ =>
    rcases hdec : σ.decrypt ct with ⟨σ', result⟩
    cases result with
    | error e =>
      rw [decryptAndEmit_error laws held (congrArg Prod.snd hdec)]
      exact ⟨.refl, id⟩
    | ok pt =>
      obtain ⟨ready, ready', view, fresh, window⟩ := NoiseSession.decrypt_ok laws hdec
      have hr : s.sessionReady fp = true := sessionReady_iff.mpr ⟨σ, held, ready⟩
      let t := s.received fp σ σ' (ofBe (ct.take 8)) pt
      have hmove : Moves (s, hand) (t, hand) := by
        refine .single ⟨⟨rfl, settled_of_renew hr rfl rfl, fun x => ?_⟩,
          .decrypt fp σ σ' (ofBe (ct.take 8)) pt (s.fpToEph[fp]?.getD (Vector.replicate 8 0)) held ready rfl ready' view
            fresh window rfl rfl⟩
        have hnone : [Obs.decrypted fp σ.view (ofBe (ct.take 8)) pt, .event (.dmReceived fp
            (s.fpToEph[fp]?.getD (Vector.replicate 8 0))
            (if (splitKind pt).1 = dmKindText then fromUtf8Lossy (splitKind pt).2 else "") (splitKind pt).1)
            (some σ'.view)].filterMap Obs.sentText = [] := rfl
        simp only [load, t, received, EnvelopeStore.put_dm, List.filterMap_append, hnone, List.append_nil]
        exact le_refl _
      have hr' : t.sessionReady fp = true := by
        rw [sessionReady_insert (s := s) (σ := σ') rfl, if_pos rfl, ready']
      rw [decryptAndEmit_ok held hdec]
      split_ifs with hk
      · obtain ⟨hack, hstill⟩ := sendControlDm_moves laws t fp dmKindVerifyAck (by decide) (by decide) hand hr'
        exact ⟨hmove.trans hack, fun _ => hstill⟩
      · exact ⟨hmove, fun _ => hr'⟩

/-! ## Completing a handshake -/

theorem drainOutbound_moves (laws : SnowLaws P) (s : MeshNode S) (fp : Fingerprint) (hand : Hand)
    (ready : s.sessionReady fp = true) :
    Moves (s, hand) (s.drainOutbound fp, hand) ∧ (s.drainOutbound fp).sessionReady fp = true := by
  let texts := s.pendingDms[fp]?.getD []
  let t : MeshNode S := { s with pendingDms := s.pendingDms.erase fp }
  have hloop : ∀ (l : List String) (t : MeshNode S), t.sessionReady fp = true →
      Moves (t, l.map (fp, ·) ++ hand)
        (l.foldl (fun s text => s.encryptAndSendDm fp dmKindText (asBytes text)) t, hand) ∧
      (l.foldl (fun s text => s.encryptAndSendDm fp dmKindText (asBytes text)) t).sessionReady fp = true := by
    intro l
    induction l with
    | nil => exact fun t ht => ⟨.refl, ht⟩
    | cons text l ih =>
      intro t ht
      have hone := encryptAndSendDm_moves laws t fp dmKindText (by decide) (asBytes text) (l.map (fp, ·) ++ hand) ht
      simp only [carried, fromUtf8Lossy_asBytes] at hone
      obtain ⟨hrest, hend⟩ := ih _ hone.2
      exact ⟨hone.1.trans hrest, hend⟩
  have htake : Moves (s, hand) (t, texts.map (fp, ·) ++ hand) := by
    refine .single ⟨⟨rfl, fun h => h, fun x => ?_⟩, .neutral [] (by simp [t]) (by simp) (.refl _) (.refl _)⟩
    obtain ⟨fp', text⟩ := x
    by_cases h : fp' = fp
    · subst h
      have hcount : (texts.map (fun text => (fp', text))).count (fp', text) = texts.count text :=
        List.count_map_of_injective _ _ (Prod.mk_right_injective fp') _
      simp only [load, t, texts, List.count_append, hcount] at *
      grind
    · have hcount : (texts.map (fun text => (fp, text))).count (fp', text) = 0 := by
        rw [List.count_eq_zero]
        simp [Ne.symm h]
      simp only [load, t, List.count_append, hcount]
      grind
  obtain ⟨hsend, hend⟩ := hloop texts t ready
  exact ⟨htake.trans hsend, hend⟩

theorem drainInbound_moves (laws : SnowLaws P) (s : MeshNode S) (fp : Fingerprint) (hand : Hand) :
    Moves (s, hand) (s.drainInbound fp, hand) ∧
      (s.sessionReady fp = true → (s.drainInbound fp).sessionReady fp = true) := by
  have hloop : ∀ (l : List Bytes) (t : MeshNode S),
      Moves (t, hand) (l.foldl (fun s ct => s.decryptAndEmit fp ct) t, hand) ∧
      (t.sessionReady fp = true → (l.foldl (fun s ct => s.decryptAndEmit fp ct) t).sessionReady fp = true) := by
    intro l
    induction l with
    | nil => exact fun t => ⟨.refl, id⟩
    | cons ct l ih =>
      intro t
      obtain ⟨hone, hready⟩ := decryptAndEmit_moves laws t fp ct hand
      obtain ⟨hrest, hend⟩ := ih (t.decryptAndEmit fp ct)
      exact ⟨hone.trans hrest, fun h => hend (hready h)⟩
  have hclear : Untouched s { s with pendingInboundDms := s.pendingInboundDms.erase fp } :=
    .of_eq rfl rfl rfl rfl rfl rfl rfl
  obtain ⟨hall, hready⟩ := hloop (s.pendingInboundDms[fp]?.getD [])
    { s with pendingInboundDms := s.pendingInboundDms.erase fp }
  exact ⟨(hclear.moves hand).trans hall, hready⟩

/-- A ready session that is bound stays ready while both queues drain. -/
theorem finishSession_ready (laws : SnowLaws P) {s : MeshNode S} {fp : Fingerprint} (ready : s.sessionReady fp = true)
    (hbound : s.bound fp = true) : (s.finishSession fp).sessionReady fp = true := by
  unfold finishSession
  rw [hbound]
  refine (drainInbound_moves laws _ fp []).2 (drainOutbound_moves laws _ fp [] ?_).2
  exact (trySendVerifyNotice_moves laws _ fp []).2 ready

/-- `finish_session` on a session that has just become ready, seen from the state before the message
that completed it. -/
theorem finishSession_moves (laws : SnowLaws P) {s t : MeshNode S} {fp : Fingerprint} {σ σ' : NoiseSession}
    {ms : List Bytes} {os : List Obs} (hand : Hand) (held : s.noiseSessions[fp]? = some σ) (shape : σ.InFlight)
    (identity : t.identity = s.identity) (peers : t.peerStaticDh = s.peerStaticDh)
    (sessions : t.noiseSessions = s.noiseSessions.insert fp σ')
    (attempts : t.handshakeAttempts = s.handshakeAttempts) (pending : t.pendingDms = s.pendingDms)
    (store : t.store = s.store) (trace : t.trace = s.trace ++ os) (quiet : ∀ o ∈ os, o.Neutral s.identity)
    (ready : σ'.isReady = true) (transcript : σ'.transcript = σ.transcript ++ ms)
    (role : σ'.initiator = σ.initiator) (window : σ'.recvNonce = 0) :
    Moves (s, hand) (t.finishSession fp, hand) := by
  unfold finishSession
  split_ifs with hbound
  · -- rejected: the session goes, and with it the texts queued for it
    refine forget_moves (os ++ [.event (.dmSession fp false) none]) hand identity ?_ ?_ ?_ ?_ ?_ ?_ ?_
    · simp [rejectSession, emit, trace]
    · intro o ho
      rcases List.mem_append.mp ho with ho | ho
      · exact quiet o ho
      · rw [List.mem_singleton.mp ho]
        exact rfl
    · intro fp' v hv
      simp only [rejectSession, emit, sessions] at hv
      grind
    · simp only [rejectSession, emit, peers]
      exact .refl _
    · intro hs fp' hr
      simp only [rejectSession, emit, sessionReady, sessions, attempts] at hr ⊢
      have hs' := hs fp'
      simp only [sessionReady] at hs'
      grind
    · intro fp'
      simp only [rejectSession, emit, pending]
      by_cases h : fp' = fp <;> grind
    · intro _ fp'
      simp only [rejectSession, emit, store]
      exact .refl _
  · -- bound: the session is announced, and both queues drain
    let u : MeshNode S := { t with
      handshakeLastMs := t.handshakeLastMs.erase fp
      handshakeAttempts := t.handshakeAttempts.erase fp
      resyncPending := t.resyncPending.erase fp }.emitFor fp (.dmSession fp true)
    have hview : t.sessionView fp = some σ'.view := by
      simp [sessionView, sessions]
    obtain ⟨k, hknown, hremote⟩ : ∃ k, s.peerStaticDh[fp]? = some k ∧ σ'.remoteStatic = some k := by
      simp only [bound, sessions, peers, Bool.not_eq_true] at hbound
      have hget : (s.noiseSessions.insert fp σ')[fp]? = some σ' := by grind
      rw [hget, Option.bind_some] at hbound
      cases hr : σ'.remoteStatic <;> cases hk : s.peerStaticDh[fp]? <;> simp_all
    have hready : u.sessionReady fp = true := by
      rw [sessionReady_insert (s := s) (show u.noiseSessions = s.noiseSessions.insert fp σ' from sessions),
        if_pos rfl, ready]
    have hlog : u.trace = s.trace ++ os ++ [.event (.dmSession fp true) (some σ'.view)] := by
      rw [← hview, ← trace]
      rfl
    have hup : Moves (s, hand) (u, hand) := by
      refine .single ⟨⟨identity, fun hs fp' hr => ?_, fun x => ?_⟩,
        .complete fp σ σ' ms k os held shape ?_ quiet ready transcript role window hknown hremote sessions peers⟩
      · rw [sessionReady_insert (s := s) (show u.noiseSessions = s.noiseSessions.insert fp σ' from sessions)] at hr
        have hs' := hs fp'
        have hat : u.handshakeAttempts = s.handshakeAttempts.erase fp := by rw [← attempts]; rfl
        rw [hat]
        split_ifs at hr <;> grind
      · have htr : u.trace.filterMap Obs.sentText = s.trace.filterMap Obs.sentText := by
          rw [hlog, List.filterMap_append, List.filterMap_append, Obs.filterMap_sentText quiet, List.append_nil]
          exact List.append_nil _
        have hpd : u.pendingDms = s.pendingDms := pending
        have hst : u.store = s.store := store
        simp only [load, htr, hpd, hst, le_refl]
      · exact hlog
    obtain ⟨hnotice, hready₁⟩ := trySendVerifyNotice_moves laws u fp hand
    obtain ⟨hout, -⟩ := drainOutbound_moves laws (u.trySendVerifyNotice fp) fp hand (hready₁ hready)
    exact ((hup.trans hnotice).trans hout).trans (drainInbound_moves laws _ fp hand).1

/-! ## Driving a handshake -/

/-- A handshake message of a new session goes out. -/
theorem handshakeOut_moves {s t : MeshNode S} {fp : Fingerprint} {σ : NoiseSession} {m : Bytes} (hand : Hand)
    (shape : σ.InFlight) (own : σ.ownMsg = some m) (identity : t.identity = s.identity)
    (sessions : t.noiseSessions.insert fp σ = s.noiseSessions.insert fp σ) (peers : t.peerStaticDh = s.peerStaticDh)
    (attempts : ∀ fp', fp' ≠ fp → t.handshakeAttempts[fp']? = s.handshakeAttempts[fp']?)
    (pending : t.pendingDms = s.pendingDms) (store : t.store = s.store) (trace : t.trace = s.trace) :
    Moves (s, hand) (t.handshakeOut fp σ m, hand) := by
  obtain ⟨seen, os, heq, hos⟩ := handshakeOut_update t fp σ m
  have hquiet : ∀ o ∈ os, o.Neutral s.identity := fun o ho => identity ▸ (hos o ho).neutral
  rw [heq]
  refine .single ⟨⟨identity, fun hs fp' hr => ?_, fun x => ?_⟩,
    .start fp σ m os ?_ hquiet shape own sessions peers⟩
  · rw [sessionReady_insert (s := s) sessions] at hr
    split_ifs at hr with h
    · rw [shape.not_ready] at hr
      cases hr
    · rw [← hs fp' hr]
      exact attempts fp' h
  · have htr : (t.trace ++ .wrote fp σ.initiator m :: os).filterMap Obs.sentText =
        s.trace.filterMap Obs.sentText := by
      have hall : ∀ o ∈ Obs.wrote fp σ.initiator m :: os, o.Neutral s.identity :=
        List.forall_mem_cons.mpr ⟨trivial, hquiet⟩
      rw [trace, List.filterMap_append, Obs.filterMap_sentText hall, List.append_nil]
    simp only [load, htr, pending, store, le_refl]
  · simp only [trace]

omit [Store S] in
theorem FreshInitiator.own (laws : SnowLaws P) {s : MeshNode S} {σ : NoiseSession} {m : Bytes}
    (h : s.FreshInitiator σ m) : σ.ownMsg = some m := by
  obtain ⟨-, hrole, htr⟩ := h.spec laws
  simp [NoiseSession.ownMsg, hrole, htr]

theorem beginHandshake_moves (laws : SnowLaws P) (s : MeshNode S) (fp : Fingerprint) (hand : Hand) :
    Moves (s, hand) (s.beginHandshake fp, hand) := by
  obtain ⟨σ, m, hfresh, heq⟩ := beginHandshake_spec laws s fp
  rw [heq, begun]
  exact handshakeOut_moves hand (hfresh.spec laws).1 (hfresh.own laws) rfl rfl rfl
    (fun fp' h => by grind) rfl rfl rfl

theorem Handled.moves (laws : SnowLaws P) {s t : MeshNode S} {fp : Fingerprint} {payload : Bytes}
    (h : Handled s fp payload t) (hand : Hand) : Moves (s, hand) (t, hand) := by
  cases h with
  | counted ready tally => exact same_moves hand rfl rfl rfl rfl rfl rfl rfl
  | won σ held shape role len lower => exact .refl
  | refused base opens σ₀ e new read =>
    obtain ⟨tallies, rfl⟩ := opens.base_eq
    refine forget_moves [] hand rfl (by simp) (by simp) ?_ (.refl _) ?_ (fun _ => .refl _) (fun _ => .refl _)
    · exact fun fp' σ h => by grind
    · intro hs fp' hr
      have hs' := hs fp'
      simp only [sessionReady] at hr hs'
      grind
  | answered base opens σ₀ σ₁ σ m new read shape role transcript =>
    obtain ⟨tallies, rfl⟩ := opens.base_eq
    exact handshakeOut_moves hand shape (by simp [NoiseSession.ownMsg, role, transcript]) rfl (by simp) rfl
      (fun fp' h => by grind) rfl rfl rfl
  | lost σ e held shape other read =>
    refine forget_moves [] hand rfl (by simp) (by simp) (.erase _ _) (.refl _) ?_ (fun _ => .refl _)
      (fun _ => .refl _)
    intro hs fp' hr
    have hs' := hs fp'
    simp only [sessionReady] at hr hs'
    grind
  | finished σ σ₁ σ' ms drawn seen os held shape other read quiet ready transcript role window =>
    exact finishSession_moves laws hand held shape rfl rfl rfl rfl rfl rfl rfl quiet ready transcript role window

theorem handleNoiseHandshake_moves (laws : SnowLaws P) {s : MeshNode S} (shaped : s.Shaped) (pkt : Packet)
    (hand : Hand) : Moves (s, hand) (s.handleNoiseHandshake pkt, hand) := by
  by_cases recipient : pkt.recipient = some s.identity.ephId
  · cases sender : s.ephToFp pkt.sender with
    | none =>
      rw [handleNoiseHandshake_ignored (.inr sender)]
    | some fp =>
      rw [handleNoiseHandshake_eq recipient sender]
      exact (handleHandshake_cases laws shaped fp pkt.payload).moves laws hand
  · rw [handleNoiseHandshake_ignored (.inl recipient)]

theorem handleDirectMessage_moves (laws : SnowLaws P) (s : MeshNode S) (pkt : Packet) (hand : Hand) :
    Moves (s, hand) (s.handleDirectMessage pkt, hand) := by
  unfold handleDirectMessage
  split_ifs with recipient
  · exact .refl
  · cases s.ephToFp pkt.sender with
    | none => exact .refl
    | some fp =>
      simp only
      cases s.sessionReady fp with
      | true => exact (decryptAndEmit_moves laws s fp pkt.payload hand).1
      | false =>
        simp only [Bool.not_false, if_true]
        split_ifs with full held
        all_goals first
          | exact same_moves hand rfl rfl rfl rfl rfl rfl rfl
          | refine Relation.ReflTransGen.trans ?_ (beginHandshake_moves laws _ fp hand)
            exact same_moves hand rfl rfl rfl rfl rfl rfl rfl

theorem eraseSession_moves (s : MeshNode S) (fp : Fingerprint) (hand : Hand) :
    Moves (s, hand) ({ s with noiseSessions := s.noiseSessions.erase fp }, hand) := by
  refine forget_moves [] hand rfl (by simp) (by simp) (.erase _ _) (.refl _) ?_ (fun _ => .refl _)
    (fun _ => .refl _)
  intro hs fp' hr
  have hs' := hs fp'
  simp only [sessionReady] at hr hs'
  grind

theorem retryStalledHandshakes_moves (laws : SnowLaws P) (s : MeshNode S) (now : Millis) (hand : Hand) :
    Moves (s, hand) (s.retryStalledHandshakes now, hand) := by
  have hloop : ∀ (l : List Fingerprint) (t : MeshNode S),
      Moves (t, hand) (l.foldl
        (fun s fp => { s with noiseSessions := s.noiseSessions.erase fp }.beginHandshake fp) t, hand) := by
    intro l
    induction l with
    | nil => exact fun t => .refl
    | cons fp l ih =>
      exact fun t => ((eraseSession_moves t fp hand).trans (beginHandshake_moves laws _ fp hand)).trans (ih _)
  exact hloop _ s

/-! ## Direct message commands -/

theorem sendDm_moves (laws : SnowLaws P) (s : MeshNode S) (fp : Fingerprint) (text : String) (hand : Hand) :
    Moves (s, (fp, text) :: hand) (s.sendDm fp text, hand) := by
  let dm : StoredDm := { peer := fp, mine := true, timestampMs := s.clock, body := asBytes text }
  let t : MeshNode S := { s with store := Store.putDm s.store dm }
  have hput : Moves (s, (fp, text) :: hand) (t, (fp, text) :: hand) :=
    same_moves _ rfl rfl rfl rfl rfl (EnvelopeStore.put_dm s.store dm) rfl
  refine hput.trans ?_
  have heq : s.sendDm fp text =
      if t.sessionReady fp then t.encryptAndSendDm fp dmKindText (asBytes text)
      else if !t.fpToEph.contains fp then
        { t with store := Store.queueEnvelope t.store fp (asBytes text) t.clock }
      else
        let u : MeshNode S := { t with pendingDms := t.pendingDms.insert fp (t.pendingDms[fp]?.getD [] ++ [text]) }
        if !u.noiseSessions.contains fp then u.beginHandshake fp
        else
          { u with
            handshakeAttempts := u.handshakeAttempts.erase fp
            handshakeLastMs := u.handshakeLastMs.erase fp } := rfl
  rw [heq]
  split_ifs with ready routable
  · have henc := (encryptAndSendDm_moves laws t fp dmKindText (by decide) (asBytes text) hand ready).1
    simpa only [carried, if_true, fromUtf8Lossy_asBytes, List.singleton_append] using henc
  · -- held for an unreachable peer
    refine .single ⟨⟨rfl, fun h => h, fun x => ?_⟩, .neutral [] (by simp) (by simp) (.refl _) (.refl _)⟩
    have hq := ((EnvelopeStore.queue t.store fp (asBytes text) t.clock x.1).map fromUtf8Lossy).count_le x.2
    obtain ⟨fp', text'⟩ := x
    simp only [load, List.count_cons, beq_iff_eq, Prod.mk.injEq] at hq ⊢
    by_cases h : fp' = fp
    · subst h
      simp only [if_true, List.map_append, List.count_append, List.map_cons, List.map_nil, fromUtf8Lossy_asBytes,
        List.count_cons, List.count_nil, true_and, beq_iff_eq] at hq ⊢
      omega
    · simp only [if_neg h] at hq
      omega
  · -- queued until the handshake completes
    let u : MeshNode S := { t with pendingDms := t.pendingDms.insert fp (t.pendingDms[fp]?.getD [] ++ [text]) }
    have hqueue : Moves (t, (fp, text) :: hand) (u, hand) := by
      refine .single ⟨⟨rfl, fun h => h, fun x => ?_⟩, .neutral [] (by simp [u]) (by simp) (.refl _) (.refl _)⟩
      obtain ⟨fp', text'⟩ := x
      have hget : (t.pendingDms.insert fp (t.pendingDms[fp]?.getD [] ++ [text]))[fp']?.getD [] =
          if fp' = fp then t.pendingDms[fp']?.getD [] ++ [text] else t.pendingDms[fp']?.getD [] := by
        split_ifs <;> grind
      simp only [load, u, hget, List.count_cons, beq_iff_eq, Prod.mk.injEq]
      by_cases h : fp' = fp
      · simp only [h, if_true, List.count_append, List.count_cons, List.count_nil, true_and, beq_iff_eq]
        omega
      · simp only [if_neg h]
        omega
    refine hqueue.trans ?_
    simp only
    split_ifs with held
    · exact beginHandshake_moves laws u fp hand
    · refine forget_moves [] hand rfl (by simp [u]) (by simp) (.refl _) (.refl _) ?_ (fun _ => .refl _)
        (fun _ => .refl _)
      intro hs fp' hr
      have hs' := hs fp' hr
      grind

theorem startDmSession_moves (laws : SnowLaws P) (s : MeshNode S) (fp : Fingerprint) (hand : Hand) :
    Moves (s, hand) (s.startDmSession fp, hand) := by
  unfold startDmSession
  split_ifs with ready routable held
  · obtain ⟨σ, hσ, hr⟩ := sessionReady_iff.mp ready
    have hview : s.sessionView fp = some σ.view := by simp [sessionView, hσ]
    refine .single ⟨⟨rfl, fun h => h, fun x => ?_⟩, .surface fp σ hσ hr (by simp [emitFor, hview]) rfl rfl⟩
    have hnone : [Obs.event (.dmSession fp true) (s.sessionView fp)].filterMap Obs.sentText = [] := rfl
    simp [load, emitFor, hnone]
  · exact .refl
  · exact beginHandshake_moves laws s fp hand
  · exact .refl

/-- Erasing one peer's session state. -/
theorem dropPeerSessionState_moves (s : MeshNode S) (fp : Fingerprint) (hand : Hand) :
    Moves (s, hand) (s.dropPeerSessionState fp, hand) := by
  refine forget_moves [] hand rfl (by simp [dropPeerSessionState]) (by simp) (.erase _ _) (.refl _) ?_ ?_
    (fun _ => .refl _)
  · intro hs fp' hr
    have hs' := hs fp'
    simp only [sessionReady, dropPeerSessionState] at hr hs' ⊢
    grind
  · intro fp'
    simp only [dropPeerSessionState]
    by_cases h : fp' = fp <;> grind

end MeshNode
end CockroachChat
