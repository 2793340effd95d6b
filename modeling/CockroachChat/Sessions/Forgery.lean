import CockroachChat.Sessions.Retries

/-! # What an unverified directed packet can do

The handlers of directed packets never look at the signature, so what a packet with the sender field
of a known peer does to that peer's session depends on the node's state alone. -/
namespace CockroachChat
set_option autoImplicit false

namespace MeshNode
variable [P : Prims] {S : Type}

/-- Nothing of the session with `fp` has moved, no event was emitted, no packet was built. -/
structure Untampered (s r : MeshNode S) (fp : Fingerprint) : Prop where
  session : r.noiseSessions[fp]? = s.noiseSessions[fp]?
  pending : r.pendingDms[fp]? = s.pendingDms[fp]?
  inbound : r.pendingInboundDms[fp]? = s.pendingInboundDms[fp]?
  last : r.handshakeLastMs[fp]? = s.handshakeLastMs[fp]?
  attempts : r.handshakeAttempts[fp]? = s.handshakeAttempts[fp]?
  resync : r.resyncPending[fp]? = s.resyncPending[fp]?
  events : r.events = s.events
  own : ∃ os, r.trace = s.trace ++ os ∧ ∀ pkt, .originate pkt ∉ os

/-- Past dedup and the rate limiter, and for us. -/
def Dispatches (s : MeshNode S) (pkt : Packet) : Prop :=
  (s.seen.observe s.cfg pkt.digest s.clock).2.isNew = true ∧ (s.rate.allow s.cfg pkt.sender s.clock).2 = true ∧
    pkt.recipient = some s.identity.ephId

/-- A handshake message that changes nothing: we win the glare, or a new responder refuses it and the
retry table already reads as if it had just been created. -/
def IgnoresHandshake (s : MeshNode S) (fp : Fingerprint) (payload : Bytes) : Prop :=
  match s.noiseSessions[fp]? with
  | some σ => σ.isReady = false ∧ σ.initiator = true ∧ payload.length = xxMsg1Len ∧ compare s.fingerprint fp = .lt
  | none =>
      (∃ σ₀ e, NoiseSession.newResponder s.identity.dhPrivateBytes = .ok σ₀ ∧ σ₀.readHandshake payload = .error e) ∧
        s.handshakeLastMs[fp]? = some s.clock ∧ s.handshakeAttempts.contains fp = true

/-- A ciphertext that changes nothing: it does not decrypt, or the inbound buffer is full. -/
def IgnoresDm (s : MeshNode S) (fp : Fingerprint) (ciphertext : Bytes) : Prop :=
  match s.noiseSessions[fp]? with
  | some σ =>
      if σ.isReady then ∃ e, (σ.decrypt ciphertext).2 = .error e
      else 32 ≤ (s.pendingInboundDms[fp]?.getD []).length
  | none => False

theorem Untampered.refl (s : MeshNode S) (fp : Fingerprint) : s.Untampered s fp :=
  ⟨rfl, rfl, rfl, rfl, rfl, rfl, rfl, [], (List.append_nil _).symm, by simp⟩

variable [Store S]

theorem Handled.untampered_iff (laws : SnowLaws P) {s r : MeshNode S} {fp : Fingerprint} {payload : Bytes}
    (h : Handled s fp payload r) : s.Untampered r fp ↔ s.IgnoresHandshake fp payload := by
  cases h with
  | counted ready tally =>
    obtain ⟨σ, held, hσ⟩ := sessionReady_iff.mp ready
    refine iff_of_false (fun h => ?_) ?_
    · have hres := h.resync
      cases hk : s.resyncPending[fp]? <;> simp [hk] at hres
    · simp [IgnoresHandshake, held, hσ]
  | won σ held shape role len lower =>
    refine iff_of_true (.refl s fp) ?_
    unfold IgnoresHandshake
    rw [held]
    exact ⟨shape.not_ready, role, len, lower⟩
  | refused base opens σ₀ e new read =>
    cases opens with
    | absent none_held =>
      unfold IgnoresHandshake
      rw [none_held]
      constructor
      · intro h
        have hlast := h.last
        have hatt := h.attempts
        rw [Std.ExtTreeMap.getElem?_insert_self] at hlast
        refine ⟨⟨σ₀, e, new, read⟩, hlast.symm, ?_⟩
        rw [Std.ExtTreeMap.contains_eq_isSome_getElem?, ← hatt]
        cases s.handshakeAttempts[fp]? <;> grind
      · rintro ⟨-, hlast, hatt⟩
        refine ⟨by simp [none_held], rfl, rfl, by simp [hlast], ?_, rfl, rfl, [], (List.append_nil _).symm, by simp⟩
        grind
    | restart ready tally =>
      obtain ⟨σ, held, hσ⟩ := sessionReady_iff.mp ready
      refine iff_of_false (fun h => ?_) (by simp [IgnoresHandshake, held, hσ])
      have hsession := h.session
      simp [held] at hsession
    | yield σ held shape role len higher =>
      refine iff_of_false (fun h => ?_) (by simp [IgnoresHandshake, held, higher])
      have hsession := h.session
      simp [held] at hsession
  | answered base opens σ₀ σ₁ σ m new read shape role transcript =>
    have hnew : (handshakeOut { base with
        handshakeLastMs := base.handshakeLastMs.insert fp base.clock
        handshakeAttempts := base.handshakeAttempts.insertIfNew fp 0 } fp σ m).noiseSessions[fp]? = some σ := by
      obtain ⟨seen, os, hout, -⟩ := handshakeOut_update { base with
        handshakeLastMs := base.handshakeLastMs.insert fp base.clock
        handshakeAttempts := base.handshakeAttempts.insertIfNew fp 0 } fp σ m
      rw [hout]
      simp
    refine iff_of_false (fun h => ?_) (fun h => ?_)
    · have hsession := h.session
      rw [hnew] at hsession
      cases opens with
      | absent none_held => simp [none_held] at hsession
      | restart ready tally =>
        obtain ⟨σ', held, hσ'⟩ := sessionReady_iff.mp ready
        rw [held, Option.some.injEq] at hsession
        exact absurd (shape.not_ready.symm.trans (hsession ▸ hσ')) (by decide)
      | yield σ' held shape' role' len higher =>
        rw [held, Option.some.injEq] at hsession
        exact absurd (role.symm.trans (hsession ▸ role')) (by decide)
    · cases opens with
      | absent none_held =>
        unfold IgnoresHandshake at h
        rw [none_held] at h
        obtain ⟨⟨σ₂, e, hnew₂, hread₂⟩, -⟩ := h
        rw [new] at hnew₂
        cases hnew₂
        rw [read] at hread₂
        cases hread₂
      | restart ready tally =>
        obtain ⟨σ', held, hσ'⟩ := sessionReady_iff.mp ready
        simp [IgnoresHandshake, held, hσ'] at h
      | yield σ' held shape' role' len higher => simp [IgnoresHandshake, held, higher] at h
  | lost σ e held shape other read =>
    refine iff_of_false (fun h => ?_) (fun h => ?_)
    · have hsession := h.session
      simp [held] at hsession
    · unfold IgnoresHandshake at h
      rw [held] at h
      exact other ⟨h.2.1, h.2.2.1⟩
  | finished σ σ₁ σ' ms drawn seen os held shape other read quiet ready transcript role window =>
    refine iff_of_false (fun h => ?_) (fun h => ?_)
    · have hsession := h.session
      rw [held] at hsession
      generalize ht : ({ s with
        noiseSessions := s.noiseSessions.insert fp σ'
        handshakeLastMs := s.handshakeLastMs.insert fp s.clock
        drawn := drawn
        seen := seen
        trace := s.trace ++ os } : MeshNode S) = t at hsession
      have hready : t.sessionReady fp = true := by
        rw [← ht, sessionReady_insert (s := s) (σ := σ') rfl, if_pos rfl, ready]
      cases hbound : t.bound fp with
      | true =>
        have hup := finishSession_ready laws hready hbound
        simp [sessionReady, hsession, shape.not_ready] at hup
      | false => simp [finishSession, hbound, rejectSession, emit] at hsession
    · unfold IgnoresHandshake at h
      rw [held] at h
      exact other ⟨h.2.1, h.2.2.1⟩

omit [Store S] in
theorem sendDirected_events (s : MeshNode S) {t : MsgType} (ht : t.toU8 ≠ MsgType.announce.toU8) (fp : Fingerprint)
    (payload : Bytes) : (s.sendDirected t fp payload).events = s.events := by
  obtain ⟨seen, os, heq, -⟩ := sendDirected_update s ht fp payload
  rw [heq]

omit [Store S] in
theorem encryptAndSendDm_events (s : MeshNode S) (fp : Fingerprint) (kind : UInt8) (body : Bytes) :
    (s.encryptAndSendDm fp kind body).events = s.events := by
  unfold encryptAndSendDm
  cases s.noiseSessions[fp]? with
  | none => rfl
  | some σ =>
    cases henc : σ.encrypt (kind :: body) with
    | error e => simp only [henc, note]
    | ok sealed =>
      simp only [henc]
      rw [sendDirected_events _ (by decide)]
      rfl

theorem handleDirectMessage_untampered_iff (laws : SnowLaws P) {s : MeshNode S} {pkt : Packet} {fp : Fingerprint}
    (recipient : pkt.recipient = some s.identity.ephId) (sender : s.ephToFp pkt.sender = some fp) :
    s.Untampered (s.handleDirectMessage pkt) fp ↔ s.IgnoresDm fp pkt.payload := by
  unfold IgnoresDm
  cases held : s.noiseSessions[fp]? with
  | none =>
    refine iff_of_false (fun h => ?_) id
    let buf := s.pendingInboundDms[fp]?.getD []
    let t : MeshNode S := { s with
      pendingInboundDms := s.pendingInboundDms.insert fp (if buf.length < 32 then buf ++ [pkt.payload] else buf) }
    have heq : s.handleDirectMessage pkt = t.beginHandshake fp := by
      simp [handleDirectMessage, recipient, sender, sessionReady, held, Maps.contains_absent held, t, buf]
    have hsession := h.session
    rw [heq, held] at hsession
    obtain ⟨σ, m, -, hbegun⟩ := beginHandshake_spec laws t fp
    rw [hbegun, begun] at hsession
    obtain ⟨seen, os, hout, -⟩ := handshakeOut_update ({ t with
      handshakeLastMs := t.handshakeLastMs.insert fp t.clock
      handshakeAttempts := t.handshakeAttempts.insert fp (t.handshakeAttempts[fp]?.getD 0 + 1) } : MeshNode S) fp σ m
    rw [hout] at hsession
    simp at hsession
  | some σ =>
    simp only
    cases ready : σ.isReady with
    | true =>
      have heq : s.handleDirectMessage pkt = s.decryptAndEmit fp pkt.payload := by
        simp [handleDirectMessage, recipient, sender, sessionReady, held, ready]
      rw [heq, if_pos rfl]
      rcases hdec : σ.decrypt pkt.payload with ⟨σ', e | pt⟩
      · rw [decryptAndEmit_error laws held (congrArg Prod.snd hdec)]
        exact iff_of_true (.refl s fp) ⟨e, rfl⟩
      · refine iff_of_false (fun h => ?_) (by simp)
        have hevents := h.events
        rw [decryptAndEmit_ok held hdec] at hevents
        split_ifs at hevents
        · rw [sendControlDm, encryptAndSendDm_events] at hevents
          simp [received] at hevents
        · simp [received] at hevents
    | false =>
      let buf := s.pendingInboundDms[fp]?.getD []
      have heq : s.handleDirectMessage pkt = { s with
          pendingInboundDms := s.pendingInboundDms.insert fp (if buf.length < 32 then buf ++ [pkt.payload] else buf) } := by
        simp [handleDirectMessage, recipient, sender, sessionReady, held, ready, Maps.contains_held held, buf]
      rw [heq]
      simp only [Bool.false_eq_true, if_false]
      constructor
      · intro h
        have hin := h.inbound
        by_contra hroom
        rw [Std.ExtTreeMap.getElem?_insert_self, if_pos (Nat.lt_of_not_le hroom)] at hin
        have hbuf : buf = buf ++ [pkt.payload] := congrArg (·.getD []) hin.symm
        simp at hbuf
      · intro hfull
        have hin : s.pendingInboundDms[fp]? = some buf := by
          cases hb : s.pendingInboundDms[fp]? with
          | none => simp [hb] at hfull
          | some b => simp [buf, hb]
        refine ⟨rfl, rfl, ?_, rfl, rfl, rfl, rfl, [], (List.append_nil _).symm, by simp⟩
        rw [if_neg (show ¬ buf.length < 32 from Nat.not_lt.mpr hfull), Std.ExtTreeMap.getElem?_insert_self, hin]

/-- `onFrame` on a frame that completes a packet of a directed type: a duplicate or a packet over the
rate is dropped, the others are handed on; the relay that follows touches neither sessions nor events. -/
theorem onFrame_untampered_iff {s : MeshNode S} (link : LinkId) {frame bytes : Bytes} {pkt : Packet} (fp : Fingerprint)
    (complete : (s.reassembler.ingest s.cfg frame s.clock).2 = .ok (some bytes)) (decodes : Packet.decode bytes = .ok pkt)
    (directed : pkt.msgType = .noiseHandshake ∨ pkt.msgType = .directMessage) :
    ∃ v : MeshNode S, (∃ seen rate reassembler, v = { s with seen := seen, rate := rate, reassembler := reassembler }) ∧
      (s.Untampered (s.onFrame link frame) fp ↔
        ((s.seen.observe s.cfg pkt.digest s.clock).2.isNew = true →
          (s.rate.allow s.cfg pkt.sender s.clock).2 = true → v.Untampered (v.dispatch link pkt) fp)) := by
  let t : MeshNode S := { s with reassembler := (s.reassembler.ingest s.cfg frame s.clock).1 }
  let u : MeshNode S := { t with seen := (s.seen.observe s.cfg pkt.digest s.clock).1 }
  let v : MeshNode S := { u with rate := (s.rate.allow s.cfg pkt.sender s.clock).1 }
  refine ⟨v, ⟨_, _, _, rfl⟩, ?_⟩
  have htag : t.tagged link pkt = t := by
    rcases directed with h | h <;> simp [tagged, h]
  have heq : s.onFrame link frame =
      if (s.seen.observe s.cfg pkt.digest s.clock).2.isNew then
        if (s.rate.allow s.cfg pkt.sender s.clock).2 then (v.dispatch link pkt).maybeRelay link pkt else v
      else u := by
    have hframe : s.onFrame link frame = t.onPacket link pkt := by
      unfold onFrame
      rcases hin : s.reassembler.ingest s.cfg frame s.clock with ⟨reassembler, result⟩
      rw [hin] at complete
      simp only at complete
      subst complete
      simp only [decodes, t, hin]
    rw [hframe, onPacket_eq]
    simp only [htag]
    rfl
  rw [heq]
  cases (s.seen.observe s.cfg pkt.digest s.clock).2.isNew with
  | false =>
    simp only [Bool.false_eq_true, if_false, false_imp_iff, iff_true]
    exact ⟨rfl, rfl, rfl, rfl, rfl, rfl, rfl, [], (List.append_nil _).symm, by simp⟩
  | true =>
    cases (s.rate.allow s.cfg pkt.sender s.clock).2 with
    | false =>
      simp only [if_true, Bool.false_eq_true, if_false, false_imp_iff, imp_true_iff, iff_true]
      exact ⟨rfl, rfl, rfl, rfl, rfl, rfl, rfl, [], (List.append_nil _).symm, by simp⟩
    | true =>
      obtain ⟨rng, scheduler, hrelay⟩ := maybeRelay_update (v.dispatch link pkt) link pkt
      simp only [if_true, hrelay, true_imp_iff]
      constructor
      · exact fun h => ⟨h.session, h.pending, h.inbound, h.last, h.attempts, h.resync, h.events, h.own⟩
      · exact fun h => ⟨h.session, h.pending, h.inbound, h.last, h.attempts, h.resync, h.events, h.own⟩

/-- The packets of a known peer that leave its session alone, whoever signed them: those that are not
handed to a handler, and those the handler ignores. -/
theorem directed_packet_untampered_iff (laws : SnowLaws P) {s : MeshNode S} (hs : s.Reachable) {now : Millis}
    {link : LinkId} {frame bytes : Bytes} {pkt : Packet} {fp : Fingerprint}
    (complete : (s.reassembler.ingest s.cfg frame now).2 = .ok (some bytes)) (decodes : Packet.decode bytes = .ok pkt)
    (directed : pkt.msgType = .noiseHandshake ∨ pkt.msgType = .directMessage) (sender : s.ephToFp pkt.sender = some fp) :
    s.Untampered (exec s ⟨now, .transport (.frameReceived link frame)⟩) fp ↔
      ((s.at_ now).Dispatches pkt →
        if pkt.msgType = .noiseHandshake then (s.at_ now).IgnoresHandshake fp pkt.payload
        else s.IgnoresDm fp pkt.payload) := by
  obtain ⟨v, ⟨seen, rate, reassembler, rfl⟩, hiff⟩ :=
    onFrame_untampered_iff (s := s.at_ now) link fp complete decodes directed
  have hexec : s.Untampered (exec s ⟨now, .transport (.frameReceived link frame)⟩) fp ↔
      (s.at_ now).Untampered ((s.at_ now).onFrame link frame) fp := by
    constructor
    · exact fun h => ⟨h.session, h.pending, h.inbound, h.last, h.attempts, h.resync, h.events, h.own⟩
    · exact fun h => ⟨h.session, h.pending, h.inbound, h.last, h.attempts, h.resync, h.events, h.own⟩
  rw [hexec, hiff]
  unfold Dispatches
  rw [and_imp, and_imp]
  refine imp_congr_right fun _ => imp_congr_right fun _ => ?_
  generalize hv : ({ s.at_ now with seen := seen, rate := rate, reassembler := reassembler } : MeshNode S) = v
  have hshaped : v.Shaped := by
    rw [← hv]
    exact (hs.shaped laws).of_sessions rfl
  have hsender : v.ephToFp pkt.sender = some fp := by
    rw [← hv]
    exact sender
  have hident : v.identity = (s.at_ now).identity := by rw [← hv]
  by_cases recipient : pkt.recipient = some (s.at_ now).identity.ephId
  · rw [← hident] at recipient
    simp only [hident ▸ recipient, true_imp_iff]
    rcases directed with h | h
    · have hdis : v.dispatch link pkt = v.handleHandshake fp pkt.payload := by
        simp [dispatch, h, handleNoiseHandshake_eq recipient hsender]
      rw [hdis, (handleHandshake_cases laws hshaped fp pkt.payload).untampered_iff laws, if_pos h, ← hv]
      exact Iff.rfl
    · have hdis : v.dispatch link pkt = v.handleDirectMessage pkt := by simp [dispatch, h]
      rw [hdis, handleDirectMessage_untampered_iff laws recipient hsender, if_neg (by rw [h]; decide), ← hv]
      exact Iff.rfl
  · have hdis : v.dispatch link pkt = v := by
      have hr : pkt.recipient ≠ some v.identity.ephId := by rw [hident]; exact recipient
      rcases directed with h | h
      · simp [dispatch, h, handleNoiseHandshake_ignored (.inl hr)]
      · simp [dispatch, h, handleDirectMessage, hr]
    rw [hdis]
    exact iff_of_true (.refl v fp) fun h => absurd h recipient

end MeshNode
end CockroachChat

namespace CockroachChat.Reference
attribute [local instance] prims

/-- A packet of node `j` to node `k` that nobody signed. -/
def forged (msgType : MsgType) (j k : UInt8) (payload : Bytes) : Packet :=
  Packet.new msgType 5 2 (Vector.replicate 8 j) (some (Vector.replicate 8 k)) payload

/-- Node 1 is in session with node 2; an unsigned message in the name of node 2 does not decrypt and
leaves the session alone. -/
theorem forged_message_ignored : (connected 1 2 "hi").Untampered
    (MeshNode.exec (connected 1 2 "hi") ⟨2, .transport (.frameReceived 0 (frameOf (forged .directMessage 2 1 [])))⟩)
    (fpOf 2) := by
  have hs : (connected 1 2 "hi").Reachable := run_reachable (run_reachable (met_reachable 1 2) _) _
  have hsender : (connected 1 2 "hi").ephToFp (forged .directMessage 2 1 []).sender = some (fpOf 2) := by decide +kernel
  have hready : (connected 1 2 "hi").sessionReady (fpOf 2) = true := by decide +kernel
  have hdecodes : (Packet.decode (forged .directMessage 2 1 []).encode) = .ok (forged .directMessage 2 1 []) := by rfl
  generalize connected 1 2 "hi" = s at hs hsender hready
  obtain ⟨σ, held, hσ⟩ := MeshNode.sessionReady_iff.mp hready
  refine (MeshNode.directed_packet_untampered_iff laws hs rfl hdecodes (.inr rfl) hsender).mpr fun _ => ?_
  rw [if_neg (by decide)]
  unfold MeshNode.IgnoresDm
  obtain ⟨ts, hinner⟩ := NoiseSession.isReady_iff.mp hσ
  simp only [held, hσ, if_true]
  exact ⟨.noise "dm payload too short", by simp [NoiseSession.decrypt, hinner, forged, Packet.new]⟩

/-- An unsigned first handshake message in the name of node 2, which node 1 knows: node 1 opens a session
for it and answers. -/
theorem forged_handshake_opens_session : (met 1 2).Reachable ∧
    (met 1 2).ephToFp (forged .noiseHandshake 2 1 (List.replicate 32 0)).sender = some (fpOf 2) ∧
    (met 1 2).ephKeys[(forged .noiseHandshake 2 1 (List.replicate 32 0)).sender]? = some (Vector.replicate 32 2) ∧
    ((forged .noiseHandshake 2 1 (List.replicate 32 0)).verifyWith (Vector.replicate 32 2 : Key32)).isOk = false ∧
    ¬ (met 1 2).Untampered (MeshNode.exec (met 1 2)
      ⟨2, .transport (.frameReceived 0 (frameOf (forged .noiseHandshake 2 1 (List.replicate 32 0))))⟩) (fpOf 2) := by
  have hknown : (met 1 2).ephToFp (forged .noiseHandshake 2 1 (List.replicate 32 0)).sender = some (fpOf 2) ∧
      (met 1 2).ephKeys[(forged .noiseHandshake 2 1 (List.replicate 32 0)).sender]? = some (Vector.replicate 32 2) ∧
      ((forged .noiseHandshake 2 1 (List.replicate 32 0)).verifyWith (Vector.replicate 32 2 : Key32)).isOk = false := by
    decide +kernel
  have hsessions : (met 1 2).noiseSessions.contains (fpOf 2) = false ∧ (MeshNode.exec (met 1 2)
      ⟨2, .transport (.frameReceived 0 (frameOf (forged .noiseHandshake 2 1 (List.replicate 32 0))))⟩).noiseSessions.contains
      (fpOf 2) = true := by decide +kernel
  refine ⟨met_reachable 1 2, hknown.1, hknown.2.1, hknown.2.2, fun h => ?_⟩
  have hsession := congrArg Option.isSome h.session
  rw [← Std.ExtTreeMap.contains_eq_isSome_getElem?, ← Std.ExtTreeMap.contains_eq_isSome_getElem?] at hsession
  exact absurd (hsessions.1.symm.trans (hsession.symm.trans hsessions.2)) (by decide)

end CockroachChat.Reference
