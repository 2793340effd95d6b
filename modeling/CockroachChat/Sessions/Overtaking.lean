import CockroachChat.Flood.Inventory
import CockroachChat.Node.ReferenceNodes
import CockroachChat.Sessions.Window

/-! # Messages ahead of their session

A responder may be handed the first messages of a session before the handshake message that completes
it. It holds them, opens them when the session is complete, and opens the later ones at once. -/
namespace CockroachChat
set_option autoImplicit false

/-- The text and the kind that a message is shown with. -/
def shownText (m : Bytes) : String × UInt8 :=
  let (kind, body) := MeshNode.splitKind m
  (if kind = dmKindText then fromUtf8Lossy body else "", kind)

/-- A message shown as received from the peer. -/
def Obs.dmFrom (fp : Fingerprint) : Obs → Option (String × UInt8)
  | .event (.dmReceived fp' _ text kind) _ => if fp' = fp then some (text, kind) else none
  | _ => none

theorem Obs.dmFrom_received (fp : Fingerprint) (eph : EphId) (text : String) (kind : UInt8) (v : Option SessionView) :
    Obs.dmFrom fp (.event (.dmReceived fp eph text kind) v) = some (text, kind) := if_pos rfl

variable [P : Prims]

namespace NoiseSession

/-- snow's rules for the transport states at one end of a channel whose other end put out `letters`:
each letter is read at the nonce it travels with, and a state of that end stays one. -/
structure Hears (Mine : P.TransportState → Prop) (letters : List (Bytes × Bytes)) : Prop where
  read : ∀ ts m payload, Mine ts → (m, payload) ∈ letters →
    ∃ ts', P.tsReadMessage (P.setReceivingNonce ts (payloadNonce payload)) (payload.drop 8) = .ok (ts', m) ∧ Mine ts'
  write : ∀ ts m ts' c, Mine ts → P.tsWriteMessage ts m = .ok (ts', c) → Mine ts'

section Letters
variable {Mine : P.TransportState → Prop} {letters : List (Bytes × Bytes)}

theorem encrypt_hears (laws : SnowLaws P) (snow : Hears Mine letters) {σ σ' : NoiseSession} (hσ : σ.Ready Mine) {m payload : Bytes}
    (h : σ.encrypt m = .ok (σ', payload)) : σ'.Ready Mine ∧ σ'.recvNonce = σ.recvNonce := by
  obtain ⟨ts, ts', c, hinner, hwrite, heq, -⟩ := encrypt_ok h
  obtain ⟨ts₀, hinner₀, hts⟩ := hσ
  obtain rfl : ts₀ = ts := Inner.transport.inj (hinner₀.symm.trans hinner)
  exact ⟨⟨ts', by rw [heq], snow.write _ m ts' c hts hwrite⟩, (encrypt_spec laws h).2.2.2⟩

/-- A letter at a nonce that is not behind the window is opened. -/
theorem decrypt_letter (laws : SnowLaws P) (snow : Hears Mine letters) {σ : NoiseSession} (hσ : σ.Ready Mine) {m payload : Bytes}
    (letter : (m, payload) ∈ letters) (long : 8 ≤ payload.length) (ahead : σ.recvNonce ≤ payloadNonce payload) :
    ∃ σ', σ.decrypt payload = (σ', .ok m) ∧ σ'.Ready Mine ∧ σ'.recvNonce = payloadNonce payload + 1 := by
  obtain ⟨ts, hinner, hts⟩ := hσ
  obtain ⟨ts', hread, hmine⟩ := snow.read ts m payload hts letter
  have hahead : ¬ ofBe (payload.take 8) < P.receivingNonce ts := by
    rw [recvNonce, hinner] at ahead
    exact Nat.not_lt.mpr ahead
  have hdec : σ.decrypt payload = ({ σ with inner := .transport ts' }, .ok m) := by
    unfold payloadNonce at hread
    simp only [decrypt, hinner, if_neg (Nat.not_lt.mpr long), if_neg hahead, hread]
  exact ⟨_, hdec, ⟨ts', rfl, hmine⟩, (decrypt_ok laws hdec).2.2.2.2⟩

end Letters
end NoiseSession

namespace MeshNode
variable {S : Type}

/-- What a trace has shown from one peer, oldest first. -/
def told (s : MeshNode S) (fp : Fingerprint) : List (String × UInt8) := s.trace.filterMap (Obs.dmFrom fp)

/-- The messages held until the session with the peer is ready. -/
def buffer (s : MeshNode S) (fp : Fingerprint) : List Bytes := s.pendingInboundDms[fp]?.getD []

/-- The session with the peer is ready, at our end of the channel, with its window at `n` or before. -/
def Listening (Mine : P.TransportState → Prop) (fp : Fingerprint) (n : ℕ) (s : MeshNode S) : Prop :=
  ∃ σ, s.noiseSessions[fp]? = some σ ∧ σ.Ready Mine ∧ σ.recvNonce ≤ n

theorem Listening.mono {Mine : P.TransportState → Prop} {fp : Fingerprint} {n n' : ℕ} {s : MeshNode S}
    (h : s.Listening Mine fp n) (hle : n ≤ n') : s.Listening Mine fp n' := by
  obtain ⟨σ, hheld, hready, hwindow⟩ := h
  exact ⟨σ, hheld, hready, hwindow.trans hle⟩

variable [Store S]

omit [Store S] in
theorem told_of_wordless {s s' : MeshNode S} (h : Adds Wordless s s') (fp : Fingerprint) : s'.told fp = s.told fp := by
  obtain ⟨-, os, htrace, hos⟩ := h
  have hnone : os.filterMap (Obs.dmFrom fp) = [] := by
    rw [List.filterMap_eq_nil_iff]
    intro o ho
    have hword := hos o ho
    cases o <;> first | rfl | exact hword.elim
  rw [told, htrace, List.filterMap_append, hnone, List.append_nil, told]

/-- The node speaks: what it has received and holds is as before. -/
structure Speaks (Mine : P.TransportState → Prop) (fp : Fingerprint) (s s' : MeshNode S) : Prop where
  listening : ∀ n, s.Listening Mine fp n → s'.Listening Mine fp n
  buffer : s'.buffer fp = s.buffer fp
  told : s'.told fp = s.told fp

section Session
variable {Mine : P.TransportState → Prop} {letters : List (Bytes × Bytes)} {fp : Fingerprint}

omit [Store S] in
theorem Speaks.trans {s₁ s₂ s₃ : MeshNode S} (h₁ : Speaks Mine fp s₁ s₂) (h₂ : Speaks Mine fp s₂ s₃) : Speaks Mine fp s₁ s₃ :=
  ⟨fun n h => h₂.listening n (h₁.listening n h), h₂.buffer.trans h₁.buffer, h₂.told.trans h₁.told⟩

omit [Store S] in
theorem Speaks.of_tables {s s' : MeshNode S} (sessions : s'.noiseSessions = s.noiseSessions)
    (inbound : s'.pendingInboundDms = s.pendingInboundDms) (trace : s'.trace = s.trace) : Speaks Mine fp s s' := by
  refine ⟨fun n h => ?_, ?_, ?_⟩
  · obtain ⟨σ, hheld, hready⟩ := h
    exact ⟨σ, by rw [sessions, hheld], hready⟩
  · rw [MeshNode.buffer, inbound, MeshNode.buffer]
  · rw [MeshNode.told, trace, MeshNode.told]

omit [Store S] in
theorem sendDirected_tables (s : MeshNode S) (t : MsgType) (fp : Fingerprint) (payload : Bytes) :
    (s.sendDirected t fp payload).noiseSessions = s.noiseSessions ∧
      (s.sendDirected t fp payload).pendingInboundDms = s.pendingInboundDms := by
  cases h : s.fpToEph[fp]? with
  | none => simp only [sendDirected_none h, and_self]
  | some eph =>
    rw [sendDirected_some h]
    exact ⟨rfl, rfl⟩

omit [Store S] in
theorem encryptAndSendDm_speaks (laws : SnowLaws P) (snow : NoiseSession.Hears Mine letters) (s : MeshNode S) (kind : UInt8)
    (body : Bytes) : Speaks Mine fp s (s.encryptAndSendDm fp kind body) := by
  have htold := told_of_wordless (encryptAndSendDm_wordless s fp kind body) fp
  unfold encryptAndSendDm at htold ⊢
  cases hheld : s.noiseSessions[fp]? with
  | none => exact .of_tables rfl rfl rfl
  | some σ =>
    cases henc : σ.encrypt (kind :: body) with
    | error e =>
      simp only [hheld, henc] at htold ⊢
      exact ⟨fun n h => h, rfl, htold⟩
    | ok r =>
      simp only [hheld, henc] at htold ⊢
      obtain ⟨hsessions, hinbound⟩ := sendDirected_tables (note { s.note (.encryptCall fp σ.view (kind :: body)) with
        noiseSessions := (s.note (.encryptCall fp σ.view (kind :: body))).noiseSessions.insert fp r.1 }
        (.encrypted fp σ.view σ.sendNonce (kind :: body))) .directMessage fp r.2
      refine ⟨fun n h => ?_, ?_, htold⟩
      · obtain ⟨σ₀, hheld₀, hready, hwindow⟩ := h
        cases hheld.symm.trans hheld₀
        obtain ⟨hready', hsame⟩ := NoiseSession.encrypt_hears laws snow hready (show σ.encrypt _ = .ok (r.1, r.2) from henc)
        refine ⟨r.1, ?_, hready', hsame.trans_le hwindow⟩
        rw [hsessions]
        exact Std.ExtTreeMap.getElem?_insert_self
      · rw [buffer, hinbound]
        rfl

theorem sendControlDm_speaks (laws : SnowLaws P) (snow : NoiseSession.Hears Mine letters) (s : MeshNode S) (kind : UInt8) :
    Speaks Mine fp s (s.sendControlDm fp kind) := by
  refine .trans ?_ (encryptAndSendDm_speaks laws snow _ kind [])
  exact .of_tables rfl rfl rfl

theorem trySendVerifyNotice_speaks (laws : SnowLaws P) (snow : NoiseSession.Hears Mine letters) (s : MeshNode S) :
    Speaks Mine fp s (s.trySendVerifyNotice fp) := by
  unfold trySendVerifyNotice
  split_ifs
  · refine .trans ?_ (sendControlDm_speaks laws snow _ _)
    exact .of_tables rfl rfl rfl
  · exact .of_tables rfl rfl rfl

omit [Store S] in
theorem drainOutbound_speaks (laws : SnowLaws P) (snow : NoiseSession.Hears Mine letters) (s : MeshNode S) :
    Speaks Mine fp s (s.drainOutbound fp) := by
  have hloop : ∀ (texts : List String) (t : MeshNode S), Speaks Mine fp t
      (texts.foldl (fun t text => t.encryptAndSendDm fp dmKindText (asBytes text)) t) := by
    intro texts
    induction texts with
    | nil => exact fun t => .of_tables rfl rfl rfl
    | cons text texts ih => exact fun t => .trans (encryptAndSendDm_speaks laws snow t _ _) (ih _)
  refine .trans ?_ (hloop _ _)
  exact .of_tables rfl rfl rfl

/-! ## Opening letters -/

/-- A letter is shown, and the window moves past it. -/
theorem decryptAndEmit_letter (laws : SnowLaws P) (snow : NoiseSession.Hears Mine letters) {s : MeshNode S} {m payload : Bytes}
    (letter : (m, payload) ∈ letters) (long : 8 ≤ payload.length) (ready : s.Listening Mine fp (payloadNonce payload)) :
    (s.decryptAndEmit fp payload).Listening Mine fp (payloadNonce payload + 1) ∧
      (s.decryptAndEmit fp payload).buffer fp = s.buffer fp ∧
      (s.decryptAndEmit fp payload).told fp = s.told fp ++ [shownText m] := by
  obtain ⟨σ, hheld, hready, hwindow⟩ := ready
  obtain ⟨σ', hdec, hready', hwindow'⟩ := NoiseSession.decrypt_letter laws snow hready letter long hwindow
  have hlisten : (s.received fp σ σ' (ofBe (payload.take 8)) m).Listening Mine fp (payloadNonce payload + 1) :=
    ⟨σ', Std.ExtTreeMap.getElem?_insert_self, hready', hwindow'.le⟩
  have htold : (s.received fp σ σ' (ofBe (payload.take 8)) m).told fp = s.told fp ++ [shownText m] := by
    rw [told, received, List.filterMap_append, told, List.filterMap_cons_none rfl,
      List.filterMap_cons_some (Obs.dmFrom_received fp _ _ _ _)]
    rfl
  rw [decryptAndEmit_ok hheld hdec]
  split_ifs
  · have hack : Speaks Mine fp _ ((s.received fp σ σ' (ofBe (payload.take 8)) m).sendControlDm fp dmKindVerifyAck) :=
      sendControlDm_speaks laws snow _ _
    exact ⟨hack.listening _ hlisten, hack.buffer, hack.told.trans htold⟩
  · exact ⟨hlisten, rfl, htold⟩

/-- Letters in the order of their nonces are all shown. -/
theorem openAll_letters (laws : SnowLaws P) (snow : NoiseSession.Hears Mine letters) {n N : ℕ} (hN : n ≤ N) (mail : List (Bytes × Bytes))
    (subset : ∀ e ∈ mail, e ∈ letters ∧ 8 ≤ e.2.length ∧ n ≤ payloadNonce e.2 ∧ payloadNonce e.2 < N)
    (ordered : mail.Pairwise fun a b => payloadNonce a.2 < payloadNonce b.2) {s : MeshNode S} (ready : s.Listening Mine fp n) :
    ((mail.map Prod.snd).foldl (fun t ct => t.decryptAndEmit fp ct) s).Listening Mine fp N ∧
      ((mail.map Prod.snd).foldl (fun t ct => t.decryptAndEmit fp ct) s).buffer fp = s.buffer fp ∧
      ((mail.map Prod.snd).foldl (fun t ct => t.decryptAndEmit fp ct) s).told fp =
        s.told fp ++ mail.map fun e => shownText e.1 := by
  induction mail generalizing s n with
  | nil => exact ⟨ready.mono hN, rfl, (List.append_nil _).symm⟩
  | cons e mail ih =>
    obtain ⟨hletter, hlong, hahead, hbound⟩ := subset e List.mem_cons_self
    obtain ⟨hlater, hordered⟩ := List.pairwise_cons.mp ordered
    obtain ⟨hready, hbuffer, htold⟩ := decryptAndEmit_letter laws snow hletter hlong (ready.mono hahead)
    obtain ⟨hready', hbuffer', htold'⟩ := ih (n := payloadNonce e.2 + 1) hbound
      (fun d hd => ⟨(subset d (List.mem_cons_of_mem e hd)).1, (subset d (List.mem_cons_of_mem e hd)).2.1, hlater d hd,
        (subset d (List.mem_cons_of_mem e hd)).2.2.2⟩) hordered hready
    refine ⟨hready', hbuffer'.trans hbuffer, ?_⟩
    rw [List.map_cons, List.foldl_cons, htold', htold, List.append_assoc, List.map_cons, List.singleton_append]

/-- A session that completes bound to the announced key opens what was held, in order. -/
theorem finishSession_opens (laws : SnowLaws P) (snow : NoiseSession.Hears Mine letters) {N : ℕ} (mail : List (Bytes × Bytes))
    (subset : ∀ e ∈ mail, e ∈ letters ∧ 8 ≤ e.2.length ∧ payloadNonce e.2 < N)
    (ordered : mail.Pairwise fun a b => payloadNonce a.2 < payloadNonce b.2) {s : MeshNode S} (ready : s.Listening Mine fp 0)
    (bound : s.bound fp = true) (held : s.buffer fp = mail.map Prod.snd) :
    (s.finishSession fp).Listening Mine fp N ∧ (s.finishSession fp).buffer fp = [] ∧
      (s.finishSession fp).told fp = s.told fp ++ mail.map fun e => shownText e.1 := by
  let u : MeshNode S := { s with
    handshakeLastMs := s.handshakeLastMs.erase fp
    handshakeAttempts := s.handshakeAttempts.erase fp
    resyncPending := s.resyncPending.erase fp }.emitFor fp (.dmSession fp true)
  have hup : Speaks Mine fp s u := by
    refine ⟨fun n h => h, rfl, ?_⟩
    show (s.trace ++ [_]).filterMap (Obs.dmFrom fp) = s.told fp
    rw [List.filterMap_append, List.filterMap_cons_none rfl, List.filterMap_nil, List.append_nil]
    rfl
  have hspoken : Speaks Mine fp s ((u.trySendVerifyNotice fp).drainOutbound fp) :=
    (hup.trans (trySendVerifyNotice_speaks laws snow u)).trans (drainOutbound_speaks laws snow _)
  let v : MeshNode S := (u.trySendVerifyNotice fp).drainOutbound fp
  have heq : s.finishSession fp = (mail.map Prod.snd).foldl (fun t ct => t.decryptAndEmit fp ct)
      { v with pendingInboundDms := v.pendingInboundDms.erase fp } := by
    have hbuffer : v.pendingInboundDms[fp]?.getD [] = mail.map Prod.snd := hspoken.buffer.trans held
    have hfinish : s.finishSession fp = v.drainInbound fp := by simp [finishSession, bound, u, v]
    rw [hfinish, drainInbound, hbuffer]
  have hready : ({ v with pendingInboundDms := v.pendingInboundDms.erase fp } : MeshNode S).Listening Mine fp 0 :=
    hspoken.listening 0 ready
  obtain ⟨hlisten, hbuffer, htold⟩ := openAll_letters laws snow (Nat.zero_le N) mail
    (fun e he => ⟨(subset e he).1, (subset e he).2.1, Nat.zero_le _, (subset e he).2.2⟩) ordered hready
  rw [heq]
  refine ⟨hlisten, hbuffer.trans ?_, htold.trans ?_⟩
  · simp [buffer]
  · exact congrArg (· ++ _) hspoken.told

end Session

/-! ## What arrives -/

/-- What a node has on one peer. -/
structure Corner where
  session : Option NoiseSession
  buffer : List Bytes
  static : Option Key32
  told : List (String × UInt8)

def corner (s : MeshNode S) (fp : Fingerprint) : Corner where
  session := s.noiseSessions[fp]?
  buffer := s.buffer fp
  static := s.peerStaticDh[fp]?
  told := s.told fp

/-- Nothing happens about the peer. -/
def Aside (fp : Fingerprint) (s s' : MeshNode S) : Prop := s'.corner fp = s.corner fp

/-- The call hands over a packet of the peer, of this kind and with this payload. -/
def Brings (fp : Fingerprint) (s : MeshNode S) (c : Call) (x : MsgType × Bytes) : Prop :=
  ∃ pkt, (s.at_ c.now).taken c.action = some pkt ∧ pkt.msgType = x.1 ∧ pkt.payload = x.2 ∧
    pkt.recipient = some s.identity.ephId ∧ s.ephToFp pkt.sender = some fp

/-- The calls hand over these packets of the peer, in this order, among calls that do not concern it. -/
inductive Arrives (fp : Fingerprint) : MeshNode S → List Call → List (MsgType × Bytes) → Prop
  | done (s : MeshNode S) : Arrives fp s [] []
  | aside {s : MeshNode S} {c : Call} {calls : List Call} {xs : List (MsgType × Bytes)} (quiet : Aside fp s (exec s c))
      (rest : Arrives fp (exec s c) calls xs) : Arrives fp s (c :: calls) xs
  | next {s : MeshNode S} {c : Call} {calls : List Call} {x : MsgType × Bytes} {xs : List (MsgType × Bytes)}
      (brings : Brings fp s c x) (rest : Arrives fp (exec s c) calls xs) : Arrives fp s (c :: calls) (x :: xs)

variable {fp : Fingerprint}

theorem Arrives.none_left {s : MeshNode S} {calls : List Call} (h : Arrives fp s calls []) :
    Aside fp s (Runs.run exec s calls) := by
  generalize hxs : ([] : List (MsgType × Bytes)) = xs at h
  induction h with
  | done s => rfl
  | aside quiet rest ih => exact (ih hxs).trans quiet
  | next brings rest ih => cases hxs

/-- The next packet comes after calls that do not concern the peer. -/
theorem Arrives.first {s : MeshNode S} {calls : List Call} {x : MsgType × Bytes} {xs : List (MsgType × Bytes)}
    (h : Arrives fp s calls (x :: xs)) :
    ∃ t c calls', Aside fp s t ∧ Brings fp t c x ∧ Arrives fp (exec t c) calls' xs ∧
      Runs.run exec s calls = Runs.run exec (exec t c) calls' := by
  generalize hxs : x :: xs = ys at h
  induction h with
  | done s => cases hxs
  | aside quiet rest ih =>
    obtain ⟨t, c, calls', haside, hbrings, hrest, hrun⟩ := ih hxs
    exact ⟨t, c, calls', haside.trans quiet, hbrings, hrest, hrun⟩
  | next brings rest ih =>
    cases hxs
    exact ⟨_, _, _, rfl, brings, rest, rfl⟩

/-- A packet that is handed over reaches its handler with everything about the peer as it was. -/
theorem Brings.dispatched {s : MeshNode S} {c : Call} {x : MsgType × Bytes} (h : Brings fp s c x) (other : x.1 ≠ .syncRequest) :
    ∃ (t : MeshNode S) (link : LinkId) (pkt : Packet), t.corner fp = s.corner fp ∧ pkt.msgType = x.1 ∧ pkt.payload = x.2 ∧
      pkt.recipient = some t.identity.ephId ∧ t.ephToFp pkt.sender = some fp ∧
      (exec s c).corner fp = (t.dispatch link pkt).corner fp := by
  obtain ⟨pkt, htaken, hkind, hpayload, hrecipient, hsender⟩ := h
  cases haction : c.action with
  | transport ev =>
    cases ev with
    | frameReceived link frame =>
      rw [haction] at htaken
      have hframe := onFrame_taken (s.at_ c.now) link frame
      simp only [htaken] at hframe
      obtain ⟨t, hbook, heq, htrace⟩ := hframe
      have htrace' : t.trace = s.trace := htrace (hkind ▸ other)
      have hexec : exec s c = (t.dispatch link pkt).maybeRelay link pkt := by
        rw [exec, haction]
        exact heq
      obtain ⟨rng, scheduler, hrelay⟩ := maybeRelay_update (t.dispatch link pkt) link pkt
      refine ⟨t, link, pkt, ?_, hkind, hpayload, ?_, ?_, ?_⟩
      · simp only [corner, buffer, told, htrace']
        rw [hbook.eq]
        rfl
      · rw [hrecipient, hbook.eq]
        rfl
      · rw [ephToFp, hbook.ephKeys]
        exact hsender
      · rw [hexec, hrelay]
        rfl
    | _ => rw [haction] at htaken; cases htaken
  | _ => rw [haction] at htaken; cases htaken

/-! ## One packet -/

/-- A message that comes before the session is ready is held. -/
theorem handleDirectMessage_holds {s : MeshNode S} {pkt : Packet} {σ : NoiseSession}
    (recipient : pkt.recipient = some s.identity.ephId) (sender : s.ephToFp pkt.sender = some fp)
    (held : s.noiseSessions[fp]? = some σ) (shape : σ.InFlight) (room : (s.buffer fp).length < 32) :
    (s.handleDirectMessage pkt).corner fp = { s.corner fp with buffer := s.buffer fp ++ [pkt.payload] } := by
  have hready : s.sessionReady fp = false := by simp [sessionReady, held, shape.not_ready]
  have hroom : (s.pendingInboundDms[fp]?.getD []).length < 32 := room
  simp [handleDirectMessage, recipient, sender, hready, hroom, Maps.contains_held held, corner, buffer, told, held]

theorem handleDirectMessage_ready {s : MeshNode S} {pkt : Packet} (recipient : pkt.recipient = some s.identity.ephId)
    (sender : s.ephToFp pkt.sender = some fp) (ready : s.sessionReady fp = true) :
    s.handleDirectMessage pkt = s.decryptAndEmit fp pkt.payload := by
  simp [handleDirectMessage, recipient, sender, ready]

/-- The third handshake message completes the responder. -/
theorem handleNoiseHandshake_completes {s : MeshNode S} {pkt : Packet} {σ σ' : NoiseSession}
    (recipient : pkt.recipient = some s.identity.ephId) (sender : s.ephToFp pkt.sender = some fp)
    (held : s.noiseSessions[fp]? = some σ) (shape : σ.InFlight) (responder : σ.initiator = false)
    (read : σ.readHandshake pkt.payload = .ok σ') (ready : σ'.isReady = true) :
    s.handleNoiseHandshake pkt = ({ s with
      noiseSessions := s.noiseSessions.insert fp σ', handshakeLastMs := s.handshakeLastMs.insert fp s.clock } :
        MeshNode S).finishSession fp := by
  have hnot : s.sessionReady fp = false := by simp [sessionReady, held, shape.not_ready]
  have hgate : s.resyncGate fp = (s, true) := by simp [resyncGate, hnot]
  have hpass : s.glareGate fp pkt.payload = (s, true) := by simp [glareGate, held, responder]
  have hens : s.ensureResponder fp = (s, true) := by simp [ensureResponder, Maps.contains_held held]
  rw [handleNoiseHandshake_eq recipient sender]
  simp [handleHandshake, hgate, hpass, hens, readAndAdvance, held, read, advanceHandshake, ready]

omit [Store S] in
/-- A tick that does not restart the handshake with the peer does not concern it. -/
theorem tick_aside (laws : SnowLaws P) {s : MeshNode S} (calm : s.stalled s.clock fp = false) : Aside fp s s.tick := by
  have hswept : Aside fp s s.swept := by
    obtain ⟨scheduler, fired, seen, reassembler, os, heq, hquiet⟩ := swept_update s
    have hnone : os.filterMap (Obs.dmFrom fp) = [] := by
      rw [List.filterMap_eq_nil_iff]
      intro o ho
      have ho := hquiet o ho
      cases o <;> first | rfl | exact ho.elim
    rw [heq]
    simp only [Aside, corner, buffer, told, List.filterMap_append, hnone, List.append_nil]
  have hstep : ∀ (t : MeshNode S) (fp' : Fingerprint), fp' ≠ fp →
      Aside fp t ({ t with noiseSessions := t.noiseSessions.erase fp' }.beginHandshake fp') := by
    intro t fp' hne
    obtain ⟨σ, m, -, hbegin⟩ := beginHandshake_spec laws { t with noiseSessions := t.noiseSessions.erase fp' } fp'
    have hwords := told_of_wordless (beginHandshake_wordless { t with noiseSessions := t.noiseSessions.erase fp' } fp') fp
    obtain ⟨seen, os, hout, -⟩ := handshakeOut_carries { t with
      noiseSessions := t.noiseSessions.erase fp', handshakeLastMs := t.handshakeLastMs.insert fp' t.clock
      handshakeAttempts := t.handshakeAttempts.insert fp' (t.handshakeAttempts[fp']?.getD 0 + 1) } fp' σ m
    rw [begun, hout] at hbegin
    rw [hbegin] at hwords ⊢
    have hcmp : ¬ compare fp' fp = .eq := fun h => hne (Std.compare_eq_iff_eq.mp h)
    simp only [Aside, corner, buffer, Std.ExtTreeMap.getElem?_insert, Std.ExtTreeMap.getElem?_erase, hcmp, if_false]
    rw [hwords]
    rfl
  have hloop : ∀ (fps : List Fingerprint) (t : MeshNode S), fp ∉ fps →
      Aside fp t (fps.foldl (fun t fp' => { t with noiseSessions := t.noiseSessions.erase fp' }.beginHandshake fp') t) := by
    intro fps
    induction fps with
    | nil => exact fun t _ => rfl
    | cons fp' fps ih =>
      intro t hmem
      obtain ⟨hne, hrest⟩ := not_or.mp (mt List.mem_cons.mpr hmem)
      exact (ih _ hrest).trans (hstep t fp' (Ne.symm hne))
  have hspared : fp ∉ s.swept.handshakeAttempts.keys.filter (s.swept.stalled s.clock) := by
    intro hmem
    have hstalled := (List.mem_filter.mp hmem).2
    obtain ⟨scheduler, fired, seen, reassembler, os, heq, -⟩ := swept_update s
    rw [heq] at hstalled
    have hfp : s.stalled s.clock fp = true := hstalled
    rw [calm] at hfp
    cases hfp
  exact (hloop _ s.swept hspared).trans hswept

/-! ## The whole exchange -/

/-- Letters as packets of the peer. -/
def posted (mail : List (Bytes × Bytes)) : List (MsgType × Bytes) := mail.map fun e => (.directMessage, e.2)

section Exchange
variable {Mine : P.TransportState → Prop} {letters : List (Bytes × Bytes)}

/-- Letters that arrive while the session is half-open are held, in order. -/
theorem Arrives.holds {σ : NoiseSession} (shape : σ.InFlight) (mail : List (Bytes × Bytes)) {rest : List (MsgType × Bytes)}
    {s : MeshNode S} {calls : List Call} (arrives : Arrives fp s calls (posted mail ++ rest))
    (held : s.noiseSessions[fp]? = some σ) (room : (s.buffer fp).length + mail.length ≤ 32) :
    ∃ t calls', t.corner fp = { s.corner fp with buffer := s.buffer fp ++ mail.map Prod.snd } ∧ Arrives fp t calls' rest ∧
      Runs.run exec s calls = Runs.run exec t calls' := by
  induction mail generalizing s calls with
  | nil => exact ⟨s, calls, by simp [corner], arrives, rfl⟩
  | cons e mail ih =>
    obtain ⟨t, c, calls', haside, hbrings, harrives, hrun⟩ := arrives.first
    obtain ⟨u, link, pkt, hu, hkind, hpayload, hrecipient, hsender, hexec⟩ := hbrings.dispatched (by simp)
    have hcorner : u.corner fp = s.corner fp := hu.trans haside
    have hbuffer : u.buffer fp = s.buffer fp := congrArg Corner.buffer hcorner
    have hdispatch : u.dispatch link pkt = u.handleDirectMessage pkt := by simp only [dispatch, hkind]
    have hnext : (exec t c).corner fp = { s.corner fp with buffer := s.buffer fp ++ [e.2] } := by
      rw [hexec, hdispatch, handleDirectMessage_holds hrecipient hsender ((congrArg Corner.session hcorner).trans held) shape
        (by rw [hbuffer]; simp only [List.length_cons] at room; omega), hcorner, hbuffer, hpayload]
    obtain ⟨v, calls'', hv, hrest, hrun'⟩ := ih harrives ((congrArg Corner.session hnext).trans held) (by
      have hlen : ((exec t c).buffer fp).length = (s.buffer fp).length + 1 := by
        rw [show (exec t c).buffer fp = s.buffer fp ++ [e.2] from congrArg Corner.buffer hnext]
        simp
      simp only [List.length_cons] at room
      omega)
    refine ⟨v, calls'', ?_, hrest, hrun.trans hrun'⟩
    rw [hv, hnext, show (exec t c).buffer fp = s.buffer fp ++ [e.2] from congrArg Corner.buffer hnext]
    simp

/-- Letters that arrive on a ready session are shown, in order. -/
theorem Arrives.shows (laws : SnowLaws P) (snow : NoiseSession.Hears Mine letters) (mail : List (Bytes × Bytes)) {n : ℕ}
    (subset : ∀ e ∈ mail, e ∈ letters ∧ 8 ≤ e.2.length ∧ n ≤ payloadNonce e.2)
    (ordered : mail.Pairwise fun a b => payloadNonce a.2 < payloadNonce b.2) {s : MeshNode S} {calls : List Call}
    (arrives : Arrives fp s calls (posted mail)) (ready : s.Listening Mine fp n) :
    (Runs.run exec s calls).buffer fp = s.buffer fp ∧
      (Runs.run exec s calls).told fp = s.told fp ++ mail.map fun e => shownText e.1 := by
  induction mail generalizing s calls n with
  | nil =>
    have haside := arrives.none_left
    exact ⟨congrArg Corner.buffer haside, (congrArg Corner.told haside).trans (List.append_nil _).symm⟩
  | cons e mail ih =>
    obtain ⟨t, c, calls', haside, hbrings, harrives, hrun⟩ := arrives.first
    obtain ⟨u, link, pkt, hu, hkind, hpayload, hrecipient, hsender, hexec⟩ := hbrings.dispatched (by simp)
    have hcorner : u.corner fp = s.corner fp := hu.trans haside
    obtain ⟨hletter, hlong, hahead⟩ := subset e List.mem_cons_self
    obtain ⟨hlater, hordered⟩ := List.pairwise_cons.mp ordered
    have hlisten : u.Listening Mine fp (payloadNonce e.2) := by
      obtain ⟨σ, hheld, hready, hwindow⟩ := ready
      exact ⟨σ, (congrArg Corner.session hcorner).trans hheld, hready, hwindow.trans hahead⟩
    have hsession : u.sessionReady fp = true := by
      obtain ⟨σ, hheld, ⟨ts, hinner, -⟩, -⟩ := hlisten
      exact sessionReady_iff.mpr ⟨σ, hheld, NoiseSession.isReady_iff.mpr ⟨ts, hinner⟩⟩
    have hdispatch : u.dispatch link pkt = u.decryptAndEmit fp e.2 := by
      simp only [dispatch, hkind]
      rw [handleDirectMessage_ready hrecipient hsender hsession, hpayload]
    obtain ⟨⟨σ, hheld, hready⟩, hbuffer, htold⟩ := decryptAndEmit_letter laws snow hletter hlong hlisten
    rw [hdispatch] at hexec
    have hlisten' : (exec t c).Listening Mine fp (payloadNonce e.2 + 1) :=
      ⟨σ, (congrArg Corner.session hexec).trans hheld, hready⟩
    obtain ⟨hbuffer', htold'⟩ := ih (fun d hd => ⟨(subset d (List.mem_cons_of_mem e hd)).1,
      (subset d (List.mem_cons_of_mem e hd)).2.1, hlater d hd⟩) hordered harrives hlisten'
    rw [hrun, hbuffer', htold', show (exec t c).buffer fp = (u.decryptAndEmit fp e.2).buffer fp from congrArg Corner.buffer hexec,
      show (exec t c).told fp = (u.decryptAndEmit fp e.2).told fp from congrArg Corner.told hexec, hbuffer, htold,
      show u.buffer fp = s.buffer fp from congrArg Corner.buffer hcorner,
      show u.told fp = s.told fp from congrArg Corner.told hcorner, List.append_assoc]
    exact ⟨rfl, rfl⟩

/-- Wherever the last handshake message comes among the first letters of the peer, up to 32 of them,
each is shown once, in order, and none stays held. -/
theorem overtaking_letters_shown (laws : SnowLaws P) (writes : NoiseSession.WritesInTurn) (τ : NoiseSession) (ms : List Bytes)
    (snow : NoiseSession.Hears Mine (τ.sent ms)) {s : MeshNode S} {σ σ' : NoiseSession} {msg3 : Bytes} {static : Key32}
    (held : s.noiseSessions[fp]? = some σ) (halfOpen : σ.InFlight) (responder : σ.initiator = false)
    (clear : s.buffer fp = []) (few : (τ.sent ms).length ≤ 32)
    (read : σ.readHandshake msg3 = .ok σ') (ready : σ'.Ready Mine) (remote : σ'.remoteStatic = some static)
    (announced : s.peerStaticDh[fp]? = some static) (i : ℕ) (calls : List Call)
    (arrives : Arrives fp s calls
      (posted ((τ.sent ms).take i) ++ (.noiseHandshake, msg3) :: posted ((τ.sent ms).drop i))) :
    (Runs.run exec s calls).told fp = s.told fp ++ (τ.sent ms).map (fun e => shownText e.1) ∧
      (Runs.run exec s calls).buffer fp = [] := by
  obtain ⟨hordered, hall⟩ := NoiseSession.sent_numbered writes τ ms
  have hsplit := List.take_append_drop i (τ.sent ms)
  have hearly : ∀ e ∈ (τ.sent ms).take i, e ∈ τ.sent ms := fun e he => List.mem_of_mem_take he
  have hlate : ∀ e ∈ (τ.sent ms).drop i, e ∈ τ.sent ms := fun e he => List.mem_of_mem_drop he
  rw [← hsplit, List.pairwise_append] at hordered
  obtain ⟨hordered₁, hordered₂, hacross⟩ := hordered
  -- what comes first is held
  obtain ⟨t, calls', ht, harrives, hrun⟩ := Arrives.holds halfOpen ((τ.sent ms).take i) arrives held (by
    rw [clear, List.length_take, List.length_nil]
    omega)
  -- the handshake message opens it
  obtain ⟨u, c, calls'', haside, hbrings, hrest, hrun'⟩ := harrives.first
  obtain ⟨v, link, pkt, hv, hkind, hpayload, hrecipient, hsender, hexec⟩ := hbrings.dispatched (by simp)
  have hcorner := (hv.trans haside).trans ht
  rw [clear, List.nil_append] at hcorner
  have hready : σ'.isReady = true := by
    obtain ⟨ts, hinner, -⟩ := ready
    exact NoiseSession.isReady_iff.mpr ⟨ts, hinner⟩
  let w : MeshNode S := { v with
    noiseSessions := v.noiseSessions.insert fp σ', handshakeLastMs := v.handshakeLastMs.insert fp v.clock }
  have hdispatch : v.dispatch link pkt = w.finishSession fp := by
    simp only [dispatch, hkind]
    exact handleNoiseHandshake_completes hrecipient hsender ((congrArg Corner.session hcorner).trans held) halfOpen responder
      (hpayload ▸ read) hready
  have hinserted : w.noiseSessions[fp]? = some σ' := Std.ExtTreeMap.getElem?_insert_self
  have hwindow : σ'.recvNonce = 0 := (NoiseSession.readHandshake_spec laws read).2.2.2.2.1 hready
  have hlisten : w.Listening Mine fp 0 := ⟨σ', hinserted, ready, hwindow.le⟩
  have hbound : w.bound fp = true := by
    have hstatic : w.peerStaticDh[fp]? = some static := (congrArg Corner.static hcorner).trans announced
    simp [bound, hinserted, remote, hstatic]
  rw [hdispatch] at hexec
  obtain ⟨N, hbefore, hafter⟩ : ∃ N, (∀ e ∈ (τ.sent ms).take i, payloadNonce e.2 < N) ∧
      ∀ e ∈ (τ.sent ms).drop i, N ≤ payloadNonce e.2 := by
    cases hmail : (τ.sent ms).drop i with
    | nil => exact ⟨2 ^ 64, fun e _ => payloadNonce_lt e.2, by simp⟩
    | cons d mail =>
      rw [hmail] at hacross hordered₂
      refine ⟨payloadNonce d.2, fun e he => hacross e he d List.mem_cons_self, fun e he => ?_⟩
      rcases List.mem_cons.mp he with rfl | he
      · exact Nat.le_refl _
      · exact ((List.pairwise_cons.mp hordered₂).1 e he).le
  obtain ⟨hopen, hempty, hfirst⟩ := finishSession_opens laws snow ((τ.sent ms).take i)
    (fun e he => ⟨hearly e he, (hall e (hearly e he)).2.2, hbefore e he⟩) hordered₁ hlisten hbound (congrArg Corner.buffer hcorner)
  have hopen' : (exec u c).Listening Mine fp N := by
    obtain ⟨σ₁, hheld₁, hready₁⟩ := hopen
    exact ⟨σ₁, (congrArg Corner.session hexec).trans hheld₁, hready₁⟩
  -- what comes after it is shown at once
  obtain ⟨hbuffer, hlast⟩ := Arrives.shows laws snow ((τ.sent ms).drop i)
    (fun e he => ⟨hlate e he, (hall e (hlate e he)).2.2, hafter e he⟩) hordered₂ hrest hopen'
  have htold : w.told fp = s.told fp := congrArg Corner.told hcorner
  constructor
  · rw [hrun, hrun', hlast, show (exec u c).told fp = (w.finishSession fp).told fp from congrArg Corner.told hexec, hfirst, htold,
      List.append_assoc, ← List.map_append, hsplit]
  · rw [hrun, hrun', hbuffer, show (exec u c).buffer fp = (w.finishSession fp).buffer fp from congrArg Corner.buffer hexec]
    exact hempty

end Exchange

end MeshNode
end CockroachChat

namespace CockroachChat.Reference
attribute [local instance] prims

theorem prims_writes : NoiseSession.WritesInTurn := letterbox_writes

theorem mix_length (b : Bytes) : (mix b).length = 2 := beBytes_length 2 _

/-- What is sealed at a nonce is opened at that nonce, by any state of the other end. -/
theorem openBox_sealed {ts : Transport} {n : ℕ} (hn : n < 2 ^ 64 - 1) (hrole : ts.initiator = false) (m : Bytes) :
    openBox { ts with receiving := n } (m ++ tag ts.transcript true n m) = .ok ({ ts with receiving := n + 1 }, m) := by
  have htake : (m ++ tag ts.transcript true n m).take ((m ++ tag ts.transcript true n m).length - 2) = m := by
    rw [List.length_append, tag, mix_length, Nat.add_sub_cancel, List.take_left]
  unfold openBox
  simp only [htake, hrole, Bool.not_false, hn, true_and, if_true]

/-- The states of the responder's end of a handshake. -/
def FarEnd (transcript : List Bytes) (ts : Transport) : Prop := ts.initiator = false ∧ ts.transcript = transcript

theorem farEnd_hears (ts : Transport) (hrole : ts.initiator = true) (ms : List Bytes) :
    NoiseSession.Hears (FarEnd ts.transcript) (NoiseSession.sent { inner := .transport ts, initiator := true } ms) := by
  constructor
  · rintro rs m payload ⟨hrs, htranscript⟩ hmem
    induction ms generalizing ts with
    | nil => cases hmem
    | cons m' ms ih =>
      by_cases hlast : ts.sending < 2 ^ 64 - 1
      · have hseal : NoiseSession.encrypt { inner := .transport ts, initiator := true } m' =
            .ok ({ inner := .transport { ts with sending := ts.sending + 1 }, initiator := true },
              beBytes 8 ts.sending ++ (m' ++ tag ts.transcript ts.initiator ts.sending m')) := by
          have hbox : prims.tsWriteMessage ts m' =
              .ok ({ ts with sending := ts.sending + 1 }, m' ++ tag ts.transcript ts.initiator ts.sending m') := if_pos hlast
          simp only [NoiseSession.encrypt, hbox]
          rfl
        rw [NoiseSession.sent, hseal] at hmem
        rcases List.mem_cons.mp hmem with heq | hmem
        · cases heq
          rw [payloadNonce_beBytes (by omega), List.drop_left' (beBytes_length 8 _), hrole, ← htranscript]
          exact ⟨_, openBox_sealed hlast hrs m, hrs, rfl⟩
        · exact ih { ts with sending := ts.sending + 1 } hrole htranscript hmem
      · have herror : NoiseSession.encrypt { inner := .transport ts, initiator := true } m' =
            .error (.noise "state error") := by
          have hbox : prims.tsWriteMessage ts m' = .error "state error" := if_neg hlast
          simp only [NoiseSession.encrypt, hbox]
          rfl
        rw [NoiseSession.sent, herror] at hmem
        exact ih ts hrole htranscript hmem
  · rintro rs m rs' c ⟨hrs, htranscript⟩ hwrite
    cases sealBox_ok hwrite
    exact ⟨hrs, htranscript⟩

/-- Node 1 sends a second text right after the first. -/
def pressing : Node := run (connected 1 2 "hi") [⟨1, .sendDm (fpOf 2) "yo"⟩]

/-- What it sends once it has the answer: the last handshake message and the two texts. -/
def pressed : List Bytes := framesFrom (calling 1 2 "hi").trace.length pressing

/-- Node 2 hears one of these. -/
def hears (i : ℕ) : Call := ⟨1, .transport (.frameReceived 0 (pressed.getD i []))⟩

/-- The payload of one of these. -/
def pressedPayload (i : ℕ) : Bytes := ((Packet.decode ((pressed.getD i []).drop 1)).toOption.map (·.payload)).getD []

/-- Node 2 hears the first text, ticks, hears the handshake message, and then the second text. -/
def overtakenBy : List Call := [hears 1, ⟨1, .tick⟩, hears 0, hears 2]

/-- The session that node 2 has before it hears the last handshake message. -/
def halfway : NoiseSession := ((answering 1 2 "hi").noiseSessions[fpOf 1]?).get (by decide +kernel)

/-- The session that the handshake message completes. -/
def complete : NoiseSession := (halfway.readHandshake (pressedPayload 0)).toOption.get (by decide +kernel)

/-- The other end of it. -/
def callerTransport : Transport :=
  { initiator := true, transcript := complete.transcript, remote := none, sending := 0, receiving := 0 }

/-- The session of node 1 after its last handshake message. -/
def callerSession : NoiseSession := { inner := .transport callerTransport, initiator := true }

/-- The role that a session that is ready has in its transport. -/
def transportRole (σ : NoiseSession) : Option Bool :=
  match σ.inner with
  | .transport ts => some ts.initiator
  | _ => none

def twoTexts : List Bytes := [dmKindText :: asBytes "hi", dmKindText :: asBytes "yo"]

instance (s : Node) (c : Call) (x : MsgType × Bytes) : Decidable (MeshNode.Brings (fpOf 1) s c x) :=
  decidable_of_iff (∃ pkt ∈ (s.at_ c.now).taken c.action, pkt.msgType = x.1 ∧ pkt.payload = x.2 ∧
    pkt.recipient = some s.identity.ephId ∧ s.ephToFp pkt.sender = some (fpOf 1)) (by simp [MeshNode.Brings])

theorem caller_sent : callerSession.sent twoTexts =
    [(dmKindText :: asBytes "hi", pressedPayload 1), (dmKindText :: asBytes "yo", pressedPayload 2)] := by decide +kernel

theorem overtakenBy_arrives : MeshNode.Arrives (fpOf 1) (answering 1 2 "hi") overtakenBy
    (MeshNode.posted ((callerSession.sent twoTexts).take 1) ++ (.noiseHandshake, pressedPayload 0) ::
      MeshNode.posted ((callerSession.sent twoTexts).drop 1)) := by
  rw [caller_sent]
  refine .next (by decide +kernel) (.aside ?_ (.next (by decide +kernel) (.next (by decide +kernel) (.done _))))
  exact MeshNode.tick_aside laws (s := (MeshNode.exec (answering 1 2 "hi") (hears 1)).at_ 1) (by decide +kernel)

/-- Node 2 hears a text of node 1, then the handshake message it belongs after, then another text. -/
theorem texts_around_handshake :
    (run (answering 1 2 "hi") overtakenBy).told (fpOf 1) = [("hi", 0), ("yo", 0)] ∧
      (run (answering 1 2 "hi") overtakenBy).buffer (fpOf 1) = [] := by
  have hheld : (answering 1 2 "hi").noiseSessions[fpOf 1]? = some halfway := (Option.some_get _).symm
  have hread : halfway.readHandshake (pressedPayload 0) = .ok complete := by
    have hok : (halfway.readHandshake (pressedPayload 0)).toOption = some complete := (Option.some_get _).symm
    cases hcase : halfway.readHandshake (pressedPayload 0) with
    | error e => rw [hcase] at hok; cases hok
    | ok σ => rw [hcase] at hok; cases hok; rfl
  have hopen : halfway.InFlight := by
    have hshaking : halfway.isHandshaking = true := by decide +kernel
    refine ⟨?_, .inr (by decide +kernel)⟩
    unfold NoiseSession.isHandshaking at hshaking
    split at hshaking
    · exact ⟨_, by assumption⟩
    · cases hshaking
  have hready : complete.Ready (FarEnd complete.transcript) := by
    have hisReady : complete.isReady = true := by decide +kernel
    obtain ⟨ts, hinner⟩ := NoiseSession.isReady_iff.mp hisReady
    have hrole : transportRole complete = some false := by decide +kernel
    rw [transportRole, hinner] at hrole
    refine ⟨ts, hinner, Option.some.inj hrole, ?_⟩
    simp only [NoiseSession.transcript, hinner]
    rfl
  have hlisten : NoiseSession.Hears (FarEnd complete.transcript) (callerSession.sent twoTexts) := farEnd_hears callerTransport rfl _
  have hremote : complete.remoteStatic = some (publicOf (Vector.replicate 32 1)) := by decide +kernel
  have hrun := MeshNode.overtaking_letters_shown laws prims_writes callerSession twoTexts hlisten hheld hopen (by decide +kernel)
    (by decide +kernel) (by decide +kernel) hread hready hremote (by decide +kernel) 1 overtakenBy overtakenBy_arrives
  rw [caller_sent] at hrun
  exact ⟨hrun.1.trans (by decide +kernel), hrun.2⟩

end CockroachChat.Reference
