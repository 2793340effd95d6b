import CockroachChat.Sessions.Beats
import CockroachChat.Sessions.Binding
import CockroachChat.Sessions.Surroundings

/-! # Calls as chains of beats -/
namespace CockroachChat.MeshNode
set_option autoImplicit false

variable [P : Prims] {S : Type} [Store S]

omit [Store S] in
theorem ready_iff {s : MeshNode S} {fp : Fingerprint} : s.desk.ready fp ↔ s.sessionReady fp = true := sessionReady_iff.symm

/-- Nothing but the trace and the side tables of the store changes. -/
theorem idle_beats {s s' : MeshNode S} (os : List Obs) (hand : List Errand) (writes : SideWrites s.store s'.store)
    (desk : s'.desk = { s.desk with store := s'.store }.note os) (quiet : ∀ o ∈ os, o.Idle) :
    Beats (s.desk, hand) (s'.desk, hand) := by
  rw [desk]
  exact .single (.idle s.desk s'.store os hand writes quiet)

/-- The desk is as it was. -/
theorem same_beats {s s' : MeshNode S} (hand : List Errand) (desk : s'.desk = s.desk) : Beats (s.desk, hand) (s'.desk, hand) := by
  rw [desk]

/-! ## Encrypting and decrypting -/

omit [Store S] in
theorem encryptAndSendDm_seal (laws : SnowLaws P) {s : MeshNode S} {fp : Fingerprint} (ready : s.sessionReady fp = true)
    (kind : UInt8) (body : Bytes) : Seal s.desk fp (kind :: body) (s.encryptAndSendDm fp kind body).desk := by
  obtain ⟨σ, held, hσ⟩ := sessionReady_iff.mp ready
  cases henc : σ.encrypt (kind :: body) with
  | error e =>
    have heq : s.encryptAndSendDm fp kind body = s.note (.encryptCall fp σ.view (kind :: body)) := by
      simp only [encryptAndSendDm, held, henc]
    rw [heq]
    exact .refused σ held hσ e henc
  | ok r =>
    obtain ⟨σ', ct⟩ := r
    obtain ⟨-, ready', view, -⟩ := NoiseSession.encrypt_spec laws henc
    have heq : s.encryptAndSendDm fp kind body =
        ({ s with
            noiseSessions := s.noiseSessions.insert fp σ'
            trace := s.trace ++ [.encryptCall fp σ.view (kind :: body),
              .encrypted fp σ.view σ.sendNonce (kind :: body)] } : MeshNode S).sendDirected
          .directMessage fp ct := by
      simp [encryptAndSendDm, held, henc, note]
    obtain ⟨seen, os, hsend, hos, -⟩ := sendDirected_carries
      ({ s with
          noiseSessions := s.noiseSessions.insert fp σ'
          trace := s.trace ++ [.encryptCall fp σ.view (kind :: body),
            .encrypted fp σ.view σ.sendNonce (kind :: body)] } : MeshNode S) .directMessage fp ct
    have hpass : Seal s.desk fp (kind :: body) ({ s.desk with sessions := s.desk.sessions.insert fp σ' }.note
        (.encryptCall fp σ.view (kind :: body) :: .encrypted fp σ.view σ.sendNonce (kind :: body) :: os)) :=
      .sealed σ σ' held hσ ready' view ct henc os hos
    rw [heq, hsend]
    simpa [desk, Desk.note] using hpass

theorem trySendVerifyNotice_beats (laws : SnowLaws P) (s : MeshNode S) (fp : Fingerprint) (hand : List Errand) :
    Beats (s.desk, hand) ((s.trySendVerifyNotice fp).desk, hand) ∧
      (s.sessionReady fp = true → (s.trySendVerifyNotice fp).sessionReady fp = true) := by
  unfold trySendVerifyNotice
  split_ifs with h
  · rw [Bool.and_eq_true] at h
    have hpass := encryptAndSendDm_seal laws (s := { s with
      noticePending := s.noticePending.erase fp
      store := Store.putDm s.store (ownRow fp s.clock [dmKindVerifyNotice]) }) h.1 dmKindVerifyNotice []
    exact ⟨.single (.notify s.desk _ fp hand h.2 hpass), fun _ => ready_iff.mp hpass.ready⟩
  · exact ⟨.refl, id⟩

theorem decryptAndEmit_beats (laws : SnowLaws P) (s : MeshNode S) (fp : Fingerprint) (ct : Bytes) (hand : List Errand) :
    Beats (s.desk, hand) ((s.decryptAndEmit fp ct).desk, hand) ∧
      (s.sessionReady fp = true → (s.decryptAndEmit fp ct).sessionReady fp = true) := by
  cases held : s.noiseSessions[fp]? with
  | none =>
    simp only [decryptAndEmit, held]
    exact ⟨.refl, id⟩
  | some σ =>
    rcases hdec : σ.decrypt ct with ⟨σ', e | pt⟩
    · rw [decryptAndEmit_error laws held (congrArg Prod.snd hdec)]
      exact ⟨.refl, id⟩
    · obtain ⟨ready, ready', view, -, -⟩ := NoiseSession.decrypt_ok laws hdec
      have hr : (s.received fp σ σ' (ofBe (ct.take 8)) pt).sessionReady fp = true := by
        rw [sessionReady_insert (s := s) (σ := σ') rfl, if_pos rfl, ready']
      rw [decryptAndEmit_ok held hdec]
      split_ifs with hk
      · have hpass := encryptAndSendDm_seal laws (s := { s.received fp σ σ' (ofBe (ct.take 8)) pt with
          store := Store.putDm (s.received fp σ σ' (ofBe (ct.take 8)) pt).store (ownRow fp s.clock [dmKindVerifyAck]) }) hr
          dmKindVerifyAck []
        exact ⟨.single (.answer s.desk _ fp σ σ' _ pt _ hand held ready ready' view hk hpass), fun _ => ready_iff.mp hpass.ready⟩
      · exact ⟨.single (.receive s.desk fp σ σ' _ pt _ hand held ready ready' view hk), fun _ => hr⟩

/-! ## Completing a handshake -/

/-- The texts are taken up one by one. -/
theorem sendAll_beats (laws : SnowLaws P) (fp : Fingerprint) (hand : List Errand) (texts : List String) (s : MeshNode S)
    (ready : s.sessionReady fp = true) :
    Beats (s.desk, texts.map (.text fp) ++ hand)
        ((texts.foldl (fun s text => s.encryptAndSendDm fp dmKindText (asBytes text)) s).desk, hand) ∧
      (texts.foldl (fun s text => s.encryptAndSendDm fp dmKindText (asBytes text)) s).sessionReady fp = true := by
  induction texts generalizing s with
  | nil => exact ⟨.refl, ready⟩
  | cons text texts ih =>
    have hpass := encryptAndSendDm_seal laws ready dmKindText (asBytes text)
    obtain ⟨hrest, hready⟩ := ih _ (ready_iff.mp hpass.ready)
    exact ⟨hrest.head (.send s.desk _ fp text _ hpass), hready⟩

theorem drainInbound_beats (laws : SnowLaws P) (s : MeshNode S) (fp : Fingerprint) (hand : List Errand) :
    Beats (s.desk, hand) ((s.drainInbound fp).desk, hand) := by
  have hloop : ∀ (cts : List Bytes) (t : MeshNode S),
      Beats (t.desk, hand) ((cts.foldl (fun s ct => s.decryptAndEmit fp ct) t).desk, hand) := by
    intro cts
    induction cts with
    | nil => exact fun t => .refl
    | cons ct cts ih => exact fun t => (decryptAndEmit_beats laws t fp ct hand).1.trans (ih _)
  exact hloop _ { s with pendingInboundDms := s.pendingInboundDms.erase fp }

/-! What waits for a session plays no part in encrypting. -/

omit [Store S] in
theorem sendDirected_pending (s : MeshNode S) (t : MsgType) (fp : Fingerprint) (payload : Bytes)
    (pending : Std.ExtTreeMap Fingerprint (List String)) :
    ({ s with pendingDms := pending } : MeshNode S).sendDirected t fp payload = { s.sendDirected t fp payload with pendingDms := pending } := by
  cases h : s.fpToEph[fp]? with
  | none => rw [sendDirected_none h, sendDirected_none (s := { s with pendingDms := pending }) h]
  | some eph =>
    rw [sendDirected_some h, sendDirected_some (s := { s with pendingDms := pending }) h]
    rfl

omit [Store S] in
theorem encryptAndSendDm_pending (s : MeshNode S) (fp : Fingerprint) (kind : UInt8) (body : Bytes)
    (pending : Std.ExtTreeMap Fingerprint (List String)) :
    ({ s with pendingDms := pending } : MeshNode S).encryptAndSendDm fp kind body =
      { s.encryptAndSendDm fp kind body with pendingDms := pending } := by
  cases held : s.noiseSessions[fp]? with
  | none => simp only [encryptAndSendDm, held]
  | some σ =>
    cases henc : σ.encrypt (kind :: body) with
    | error e => simp only [encryptAndSendDm, held, henc, note]
    | ok r =>
      simp only [encryptAndSendDm, held, henc, note]
      exact sendDirected_pending { s with
        noiseSessions := s.noiseSessions.insert fp r.1
        trace := s.trace ++ [.encryptCall fp σ.view (kind :: body)] ++ [.encrypted fp σ.view σ.sendNonce (kind :: body)] }
        .directMessage fp r.2 pending

theorem trySendVerifyNotice_pending (s : MeshNode S) (fp : Fingerprint) (pending : Std.ExtTreeMap Fingerprint (List String)) :
    ({ s with pendingDms := pending } : MeshNode S).trySendVerifyNotice fp = { s.trySendVerifyNotice fp with pendingDms := pending } := by
  unfold trySendVerifyNotice
  by_cases h : (s.sessionReady fp && s.noticePending.contains fp) = true
  · rw [if_pos h, if_pos (show ((MeshNode.sessionReady { s with pendingDms := pending } fp) && _) = true from h)]
    exact encryptAndSendDm_pending { s with
      noticePending := s.noticePending.erase fp
      store := Store.putDm s.store (ownRow fp s.clock [dmKindVerifyNotice]) } fp dmKindVerifyNotice [] pending
  · rw [if_neg h, if_neg (show ¬ ((MeshNode.sessionReady { s with pendingDms := pending } fp) && _) = true from h)]

/-- `finish_session` on a session that has just become ready, from the state before the message that
completed it. -/
theorem finishSession_beats (laws : SnowLaws P) {s t : MeshNode S} {fp : Fingerprint} {σ σ' : NoiseSession} {ms : List Bytes}
    {os : List Obs} (hand : List Errand) (held : s.noiseSessions[fp]? = some σ) (shape : σ.InFlight)
    (desk : t.desk = { s.desk with sessions := s.noiseSessions.insert fp σ' }.note os) (ready : σ'.isReady = true)
    (transcript : σ'.transcript = σ.transcript ++ ms) (role : σ'.initiator = σ.initiator) (written : Written fp σ'.initiator os) :
    Beats (s.desk, hand) ((t.finishSession fp).desk, hand) := by
  have hsessions : t.noiseSessions = s.noiseSessions.insert fp σ' := congrArg Desk.sessions desk
  have hpending : t.pendingDms = s.pendingDms := congrArg Desk.pendingDms desk
  have htrace : t.trace = s.trace ++ os := congrArg Desk.trace desk
  unfold finishSession
  split_ifs with hbound
  · have hend : (t.rejectSession fp).desk = { s.desk with
        sessions := s.noiseSessions.erase fp
        pendingDms := s.pendingDms.erase fp }.note (os ++ [Obs.event (.dmSession fp false) none]) := by
      have hfields : (t.rejectSession fp).desk = { t.desk with
          sessions := t.noiseSessions.erase fp
          pendingDms := t.pendingDms.erase fp
          trace := t.trace ++ [.event (.dmSession fp false) none] } := rfl
      rw [hfields, desk, hsessions, hpending, htrace, Maps.erase_insert, List.append_assoc]
      rfl
    rw [hend]
    exact .single (.reject s.desk fp σ'.initiator os hand written)
  · let u : MeshNode S := { t with
      handshakeLastMs := t.handshakeLastMs.erase fp
      handshakeAttempts := t.handshakeAttempts.erase fp
      resyncPending := t.resyncPending.erase fp }.emitFor fp (.dmSession fp true)
    -- the texts that waited leave their place when the session is up
    let v : MeshNode S := { u with pendingDms := u.pendingDms.erase fp }
    have hview : t.sessionView fp = some σ'.view := by simp [sessionView, hsessions]
    have hup : v.desk = { s.desk with
        sessions := s.noiseSessions.insert fp σ'
        pendingDms := s.pendingDms.erase fp }.note (os ++ [Obs.event (.dmSession fp true) (some σ'.view)]) := by
      have hfields : v.desk = { t.desk with
          pendingDms := t.pendingDms.erase fp
          trace := t.trace ++ [.event (.dmSession fp true) (t.sessionView fp)] } := rfl
      rw [hfields, desk, hpending, htrace, hview, List.append_assoc]
      rfl
    have hready : v.sessionReady fp = true := by
      have hv : v.noiseSessions = s.noiseSessions.insert fp σ' := hsessions
      rw [sessionReady_insert (s := s) hv, if_pos rfl, ready]
    have htaken : u.pendingDms[fp]?.getD [] = s.pendingDms[fp]?.getD [] := by rw [← hpending]; rfl
    have hdrain : (u.trySendVerifyNotice fp).drainOutbound fp = (s.pendingDms[fp]?.getD []).foldl
        (fun s text => s.encryptAndSendDm fp dmKindText (asBytes text)) (v.trySendVerifyNotice fp) := by
      have hkeep : (u.trySendVerifyNotice fp).pendingDms = u.pendingDms := by
        have hsame := congrArg MeshNode.pendingDms (trySendVerifyNotice_pending u fp u.pendingDms)
        exact hsame
      unfold drainOutbound
      simp only
      rw [hkeep, htaken]
      congr 1
      exact (trySendVerifyNotice_pending u fp (u.pendingDms.erase fp)).symm
    have hcomplete := Beat.complete s.desk fp σ σ' ms os hand held shape ready transcript role written
    obtain ⟨hnotice, hready'⟩ := trySendVerifyNotice_beats laws v fp ((s.pendingDms[fp]?.getD []).map (.text fp) ++ hand)
    have hsend := (sendAll_beats laws fp hand (s.pendingDms[fp]?.getD []) _ (hready' hready)).1
    rw [← hdrain] at hsend
    rw [hup] at hnotice
    exact ((Relation.ReflTransGen.single hcomplete).trans hnotice).trans (hsend.trans (drainInbound_beats laws _ fp hand))

/-! ## Driving a handshake -/

omit [Store S] in
/-- The desk once a handshake message is out. -/
theorem handshakeOut_desk (s : MeshNode S) (fp : Fingerprint) (σ : NoiseSession) (m : Bytes) :
    ∃ os, (s.handshakeOut fp σ m).desk = { s.desk with sessions := s.noiseSessions.insert fp σ }.note (.wrote fp σ.initiator m :: os) ∧
      (∀ o ∈ os, o.Carries .noiseHandshake m) ∧ (s.fpToEph[fp]? = none → os = []) := by
  obtain ⟨seen, os, heq, hos, hroute⟩ := handshakeOut_carries s fp σ m
  exact ⟨os, by rw [heq]; rfl, hos, hroute⟩

theorem beginHandshake_beats (laws : SnowLaws P) (s : MeshNode S) (fp : Fingerprint) (hand : List Errand) :
    Beats (s.desk, hand) ((s.beginHandshake fp).desk, hand) := by
  obtain ⟨σ, m, hfresh, heq⟩ := beginHandshake_spec laws s fp
  rw [heq, begun]
  obtain ⟨os, hdesk, hos, hroute⟩ := handshakeOut_desk { s with
    handshakeLastMs := s.handshakeLastMs.insert fp s.clock
    handshakeAttempts := s.handshakeAttempts.insert fp (s.handshakeAttempts[fp]?.getD 0 + 1) } fp σ m
  rw [hdesk]
  exact .single (.start s.desk fp σ m os hand (hfresh.spec laws).1 (hfresh.own laws) hos hroute)

theorem Handled.beats (laws : SnowLaws P) {s t : MeshNode S} {fp : Fingerprint} {payload : Bytes} (h : Handled s fp payload t)
    (hand : List Errand) : Beats (s.desk, hand) (t.desk, hand) := by
  cases h with
  | counted ready tally => exact same_beats hand rfl
  | won σ held shape role len lower => exact .refl
  | refused base opens σ₀ e new read =>
    obtain ⟨tallies, rfl⟩ := opens.base_eq
    have hend : Beats (s.desk, hand) ({ s.desk with sessions := (s.noiseSessions.erase fp).erase fp }, hand) := by
      rw [Maps.erase_erase]
      exact .single (.lose s.desk fp hand)
    exact hend
  | answered base opens σ₀ σ₁ σ m new read shape role transcript =>
    obtain ⟨tallies, rfl⟩ := opens.base_eq
    obtain ⟨os, hdesk, hos, hroute⟩ := handshakeOut_desk { s with
      resyncPending := tallies
      noiseSessions := s.noiseSessions.erase fp
      handshakeLastMs := s.handshakeLastMs.insert fp s.clock
      handshakeAttempts := s.handshakeAttempts.insertIfNew fp 0 } fp σ m
    have hlost : Beats (s.desk, hand) ({ s.desk with sessions := s.noiseSessions.erase fp }, hand) := .single (.lose s.desk fp hand)
    refine hlost.trans ?_
    rw [hdesk]
    exact .single (.start _ fp σ m os hand shape (by simp [NoiseSession.ownMsg, role, transcript]) hos hroute)
  | lost σ e held shape other read => exact .single (.lose s.desk fp hand)
  | finished σ σ₁ σ' ms drawn seen os held shape other read quiet ready transcript role window written =>
    exact finishSession_beats laws hand held shape rfl ready transcript role written

theorem handleNoiseHandshake_beats (laws : SnowLaws P) {s : MeshNode S} (shaped : s.Shaped) (pkt : Packet) (hand : List Errand) :
    Beats (s.desk, hand) ((s.handleNoiseHandshake pkt).desk, hand) := by
  by_cases recipient : pkt.recipient = some s.identity.ephId
  · cases sender : s.ephToFp pkt.sender with
    | none => rw [handleNoiseHandshake_ignored (.inr sender)]
    | some fp =>
      rw [handleNoiseHandshake_eq recipient sender]
      exact (handleHandshake_cases laws shaped fp pkt.payload).beats laws hand
  · rw [handleNoiseHandshake_ignored (.inl recipient)]

theorem handleDirectMessage_beats (laws : SnowLaws P) (s : MeshNode S) (pkt : Packet) (hand : List Errand) :
    Beats (s.desk, hand) ((s.handleDirectMessage pkt).desk, hand) := by
  unfold handleDirectMessage
  split_ifs with recipient
  · exact .refl
  · cases s.ephToFp pkt.sender with
    | none => exact .refl
    | some fp =>
      simp only
      cases s.sessionReady fp with
      | true => exact (decryptAndEmit_beats laws s fp pkt.payload hand).1
      | false =>
        simp only [Bool.not_false, if_true]
        generalize s.pendingInboundDms.insert fp _ = inbound
        split_ifs
        · exact beginHandshake_beats laws { s with pendingInboundDms := inbound } fp hand
        · exact same_beats hand rfl

theorem retryStalledHandshakes_beats (laws : SnowLaws P) (s : MeshNode S) (now : Millis) (hand : List Errand) :
    Beats (s.desk, hand) ((s.retryStalledHandshakes now).desk, hand) := by
  have hloop : ∀ (l : List Fingerprint) (t : MeshNode S), Beats (t.desk, hand) ((l.foldl
      (fun s fp => { s with noiseSessions := s.noiseSessions.erase fp }.beginHandshake fp) t).desk, hand) := by
    intro l
    induction l with
    | nil => exact fun t => .refl
    | cons fp l ih =>
      intro t
      have hlose : Beats (t.desk, hand) (({ t with noiseSessions := t.noiseSessions.erase fp } : MeshNode S).desk, hand) :=
        .single (.lose t.desk fp hand)
      exact (hlose.trans (beginHandshake_beats laws _ fp hand)).trans (ih _)
  exact hloop _ s

/-! ## Direct message commands -/

theorem sendDm_beats (laws : SnowLaws P) (s : MeshNode S) (fp : Fingerprint) (text : String) (hand : List Errand) :
    Beats (s.desk, .text fp text :: hand) ((s.sendDm fp text).desk, hand) := by
  let t : MeshNode S := { s with store := Store.putDm s.store (ownRow fp s.clock (asBytes text)) }
  have hput : Beats (s.desk, .text fp text :: hand) (t.desk, .text fp text :: hand) := .single (.record s.desk fp text hand)
  refine hput.trans ?_
  have heq : s.sendDm fp text =
      if t.sessionReady fp then t.encryptAndSendDm fp dmKindText (asBytes text)
      else if !t.fpToEph.contains fp then
        { t with store := Store.queueEnvelope t.store fp (asBytes text) t.clock }
      else
        let u : MeshNode S := { t with pendingDms := t.pendingDms.insert fp (t.pendingDms[fp]?.getD [] ++ [text]) }
        if !u.noiseSessions.contains fp then u.beginHandshake fp
        else
          { u with
            handshakeAttempts := u.handshakeAttempts.erase fp
            handshakeLastMs := u.handshakeLastMs.erase fp } := rfl
  rw [heq]
  split_ifs with ready routable
  · exact .single (.send t.desk _ fp text hand (encryptAndSendDm_seal laws ready dmKindText (asBytes text)))
  · have hunrouted : t.fpToEph[fp]? = none := by
      rw [Bool.not_eq_true', Std.ExtTreeMap.contains_eq_isSome_getElem?, Option.isSome_eq_false_iff,
        Option.isNone_iff_eq_none] at routable
      exact routable
    exact .single (.hold t.desk fp text hand (fun h => ready (ready_iff.mp h)) hunrouted)
  · obtain ⟨eph, hrouted⟩ : ∃ eph, t.fpToEph[fp]? = some eph := by
      rw [Bool.not_eq_true', Bool.not_eq_false, Std.ExtTreeMap.contains_eq_isSome_getElem?] at routable
      exact Option.isSome_iff_exists.mp routable
    let u : MeshNode S := { t with pendingDms := t.pendingDms.insert fp (t.pendingDms[fp]?.getD [] ++ [text]) }
    have hqueue : Beats (t.desk, .text fp text :: hand) (u.desk, hand) :=
      .single (.queue t.desk fp eph text hand (fun h => ready (ready_iff.mp h)) hrouted)
    refine hqueue.trans ?_
    simp only
    split_ifs
    · exact beginHandshake_beats laws u fp hand
    · exact same_beats hand rfl

theorem startDmSession_beats (laws : SnowLaws P) (s : MeshNode S) (fp : Fingerprint) (hand : List Errand) :
    Beats (s.desk, hand) ((s.startDmSession fp).desk, hand) := by
  unfold startDmSession
  split_ifs
  · exact idle_beats [.event (.dmSession fp true) (s.sessionView fp)] hand .refl rfl (by simp [Obs.Idle])
  · exact .refl
  · exact beginHandshake_beats laws s fp hand
  · exact .refl

/-! ## Steps of no text and no handshake -/

/-- Only idle observations are added to the desk. -/
def Idles (s s' : MeshNode S) : Prop := ∃ os, s'.desk = s.desk.note os ∧ ∀ o ∈ os, o.Idle

section Idles
omit [Store S]
variable {s s₁ s₂ : MeshNode S}

theorem Idles.of_desk (desk : s₁.desk = s.desk) : Idles s s₁ := ⟨[], by rw [desk]; simp [Desk.note], by simp⟩

theorem Idles.trans (h₁ : Idles s s₁) (h₂ : Idles s₁ s₂) : Idles s s₂ := by
  obtain ⟨os₁, hdesk₁, hos₁⟩ := h₁
  obtain ⟨os₂, hdesk₂, hos₂⟩ := h₂
  refine ⟨os₁ ++ os₂, ?_, fun o ho => (List.mem_append.mp ho).elim (hos₁ o) (hos₂ o)⟩
  rw [hdesk₂, hdesk₁, Desk.note, Desk.note, Desk.note, List.append_assoc]

theorem Idles.foldl {β : Type} (body : MeshNode S → β → MeshNode S) (hbody : ∀ t b, Idles t (body t b)) (l : List β)
    (s : MeshNode S) : Idles s (l.foldl body s) := by
  induction l generalizing s with
  | nil => exact .of_desk rfl
  | cons b l ih => exact (hbody s b).trans (ih (body s b))

theorem Idles.note {o : Obs} (h : o.Idle) : Idles s (s.note o) := ⟨[o], rfl, by simpa using h⟩

theorem Idles.emit {e : MeshEvent} (h : (Obs.event e none).Idle) : Idles s (s.emit e) := ⟨[.event e none], rfl, by simpa using h⟩

theorem sendBytes_idles (link : LinkId) (bytes : Bytes) (digest : Digest) (mtu : ℕ) : Idles s (s.sendBytes link bytes digest mtu) := by
  rw [sendBytes_eq]
  refine ⟨sendObs link bytes digest mtu, rfl, fun o ho => ?_⟩
  unfold sendObs at ho
  split at ho
  · obtain ⟨f, -, rfl⟩ := List.mem_map.mp ho
    trivial
  · cases ho

theorem flood_idles {pkt : Packet} (other : pkt.msgType ≠ .noiseHandshake) : Idles s (s.flood pkt) := by
  refine ⟨.originate pkt :: s.broadcastObs pkt none, rfl, fun o ho => ?_⟩
  rcases List.mem_cons.mp ho with rfl | ho
  · exact other
  · obtain ⟨link, f, rfl⟩ := broadcastObs_sends s pkt none o ho
    trivial

theorem dedupLinks_idles : Idles s s.dedupLinks := by
  refine .trans (.of_desk rfl) (.foldl closeLink (fun t id => ?_) s.resolveLinks.redundantLinks s.resolveLinks)
  exact ⟨[.close id], rfl, by simp [Obs.Idle]⟩

theorem tagged_idles (link : LinkId) (pkt : Packet) : Idles s (s.tagged link pkt) := by
  unfold tagged noteLinkIdentity
  split_ifs
  · cases s.links[link]? with
    | none => exact dedupLinks_idles
    | some l =>
      simp only
      split_ifs
      · exact .trans (.of_desk rfl) dedupLinks_idles
      · exact dedupLinks_idles
  · exact .of_desk rfl

theorem maybeRelay_idles (link : LinkId) (pkt : Packet) : Idles s (s.maybeRelay link pkt) := by
  obtain ⟨rng, scheduler, heq⟩ := maybeRelay_update s link pkt
  exact .of_desk (by rw [heq]; rfl)

theorem swept_idles : Idles s s.swept := by
  rw [swept_eq]
  refine ⟨s.relays.flatMap s.forwarded, rfl, fun o ho => ?_⟩
  obtain ⟨r, -, hr⟩ := List.mem_flatMap.mp ho
  obtain ⟨link, f, rfl⟩ := broadcastObs_sends s _ _ o hr
  trivial

end Idles

theorem Idles.beats {s s' : MeshNode S} (h : Idles s s') (hand : List Errand) : Beats (s.desk, hand) (s'.desk, hand) := by
  obtain ⟨os, hdesk, hos⟩ := h
  rw [hdesk]
  exact .single (.idle s.desk s.store os hand .refl hos)

theorem sendSyncRequests_idles (s : MeshNode S) (link : LinkId) : Idles s (s.sendSyncRequests link) := by
  refine .foldl _ (fun t channel => ?_) _ _
  refine .trans (.note ?_) (sendBytes_idles _ _ _ _)
  exact fun h => absurd (show MsgType.syncRequest = MsgType.noiseHandshake from h) (by decide)

theorem handleSyncRequest_idles (s : MeshNode S) (link : LinkId) (pkt : Packet) : Idles s (s.handleSyncRequest link pkt) := by
  have hone : ∀ (t : MeshNode S) (digest : Digest), Idles t (t.resendStored link digest) := by
    intro t digest
    unfold resendStored
    cases Store.messageByDigest t.store digest with
    | none => exact .of_desk rfl
    | some m =>
      simp only
      split_ifs
      · exact sendBytes_idles _ _ _ _
      · exact .of_desk rfl
  unfold handleSyncRequest
  cases decodeSync pkt.payload with
  | none => exact .of_desk rfl
  | some remote => exact .foldl _ hone _ _

theorem handleChannel_beats (s : MeshNode S) (pkt : Packet) (hand : List Errand) :
    Beats (s.desk, hand) ((s.handleChannel pkt).desk, hand) := by
  rcases handleChannel_update s pkt with hdrop | ⟨channel, text, verified, -, -, hput⟩
  · rw [hdrop]
  · rw [hput]
    simp only
    split_ifs
    · exact idle_beats [.event (.messageReceived channel pkt.sender text pkt.timestampMs.toNat verified) none] hand
        (.single (.channel _ _)) rfl (by simp [Obs.Idle])
    · exact idle_beats [] hand (.single (.channel _ _)) (by simp [Desk.note, desk]) (by simp)

/-! ## Announces -/

theorem noteKeyChange_desk (s : MeshNode S) (fp : Fingerprint) (prev : Option Key32) (dh : Key32) :
    ∃ st os, (s.noteKeyChange fp prev dh).desk = { s.desk with store := st }.note os ∧ SideWrites s.store st ∧ ∀ o ∈ os, o.Idle := by
  unfold noteKeyChange
  cases prev with
  | none => exact ⟨s.store, [], by simp [Desk.note, desk], .refl, by simp⟩
  | some prev =>
    simp only
    split_ifs
    · exact ⟨_, [.event (.peerKeyChanged fp) none], rfl, .single (.marker s.store fp s.clock), by simp [Obs.Idle]⟩
    · exact ⟨s.store, [], by simp [Desk.note, desk], .refl, by simp⟩

/-- An accepted announce, with what was held for the peer taken up. -/
theorem announced_beats (s : MeshNode S) (pkt : Packet) (ed dh : Key32) (nick : String) (hand : List Errand) :
    let t := (s.announced pkt ed dh nick).dedupLinks
    let fp : Fingerprint := P.sha256 ed.toList
    Beats (s.desk, hand) (({ t with store := (Store.takeEnvelopes t.store fp).1 } : MeshNode S).desk,
      (Store.takeEnvelopes t.store fp).2.map (fun b => .text fp (fromUtf8Lossy b)) ++ hand) := by
  intro t fp
  let u : MeshNode S := { s.note (.accept pkt) with
    ephKeys := s.ephKeys.insert pkt.sender ed
    fpToEph := s.fpToEph.insert fp pkt.sender
    peerStaticDh := s.peerStaticDh.insert fp dh }
  obtain ⟨st₁, os₁, hdesk₁, hwrites₁, hidle₁⟩ := noteKeyChange_desk u fp s.peerStaticDh[fp]? dh
  obtain ⟨st₂, os₂, hdesk₂, hwrites₂, hidle₂⟩ : ∃ st os, (s.announced pkt ed dh nick).desk =
      { (u.noteKeyChange fp s.peerStaticDh[fp]? dh).desk with store := st }.note os ∧
      SideWrites (u.noteKeyChange fp s.peerStaticDh[fp]? dh).store st ∧ ∀ o ∈ os, o.Idle :=
    ⟨_, [.event (.peerAppeared fp pkt.sender (if nick.isEmpty then none else some nick)) none], rfl,
      .single (.peer _ _), by simp [Obs.Idle]⟩
  obtain ⟨os₃, hdesk₃, hidle₃⟩ := dedupLinks_idles (s := s.announced pkt ed dh nick)
  have hstore : t.store = st₂ := (congrArg Desk.store hdesk₃).trans (congrArg Desk.store hdesk₂)
  have hmid : (u.noteKeyChange fp s.peerStaticDh[fp]? dh).store = st₁ := congrArg Desk.store hdesk₁
  have hwrites : SideWrites s.store t.store := by
    rw [hstore]
    rw [hmid] at hwrites₂
    exact Relation.ReflTransGen.trans hwrites₁ hwrites₂
  have hdesk : t.desk = { s.desk with fpToEph := s.fpToEph.insert fp pkt.sender, store := t.store }.note
      (.accept pkt :: (os₁ ++ os₂ ++ os₃)) := by
    rw [hdesk₃, hdesk₂, hdesk₁, hstore]
    simp [Desk.note, desk, u, note]
  have hidle : ∀ o ∈ Obs.accept pkt :: (os₁ ++ os₂ ++ os₃), o.Idle := by
    intro o ho
    simp only [List.mem_cons, List.mem_append] at ho
    rcases ho with rfl | (ho | ho) | ho
    · trivial
    · exact hidle₁ o ho
    · exact hidle₂ o ho
    · exact hidle₃ o ho
  have hmeet := Beat.meet s.desk fp pkt.sender t.store _ hand hwrites hidle
  have hend : ({ t with store := (Store.takeEnvelopes t.store fp).1 } : MeshNode S).desk =
      { t.desk with store := (Store.takeEnvelopes t.store fp).1 } := rfl
  rw [hend, hdesk]
  exact .single hmeet

theorem handleAnnounce_beats (laws : SnowLaws P) (s : MeshNode S) (pkt : Packet) (hand : List Errand) :
    Beats (s.desk, hand) ((s.handleAnnounce pkt).desk, hand) := by
  rcases handleAnnounce_cases s pkt with heq | ⟨ed, dh, nick, vk, -, -, -, heq⟩
  · rw [heq]
  · rw [heq]
    refine (announced_beats s pkt ed dh nick hand).trans ?_
    -- each message that was held is sent in its turn
    have hsend : ∀ (held : List Bytes) (t : MeshNode S),
        Beats (t.desk, held.map (fun b => .text (P.sha256 ed.toList) (fromUtf8Lossy b)) ++ hand)
          ((held.foldl (fun s bytes => s.sendDm (P.sha256 ed.toList) (fromUtf8Lossy bytes)) t).desk, hand) := by
      intro held
      induction held with
      | nil => exact fun t => .refl
      | cons b held ih => exact fun t => (sendDm_beats laws t _ _ _).trans (ih _)
    exact hsend _ _

/-! ## Calls -/

theorem dispatch_beats (laws : SnowLaws P) {s : MeshNode S} (shaped : s.Shaped) (link : LinkId) (pkt : Packet) (hand : List Errand) :
    Beats (s.desk, hand) ((s.dispatch link pkt).desk, hand) := by
  unfold dispatch
  split
  · exact handleAnnounce_beats laws s pkt hand
  · exact handleChannel_beats s pkt hand
  · exact (handleSyncRequest_idles s link pkt).beats hand
  · exact handleNoiseHandshake_beats laws shaped pkt hand
  · exact handleDirectMessage_beats laws s pkt hand
  · exact .refl

theorem onPacket_beats (laws : SnowLaws P) {s : MeshNode S} (shaped : s.Shaped) (link : LinkId) (pkt : Packet) (hand : List Errand) :
    Beats (s.desk, hand) ((s.onPacket link pkt).desk, hand) := by
  have hcharged : Beats (s.desk, hand) ((((s.tagged link pkt).observed pkt).charged pkt).desk, hand) :=
    ((tagged_idles link pkt).trans (.of_desk rfl)).beats hand
  have hsessions := congrArg noiseSessions (tagged_bookkept s link pkt).eq
  have hshaped : (((s.tagged link pkt).observed pkt).charged pkt).Shaped := shaped.of_sessions hsessions
  rw [onPacket_phased]
  split_ifs
  · exact (hcharged.trans (dispatch_beats laws hshaped link pkt hand)).trans ((maybeRelay_idles link pkt).beats hand)
  · exact hcharged
  · exact ((tagged_idles link pkt).trans (.of_desk rfl)).beats hand

/-- What a call comes with. -/
def errands : Action → List Errand
  | .sendDm fp text => [.text fp text]
  | .verifyPeer fp => [.verify fp]
  | .unverifyPeer fp => [.unverify fp]
  | .forgetPeer fp => [.forget fp]
  | .panicWipe => [.wipe]
  | _ => []

theorem act_beats (laws : SnowLaws P) {s : MeshNode S} (shaped : s.Shaped) (a : Action) :
    Beats (s.desk, errands a) ((s.act a).desk, []) := by
  cases a with
  | transport ev =>
    cases ev with
    | linkUp link mtu =>
      simp only [act, onTransportEvent]
      rw [announce_eq]
      refine Idles.beats ?_ []
      refine .trans (.trans ?_ (flood_idles ?_)) (sendSyncRequests_idles _ link)
      · exact .of_desk rfl
      exact fun h => absurd (show MsgType.announce = MsgType.noiseHandshake from h) (by decide)
    | linkDown link => exact idle_beats [.event (.peerLost link) none] [] .refl rfl (by simp [Obs.Idle])
    | frameReceived link frame =>
      rw [act, onTransportEvent]
      obtain ⟨reassembler, heq | ⟨pkt, heq⟩⟩ := onFrame_cases s link frame
      · rw [heq]
        exact same_beats [] rfl
      · rw [heq]
        have hfed : MeshNode.Shaped { s with reassembler := reassembler } := shaped
        exact onPacket_beats laws hfed link pkt []
    | mtuChanged link mtu =>
      rw [act, onTransportEvent]
      split <;> exact same_beats [] rfl
  | tick => exact ((swept_idles).beats []).trans (retryStalledHandshakes_beats laws s.swept s.clock [])
  | takeEvents => exact same_beats [] rfl
  | joinChannel name => exact same_beats [] rfl
  | sendChannelMessage channel text =>
    rw [act, sendChannelMessage_eq]
    let pkt := s.ownPacket .channelMessage none (encodeChannel (normalize channel) text s.cfg)
    let msg : StoredMessage :=
      { digest := pkt.digest, channel := normalize channel, sender := s.identity.ephId, timestampMs := s.clock,
        body := asBytes text, raw := pkt.encode }
    let t : MeshNode S := { s with
      subscribed := s.subscribed.insert (normalize channel)
      store := Store.putChannelMessage s.store msg }
    have hput : Beats (s.desk, []) (t.desk, []) :=
      idle_beats [] [] (.single (.channel s.store msg)) (by simp [t, Desk.note, desk]) (by simp)
    refine hput.trans ((flood_idles ?_).beats [])
    exact fun h => absurd (show MsgType.channelMessage = MsgType.noiseHandshake from h) (by decide)
  | announce =>
    rw [act, announce_eq]
    refine (flood_idles ?_).beats []
    exact fun h => absurd (show MsgType.announce = MsgType.noiseHandshake from h) (by decide)
  | sendDm fp text => exact sendDm_beats laws s fp text []
  | startDmSession fp => exact startDmSession_beats laws s fp []
  | verifyPeer fp =>
    have hverify := Beat.verify s.desk fp _ [] (.single (.peer s.store { s.peerOrNew fp with verified := true }))
    exact Relation.ReflTransGen.head hverify (trySendVerifyNotice_beats laws { s with
      store := Store.deleteDms (Store.upsertPeer s.store { s.peerOrNew fp with verified := true }) fp true
      noticePending := s.noticePending.insert fp } fp []).1
  | unverifyPeer fp =>
    rw [act, unverifyPeer]
    split
    · exact .single (.unverify s.desk fp _ [] (.single (.peer s.store _)))
    · exact .single (.unverify s.desk fp s.store [] .refl)
  | forgetPeer fp => exact .single (.forget s.desk fp [])
  | setPetname fp name => exact idle_beats [] [] (.single (.peer s.store _)) (by simp [act, setPetname, Desk.note, desk]) (by simp)
  | panicWipe => exact .single (.wipe s.desk [])

/-- A call does its errands, and nothing else that concerns direct messages. -/
theorem exec_beats (laws : SnowLaws P) {s : MeshNode S} (shaped : s.Shaped) (c : Call) :
    Beats ({ s.desk with clock := c.now }, errands c.action) ((exec s c).desk, []) :=
  act_beats laws (s := s.at_ c.now) shaped c.action

theorem exec_shaped (laws : SnowLaws P) {s : MeshNode S} (shaped : s.Shaped) (c : Call) : (exec s c).Shaped :=
  Runs.chain_invariant (fun d : MeshNode S × Hand => d.1.Shaped) (fun _ _ h move => move.change.shaped h)
    (exec_moves laws shaped c) shaped

end CockroachChat.MeshNode
