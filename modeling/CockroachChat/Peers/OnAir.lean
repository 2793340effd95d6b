import CockroachChat.Peers.LinkTable

/-! # What a call does on its links

A node sends on the links it holds, and closes the links it forgets. The one exception is the answer to
a sync request, which goes out on the link the request came on, whatever has become of it. -/
namespace CockroachChat
set_option autoImplicit false

variable [P : Prims] {S : Type}

/-- Closes nothing, and sends on a link of the table, or on `other`. -/
def Obs.Over (links : Std.ExtTreeMap LinkId LinkState) (other : Option LinkId) : Obs → Prop
  | .send link _ => links[link]? ≠ none ∨ other = some link
  | .close _ => False
  | _ => True

/-- What a node asks its transport to send, and the link it asks it to close. -/
def Obs.outgoing : Obs → Option (LinkId × Bytes)
  | .send link frame => some (link, frame)
  | _ => none

def Obs.closing : Obs → Option LinkId
  | .close link => some link
  | _ => none

namespace MeshNode

/-- A step that leaves the links alone. -/
def Airs (other : Option LinkId) (s s' : MeshNode S) : Prop :=
  s'.links = s.links ∧ ∃ os, s'.trace = s.trace ++ os ∧ ∀ o ∈ os, o.Over s.links other

section Airs
variable {other : Option LinkId} {s s₁ s₂ : MeshNode S}

theorem Airs.of_trace (links : s₁.links = s.links) (trace : s₁.trace = s.trace) : Airs other s s₁ :=
  ⟨links, [], by rw [trace, List.append_nil], by simp⟩

theorem Airs.trans (h₁ : Airs other s s₁) (h₂ : Airs other s₁ s₂) : Airs other s s₂ := by
  obtain ⟨hlinks₁, os₁, htr₁, hos₁⟩ := h₁
  obtain ⟨hlinks₂, os₂, htr₂, hos₂⟩ := h₂
  rw [hlinks₁] at hos₂
  refine ⟨hlinks₂.trans hlinks₁, os₁ ++ os₂, by rw [htr₂, htr₁, List.append_assoc], fun o ho => ?_⟩
  exact (List.mem_append.mp ho).elim (hos₁ o) (hos₂ o)

theorem Airs.note {o : Obs} (h : o.Over s.links other) : Airs other s (s.note o) := ⟨rfl, [o], rfl, by simpa using h⟩

theorem Airs.emit (s : MeshNode S) (e : MeshEvent) : Airs other s (s.emit e) := ⟨rfl, [.event e none], rfl, by simp [Obs.Over]⟩

theorem Airs.emitFor (s : MeshNode S) (fp : Fingerprint) (e : MeshEvent) : Airs other s (s.emitFor fp e) :=
  ⟨rfl, [.event e (s.sessionView fp)], rfl, by simp [Obs.Over]⟩

theorem Airs.foldl {β : Type} (body : MeshNode S → β → MeshNode S) (hbody : ∀ t b, Airs other t (body t b)) (l : List β)
    (s : MeshNode S) : Airs other s (l.foldl body s) := by
  induction l generalizing s with
  | nil => exact .of_trace rfl rfl
  | cons b l ih => exact (hbody s b).trans (ih (body s b))

omit P in
theorem over_of_sendObs {links : Std.ExtTreeMap LinkId LinkState} {link : LinkId} {bytes : Bytes} {digest : Digest} {mtu : ℕ}
    (h : links[link]? ≠ none ∨ other = some link) : ∀ o ∈ sendObs link bytes digest mtu, o.Over links other := by
  intro o ho
  unfold sendObs at ho
  split at ho
  · obtain ⟨f, -, rfl⟩ := List.mem_map.mp ho
    exact h
  · cases ho

theorem over_of_broadcastObs (s : MeshNode S) (pkt : Packet) (exclude : Option LinkId) :
    ∀ o ∈ s.broadcastObs pkt exclude, o.Over s.links other := by
  intro o ho
  obtain ⟨e, he, ho⟩ := List.mem_flatMap.mp ho
  have hheld : s.links[e.1]? = some e.2 := Std.ExtTreeMap.mem_toList_iff_getElem?_eq_some.mp (List.mem_of_mem_filter he)
  exact over_of_sendObs (.inl (by simp [hheld])) o ho

theorem flood_airs (s : MeshNode S) (pkt : Packet) : Airs other s (s.flood pkt) := by
  refine ⟨rfl, .originate pkt :: s.broadcastObs pkt none, rfl, fun o ho => ?_⟩
  rcases List.mem_cons.mp ho with rfl | ho
  · trivial
  · exact over_of_broadcastObs s pkt none o ho

theorem sendDirected_airs (s : MeshNode S) (t : MsgType) (fp : Fingerprint) (payload : Bytes) :
    Airs other s (s.sendDirected t fp payload) := by
  cases h : s.fpToEph[fp]? with
  | none =>
    rw [sendDirected_none h]
    exact .of_trace rfl rfl
  | some eph =>
    rw [sendDirected_some h]
    exact flood_airs s _

end Airs

variable [Store S] {other : Option LinkId}

/-! ## Direct messages -/

omit [Store S] in
theorem encryptAndSendDm_airs (s : MeshNode S) (fp : Fingerprint) (kind : UInt8) (body : Bytes) :
    Airs other s (s.encryptAndSendDm fp kind body) := by
  unfold encryptAndSendDm
  cases s.noiseSessions[fp]? with
  | none => exact .of_trace rfl rfl
  | some σ =>
    have hcall : Airs other s (s.note (.encryptCall fp σ.view (kind :: body))) := .note trivial
    cases henc : σ.encrypt (kind :: body) with
    | error e => simpa only [henc] using hcall
    | ok r =>
      simp only [henc]
      refine hcall.trans (.trans ?_ (sendDirected_airs _ _ _ _))
      refine .trans ?_ (.note trivial)
      exact .of_trace rfl rfl

theorem sendControlDm_airs (s : MeshNode S) (fp : Fingerprint) (kind : UInt8) : Airs other s (s.sendControlDm fp kind) := by
  refine .trans ?_ (encryptAndSendDm_airs _ _ _ _)
  exact .of_trace rfl rfl

theorem trySendVerifyNotice_airs (s : MeshNode S) (fp : Fingerprint) : Airs other s (s.trySendVerifyNotice fp) := by
  unfold trySendVerifyNotice
  split_ifs
  · refine .trans ?_ (sendControlDm_airs _ _ _)
    exact .of_trace rfl rfl
  · exact .of_trace rfl rfl

theorem decryptAndEmit_airs (s : MeshNode S) (fp : Fingerprint) (ct : Bytes) : Airs other s (s.decryptAndEmit fp ct) := by
  cases hheld : s.noiseSessions[fp]? with
  | none =>
    unfold decryptAndEmit
    rw [hheld]
    exact .of_trace rfl rfl
  | some σ =>
    rcases hdec : σ.decrypt ct with ⟨σ', e | pt⟩
    · have herror : s.decryptAndEmit fp ct = { s with noiseSessions := s.noiseSessions.insert fp σ' } := by
        simp only [decryptAndEmit, hheld, hdec]
      rw [herror]
      exact .of_trace rfl rfl
    · rw [decryptAndEmit_ok hheld hdec]
      have hreceived : Airs other s (s.received fp σ σ' (ofBe (ct.take 8)) pt) := ⟨rfl, _, rfl, by simp [Obs.Over]⟩
      split_ifs
      · exact hreceived.trans (sendControlDm_airs _ _ _)
      · exact hreceived

theorem finishSession_airs (s : MeshNode S) (fp : Fingerprint) : Airs other s (s.finishSession fp) := by
  have hout : ∀ t : MeshNode S, Airs other t (t.drainOutbound fp) := by
    intro t
    refine .trans ?_ (.foldl _ (fun t text => encryptAndSendDm_airs t fp dmKindText (asBytes text)) _ _)
    exact .of_trace rfl rfl
  have hin : ∀ t : MeshNode S, Airs other t (t.drainInbound fp) := by
    intro t
    refine .trans ?_ (.foldl _ (fun t ct => decryptAndEmit_airs t fp ct) _ _)
    exact .of_trace rfl rfl
  unfold finishSession
  split_ifs
  · refine .trans ?_ (.emit _ _)
    exact .of_trace rfl rfl
  · refine .trans (.trans (.trans ?_ (trySendVerifyNotice_airs _ _)) (hout _)) (hin _)
    refine .trans ?_ (.emitFor _ _ _)
    exact .of_trace rfl rfl

omit [Store S] in
theorem beginHandshake_airs (s : MeshNode S) (fp : Fingerprint) : Airs other s (s.beginHandshake fp) := by
  unfold beginHandshake
  cases NoiseSession.newInitiator s.identity.dhPrivateBytes with
  | error e => exact .of_trace rfl rfl
  | ok σ =>
    cases hw : σ.writeHandshake (s.entropy s.drawn) with
    | error e =>
      simp only [hw]
      exact .of_trace rfl rfl
    | ok r =>
      simp only [hw]
      refine .trans (.trans (.trans ?_ (.note (o := .wrote fp true r.2) trivial)) (sendDirected_airs _ _ _ _)) (.of_trace rfl rfl)
      exact .of_trace rfl rfl

theorem advanceHandshake_airs (s : MeshNode S) (fp : Fingerprint) : Airs other s (s.advanceHandshake fp) := by
  unfold advanceHandshake
  cases s.noiseSessions[fp]? with
  | none => exact .of_trace rfl rfl
  | some σ =>
    simp only
    split_ifs
    · exact finishSession_airs s fp
    · cases hw : σ.writeHandshake (s.entropy s.drawn) with
      | error e => exact .of_trace rfl rfl
      | ok r =>
        simp only
        have hout : Airs other s ((({ s with drawn := s.drawn + 1, noiseSessions := s.noiseSessions.insert fp r.1 } :
            MeshNode S).note (.wrote fp r.1.initiator r.2)).sendDirected .noiseHandshake fp r.2) := by
          refine .trans (.trans ?_ (.note (o := .wrote fp r.1.initiator r.2) trivial)) (sendDirected_airs _ _ _ _)
          exact .of_trace rfl rfl
        split_ifs
        · exact hout.trans (finishSession_airs _ _)
        · exact hout

theorem readAndAdvance_airs (s : MeshNode S) (fp : Fingerprint) (payload : Bytes) :
    Airs other s (s.readAndAdvance fp payload) := by
  unfold readAndAdvance
  cases s.noiseSessions[fp]? with
  | none => exact .of_trace rfl rfl
  | some σ =>
    cases hread : σ.readHandshake payload with
    | error e =>
      simp only [hread]
      exact .of_trace rfl rfl
    | ok σ' =>
      simp only [hread]
      refine .trans ?_ (advanceHandshake_airs _ _)
      exact .of_trace rfl rfl

omit [Store S] in
/-- The gates in front of a handshake write the session tables only. -/
theorem gates_air (s : MeshNode S) (fp : Fingerprint) (payload : Bytes) :
    Airs other s (s.resyncGate fp).1 ∧ Airs other s (s.glareGate fp payload).1 ∧ Airs other s (s.ensureResponder fp).1 := by
  refine ⟨?_, ?_, ?_⟩
  · simp only [resyncGate]
    split_ifs <;> exact .of_trace rfl rfl
  · simp only [glareGate]
    cases s.noiseSessions[fp]? with
    | none => simpa using .of_trace rfl rfl
    | some σ =>
      simp only
      split_ifs <;> exact .of_trace rfl rfl
  · simp only [ensureResponder]
    cases NoiseSession.newResponder s.identity.dhPrivateBytes <;> split_ifs <;> exact .of_trace rfl rfl

theorem handleNoiseHandshake_airs (s : MeshNode S) (pkt : Packet) : Airs other s (s.handleNoiseHandshake pkt) := by
  unfold handleNoiseHandshake
  split_ifs
  · exact .of_trace rfl rfl
  · cases s.ephToFp pkt.sender with
    | none => exact .of_trace rfl rfl
    | some fp =>
      have h₁ : Airs other s (s.resyncGate fp).1 := (gates_air s fp pkt.payload).1
      rcases hgate : s.resyncGate fp with ⟨s₁, go₁⟩
      rw [hgate] at h₁
      have h₂ := h₁.trans (gates_air s₁ fp pkt.payload).2.1
      rcases hglare : s₁.glareGate fp pkt.payload with ⟨s₂, go₂⟩
      have h₃ := (hglare ▸ h₂).trans (gates_air s₂ fp pkt.payload).2.2
      rcases hopen : s₂.ensureResponder fp with ⟨s₃, go₃⟩
      simp only [hgate, hglare, hopen] at h₂ h₃ ⊢
      split_ifs
      · exact h₁
      · exact h₂
      · exact h₃
      · exact h₃.trans (readAndAdvance_airs s₃ fp pkt.payload)

theorem handleDirectMessage_airs (s : MeshNode S) (pkt : Packet) : Airs other s (s.handleDirectMessage pkt) := by
  unfold handleDirectMessage
  split_ifs
  · exact .of_trace rfl rfl
  · cases s.ephToFp pkt.sender with
    | none => exact .of_trace rfl rfl
    | some fp =>
      simp only
      by_cases hready : s.sessionReady fp = true
      · simpa [hready] using decryptAndEmit_airs s fp pkt.payload
      · simp only [hready, Bool.not_false, if_true]
        generalize s.pendingInboundDms.insert fp _ = inbound
        have hheld : Airs other s { s with pendingInboundDms := inbound } := .of_trace rfl rfl
        split_ifs
        · exact hheld.trans (beginHandshake_airs _ _)
        · exact hheld

theorem sendDm_airs (s : MeshNode S) (fp : Fingerprint) (text : String) : Airs other s (s.sendDm fp text) := by
  unfold sendDm
  simp only
  split_ifs
  · refine .trans ?_ (encryptAndSendDm_airs _ _ _ _)
    exact .of_trace rfl rfl
  · exact .of_trace rfl rfl
  · refine .trans ?_ (beginHandshake_airs _ _)
    exact .of_trace rfl rfl
  · exact .of_trace rfl rfl

omit [Store S] in
theorem startDmSession_airs (s : MeshNode S) (fp : Fingerprint) : Airs other s (s.startDmSession fp) := by
  unfold startDmSession
  split_ifs
  · exact .emitFor _ _ _
  · exact .of_trace rfl rfl
  · exact beginHandshake_airs s fp
  · exact .of_trace rfl rfl

omit [Store S] in
theorem retryStalledHandshakes_airs (s : MeshNode S) (now : Millis) : Airs other s (s.retryStalledHandshakes now) := by
  refine .foldl _ (fun t fp => ?_) _ _
  refine .trans ?_ (beginHandshake_airs _ _)
  exact .of_trace rfl rfl

/-! ## The other handlers -/

theorem sendSyncRequests_airs (s : MeshNode S) {link : LinkId} (held : s.links[link]? ≠ none) :
    Airs other s (s.sendSyncRequests link) := by
  have hloop : ∀ (channels : List String) (t : MeshNode S), t.links = s.links →
      Airs other t (channels.foldl (fun t channel =>
        let pkt := t.syncPacket channel
        (t.note (.originate pkt)).sendOnLink link pkt) t) := by
    intro channels
    induction channels with
    | nil => exact fun t _ => .of_trace rfl rfl
    | cons channel channels ih =>
      intro t hlinks
      have hnote : Airs other t (t.note (.originate (t.syncPacket channel))) := .note trivial
      have hsend : Airs other t ((t.note (.originate (t.syncPacket channel))).sendOnLink link (t.syncPacket channel)) := by
        rw [sendOnLink, sendBytes_eq]
        refine hnote.trans ⟨rfl, _, rfl, over_of_sendObs (.inl ?_)⟩
        show t.links[link]? ≠ none
        rwa [hlinks]
      exact hsend.trans (ih _ (hsend.1.trans hlinks))
  exact hloop _ s rfl

theorem handleSyncRequest_airs (s : MeshNode S) (link : LinkId) (pkt : Packet) :
    Airs (some link) s (s.handleSyncRequest link pkt) := by
  have hone : ∀ (t : MeshNode S) (digest : Digest), Airs (some link) t (t.resendStored link digest) := by
    intro t digest
    unfold resendStored
    cases Store.messageByDigest t.store digest with
    | none => exact .of_trace rfl rfl
    | some m =>
      simp only
      split_ifs
      · rw [sendBytes_eq]
        exact ⟨rfl, _, rfl, over_of_sendObs (.inr rfl)⟩
      · exact .of_trace rfl rfl
  unfold handleSyncRequest
  cases decodeSync pkt.payload with
  | none => exact .of_trace rfl rfl
  | some remote => exact .foldl _ hone _ _

theorem handleChannel_airs (s : MeshNode S) (pkt : Packet) : Airs other s (s.handleChannel pkt) := by
  rcases handleChannel_update s pkt with hdrop | ⟨channel, text, verified, -, -, hput⟩
  · exact .of_trace (by rw [hdrop]) (by rw [hdrop])
  · rw [hput]
    simp only
    split_ifs
    · exact .trans (.of_trace rfl rfl) (.emit _ _)
    · exact .of_trace rfl rfl

theorem announced_airs (s : MeshNode S) (pkt : Packet) (ed dh : Key32) (nick : String) :
    Airs other s (s.announced pkt ed dh nick) := by
  have hnote : ∀ (t : MeshNode S) (fp : Fingerprint) (prev : Option Key32), Airs other t (t.noteKeyChange fp prev dh) := by
    intro t fp prev
    unfold noteKeyChange
    cases prev with
    | none => exact .of_trace rfl rfl
    | some prev =>
      simp only
      split_ifs
      · refine .trans ?_ (.emit _ _)
        exact .of_trace rfl rfl
      · exact .of_trace rfl rfl
  have hrecord : ∀ (t : MeshNode S) (fp : Fingerprint), Airs other t (t.recordPeer fp pkt) := fun _ _ => .of_trace rfl rfl
  unfold announced
  simp only
  refine .trans (.trans (.trans ?_ (hnote _ _ _)) (hrecord _ _)) (.emit _ _)
  exact .trans (.note (o := .accept pkt) trivial) (.of_trace rfl rfl)

/-! ## Every call -/

/-- What a step does on its links: it closes those it forgets, and sends on those it holds at the time, or
on `other`. No link gets another MTU. -/
structure OnAir (other : Option LinkId) (s s' : MeshNode S) : Prop where
  kept : ∀ (id : LinkId) (l' : LinkState), s'.links[id]? = some l' → ∃ l : LinkState, s.links[id]? = some l ∧ l'.mtu = l.mtu
  did : ∃ os, s'.trace = s.trace ++ os ∧ (∀ id, .close id ∈ os ↔ s.links[id]? ≠ none ∧ s'.links[id]? = none) ∧
    ∀ pre link f post, os = pre ++ .send link f :: post → (s.links[link]? ≠ none ∧ .close link ∉ pre) ∨ other = some link

section OnAir
variable {s s₁ s₂ : MeshNode S}

omit [Store S] in
theorem Airs.onAir (h : Airs other s s₁) : OnAir other s s₁ := by
  obtain ⟨hlinks, os, htr, hos⟩ := h
  have hclose : ∀ id, .close id ∉ os := fun id hid => hos _ hid
  refine ⟨fun id l' hl' => ⟨l', by rwa [← hlinks], rfl⟩, os, htr, fun id => ?_, fun pre link f post hsplit => ?_⟩
  · rw [hlinks]
    exact iff_of_false (hclose id) fun h => h.1 h.2
  · have hsend : Obs.Over s.links other (.send link f) := hos _ (by rw [hsplit]; simp)
    exact hsend.imp (fun hheld => ⟨hheld, fun hpre => hclose link (by rw [hsplit]; simp [hpre])⟩) id

omit [Store S] in
theorem OnAir.forgotten (h : OnAir other s s₁) {id : LinkId} (gone : s.links[id]? = none) : s₁.links[id]? = none := by
  by_contra hheld
  obtain ⟨l', hl'⟩ := Option.ne_none_iff_exists'.mp hheld
  obtain ⟨l, hl, -⟩ := h.kept id l' hl'
  simp [gone] at hl

omit [Store S] in
theorem OnAir.trans (h₁ : OnAir other s s₁) (h₂ : OnAir other s₁ s₂) : OnAir other s s₂ := by
  obtain ⟨os₁, htr₁, hclose₁, hsend₁⟩ := h₁.did
  obtain ⟨os₂, htr₂, hclose₂, hsend₂⟩ := h₂.did
  refine ⟨fun id l₂ hl₂ => ?_, os₁ ++ os₂, by rw [htr₂, htr₁, List.append_assoc], fun id => ?_, fun pre link f post hsplit => ?_⟩
  · obtain ⟨l₁, hl₁, hmtu₂⟩ := h₂.kept id l₂ hl₂
    obtain ⟨l, hl, hmtu₁⟩ := h₁.kept id l₁ hl₁
    exact ⟨l, hl, hmtu₂.trans hmtu₁⟩
  · have hgone₁ : s.links[id]? = none → s₁.links[id]? = none := h₁.forgotten
    have hgone₂ : s₁.links[id]? = none → s₂.links[id]? = none := h₂.forgotten
    rw [List.mem_append, hclose₁, hclose₂]
    tauto
  · rcases List.append_eq_append_iff.mp hsplit with ⟨mid, rfl, hsplit₂⟩ | ⟨mid, hsplit₁, hmid⟩
    · -- sent in the second part
      refine (hsend₂ mid link f post hsplit₂).imp (fun ⟨hheld, hmid⟩ => ⟨fun hnone => hheld (h₁.forgotten hnone), ?_⟩) id
      rw [List.mem_append, hclose₁]
      exact fun hpre => hpre.elim (fun h => hheld h.2) hmid
    · cases mid with
      | nil =>
        rw [List.append_nil] at hsplit₁
        obtain rfl := hsplit₁
        rw [List.nil_append] at hmid
        rcases hsend₂ [] link f post hmid.symm with hsend | hother
        · refine .inl ⟨fun hnone => hsend.1 (h₁.forgotten hnone), ?_⟩
          rw [hclose₁]
          exact fun h => hsend.1 h.2
        · exact .inr hother
      | cons o mid =>
        obtain ⟨rfl, -⟩ := List.cons.inj hmid
        exact hsend₁ pre link f mid hsplit₁

omit [Store S] in
theorem resolveLinks_kept (s : MeshNode S) (id : LinkId) (l' : LinkState) (h : s.resolveLinks.links[id]? = some l') :
    ∃ l : LinkState, s.links[id]? = some l ∧ l'.mtu = l.mtu := by
  rw [resolveLinks, Std.ExtTreeMap.getElem?_map, Option.map_eq_some_iff] at h
  obtain ⟨l, hl, rfl⟩ := h
  refine ⟨l, hl, ?_⟩
  split <;> rfl

omit [Store S] in
theorem dedupLinks_onAir (s : MeshNode S) : OnAir other s s.dedupLinks := by
  obtain ⟨closed, -, htr, hclosed⟩ := dedupLinks_closes s
  refine ⟨fun id l' hl' => ?_, closed.map .close, htr, fun id => ?_, fun pre link f post hsplit => ?_⟩
  · rw [dedupLinks_getElem?] at hl'
    split_ifs at hl'
    exact resolveLinks_kept s id l' hl'
  · rw [← hclosed]
    simp
  · have hmem : Obs.send link f ∈ closed.map Obs.close := by rw [hsplit]; simp
    obtain ⟨id, -, hid⟩ := List.mem_map.mp hmem
    cases hid

omit [Store S] in
theorem tagged_onAir (s : MeshNode S) (link : LinkId) (pkt : Packet) : OnAir other s (s.tagged link pkt) := by
  unfold tagged noteLinkIdentity
  split_ifs
  · cases hheld : s.links[link]? with
    | none => exact dedupLinks_onAir s
    | some l =>
      simp only
      split_ifs
      · -- the link is tagged anew, and then looked at
        let t : MeshNode S := { s with links := s.links.insert link { l with peerEph := some pkt.sender, peerFp := none } }
        have hsame : ∀ id : LinkId, t.links[id]? = none ↔ s.links[id]? = none := by
          intro id
          show (s.links.insert link _)[id]? = none ↔ _
          rw [Std.ExtTreeMap.getElem?_insert]
          by_cases hid : compare link id = .eq
          · obtain rfl := Std.compare_eq_iff_eq.mp hid
            simp [hheld]
          · rw [if_neg hid]
        have hdedup : OnAir other t t.dedupLinks := dedupLinks_onAir t
        obtain ⟨hkept, os, htr, hclose, hsend⟩ := hdedup
        refine ⟨fun id l' hl' => ?_, os, htr, fun id => ?_, fun pre l' f post hsplit => ?_⟩
        · obtain ⟨k, hk, hmtu⟩ := hkept id l' hl'
          have hins : (s.links.insert link { l with peerEph := some pkt.sender, peerFp := none })[id]? = some k := hk
          rw [Std.ExtTreeMap.getElem?_insert] at hins
          split_ifs at hins with hid
          · obtain rfl := Std.compare_eq_iff_eq.mp hid
            obtain rfl := Option.some.inj hins
            exact ⟨l, hheld, hmtu⟩
          · exact ⟨k, hins, hmtu⟩
        · rw [hclose, Ne, hsame]
        · have hsent := hsend pre l' f post hsplit
          rwa [Ne, hsame] at hsent
      · exact dedupLinks_onAir s
  · exact (Airs.of_trace rfl rfl).onAir

theorem dispatch_onAir (s : MeshNode S) (link : LinkId) (pkt : Packet) : OnAir (some link) s (s.dispatch link pkt) := by
  unfold dispatch
  split
  · rcases handleAnnounce_cases s pkt with heq | ⟨ed, dh, nick, vk, -, -, -, heq⟩
    · rw [heq]
      exact (Airs.of_trace rfl rfl).onAir
    · rw [heq]
      refine .trans ((announced_airs s pkt ed dh nick).onAir.trans (dedupLinks_onAir _)) (Airs.onAir ?_)
      unfold deliverHeld
      refine .trans ?_ (.foldl _ (fun t bytes => sendDm_airs t _ (fromUtf8Lossy bytes)) _ _)
      exact .of_trace rfl rfl
  · exact (handleChannel_airs s pkt).onAir
  · exact (handleSyncRequest_airs s link pkt).onAir
  · exact (handleNoiseHandshake_airs s pkt).onAir
  · exact (handleDirectMessage_airs s pkt).onAir
  · exact (Airs.of_trace rfl rfl).onAir

/-- A frame is answered on the link it came on at most. -/
theorem onFrame_onAir (s : MeshNode S) (link : LinkId) (frame : Bytes) : OnAir (some link) s (s.onFrame link frame) := by
  rw [onFrame_eq]
  have hfed : OnAir (some link) s (s.fed frame) := Airs.onAir (.of_trace rfl rfl)
  cases s.assembled frame with
  | none => exact hfed
  | some pkt =>
    refine hfed.trans ?_
    have hobserved : OnAir (some link) (s.fed frame) (((s.fed frame).tagged link pkt).observed pkt) :=
      (tagged_onAir _ link pkt).trans (Airs.onAir (.of_trace rfl rfl))
    have hcharged : OnAir (some link) (s.fed frame) ((((s.fed frame).tagged link pkt).observed pkt).charged pkt) :=
      hobserved.trans (Airs.onAir (.of_trace rfl rfl))
    show OnAir (some link) (s.fed frame) ((s.fed frame).onPacket link pkt)
    rw [onPacket_phased]
    split_ifs
    · refine (hcharged.trans (dispatch_onAir _ link pkt)).trans ?_
      obtain ⟨rng, scheduler, heq⟩ := maybeRelay_update
        (((((s.fed frame).tagged link pkt).observed pkt).charged pkt).dispatch link pkt) link pkt
      rw [heq]
      exact Airs.onAir (.of_trace rfl rfl)
    · exact hcharged
    · exact hobserved

omit [Store S] in
theorem swept_airs (s : MeshNode S) : Airs other s s.swept := by
  rw [swept_eq]
  refine ⟨rfl, _, rfl, fun o ho => ?_⟩
  obtain ⟨r, -, hr⟩ := List.mem_flatMap.mp ho
  exact over_of_broadcastObs s r.packet (some r.excludeLink) o hr

/-- Commands and timers send on the links that are held. -/
theorem act_airs (s : MeshNode S) {a : Action} (still : ∀ ev, a ≠ .transport ev) : Airs none s (s.act a) := by
  cases a with
  | transport ev => exact absurd rfl (still ev)
  | tick => exact (swept_airs s).trans (retryStalledHandshakes_airs s.swept s.clock)
  | takeEvents => exact .of_trace rfl rfl
  | joinChannel name => exact .of_trace rfl rfl
  | sendChannelMessage channel text =>
    rw [act, sendChannelMessage_eq]
    refine .trans ?_ (flood_airs _ _)
    exact .of_trace rfl rfl
  | announce =>
    rw [act, announce_eq]
    exact flood_airs s _
  | sendDm fp text => exact sendDm_airs s fp text
  | startDmSession fp => exact startDmSession_airs s fp
  | verifyPeer fp =>
    refine .trans ?_ (trySendVerifyNotice_airs _ fp)
    exact .of_trace rfl rfl
  | unverifyPeer fp =>
    rw [act, unverifyPeer]
    split <;> exact .of_trace rfl rfl
  | forgetPeer fp => exact .of_trace rfl rfl
  | setPetname fp name => exact .of_trace rfl rfl
  | panicWipe => exact .of_trace rfl rfl

/-- A link that comes up is held before anything is sent on it. -/
theorem linkUp_airs (s : MeshNode S) (link : LinkId) (mtu : ℕ) :
    Airs none { s with links := s.links.insert link { mtu, peerEph := none, peerFp := none } }
      (s.onTransportEvent (.linkUp link mtu)) := by
  simp only [onTransportEvent]
  rw [announce_eq]
  refine (flood_airs _ _).trans (sendSyncRequests_airs _ ?_)
  simp [flood]

/-! ## The links held -/

/-- The MTU of a link that the node holds. -/
def held (s : MeshNode S) (id : LinkId) : Option ℕ := s.links[id]?.map (·.mtu)

omit [Store S] in
theorem held_of_links {s s' : MeshNode S} (h : s'.links = s.links) : s'.held = s.held := by
  unfold held
  rw [h]

omit [Store S] in
theorem held_ne_none {s : MeshNode S} {id : LinkId} : s.held id ≠ none ↔ s.links[id]? ≠ none := by
  simp [held]

omit [Store S] in
/-- A step loses exactly the links that it closes. -/
theorem OnAir.held {s' : MeshNode S} (h : OnAir other s s') :
    ∃ os, s'.trace = s.trace ++ os ∧ ∀ id, s'.held id = if id ∈ os.filterMap Obs.closing then none else s.held id := by
  obtain ⟨os, htr, hclose, -⟩ := h.did
  refine ⟨os, htr, fun id => ?_⟩
  have hmem : id ∈ os.filterMap Obs.closing ↔ .close id ∈ os := by
    rw [List.mem_filterMap]
    constructor
    · rintro ⟨o, ho, hid⟩
      cases o <;> cases hid
      exact ho
    · exact fun ho => ⟨_, ho, rfl⟩
  simp only [hmem, hclose]
  cases hs' : s'.links[id]? with
  | some l' =>
    obtain ⟨l, hl, hmtu⟩ := h.kept id l' hs'
    simp [MeshNode.held, hs', hl, hmtu]
  | none =>
    cases hs : s.links[id]? <;> simp [MeshNode.held, hs', hs]

omit [Store S] in
/-- A step that leaves the links alone closes none. -/
theorem Airs.closing {s' : MeshNode S} (h : Airs other s s') :
    ∃ os, s'.trace = s.trace ++ os ∧ os.filterMap Obs.closing = [] := by
  obtain ⟨-, os, htr, hos⟩ := h
  refine ⟨os, htr, List.filterMap_eq_nil_iff.mpr fun o ho => ?_⟩
  cases o with
  | close id => exact (hos _ ho).elim
  | _ => rfl

theorem linkUp_held (s : MeshNode S) (link : LinkId) (mtu : ℕ) :
    (s.onTransportEvent (.linkUp link mtu)).held = Function.update s.held link (some mtu) := by
  funext id
  rw [held_of_links (linkUp_airs s link mtu).1, held, Std.ExtTreeMap.getElem?_insert]
  by_cases hid : id = link
  · subst hid
    simp
  · rw [Function.update_of_ne hid, if_neg fun hcmp => hid (Std.compare_eq_iff_eq.mp hcmp).symm]
    rfl

theorem linkDown_held (s : MeshNode S) (link : LinkId) :
    (s.onTransportEvent (.linkDown link)).held = Function.update s.held link none := by
  funext id
  have hlinks : (s.onTransportEvent (.linkDown link)).links = s.links.erase link := rfl
  rw [held, hlinks, Std.ExtTreeMap.getElem?_erase]
  by_cases hid : id = link
  · subst hid
    simp
  · rw [Function.update_of_ne hid, if_neg fun hcmp => hid (Std.compare_eq_iff_eq.mp hcmp).symm]
    rfl

end OnAir
end MeshNode
end CockroachChat
