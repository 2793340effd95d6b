import CockroachChat.Peers.Bindings
import CockroachChat.Sessions.Beats
import CockroachChat.Stores.Journal

/-! # Where the rows of a thread come from

A row handed to `put_dm` is a text on its way to the peer, a notice or an ack, a plaintext of the
peer's, or the marker of a changed key. All but the first are noted in the trace; the texts are what
the user sends and what was held for a peer whose announce comes in. -/
namespace CockroachChat
set_option autoImplicit false

inductive Source where
  | typed (fp : Fingerprint) (text : String)
  | signal (fp : Fingerprint) (kind : UInt8)
  | heard (fp : Fingerprint) (plaintext : Bytes)
  | changed (fp : Fingerprint)

namespace Source

def peer : Source → Fingerprint
  | typed fp _ | signal fp _ | heard fp _ | changed fp => fp

def row (now : Millis) : Source → StoredDm
  | typed fp text => ownRow fp now (asBytes text)
  | signal fp kind => ownRow fp now [kind]
  | heard fp plaintext => peerRow fp now plaintext
  | changed fp => { peer := fp, mine := false, timestampMs := now, body := [dmKindKeyChanged] }

end Source

/-- The row that goes with an observation: notices and acks are handed to `encrypt` without a body. -/
def Obs.source : Obs → Option Source
  | .encryptCall fp _ [kind] => if kind = dmKindVerifyNotice ∨ kind = dmKindVerifyAck then some (.signal fp kind) else none
  | .decrypted fp _ _ plaintext => some (.heard fp plaintext)
  | .event (.peerKeyChanged fp) _ => some (.changed fp)
  | _ => none

/-- What is held for a peer does not depend on threads and peer records. -/
class Shelf (S : Type) [Store S] : Prop where
  put_dm : ∀ (s : S) dm fp, (Store.takeEnvelopes (Store.putDm s dm) fp).2 = (Store.takeEnvelopes s fp).2
  upsert_peer : ∀ (s : S) p fp, (Store.takeEnvelopes (Store.upsertPeer s p) fp).2 = (Store.takeEnvelopes s fp).2

instance : Shelf MemoryStore := ⟨fun _ _ _ => rfl, fun _ _ _ => rfl⟩

instance [Engine] : Shelf SqliteStore := ⟨fun _ _ _ => rfl, fun _ _ _ => rfl⟩

section Journal
variable {S : Type} [Store S] {start : S}

instance [Shelf S] : Shelf (Journal start) where
  put_dm j dm fp := by
    show (Store.takeEnvelopes (j.add (.putDm dm)).store fp).2 = _
    rw [Journal.add_store]
    exact Shelf.put_dm j.store dm fp
  upsert_peer j p fp := by
    show (Store.takeEnvelopes (j.add (.upsertPeer p)).store fp).2 = _
    rw [Journal.add_store]
    exact Shelf.upsert_peer j.store p fp

omit [Store S] in
theorem Journal.puts_add (j : Journal start) (op : StoreOp) : (j.add op).puts = j.puts ++ op.row.toList := by
  rw [puts, puts, add, List.filterMap_append]
  cases op <;> rfl

end Journal

variable [P : Prims] {S : Type}

omit P in
theorem Obs.Carries.source {t : MsgType} {payload : Bytes} {o : Obs} (h : o.Carries t payload) : o.source = none := by
  cases o with
  | send link f => rfl
  | originate pkt => rfl
  | _ => exact h.elim

namespace MeshNode

/-- What the store holds for the peer of a key. -/
def heldBy [Store S] (s : MeshNode S) : Option Key32 → List (Fingerprint × Bytes)
  | some ed => (Store.takeEnvelopes s.store (P.sha256 ed.toList)).2.map (P.sha256 ed.toList, ·)
  | none => []

/-- What a call takes out of the store when it learns the announce of a peer. -/
def released [Store S] (s : MeshNode S) (c : Call) : List (Fingerprint × Bytes) :=
  s.heldBy (((s.at_ c.now).learned c.action).map Prod.snd)

/-- A held message as the text it is sent as. -/
def heldText (e : Fingerprint × Bytes) : Source := .typed e.1 (fromUtf8Lossy e.2)

/-- The texts whose rows a call writes. -/
def typed [Store S] (s : MeshNode S) (c : Call) : List Source :=
  match c.action with
  | .sendDm fp text => [.typed fp text]
  | _ => (s.released c).map heldText

variable {start : S}

/-- The step hands over the rows of the given texts and of what it notes, and no others. -/
structure Writes (s s' : MeshNode (Journal start)) (texts : List Source) : Prop where
  clock : s'.clock = s.clock
  rows : ∃ (sources : List Source) (os : List Obs), s'.trace = s.trace ++ os ∧ s'.store.puts = s.store.puts ++ sources.map (Source.row s.clock) ∧
    sources.Perm (texts ++ os.filterMap Obs.source)

namespace Writes
variable {s s₁ s₂ : MeshNode (Journal start)} {texts texts' : List Source}

theorem trans (h₁ : Writes s s₁ texts) (h₂ : Writes s₁ s₂ texts') : Writes s s₂ (texts ++ texts') := by
  obtain ⟨sources₁, os₁, htrace₁, hputs₁, hperm₁⟩ := h₁.rows
  obtain ⟨sources₂, os₂, htrace₂, hputs₂, hperm₂⟩ := h₂.rows
  refine ⟨h₂.clock.trans h₁.clock, sources₁ ++ sources₂, os₁ ++ os₂, ?_, ?_, ?_⟩
  · rw [htrace₂, htrace₁, List.append_assoc]
  · rw [hputs₂, hputs₁, h₁.clock, List.map_append, List.append_assoc]
  · have hswap : ((os₁.filterMap Obs.source ++ texts') ++ os₂.filterMap Obs.source).Perm
        ((texts' ++ os₁.filterMap Obs.source) ++ os₂.filterMap Obs.source) := List.perm_append_comm.append_right _
    have hall := (hperm₁.append hperm₂).trans (by simpa only [List.append_assoc] using hswap.append_left texts)
    simpa only [List.filterMap_append, List.append_assoc] using hall

theorem silent (h₁ : Writes s s₁ texts) (h₂ : Writes s₁ s₂ []) : Writes s s₂ texts := by simpa using h₁.trans h₂

theorem after (h₁ : Writes s s₁ []) (h₂ : Writes s₁ s₂ texts) : Writes s s₂ texts := h₁.trans h₂

/-- A step that hands over no row and notes nothing that goes with one. -/
theorem none (clock : s₁.clock = s.clock) (puts : s₁.store.puts = s.store.puts) {l : List Obs} (trace : s₁.trace = s.trace ++ l)
    (hl : l.filterMap Obs.source = []) : Writes s s₁ [] :=
  ⟨clock, [], l, trace, by rw [puts]; simp, by rw [hl]; exact List.Perm.refl _⟩

theorem still (clock : s₁.clock = s.clock) (puts : s₁.store.puts = s.store.puts) (trace : s₁.trace = s.trace) : Writes s s₁ [] :=
  none clock puts (l := []) (by rw [trace, List.append_nil]) rfl

/-- A step that hands over one row. -/
theorem one (source : Source) (clock : s₁.clock = s.clock) (puts : s₁.store.puts = s.store.puts ++ [source.row s.clock])
    {l : List Obs} (trace : s₁.trace = s.trace ++ l) (perm : [source].Perm (texts ++ l.filterMap Obs.source)) : Writes s s₁ texts :=
  ⟨clock, [source], l, trace, puts, perm⟩

theorem foldl {β : Type} (body : MeshNode (Journal start) → β → MeshNode (Journal start)) (text : β → List Source)
    (hbody : ∀ t b, Writes t (body t b) (text b)) (l : List β) (s : MeshNode (Journal start)) :
    Writes s (l.foldl body s) (l.flatMap text) := by
  induction l generalizing s with
  | nil => exact still rfl rfl rfl
  | cons b l ih => exact (hbody s b).trans (ih (body s b))

theorem foldl_silent {β : Type} (body : MeshNode (Journal start) → β → MeshNode (Journal start))
    (hbody : ∀ t b, Writes t (body t b) []) (l : List β) (s : MeshNode (Journal start)) : Writes s (l.foldl body s) [] := by
  induction l generalizing s with
  | nil => exact still rfl rfl rfl
  | cons b l ih => exact (hbody s b).after (ih (body s b))

end Writes

/-! ## Direct messages -/

theorem note_writes (s : MeshNode (Journal start)) {o : Obs} (ho : o.source = none) : Writes s (s.note o) [] :=
  .none rfl rfl (l := [o]) rfl (by rw [List.filterMap_cons_none ho]; rfl)

theorem emit_writes (s : MeshNode (Journal start)) {e : MeshEvent} (he : (Obs.event e none).source = none) : Writes s (s.emit e) [] :=
  .none rfl rfl (l := [.event e none]) rfl (by rw [List.filterMap_cons_none he]; rfl)

theorem emitFor_writes (s : MeshNode (Journal start)) (fp : Fingerprint) {e : MeshEvent}
    (he : (Obs.event e (s.sessionView fp)).source = none) : Writes s (s.emitFor fp e) [] :=
  .none rfl rfl (l := [.event e (s.sessionView fp)]) rfl (by rw [List.filterMap_cons_none he]; rfl)

theorem sendDirected_writes (s : MeshNode (Journal start)) (t : MsgType) (fp : Fingerprint) (payload : Bytes) :
    Writes s (s.sendDirected t fp payload) [] := by
  obtain ⟨seen, os, heq, hos, -⟩ := sendDirected_carries s t fp payload
  rw [heq]
  exact .none rfl rfl rfl (List.filterMap_eq_nil_iff.mpr fun o ho => (hos o ho).source)

/-- What is sent besides the call on `encrypt` goes with no row. -/
theorem encryptAndSendDm_writes {s : MeshNode (Journal start)} {fp : Fingerprint} {σ : NoiseSession} (held : s.noiseSessions[fp]? = some σ)
    (kind : UInt8) (body : Bytes) : Writes (s.note (.encryptCall fp σ.view (kind :: body))) (s.encryptAndSendDm fp kind body) [] := by
  unfold encryptAndSendDm
  rw [held]
  cases henc : σ.encrypt (kind :: body) with
  | error e =>
    simp only [henc]
    exact .still rfl rfl rfl
  | ok r =>
    simp only [henc]
    refine .silent (.silent ?_ (note_writes _ rfl)) (sendDirected_writes _ _ _ _)
    exact .still rfl rfl rfl

theorem encryptText_writes (s : MeshNode (Journal start)) (fp : Fingerprint) (text : String) :
    Writes s (s.encryptAndSendDm fp dmKindText (asBytes text)) [] := by
  cases held : s.noiseSessions[fp]? with
  | none =>
    unfold encryptAndSendDm
    rw [held]
    exact .still rfl rfl rfl
  | some σ =>
    have hquiet : (Obs.encryptCall fp σ.view (dmKindText :: asBytes text)).source = none := by
      cases asBytes text with
      | nil => rfl
      | cons b bytes => rfl
    exact (note_writes s hquiet).silent (encryptAndSendDm_writes held _ _)

variable [Store S]

/-- A notice or an ack over a session that is there. -/
theorem sendControlDm_writes {s : MeshNode (Journal start)} {fp : Fingerprint} (held : s.noiseSessions[fp]? ≠ none) {kind : UInt8}
    (signal : kind = dmKindVerifyNotice ∨ kind = dmKindVerifyAck) : Writes s (s.sendControlDm fp kind) [] := by
  obtain ⟨σ, hσ⟩ := Option.ne_none_iff_exists'.mp held
  let dm : StoredDm := { peer := fp, mine := true, timestampMs := s.clock, body := [kind] }
  let t : MeshNode (Journal start) := { s with store := Store.putDm s.store dm }
  have ht : t.noiseSessions[fp]? = some σ := hσ
  have hsealed : Writes (t.note (.encryptCall fp σ.view [kind])) (t.encryptAndSendDm fp kind []) [] := encryptAndSendDm_writes ht kind []
  refine .silent ?_ hsealed
  refine .one (.signal fp kind) rfl (Journal.puts_add _ _) (l := [.encryptCall fp σ.view [kind]]) rfl ?_
  simp only [List.nil_append, List.filterMap_cons, Obs.source, if_pos signal, List.filterMap_nil]
  exact List.Perm.refl _

theorem trySendVerifyNotice_writes (s : MeshNode (Journal start)) (fp : Fingerprint) : Writes s (s.trySendVerifyNotice fp) [] := by
  unfold trySendVerifyNotice
  split_ifs with h
  · rw [Bool.and_eq_true] at h
    obtain ⟨σ, hσ, -⟩ := sessionReady_iff.mp h.1
    have hheld : ({ s with noticePending := s.noticePending.erase fp } : MeshNode (Journal start)).noiseSessions[fp]? ≠ none := by
      simp [hσ]
    refine .after ?_ (sendControlDm_writes hheld (.inl rfl))
    exact .still rfl rfl rfl
  · exact .still rfl rfl rfl

theorem received_writes (s : MeshNode (Journal start)) (fp : Fingerprint) (σ σ' : NoiseSession) (n : ℕ) (pt : Bytes) :
    Writes s (s.received fp σ σ' n pt) [] :=
  .one (.heard fp pt) rfl (Journal.puts_add _ _) rfl (List.Perm.refl _)

theorem decryptAndEmit_writes (s : MeshNode (Journal start)) (fp : Fingerprint) (ct : Bytes) : Writes s (s.decryptAndEmit fp ct) [] := by
  cases hheld : s.noiseSessions[fp]? with
  | none =>
    unfold decryptAndEmit
    rw [hheld]
    exact .still rfl rfl rfl
  | some σ =>
    rcases hdec : σ.decrypt ct with ⟨σ', e | pt⟩
    · have herror : s.decryptAndEmit fp ct = { s with noiseSessions := s.noiseSessions.insert fp σ' } := by
        simp only [decryptAndEmit, hheld, hdec]
      rw [herror]
      exact .still rfl rfl rfl
    · rw [decryptAndEmit_ok hheld hdec]
      have hreceived := received_writes s fp σ σ' (ofBe (ct.take 8)) pt
      split_ifs
      · have hsession : (s.received fp σ σ' (ofBe (ct.take 8)) pt).noiseSessions[fp]? ≠ none := by simp [received]
        exact hreceived.silent (sendControlDm_writes hsession (.inr rfl))
      · exact hreceived

/-! ## Handshakes -/

omit [Store S] in
theorem drainOutbound_writes (s : MeshNode (Journal start)) (fp : Fingerprint) : Writes s (s.drainOutbound fp) [] := by
  refine .after ?_ (.foldl_silent _ (fun t text => encryptText_writes t fp text) _ _)
  exact .still rfl rfl rfl

theorem drainInbound_writes (s : MeshNode (Journal start)) (fp : Fingerprint) : Writes s (s.drainInbound fp) [] := by
  refine .after ?_ (.foldl_silent _ (fun t ct => decryptAndEmit_writes t fp ct) _ _)
  exact .still rfl rfl rfl

theorem finishSession_writes (s : MeshNode (Journal start)) (fp : Fingerprint) : Writes s (s.finishSession fp) [] := by
  unfold finishSession
  split_ifs
  · refine .after ?_ (emit_writes _ rfl)
    exact .still rfl rfl rfl
  · refine .after (.after (.after ?_ (trySendVerifyNotice_writes _ _)) (drainOutbound_writes _ _)) (drainInbound_writes _ _)
    refine .after ?_ (emitFor_writes _ _ rfl)
    exact .still rfl rfl rfl

omit [Store S] in
theorem beginHandshake_writes (s : MeshNode (Journal start)) (fp : Fingerprint) : Writes s (s.beginHandshake fp) [] := by
  unfold beginHandshake
  cases NoiseSession.newInitiator s.identity.dhPrivateBytes with
  | error e => exact .still rfl rfl rfl
  | ok σ =>
    cases hw : σ.writeHandshake (s.entropy s.drawn) with
    | error e =>
      simp only [hw]
      exact .still rfl rfl rfl
    | ok r =>
      simp only [hw]
      refine .after (.after (.after ?_ (note_writes _ (o := .wrote fp true r.2) rfl)) (sendDirected_writes _ _ _ _)) (.still rfl rfl rfl)
      exact .still rfl rfl rfl

theorem advanceHandshake_writes (s : MeshNode (Journal start)) (fp : Fingerprint) : Writes s (s.advanceHandshake fp) [] := by
  unfold advanceHandshake
  cases s.noiseSessions[fp]? with
  | none => exact .still rfl rfl rfl
  | some σ =>
    simp only
    split_ifs
    · exact finishSession_writes s fp
    · cases hw : σ.writeHandshake (s.entropy s.drawn) with
      | error e => exact .still rfl rfl rfl
      | ok r =>
        simp only
        have hout : Writes s ((({ s with drawn := s.drawn + 1, noiseSessions := s.noiseSessions.insert fp r.1 } :
            MeshNode (Journal start)).note (.wrote fp r.1.initiator r.2)).sendDirected .noiseHandshake fp r.2) [] := by
          refine .after (.after ?_ (note_writes _ (o := .wrote fp r.1.initiator r.2) rfl)) (sendDirected_writes _ _ _ _)
          exact .still rfl rfl rfl
        split_ifs
        · exact hout.after (finishSession_writes _ _)
        · exact hout

omit [Store S] in
theorem resyncGate_writes (s : MeshNode (Journal start)) (fp : Fingerprint) : Writes s (s.resyncGate fp).1 [] := by
  simp only [resyncGate]
  split_ifs <;> exact .still rfl rfl rfl

omit [Store S] in
theorem glareGate_writes (s : MeshNode (Journal start)) (fp : Fingerprint) (payload : Bytes) :
    Writes s (s.glareGate fp payload).1 [] := by
  simp only [glareGate]
  cases s.noiseSessions[fp]? with
  | none => split_ifs <;> exact .still rfl rfl rfl
  | some σ =>
    simp only
    split_ifs <;> exact .still rfl rfl rfl

omit [Store S] in
theorem ensureResponder_writes (s : MeshNode (Journal start)) (fp : Fingerprint) : Writes s (s.ensureResponder fp).1 [] := by
  simp only [ensureResponder]
  cases NoiseSession.newResponder s.identity.dhPrivateBytes <;> split_ifs <;> exact .still rfl rfl rfl

theorem readAndAdvance_writes (s : MeshNode (Journal start)) (fp : Fingerprint) (payload : Bytes) :
    Writes s (s.readAndAdvance fp payload) [] := by
  unfold readAndAdvance
  cases s.noiseSessions[fp]? with
  | none => exact .still rfl rfl rfl
  | some σ =>
    cases hread : σ.readHandshake payload with
    | error e =>
      simp only [hread]
      exact .still rfl rfl rfl
    | ok σ' =>
      simp only [hread]
      refine .after ?_ (advanceHandshake_writes _ _)
      exact .still rfl rfl rfl

theorem handleNoiseHandshake_writes (s : MeshNode (Journal start)) (pkt : Packet) : Writes s (s.handleNoiseHandshake pkt) [] := by
  unfold handleNoiseHandshake
  split_ifs
  · exact .still rfl rfl rfl
  · cases s.ephToFp pkt.sender with
    | none => exact .still rfl rfl rfl
    | some fp =>
      have h₁ := resyncGate_writes s fp
      rcases hgate : s.resyncGate fp with ⟨s₁, go₁⟩
      rw [hgate] at h₁
      have h₂ := h₁.after (glareGate_writes s₁ fp pkt.payload)
      rcases hglare : s₁.glareGate fp pkt.payload with ⟨s₂, go₂⟩
      have h₃ := (hglare ▸ h₂).after (ensureResponder_writes s₂ fp)
      rcases hopen : s₂.ensureResponder fp with ⟨s₃, go₃⟩
      simp only [hgate, hglare, hopen] at h₂ h₃ ⊢
      split_ifs
      · exact h₁
      · exact h₂
      · exact h₃
      · exact h₃.after (readAndAdvance_writes s₃ fp pkt.payload)

theorem handleDirectMessage_writes (s : MeshNode (Journal start)) (pkt : Packet) : Writes s (s.handleDirectMessage pkt) [] := by
  unfold handleDirectMessage
  split_ifs
  · exact .still rfl rfl rfl
  · cases s.ephToFp pkt.sender with
    | none => exact .still rfl rfl rfl
    | some fp =>
      simp only
      generalize s.pendingInboundDms.insert fp _ = inbound
      have hheld : Writes s { s with pendingInboundDms := inbound } [] := .still rfl rfl rfl
      split_ifs
      · exact hheld.after (beginHandshake_writes _ _)
      · exact hheld
      · exact decryptAndEmit_writes s fp pkt.payload

omit [Store S] in
theorem retryStalledHandshakes_writes (s : MeshNode (Journal start)) (now : Millis) : Writes s (s.retryStalledHandshakes now) [] := by
  refine .foldl_silent _ (fun t fp => ?_) _ _
  refine .after ?_ (beginHandshake_writes _ _)
  exact .still rfl rfl rfl

/-! ## Texts -/

/-- However a text goes out, it is in the thread. -/
theorem sendDm_writes (s : MeshNode (Journal start)) (fp : Fingerprint) (text : String) :
    Writes s (s.sendDm fp text) [.typed fp text] := by
  let t : MeshNode (Journal start) := { s with store := Store.putDm s.store (ownRow fp s.clock (asBytes text)) }
  have hput : Writes s t [.typed fp text] :=
    .one (.typed fp text) rfl (Journal.puts_add _ _) (l := []) (List.append_nil _).symm (List.Perm.refl _)
  have hqueued : Writes t { t with store := Store.queueEnvelope t.store fp (asBytes text) t.clock } [] :=
    .still rfl ((Journal.puts_add _ _).trans (List.append_nil _)) rfl
  unfold sendDm
  simp only
  split_ifs
  · exact hput.silent (encryptText_writes t fp text)
  · exact hput.silent hqueued
  · refine hput.silent (.after ?_ (beginHandshake_writes _ _))
    exact .still rfl rfl rfl
  · refine hput.silent ?_
    exact .still rfl rfl rfl

omit [Store S] in
theorem startDmSession_writes (s : MeshNode (Journal start)) (fp : Fingerprint) : Writes s (s.startDmSession fp) [] := by
  unfold startDmSession
  split_ifs
  · exact emitFor_writes _ _ rfl
  · exact .still rfl rfl rfl
  · exact beginHandshake_writes s fp
  · exact .still rfl rfl rfl

theorem deliverHeld_writes (s : MeshNode (Journal start)) (fp : Fingerprint) :
    Writes s (s.deliverHeld fp) ((Store.takeEnvelopes s.store fp).2.map fun b => .typed fp (fromUtf8Lossy b)) := by
  unfold deliverHeld
  rw [List.map_eq_flatMap]
  have htaken : Writes s { s with store := (Store.takeEnvelopes s.store fp).1 } [] :=
    .still rfl ((Journal.puts_add _ _).trans (List.append_nil _)) rfl
  exact htaken.after (.foldl _ _ (fun t b => sendDm_writes t fp (fromUtf8Lossy b)) _ _)

/-! ## The other handlers -/

theorem noteKeyChange_writes (s : MeshNode (Journal start)) (fp : Fingerprint) (prev : Option Key32) (dh : Key32) :
    Writes s (s.noteKeyChange fp prev dh) [] := by
  unfold noteKeyChange
  cases prev with
  | none => exact .still rfl rfl rfl
  | some prev =>
    simp only
    split_ifs
    · exact .one (.changed fp) rfl (Journal.puts_add _ _) (l := [.event (.peerKeyChanged fp) none]) rfl (List.Perm.refl _)
    · exact .still rfl rfl rfl

omit [Store S] in
theorem dedupLinks_writes (s : MeshNode (Journal start)) : Writes s s.dedupLinks [] := by
  refine .after ?_ (.foldl_silent closeLink (fun t id => ?_) s.resolveLinks.redundantLinks s.resolveLinks)
  · exact .still rfl rfl rfl
  · exact .none rfl rfl (l := [.close id]) rfl rfl

omit [Store S] in
theorem tagged_writes (s : MeshNode (Journal start)) (link : LinkId) (pkt : Packet) : Writes s (s.tagged link pkt) [] := by
  unfold tagged noteLinkIdentity
  split_ifs
  · cases s.links[link]? with
    | none => exact dedupLinks_writes s
    | some l =>
      simp only
      split_ifs
      · refine .after ?_ (dedupLinks_writes _)
        exact .still rfl rfl rfl
      · exact dedupLinks_writes s
  · exact .still rfl rfl rfl

theorem announced_writes (s : MeshNode (Journal start)) (pkt : Packet) (ed dh : Key32) (nick : String) :
    Writes s (s.announced pkt ed dh nick) [] := by
  have hrecord : ∀ (t : MeshNode (Journal start)) (fp : Fingerprint), Writes t (t.recordPeer fp pkt) [] :=
    fun t fp => .still rfl ((Journal.puts_add _ _).trans (List.append_nil _)) rfl
  unfold announced
  simp only
  refine .after (.after (.after ?_ (noteKeyChange_writes _ _ _ _)) (hrecord _ _)) (emit_writes _ rfl)
  refine .after (note_writes s (o := .accept pkt) rfl) ?_
  exact .still rfl rfl rfl

/-- The envelopes for a peer are those from before its announce. -/
theorem announced_held [Shelf S] (s : MeshNode (Journal start)) (pkt : Packet) (ed dh : Key32) (nick : String) (fp : Fingerprint) :
    (Store.takeEnvelopes (s.announced pkt ed dh nick).store fp).2 = (Store.takeEnvelopes s.store fp).2 := by
  have hmarked : ∀ (t : MeshNode (Journal start)) (fp' : Fingerprint) (prev : Option Key32),
      (Store.takeEnvelopes (t.noteKeyChange fp' prev dh).store fp).2 = (Store.takeEnvelopes t.store fp).2 := by
    intro t fp' prev
    unfold noteKeyChange
    cases prev with
    | none => rfl
    | some prev =>
      simp only
      split_ifs
      · exact Shelf.put_dm t.store _ fp
      · rfl
  unfold announced
  simp only
  exact (Shelf.upsert_peer _ _ fp).trans (hmarked _ _ _)

theorem handleAnnounce_writes [Shelf S] (s : MeshNode (Journal start)) (pkt : Packet) :
    Writes s (s.handleAnnounce pkt) ((s.heldBy (announcedKey pkt)).map heldText) := by
  unfold announcedKey
  cases hdec : decodeAnnounce pkt.payload with
  | none =>
    simp only [handleAnnounce, hdec]
    exact .still rfl rfl rfl
  | some keys =>
    obtain ⟨ed, dh, nick⟩ := keys
    cases hvk : P.vkFromBytes ed with
    | none =>
      simp only [handleAnnounce, hdec, hvk]
      exact .still rfl rfl rfl
    | some vk =>
      cases hver : pkt.verifyWith vk with
      | error e =>
        simp only [handleAnnounce, hdec, hvk, hver, Except.isOk, Except.toBool]
        exact .still rfl rfl rfl
      | ok u =>
        have heq : s.handleAnnounce pkt = ((s.announced pkt ed dh nick).dedupLinks).deliverHeld (P.sha256 ed.toList) := by
          simp only [handleAnnounce, hdec, hvk, hver]
          rfl
        obtain ⟨links, os, hdedup, -⟩ := dedupLinks_update (s.announced pkt ed dh nick)
        have hheld := announced_held s pkt ed dh nick (P.sha256 ed.toList)
        have hdeliver := deliverHeld_writes (s.announced pkt ed dh nick).dedupLinks (P.sha256 ed.toList)
        rw [show (s.announced pkt ed dh nick).dedupLinks.store = (s.announced pkt ed dh nick).store by rw [hdedup], hheld] at hdeliver
        simp only [hvk, hver, Except.isOk, Except.toBool, if_true, heldBy, List.map_map]
        rw [heq]
        exact .after (.after (announced_writes s pkt ed dh nick) (dedupLinks_writes _)) hdeliver

theorem handleChannel_writes (s : MeshNode (Journal start)) (pkt : Packet) : Writes s (s.handleChannel pkt) [] := by
  rcases handleChannel_update s pkt with heq | ⟨channel, text, verified, -, -, heq⟩
  · rw [heq]
    exact .still rfl rfl rfl
  · rw [heq]
    have hput : Writes s { s with store := Store.putChannelMessage s.store (storedMessage pkt channel text) } [] :=
      .still rfl ((Journal.puts_add _ _).trans (List.append_nil _)) rfl
    simp only
    split_ifs
    · exact hput.silent (emit_writes _ rfl)
    · exact hput

omit P [Store S] in
theorem filterMap_source_sendObs (link : LinkId) (bytes : Bytes) (digest : Digest) (mtu : ℕ) :
    (sendObs link bytes digest mtu).filterMap Obs.source = [] := by
  rw [List.filterMap_eq_nil_iff]
  intro o ho
  unfold sendObs at ho
  split at ho
  · obtain ⟨f, -, rfl⟩ := List.mem_map.mp ho
    rfl
  · cases ho

omit [Store S] in
theorem sendBytes_writes (s : MeshNode (Journal start)) (link : LinkId) (bytes : Bytes) (digest : Digest) (mtu : ℕ) :
    Writes s (s.sendBytes link bytes digest mtu) [] := by
  rw [sendBytes_eq]
  exact .none rfl rfl rfl (filterMap_source_sendObs _ _ _ _)

theorem handleSyncRequest_writes (s : MeshNode (Journal start)) (link : LinkId) (pkt : Packet) :
    Writes s (s.handleSyncRequest link pkt) [] := by
  unfold handleSyncRequest
  cases decodeSync pkt.payload with
  | none => exact .still rfl rfl rfl
  | some remote =>
    refine .foldl_silent _ (fun t digest => ?_) _ _
    unfold resendStored
    cases Store.messageByDigest t.store digest with
    | none => exact .still rfl rfl rfl
    | some m =>
      simp only
      split_ifs
      · exact sendBytes_writes _ _ _ _ _
      · exact .still rfl rfl rfl

omit [Store S] in
theorem filterMap_source_broadcastObs (s : MeshNode (Journal start)) (pkt : Packet) (exclude : Option LinkId) :
    (s.broadcastObs pkt exclude).filterMap Obs.source = [] := by
  rw [List.filterMap_eq_nil_iff]
  intro o ho
  obtain ⟨e, -, he⟩ := List.mem_flatMap.mp ho
  exact List.filterMap_eq_nil_iff.mp (filterMap_source_sendObs _ _ _ _) o he

omit [Store S] in
theorem flood_writes (s : MeshNode (Journal start)) (pkt : Packet) : Writes s (s.flood pkt) [] := by
  refine .none rfl rfl rfl ?_
  rw [List.filterMap_cons_none (show Obs.source (.originate pkt) = none from rfl)]
  exact filterMap_source_broadcastObs s pkt none

theorem sendSyncRequests_writes (s : MeshNode (Journal start)) (link : LinkId) : Writes s (s.sendSyncRequests link) [] := by
  refine .foldl_silent _ (fun t channel => ?_) _ _
  exact (note_writes t (o := .originate (t.syncPacket channel)) rfl).after (sendBytes_writes _ _ _ _ _)

theorem dispatch_writes [Shelf S] (s : MeshNode (Journal start)) (link : LinkId) (pkt : Packet) :
    Writes s (s.dispatch link pkt) ((s.heldBy (if pkt.msgType = .announce then announcedKey pkt else none)).map heldText) := by
  cases htype : pkt.msgType with
  | announce =>
    simp only [dispatch, htype, if_true]
    exact handleAnnounce_writes s pkt
  | channelMessage =>
    simp only [dispatch, htype, reduceCtorEq, if_false]
    exact handleChannel_writes s pkt
  | syncRequest =>
    simp only [dispatch, htype, reduceCtorEq, if_false]
    exact handleSyncRequest_writes s link pkt
  | noiseHandshake =>
    simp only [dispatch, htype, reduceCtorEq, if_false]
    exact handleNoiseHandshake_writes s pkt
  | directMessage =>
    simp only [dispatch, htype, reduceCtorEq, if_false]
    exact handleDirectMessage_writes s pkt
  | _ =>
    simp only [dispatch, htype, reduceCtorEq, if_false]
    exact .still rfl rfl rfl

omit [Store S] in
theorem maybeRelay_writes (s : MeshNode (Journal start)) (link : LinkId) (pkt : Packet) : Writes s (s.maybeRelay link pkt) [] := by
  obtain ⟨rng, scheduler, hrelay⟩ := maybeRelay_update s link pkt
  rw [hrelay]
  exact .still rfl rfl rfl

/-! ## Calls -/

theorem onFrame_writes [Shelf S] (s : MeshNode (Journal start)) (link : LinkId) (frame : Bytes) :
    Writes s (s.onFrame link frame)
      ((s.heldBy ((s.learned (.transport (.frameReceived link frame))).map Prod.snd)).map heldText) := by
  have hfed : Writes s (s.fed frame) [] := .still rfl rfl rfl
  rw [onFrame_eq, learned]
  cases s.assembled frame with
  | none => exact hfed
  | some pkt =>
    have htag := hfed.after (tagged_writes (s.fed frame) link pkt)
    let t := (((s.fed frame).tagged link pkt).observed pkt).charged pkt
    have hcharged : Writes s t [] := htag.after (.still rfl rfl rfl)
    have hheld : ∀ ed, t.heldBy ed = s.heldBy ed := by
      obtain ⟨links, os, heq, -⟩ := tagged_update (s.fed frame) link pkt
      intro ed
      simp only [t, heq]
      rfl
    have hall := (hcharged.after (dispatch_writes t link pkt)).silent (maybeRelay_writes _ link pkt)
    rw [hheld] at hall
    simp only
    rw [onPacket_phased, ← tagged_accepts (s.fed frame) link pkt, accepts]
    cases hfresh : ((s.fed frame).tagged link pkt).fresh pkt with
    | false =>
      simp only [Bool.false_and, Bool.false_eq_true, and_false, if_false]
      exact htag.after (.still rfl rfl rfl)
    | true =>
      cases hadmits : (((s.fed frame).tagged link pkt).observed pkt).admits pkt with
      | false =>
        simp only [Bool.and_false, Bool.false_eq_true, and_false, if_false, if_true]
        exact hcharged
      | true =>
        simp only [Bool.and_self, and_true, if_true]
        by_cases htype : pkt.msgType = .announce
        · simpa only [htype, if_true, Option.map_map, Function.comp_def, Option.map_id'] using hall
        · simpa only [htype, if_false, Option.map_none] using hall

/-- What a call hands over: the rows of its texts, and those of what it notes. -/
theorem exec_writes [Shelf S] (s : MeshNode (Journal start)) (c : Call) : Writes (s.at_ c.now) (exec s c) (s.typed c) := by
  obtain ⟨now, a⟩ := c
  -- the operations on the store that hand over no row
  have hedit : ∀ (t : MeshNode (Journal start)) (op : StoreOp), op.row = none →
      Writes t { t with store := t.store.add op } [] := by
    intro t op hop
    refine .still rfl ?_ rfl
    show (t.store.add op).puts = t.store.puts
    rw [Journal.puts_add, hop]
    exact List.append_nil _
  cases a with
  | transport ev =>
    cases ev with
    | frameReceived link frame => exact onFrame_writes (s.at_ now) link frame
    | linkUp link mtu =>
      let t : MeshNode (Journal start) := { s.at_ now with links := s.links.insert link { mtu, peerEph := none, peerFp := none } }
      have hexec : exec s ⟨now, .transport (.linkUp link mtu)⟩ = (t.flood (t.ownPacket .announce none t.announcePayload)).sendSyncRequests link := by
        rw [← announce_eq]
        rfl
      rw [hexec]
      have hup : Writes (s.at_ now) t [] := .still rfl rfl rfl
      exact .after (hup.after (flood_writes t _)) (sendSyncRequests_writes _ link)
    | linkDown link => exact .none rfl rfl (l := [.event (.peerLost link) none]) rfl rfl
    | mtuChanged link mtu =>
      simp only [exec, act, onTransportEvent]
      split <;> exact .still rfl rfl rfl
  | tick =>
    have hswept : Writes (s.at_ now) (s.at_ now).swept [] := by
      rw [swept_eq]
      refine .none rfl rfl rfl ?_
      rw [List.filterMap_eq_nil_iff]
      intro o ho
      obtain ⟨r, -, hr⟩ := List.mem_flatMap.mp ho
      exact List.filterMap_eq_nil_iff.mp (filterMap_source_broadcastObs _ _ _) o hr
    exact hswept.after (retryStalledHandshakes_writes _ _)
  | takeEvents => exact .still rfl rfl rfl
  | joinChannel name => exact .still rfl rfl rfl
  | sendChannelMessage channel text =>
    simp only [exec, act]
    rw [sendChannelMessage_eq]
    refine .after ?_ (flood_writes _ _)
    exact .still rfl ((Journal.puts_add _ _).trans (List.append_nil _)) rfl
  | announce =>
    simp only [exec, act]
    rw [announce_eq]
    exact flood_writes _ _
  | sendDm fp text => exact sendDm_writes (s.at_ now) fp text
  | startDmSession fp => exact startDmSession_writes (s.at_ now) fp
  | verifyPeer fp =>
    refine .after ?_ (trySendVerifyNotice_writes _ fp)
    exact ((hedit (s.at_ now) (.upsertPeer _) rfl).after (hedit _ (.deleteDms fp true) rfl)).after (.still rfl rfl rfl)
  | unverifyPeer fp =>
    simp only [exec, act, unverifyPeer]
    cases Store.getPeer (s.at_ now).store fp with
    | none => exact (hedit (s.at_ now) (.deleteDms fp true) rfl).after (.still rfl rfl rfl)
    | some p => exact ((hedit (s.at_ now) (.upsertPeer _) rfl).after (hedit _ (.deleteDms fp true) rfl)).after (.still rfl rfl rfl)
  | forgetPeer fp =>
    exact ((hedit (s.at_ now) (.deleteDms fp false) rfl).after (hedit _ (.deletePeer fp) rfl)).after (.still rfl rfl rfl)
  | setPetname fp name => exact hedit (s.at_ now) (.upsertPeer _) rfl
  | panicWipe => exact (hedit (s.at_ now) .panicWipe rfl).after (.still rfl rfl rfl)

/-- Where the rows of a call come from. -/
def sources (s : MeshNode S) (c : Call) : List Source :=
  s.typed c ++ ((exec s c).trace.drop s.trace.length).filterMap Obs.source

/-- The rows that belong to them. -/
def sourceRows (s : MeshNode S) (c : Call) : List StoredDm := (s.sources c).map (Source.row c.now)

theorem exec_replayed (s : MeshNode (Journal start)) (c : Call) : (exec s c).replayed = exec s.replayed c := run_replayed s [c]

theorem puts_perm [Shelf S] (s : MeshNode (Journal start)) (calls : List Call) :
    (Runs.run exec s calls).store.puts.Perm (s.store.puts ++ Runs.outputs exec sourceRows s.replayed calls) := by
  induction calls generalizing s with
  | nil => simp [Runs.outputs]
  | cons c calls ih =>
    obtain ⟨sources, os, htrace, hputs, hperm⟩ := (exec_writes s c).rows
    have hsources : s.replayed.sources c = s.typed c ++ os.filterMap Obs.source := by
      have hdrop : (exec s.replayed c).trace.drop s.replayed.trace.length = os := by
        rw [← exec_replayed, show (exec s c).replayed.trace = s.trace ++ os from htrace]
        exact List.drop_left
      rw [MeshNode.sources, hdrop]
      rfl
    have hcall : (exec s c).store.puts.Perm (s.store.puts ++ s.replayed.sourceRows c) := by
      rw [hputs, sourceRows, hsources]
      exact (hperm.map _).append_left _
    have hrest := (ih (exec s c)).trans (hcall.append_right _)
    rw [exec_replayed, List.append_assoc] at hrest
    exact hrest

/-- The rows that a run hands to `put_dm` are those of the texts sent and delivered and of what it notes. -/
theorem rowsPut_perm [Shelf S] (s : MeshNode S) (calls : List Call) :
    (s.rowsPut calls).Perm (Runs.outputs exec sourceRows s calls) := puts_perm s.journaled calls

end MeshNode
end CockroachChat
