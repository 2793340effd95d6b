import CockroachChat.Foundations.Backlog
import CockroachChat.Sessions.Agreement
import CockroachChat.Stores.Envelopes
import CockroachChat.Stores.Untouched

/-! # Texts for a peer out of reach

A process may end at any point; the next one starts with an empty memory over the same store. A text for
a peer that has not been heard of is held in the store until the peer announces itself, then waits in
memory for a session. -/
namespace CockroachChat
set_option autoImplicit false
open Backlog (Debt Covers outstanding settleAll)
open MemoryStore (lastN)

/-! ## The queue of one peer -/

namespace SqliteStore

/-- What is queued for a peer, oldest first. -/
def queue (s : SqliteStore) (fp : Fingerprint) : List Envelope := (s.envelopes.filter fun r => r.recipient = fp).map (·.envelope)

/-- The rows come in the order of their ids, as they were inserted. -/
def Sequenced (s : SqliteStore) : Prop := ∃ queues, SameQueues queues s.envelopes s.envelopeSeq

variable {s : SqliteStore}

theorem sequenced_new (historyMax : ℕ) (historyMs envelopeTtlMs : Millis) (envelopeMaxPerPeer : ℕ) :
    Sequenced (new historyMax historyMs envelopeTtlMs envelopeMaxPerPeer) := ⟨∅, .empty 0⟩

theorem Sequenced.take (h : s.Sequenced) (fp : Fingerprint) : (s.takeEnvelopes fp).2 = (s.queue fp).map (·.packetBytes) := by
  obtain ⟨queues, hqueues⟩ := h
  rw [queue, ← hqueues.queue]
  exact (hqueues.take fp).symm

/-- A call on envelopes serves each queue. -/
theorem Sequenced.served [Engine] (h : s.Sequenced) (c : EnvelopeCall) (hc : c.time < 2 ^ 63) :
    (c.apply s).Sequenced ∧ ∀ fp, (c.apply s).queue fp =
      EnvelopeCall.served (SqliteStore.alive s.envelopeTtlMs) s.envelopeMaxPerPeer fp (s.queue fp) c := by
  obtain ⟨queues, hqueues⟩ := h
  obtain ⟨queues', hmirror, hserved⟩ := EnvelopeCall.sqlite_apply (s := s) ⟨hqueues, rfl, rfl⟩ c hc
  refine ⟨⟨queues', hmirror.rows⟩, fun fp => ?_⟩
  rw [queue, ← hmirror.rows.queue, hserved, hqueues.queue, queue]

/-- The table of envelopes, with what decides about it. -/
def mailbag (s : SqliteStore) : List EnvelopeRow × ℕ × Millis × ℕ :=
  (s.envelopes, s.envelopeSeq, s.envelopeTtlMs, s.envelopeMaxPerPeer)

theorem mailbag_parts {s s' : SqliteStore} (h : s'.mailbag = s.mailbag) : s'.envelopes = s.envelopes ∧
    s'.envelopeSeq = s.envelopeSeq ∧ s'.envelopeTtlMs = s.envelopeTtlMs ∧ s'.envelopeMaxPerPeer = s.envelopeMaxPerPeer := by
  simpa only [mailbag, Prod.mk.injEq] using h

theorem queue_of_mailbag {s s' : SqliteStore} (h : s'.mailbag = s.mailbag) (fp : Fingerprint) : s'.queue fp = s.queue fp := by
  rw [queue, (mailbag_parts h).1, queue]

theorem Sequenced.of_mailbag {s s' : SqliteStore} (h : s.Sequenced) (same : s'.mailbag = s.mailbag) : s'.Sequenced := by
  obtain ⟨hrows, hseq, -⟩ := mailbag_parts same
  obtain ⟨queues, hqueues⟩ := h
  exact ⟨queues, by rwa [hrows, hseq]⟩

theorem mailbag_apart [Engine] : MeshNode.Apart mailbag where
  put _ _ := rfl
  channel _ _ := by
    simp only [Store.putChannelMessage, putChannelMessage, pruneChannel, mailbag]
    split_ifs <;> rfl
  peer _ _ := rfl
  gone _ _ := rfl
  dms _ _ _ := by
    simp only [Store.deleteDms, deleteDms, mailbag]
    split_ifs <;> rfl
  take st st' fp h := by
    simp only [mailbag, Prod.mk.injEq] at h
    obtain ⟨hrows, hseq, httl, hcap⟩ := h
    simp only [Store.takeEnvelopes, takeEnvelopes, mailbag, hrows, hseq, httl, hcap]

end SqliteStore

/-! ## Turns -/

variable [P : Prims]

/-- A call, or a new process over the store of the last one. -/
inductive Turn where
  | call (c : Call)
  | restart (identity : LocalIdentity) (cfg : Tunables) (clock : Millis) (nickname : String) (rngSeed : ℕ) (entropy : ℕ → P.Entropy)

/-- A text and the time at which the user gave it. -/
structure HeldText where
  text : String
  givenMs : Millis
  deriving DecidableEq

def HeldText.row (h : HeldText) : Envelope := { packetBytes := asBytes h.text, queuedMs := h.givenMs }

/-- The session encrypts the texts, one after the other. -/
def NoiseSession.Encrypts (σ : NoiseSession) : List String → Prop
  | [] => True
  | text :: texts => ∃ σ' ct, σ.encrypt (dmKindText :: asBytes text) = .ok (σ', ct) ∧ σ'.Encrypts texts

/-- The texts for a peer that observations show encrypted. -/
def textsFor (fp : Fingerprint) (os : List Obs) : List String := (os.filterMap Obs.sentText).filterMap (textWith fp)

namespace MeshNode
variable {S : Type}

/-- No announce of the peer has been seen, or no link is up. -/
def OutOfReach (s : MeshNode S) (fp : Fingerprint) : Prop := s.fpToEph[fp]? = none ∨ s.links.isEmpty = true

instance (s : MeshNode S) (fp : Fingerprint) : Decidable (s.OutOfReach fp) := inferInstanceAs (Decidable (_ ∨ _))

/-- The session with the peer is ready and encrypts the texts. -/
def Seals (s : MeshNode S) (fp : Fingerprint) (texts : List String) : Prop :=
  ∃ σ, s.noiseSessions[fp]? = some σ ∧ σ.isReady = true ∧ σ.Encrypts texts

variable [Store S]

def turn (s : MeshNode S) : Turn → MeshNode S
  | .call c => exec s c
  | .restart identity cfg clock nickname rngSeed entropy => new identity cfg clock s.store nickname rngSeed entropy

/-- The texts for a peer that a call encrypts. -/
def sealedBy (s : MeshNode S) (c : Call) (fp : Fingerprint) : List String := textsFor fp ((exec s c).trace.drop s.trace.length)

end MeshNode

/-! ## What a ready session encrypts -/

omit P in
theorem textsFor_append (fp : Fingerprint) (os os' : List Obs) : textsFor fp (os ++ os') = textsFor fp os ++ textsFor fp os' := by
  simp only [textsFor, List.filterMap_append]

theorem textsFor_neutral (fp : Fingerprint) {id : LocalIdentity} {os : List Obs} (h : ∀ o ∈ os, o.Neutral id) : textsFor fp os = [] := by
  rw [textsFor, Obs.filterMap_sentText h, List.filterMap_nil]

theorem NoiseSession.encrypt_ready {σ σ' : NoiseSession} {pt ct : Bytes} (h : σ.encrypt pt = .ok (σ', ct)) : σ'.isReady = true := by
  unfold NoiseSession.encrypt at h
  cases hinner : σ.inner with
  | transport ts =>
    rw [hinner] at h
    simp only at h
    cases hwrite : P.tsWriteMessage ts pt with
    | error e =>
      rw [hwrite] at h
      cases h
    | ok r =>
      rw [hwrite] at h
      cases h
      rfl
  | handshake hs =>
    rw [hinner] at h
    cases h
  | poisoned =>
    rw [hinner] at h
    cases h

namespace MeshNode
variable {S : Type} [Store S] {s : MeshNode S} {fp : Fingerprint}

omit [Store S] in
theorem Seals.sessionReady {texts : List String} (h : s.Seals fp texts) : s.sessionReady fp = true := by
  obtain ⟨σ, held, ready, -⟩ := h
  exact sessionReady_iff.mpr ⟨σ, held, ready⟩

theorem sendDm_seals {text : String} {texts : List String} (h : s.Seals fp (text :: texts)) :
    ∃ os, (s.sendDm fp text).trace = s.trace ++ os ∧ textsFor fp os = [text] ∧ (s.sendDm fp text).Seals fp texts := by
  obtain ⟨σ, held, ready, σ', ct, hencrypt, hmore⟩ := h
  let dm : StoredDm := { peer := fp, mine := true, timestampMs := s.clock, body := asBytes text }
  have hsend : s.sendDm fp text = ({ s with
      store := Store.putDm s.store dm
      noiseSessions := s.noiseSessions.insert fp σ'
      trace := s.trace ++ [.encryptCall fp σ.view (dmKindText :: asBytes text),
        .encrypted fp σ.view σ.sendNonce (dmKindText :: asBytes text)] } : MeshNode S).sendDirected .directMessage fp ct := by
    have hready : s.sessionReady fp = true := sessionReady_iff.mpr ⟨σ, held, ready⟩
    have hstored : ({ s with store := Store.putDm s.store dm } : MeshNode S).sessionReady fp = true := hready
    rw [sendDm, if_pos hstored]
    simp [encryptAndSendDm, held, hencrypt, note, dm]
  obtain ⟨seen, os, hupdate, hquiet⟩ := sendDirected_update ({ s with
      store := Store.putDm s.store dm
      noiseSessions := s.noiseSessions.insert fp σ'
      trace := s.trace ++ [.encryptCall fp σ.view (dmKindText :: asBytes text),
        .encrypted fp σ.view σ.sendNonce (dmKindText :: asBytes text)] } : MeshNode S)
    (t := .directMessage) (by decide) fp ct
  rw [hsend, hupdate]
  refine ⟨_, List.append_assoc _ _ _, ?_, σ', by simp, NoiseSession.encrypt_ready hencrypt, hmore⟩
  rw [textsFor_append, textsFor_neutral fp fun o ho => (hquiet o ho).neutral, List.append_nil]
  have hsent : [Obs.encryptCall fp σ.view (dmKindText :: asBytes text),
      .encrypted fp σ.view σ.sendNonce (dmKindText :: asBytes text)].filterMap Obs.sentText = [(fp, text)] := by
    have hone := filterMap_encrypted fp σ.view σ.sendNonce (by decide : dmKindText ≤ dmKindVerifyAck) (asBytes text)
    rw [carried, if_pos rfl, fromUtf8Lossy_asBytes] at hone
    exact hone
  rw [textsFor, hsent]
  simp [textWith]

theorem deliverHeld_seals (h : s.Seals fp ((Store.takeEnvelopes s.store fp).2.map fromUtf8Lossy)) :
    ∃ os, (s.deliverHeld fp).trace = s.trace ++ os ∧
      textsFor fp os = (Store.takeEnvelopes s.store fp).2.map fromUtf8Lossy := by
  have hfold : ∀ (held : List Bytes) (t : MeshNode S), t.Seals fp (held.map fromUtf8Lossy) →
      ∃ os, (held.foldl (fun t b => t.sendDm fp (fromUtf8Lossy b)) t).trace = t.trace ++ os ∧
        textsFor fp os = held.map fromUtf8Lossy := by
    intro held
    induction held with
    | nil => exact fun t _ => ⟨[], (List.append_nil _).symm, rfl⟩
    | cons b held ih =>
      intro t ht
      obtain ⟨os, htrace, htexts, hnext⟩ := sendDm_seals ht
      obtain ⟨os', htrace', htexts'⟩ := ih _ hnext
      refine ⟨os ++ os', ?_, ?_⟩
      · rw [List.foldl_cons, htrace', htrace, List.append_assoc]
      · rw [textsFor_append, htexts, htexts']
        rfl
  exact hfold _ { s with store := (Store.takeEnvelopes s.store fp).1 } h

theorem noteKeyChange_sessions (s : MeshNode S) (fp : Fingerprint) (prev : Option Key32) (dh : Key32) :
    (s.noteKeyChange fp prev dh).noiseSessions = s.noiseSessions ∧ s.trace <+: (s.noteKeyChange fp prev dh).trace := by
  unfold noteKeyChange
  split
  · exact ⟨rfl, List.prefix_rfl⟩
  · split_ifs
    · exact ⟨rfl, List.prefix_append _ _⟩
    · exact ⟨rfl, List.prefix_rfl⟩

theorem announced_sessions (s : MeshNode S) (pkt : Packet) (ed dh : Key32) (nick : String) :
    (s.announced pkt ed dh nick).noiseSessions = s.noiseSessions ∧ s.trace <+: (s.announced pkt ed dh nick).trace := by
  obtain ⟨hsessions, htrace⟩ := noteKeyChange_sessions { s.note (.accept pkt) with
      ephKeys := s.ephKeys.insert pkt.sender ed
      fpToEph := s.fpToEph.insert (P.sha256 ed.toList) pkt.sender
      peerStaticDh := s.peerStaticDh.insert (P.sha256 ed.toList) dh }
    (P.sha256 ed.toList) (s.peerStaticDh[(P.sha256 ed.toList : Fingerprint)]?) dh
  exact ⟨hsessions, ((List.prefix_append _ _).trans htrace).trans (List.prefix_append _ _)⟩

end MeshNode

/-- An announce of a peer with a session that encrypts what is queued sends all of it. -/
theorem exec_seals [Engine] {s : MeshNode SqliteStore} {c : Call} {fp : Fingerprint} {b : EphId × Key32}
    (learned : (s.at_ c.now).learned c.action = some b) (key : P.sha256 b.2.toList = fp)
    (h : s.Seals fp ((Store.takeEnvelopes s.store fp).2.map fromUtf8Lossy)) :
    ((Store.takeEnvelopes s.store fp).2.map fromUtf8Lossy).Sublist (s.sealedBy c fp) := by
  obtain ⟨now, a⟩ := c
  cases a with
  | transport ev =>
    cases ev with
    | frameReceived link frame =>
      have hexec : MeshNode.exec s ⟨now, .transport (.frameReceived link frame)⟩ = (s.at_ now).onFrame link frame := rfl
      simp only [MeshNode.learned] at learned
      rw [MeshNode.sealedBy, hexec, MeshNode.onFrame_eq]
      cases hasm : (s.at_ now).assembled frame with
      | none =>
        rw [hasm] at learned
        cases learned
      | some pkt =>
        simp only [hasm] at learned ⊢
        split_ifs at learned with hcond
        obtain ⟨ed, hkey, rfl⟩ := Option.map_eq_some_iff.mp learned
        obtain ⟨hann, haccepts⟩ := hcond
        have htag : ((s.at_ now).fed frame).tagged link pkt = (s.at_ now).fed frame := by simp [MeshNode.tagged, hann]
        rw [MeshNode.accepts, Bool.and_eq_true] at haccepts
        obtain ⟨rng, scheduler, hrelay⟩ := MeshNode.maybeRelay_update
          (((((s.at_ now).fed frame).observed pkt).charged pkt).dispatch link pkt) link pkt
        rw [MeshNode.onPacket_phased, htag, if_pos haccepts.1, if_pos haccepts.2, hrelay]
        have hdispatch : ∀ t : MeshNode SqliteStore, t.dispatch link pkt = t.handleAnnounce pkt := by
          intro t
          simp only [MeshNode.dispatch, hann]
        rw [hdispatch]
        obtain ⟨hnone, -⟩ | ⟨ed', dh, nick, hkey', heq⟩ :=
          MeshNode.handleAnnounce_keyed ((((s.at_ now).fed frame).observed pkt).charged pkt) pkt
        · rw [hkey] at hnone
          cases hnone
        · obtain rfl := Option.some.inj (hkey.symm.trans hkey')
          let t := (((s.at_ now).fed frame).observed pkt).charged pkt
          obtain ⟨hsessions, front, hfront⟩ := MeshNode.announced_sessions t pkt ed dh nick
          obtain ⟨links, closes, hdedup, -⟩ := MeshNode.dedupLinks_update (t.announced pkt ed dh nick)
          have hrows : (t.announced pkt ed dh nick).store.envelopes = s.store.envelopes :=
            congrArg Prod.fst (MeshNode.announced_reads SqliteStore.mailbag_apart t pkt ed dh nick)
          have htake : (Store.takeEnvelopes (t.announced pkt ed dh nick).dedupLinks.store fp).2 =
              (Store.takeEnvelopes s.store fp).2 := by
            rw [hdedup]
            simp only [Store.takeEnvelopes, SqliteStore.takeEnvelopes, hrows]
          have hseals : (t.announced pkt ed dh nick).dedupLinks.Seals fp
              ((Store.takeEnvelopes (t.announced pkt ed dh nick).dedupLinks.store fp).2.map fromUtf8Lossy) := by
            obtain ⟨σ, held, hσ⟩ := h
            rw [htake]
            exact ⟨σ, by rw [hdedup]; exact hsessions ▸ held, hσ⟩
          obtain ⟨os, htrace, htexts⟩ := MeshNode.deliverHeld_seals hseals
          have hsplit : ((t.announced pkt ed dh nick).dedupLinks.deliverHeld fp).trace = s.trace ++ (front ++ closes ++ os) := by
            have hstart : t.trace = s.trace := rfl
            rw [htrace, hdedup, ← hfront, hstart]
            simp only [List.append_assoc]
          subst key
          rw [heq, hsplit, List.drop_left, textsFor_append, htexts, htake]
          exact List.sublist_append_right _ _
    | _ => cases learned
  | _ => cases learned

/-! ## What is owed -/

section Arrears
variable [Engine] (fp : Fingerprint)

/-- Texts older than the time to live are settled. -/
def aged (s : MeshNode SqliteStore) (now : Millis) (l : List (Debt HeldText)) : List (Debt HeldText) :=
  Backlog.age (fun h => 0 < s.store.envelopeTtlMs ∧ s.store.envelopeTtlMs ≤ now - h.givenMs) l

/-- The texts given for a peer out of reach, the newest in front: at most as many as a queue holds. A text is
settled once it is too old at some reading of the clock, or encrypted; the user who drops the peer or wipes the
store gives up all of them. -/
def arrears (s : MeshNode SqliteStore) (l : List (Debt HeldText)) : Turn → List (Debt HeldText)
  | .restart .. => l
  | .call c =>
      let l := aged s c.now l
      match c.action with
      | .sendDm fp' text =>
          if fp' = fp ∧ s.OutOfReach fp ∧ s.sealedBy c fp = [] then
            ({ item := { text, givenMs := c.now }, settled := false } :: l).take s.store.envelopeMaxPerPeer
          else l
      | .unverifyPeer fp' | .forgetPeer fp' => if fp' = fp then [] else l
      | .panicWipe => []
      | _ => settleAll (·.text) (s.sealedBy c fp) l

/-- A turn, with the debts carried along. -/
def bookedTurn (x : MeshNode SqliteStore × List (Debt HeldText)) (t : Turn) : MeshNode SqliteStore × List (Debt HeldText) :=
  (x.1.turn t, arrears fp x.1 x.2 t)

/-- Every text that is owed is in the store's queue for the peer. -/
def Holds (s : MeshNode SqliteStore) (l : List (Debt HeldText)) : Prop :=
  ((outstanding l).map fun h => asBytes h.text).Subperm (Store.takeEnvelopes s.store fp).2

instance (s : MeshNode SqliteStore) (l : List (Debt HeldText)) : Decidable (Holds fp s l) := inferInstanceAs (Decidable (List.Subperm _ _))

/-- The turn puts no text for a peer out of reach where it will not last: the text is encrypted at once, or the peer
is unknown and there is no session; and an announce of the peer finds nothing owed, or a session that encrypts all
that is queued. Clock readings fit into the column. -/
def Lasting (x : MeshNode SqliteStore × List (Debt HeldText)) : Turn → Prop
  | .restart .. => True
  | .call c => c.now < 2 ^ 63 ∧
      (∀ text, c.action = .sendDm fp text → x.1.OutOfReach fp →
        x.1.Seals fp [text] ∨ x.1.sessionReady fp = false ∧ x.1.fpToEph[fp]? = none) ∧
      ∀ b, (x.1.at_ c.now).learned c.action = some b → P.sha256 b.2.toList = fp →
        outstanding (aged x.1 c.now x.2) = [] ∨
          x.1.Seals fp ((Store.takeEnvelopes x.1.store fp).2.map fromUtf8Lossy)

/-! ## One turn -/

/-- The books are square: the queue covers what is owed. -/
structure Square (ttlMs : Millis) (cap : ℕ) (x : MeshNode SqliteStore × List (Debt HeldText)) : Prop where
  rows : x.1.store.Sequenced
  ttl : x.1.store.envelopeTtlMs = ttlMs
  cap : x.1.store.envelopeMaxPerPeer = cap
  covers : Covers HeldText.row x.2 (x.1.store.queue fp).reverse

variable {fp} {ttlMs : Millis} {cap : ℕ} {s : MeshNode SqliteStore} {l : List (Debt HeldText)}

theorem Square.holds (h : Square fp ttlMs cap (s, l)) : Holds fp s l := by
  have hbytes := (h.covers.outstanding_sublist.map (·.packetBytes)).subperm
  rw [List.map_map, List.map_reverse] at hbytes
  have htake : (Store.takeEnvelopes s.store fp).2 = (s.store.queue fp).map (·.packetBytes) := h.rows.take fp
  rw [Holds, htake]
  exact hbytes.trans (List.reverse_perm _).subperm

omit [Engine] in
/-- The same mailbag, and debts it covers. -/
theorem Square.same (h : Square fp ttlMs cap (s, l)) {s' : MeshNode SqliteStore} (bag : s'.store.mailbag = s.store.mailbag)
    {l' : List (Debt HeldText)} (covers : Covers HeldText.row l' (s.store.queue fp).reverse) : Square fp ttlMs cap (s', l') := by
  obtain ⟨-, -, httl, hcap⟩ := SqliteStore.mailbag_parts bag
  exact ⟨h.rows.of_mailbag bag, httl.trans h.ttl, hcap.trans h.cap, by rwa [SqliteStore.queue_of_mailbag bag]⟩

omit [Engine] in
theorem aged_covers (h : Square fp ttlMs cap (s, l)) (now : Millis) :
    Covers HeldText.row (aged s now l) (s.store.queue fp).reverse := h.covers.age_same _

/-- A call on envelopes, and debts that what it serves covers. -/
theorem Square.serve (h : Square fp ttlMs cap (s, l)) (c : EnvelopeCall) (hc : c.time < 2 ^ 63) {s' : MeshNode SqliteStore}
    (bag : s'.store.mailbag = (c.apply s.store).mailbag) {l' : List (Debt HeldText)}
    (covers : Covers HeldText.row l'
      (EnvelopeCall.served (SqliteStore.alive ttlMs) cap fp (s.store.queue fp) c).reverse) : Square fp ttlMs cap (s', l') := by
  obtain ⟨hrows, hqueue⟩ := h.rows.served c hc
  have hsame : (c.apply s.store).envelopeTtlMs = s.store.envelopeTtlMs ∧
      (c.apply s.store).envelopeMaxPerPeer = s.store.envelopeMaxPerPeer := by
    cases c <;> exact ⟨rfl, rfl⟩
  obtain ⟨-, -, httl, hcap⟩ := SqliteStore.mailbag_parts bag
  refine ⟨hrows.of_mailbag bag, httl.trans (hsame.1.trans h.ttl), hcap.trans (hsame.2.trans h.cap), ?_⟩
  have hserved : s'.store.queue fp = EnvelopeCall.served (SqliteStore.alive ttlMs) cap fp (s.store.queue fp) c := by
    rw [SqliteStore.queue_of_mailbag bag, hqueue, h.ttl, h.cap]
  exact hserved ▸ covers

/-- A text is put into the queue when there is neither a session nor a route, and nowhere else in the mailbag. -/
theorem sendDm_mailbag (s : MeshNode SqliteStore) (fp : Fingerprint) (text : String) :
    (s.sessionReady fp = false ∧ s.fpToEph[fp]? = none ∧ (s.sendDm fp text).trace = s.trace ∧
      (s.sendDm fp text).store.mailbag = (s.store.queueEnvelope fp (asBytes text) s.clock).mailbag) ∨
    (¬ (s.sessionReady fp = false ∧ s.fpToEph[fp]? = none) ∧ (s.sendDm fp text).store.mailbag = s.store.mailbag) := by
  let dm : StoredDm := { peer := fp, mine := true, timestampMs := s.clock, body := asBytes text }
  by_cases hready : s.sessionReady fp = true
  · refine .inr ⟨fun h => by rw [hready] at h; exact Bool.noConfusion h.1, ?_⟩
    have hsend : s.sendDm fp text =
        ({ s with store := Store.putDm s.store dm } : MeshNode SqliteStore).encryptAndSendDm fp dmKindText (asBytes text) :=
      if_pos hready
    rw [hsend, MeshNode.encryptAndSendDm_store]
    rfl
  · cases hroute : s.fpToEph[fp]? with
    | none =>
      have hunknown : (!s.fpToEph.contains fp) = true := by
        rw [Std.ExtTreeMap.contains_eq_isSome_getElem?, hroute]
        rfl
      have hsend : s.sendDm fp text =
          { s with store := Store.queueEnvelope (Store.putDm s.store dm) fp (asBytes text) s.clock } :=
        (if_neg hready).trans (if_pos hunknown)
      refine .inl ⟨by simpa using hready, rfl, ?_, ?_⟩
      · rw [hsend]
      · rw [hsend]
        rfl
    | some eph =>
      refine .inr ⟨(fun h => by cases h.2), ?_⟩
      apply MeshNode.sendDm_routed_reads SqliteStore.mailbag_apart.put
      rw [Std.ExtTreeMap.contains_eq_isSome_getElem?, hroute]
      rfl

omit P [Engine] in
theorem lastN_reverse {α : Type} (n : ℕ) (q : List α) : (lastN n q).reverse = q.reverse.take n := List.take_reverse.symm

omit P [Engine] in
/-- What the column calls young enough has not reached the time to live. -/
theorem alive_of_young (small : ttlMs < 2 ^ 63) {now : Millis} {h : HeldText}
    (young : decide (0 < ttlMs ∧ ttlMs ≤ now - h.givenMs) = false) : SqliteStore.alive ttlMs now h.row.queuedMs = true := by
  rw [decide_eq_false_iff_not, not_and] at young
  rw [SqliteStore.alive, decide_eq_true_eq, asI64_small small]
  by_cases hzero : ttlMs = 0
  · exact .inl hzero
  · have hyoung := young (Nat.pos_of_ne_zero hzero)
    exact .inr ((age_lt (Nat.pos_of_ne_zero hzero)).mpr (Nat.lt_of_not_le hyoung))

omit [Engine] in
/-- A text enters the queue as the newest. -/
theorem queued_covers (h : Square fp ttlMs cap (s, l)) (small : ttlMs < 2 ^ 63) (text : String) (now : Millis) :
    Covers HeldText.row (({ item := { text, givenMs := now }, settled := false } :: aged s now l).take cap)
      (EnvelopeCall.served (SqliteStore.alive ttlMs) cap fp (s.store.queue fp) (.queue fp (asBytes text) now)).reverse := by
  rw [EnvelopeCall.served, if_pos rfl, lastN_reverse, List.reverse_append, ← List.filter_reverse]
  have hyoung : Covers HeldText.row (aged s now l)
      ((s.store.queue fp).reverse.filter fun e => SqliteStore.alive ttlMs now e.queuedMs) := by
    refine h.covers.age fun a young => ?_
    rw [h.ttl] at young
    exact alive_of_young small young
  exact (Covers.held { text, givenMs := now } false hyoung).take cap

theorem sendDm_square (h : Square fp ttlMs cap (s, l)) (small : ttlMs < 2 ^ 63) {now : Millis} (hnow : now < 2 ^ 63)
    (fp' : Fingerprint) (text : String)
    (lasting : fp' = fp → s.OutOfReach fp → s.Seals fp [text] ∨ s.sessionReady fp = false ∧ s.fpToEph[fp]? = none) :
    Square fp ttlMs cap (MeshNode.exec s ⟨now, .sendDm fp' text⟩, arrears fp s l (.call ⟨now, .sendDm fp' text⟩)) := by
  have hexec : MeshNode.exec s ⟨now, .sendDm fp' text⟩ = (s.at_ now).sendDm fp' text := rfl
  have harrears : arrears fp s l (.call ⟨now, .sendDm fp' text⟩) =
      if fp' = fp ∧ s.OutOfReach fp ∧ s.sealedBy ⟨now, .sendDm fp' text⟩ fp = [] then
        ({ item := { text, givenMs := now }, settled := false } :: aged s now l).take s.store.envelopeMaxPerPeer
      else aged s now l := rfl
  rcases sendDm_mailbag (s.at_ now) fp' text with ⟨hready, hroute, htrace, hbag⟩ | ⟨hreach, hbag⟩
  · by_cases hfp : fp' = fp
    · subst hfp
      have hquiet : s.sealedBy ⟨now, .sendDm fp' text⟩ fp' = [] := by
        rw [MeshNode.sealedBy, hexec, htrace]
        have hnone : (s.at_ now).trace.drop s.trace.length = [] := List.drop_length
        rw [hnone]
        rfl
      rw [harrears, if_pos ⟨rfl, .inl hroute, hquiet⟩, h.cap]
      exact h.serve (.queue fp' (asBytes text) now) hnow hbag (queued_covers h small text now)
    · rw [harrears, if_neg fun hcond => hfp hcond.1]
      refine h.serve (.queue fp' (asBytes text) now) hnow hbag ?_
      rw [EnvelopeCall.served, if_neg hfp]
      exact aged_covers h now
  · rw [harrears]
    refine h.same hbag ?_
    split_ifs with hcond
    · obtain ⟨rfl, hfar, hquiet⟩ := hcond
      rcases lasting rfl hfar with hseals | hunknown
      · -- the text is encrypted in this call
        obtain ⟨os, htrace, htexts, -⟩ := MeshNode.sendDm_seals (s := s.at_ now) hseals
        rw [MeshNode.sealedBy, hexec, htrace] at hquiet
        have hdrop : ((s.at_ now).trace ++ os).drop s.trace.length = os := List.drop_left
        rw [hdrop, htexts] at hquiet
        cases hquiet
      · exact absurd hunknown hreach
    · exact aged_covers h now

/-- A call that gives no text: an announce may take up the queue, and then nothing is owed. -/
theorem settled_square (h : Square fp ttlMs cap (s, l)) (c : Call) (notText : ∀ fp text, c.action ≠ .sendDm fp text)
    (notWipe : c.action ≠ .panicWipe) (hnow : c.now < 2 ^ 63)
    (lasting : ∀ b, (s.at_ c.now).learned c.action = some b → P.sha256 b.2.toList = fp →
      outstanding (aged s c.now l) = [] ∨ s.Seals fp ((Store.takeEnvelopes s.store fp).2.map fromUtf8Lossy)) :
    Square fp ttlMs cap (MeshNode.exec s c, settleAll (·.text) (s.sealedBy c fp) (aged s c.now l)) := by
  have hbag := MeshNode.exec_reads SqliteStore.mailbag_apart s c notText notWipe
  cases hlearned : (s.at_ c.now).learned c.action with
  | none =>
    rw [hlearned] at hbag
    exact h.same hbag ((aged_covers h c.now).settleAll _ _)
  | some b =>
    rw [hlearned] at hbag
    refine h.serve (.take (P.sha256 b.2.toList) c.now) hnow hbag ?_
    rw [EnvelopeCall.served]
    split_ifs with hkey
    · apply Covers.of_settled
      apply Backlog.outstanding_settled
      rcases lasting b hlearned hkey with hnone | hseals
      · rw [hnone]
        exact List.nil_subperm
      · -- everything queued is encrypted in this call
        have hsent := (exec_seals hlearned hkey hseals).subperm
        have howed := (aged_covers h c.now).outstanding_sublist.map fun e => fromUtf8Lossy e.packetBytes
        have htake : (Store.takeEnvelopes s.store fp).2 = (s.store.queue fp).map (·.packetBytes) := h.rows.take fp
        rw [htake, List.map_map] at hsent
        rw [List.map_map, List.map_reverse] at howed
        have htexts : (fun e : Envelope => fromUtf8Lossy e.packetBytes) ∘ HeldText.row = (·.text) := by
          funext a
          exact fromUtf8Lossy_asBytes a.text
        rw [htexts] at howed
        exact (howed.subperm.trans (List.reverse_perm _).subperm).trans hsent
    · exact (aged_covers h c.now).settleAll _ _

theorem turn_square (small : ttlMs < 2 ^ 63) (x : MeshNode SqliteStore × List (Debt HeldText)) (t : Turn)
    (h : Square fp ttlMs cap x) (lasting : Lasting fp x t) : Square fp ttlMs cap (bookedTurn fp x t) := by
  obtain ⟨s, l⟩ := x
  cases t with
  | restart identity cfg clock nickname rngSeed entropy => exact ⟨h.rows, h.ttl, h.cap, h.covers⟩
  | call c =>
    obtain ⟨hnow, htext, hannounce⟩ := lasting
    obtain ⟨now, a⟩ := c
    have hbag := MeshNode.exec_reads SqliteStore.mailbag_apart s ⟨now, a⟩
    have hother := settled_square h ⟨now, a⟩
    cases a with
    | sendDm fp' text =>
      refine sendDm_square h small hnow fp' text fun hfp far => ?_
      exact htext text (by rw [hfp]) far
    | panicWipe => exact ⟨⟨∅, .empty _⟩, h.ttl, h.cap, .none _⟩
    | unverifyPeer fp' | forgetPeer fp' =>
      refine h.same (hbag (by simp) (by simp)) ?_
      simp only [arrears]
      split_ifs
      · exact .none _
      · exact aged_covers h now
    | _ => exact hother (by simp) (by simp) hnow hannounce

/-- The texts that are given for a peer out of reach stay in its queue over calls and restarts, as long as none is
given or taken up where only the memory would hold it. -/
theorem held_texts_last (small : ttlMs < 2 ^ 63) (historyMax : ℕ) (historyMs : Millis) (start : MeshNode SqliteStore)
    (opened : start.store = SqliteStore.new historyMax historyMs ttlMs cap) (turns : List Turn)
    (lasting : Runs.Guarded (bookedTurn fp) (Lasting fp) (start, []) turns) :
    Holds fp (Runs.run (bookedTurn fp) (start, []) turns).1 (Runs.run (bookedTurn fp) (start, []) turns).2 := by
  have hstart : Square fp ttlMs cap (start, []) := by
    refine ⟨?_, ?_, ?_, .none _⟩
    · rw [opened]
      exact SqliteStore.sequenced_new _ _ _ _
    · rw [opened]
      rfl
    · rw [opened]
      rfl
  exact (lasting.invariant _ (fun x t => turn_square small x t) hstart).holds

end Arrears
end CockroachChat

namespace CockroachChat.Reference
open Backlog (Debt)

attribute [local instance] prims engine

/-- A process of node 1 over a store in a file. -/
def keeper (store : SqliteStore) : MeshNode SqliteStore := MeshNode.new (identity 1) {} 0 store "" 0 fun n => n

def reopen : Turn := .restart (identity 1) {} 0 "" 0 fun n => n

def ledger (turns : List Turn) : MeshNode SqliteStore × List (Debt HeldText) :=
  Runs.run (bookedTurn (fpOf 2)) (keeper (SqliteStore.new 1000 21600000 86400000 100), []) turns

/-- Node 2 announces itself on link 0. -/
def hearsTwo : List Turn := (up 0 0 :: arriving 1 0 (framesFrom 0 (linked 2))).map .call

/-- Two texts for a peer that was never heard of, with a new process between them. -/
def unheard : List Turn := [.call ⟨1, .sendDm (fpOf 2) "hi"⟩, reopen, .call ⟨2, .sendDm (fpOf 2) "yo"⟩]

theorem unheard_texts_last : Holds (fpOf 2) (ledger unheard).1 (ledger unheard).2 := by
  refine held_texts_last (by decide) 1000 21600000 _ rfl unheard ?_
  refine ⟨⟨by decide, fun _ _ _ => .inr ⟨by decide +kernel, by decide +kernel⟩, fun b hb => by cases hb⟩, trivial,
    ⟨by decide, fun _ _ _ => .inr ⟨by decide +kernel, by decide +kernel⟩, fun b hb => by cases hb⟩, trivial⟩

/-- A text for a peer whose link has gone waits in memory only; so does a held text once the peer has announced
itself, and the next process does not find it. -/
theorem texts_lost :
    ¬ Holds (fpOf 2) (ledger (hearsTwo ++ [.call ⟨2, .transport (.linkDown 0)⟩, .call ⟨3, .sendDm (fpOf 2) "hi"⟩])).1
        (ledger (hearsTwo ++ [.call ⟨2, .transport (.linkDown 0)⟩, .call ⟨3, .sendDm (fpOf 2) "hi"⟩])).2 ∧
      ¬ Holds (fpOf 2) (ledger (.call ⟨0, .sendDm (fpOf 2) "hi"⟩ :: hearsTwo ++ [reopen])).1
        (ledger (.call ⟨0, .sendDm (fpOf 2) "hi"⟩ :: hearsTwo ++ [reopen])).2 := by
  constructor
  · decide +kernel
  · decide +kernel

end CockroachChat.Reference
