import CockroachChat.Sessions.Handshakes

/-! # Beats

What a call does on behalf of its user and its peers, one change at a time and each with its guard: what
is taken from where and put where, and what the store is told. A call is a chain of beats that starts
with its errands and ends with none left. -/
namespace CockroachChat
set_option autoImplicit false

variable [P : Prims] {S : Type}

/-- The part of a node that direct messaging works on. -/
structure Desk (S : Type) where
  clock : Millis
  store : S
  sessions : Std.ExtTreeMap Fingerprint NoiseSession
  pendingDms : Std.ExtTreeMap Fingerprint (List String)
  fpToEph : Std.ExtTreeMap Fingerprint EphId
  noticePending : Std.ExtTreeSet Fingerprint
  trace : List Obs

def MeshNode.desk (s : MeshNode S) : Desk S where
  clock := s.clock
  store := s.store
  sessions := s.noiseSessions
  pendingDms := s.pendingDms
  fpToEph := s.fpToEph
  noticePending := s.noticePending
  trace := s.trace

namespace Desk

def note (d : Desk S) (os : List Obs) : Desk S := { d with trace := d.trace ++ os }

def ready (d : Desk S) (fp : Fingerprint) : Prop := ∃ σ, d.sessions[fp]? = some σ ∧ σ.isReady = true

/-- `drop_peer_session_state`, as far as the desk is concerned. -/
def dropped (d : Desk S) (fp : Fingerprint) : Desk S :=
  { d with sessions := d.sessions.erase fp, pendingDms := d.pendingDms.erase fp, noticePending := d.noticePending.erase fp }

end Desk

/-- What a call still has to do: texts to be sent or put away, and the user's orders. -/
inductive Errand where
  | text (fp : Fingerprint) (text : String)
  | verify (fp : Fingerprint)
  | unverify (fp : Fingerprint)
  | forget (fp : Fingerprint)
  | wipe

/-- Observations of no plaintext and no handshake. -/
def Obs.Idle : Obs → Prop
  | .encryptCall _ _ _ | .encrypted _ _ _ _ | .decrypted _ _ _ _ | .event (.dmReceived _ _ _ _) _ | .wrote _ _ _ => False
  | .originate pkt => pkt.msgType ≠ .noiseHandshake
  | _ => True

omit P in
theorem Obs.Carries.idle {t : MsgType} (ht : t ≠ .noiseHandshake) {payload : Bytes} {o : Obs} (h : o.Carries t payload) : o.Idle := by
  cases o with
  | send link f => trivial
  | originate pkt => exact fun hpkt => ht (h.1.symm.trans hpkt)
  | _ => exact h.elim

variable [Store S]

omit P in
/-- Store operations of no text: channel messages, peer records, and the marker of a changed key. -/
inductive SideWrite : S → S → Prop
  | channel (s : S) (m : StoredMessage) : SideWrite s (Store.putChannelMessage s m)
  | peer (s : S) (p : PeerRecord) : SideWrite s (Store.upsertPeer s p)
  | marker (s : S) (fp : Fingerprint) (now : Millis) :
      SideWrite s (Store.putDm s { peer := fp, mine := false, timestampMs := now, body := [dmKindKeyChanged] })

omit P in
abbrev SideWrites : S → S → Prop := Relation.ReflTransGen SideWrite

/-- A plaintext is handed to the ready session with `fp`, which may refuse it. -/
inductive Seal (d : Desk S) (fp : Fingerprint) (pt : Bytes) : Desk S → Prop
  | refused (σ : NoiseSession) (held : d.sessions[fp]? = some σ) (ready : σ.isReady = true) (e : Error)
      (encrypt : σ.encrypt pt = .error e) : Seal d fp pt (d.note [.encryptCall fp σ.view pt])
  | sealed (σ σ' : NoiseSession) (held : d.sessions[fp]? = some σ) (ready : σ.isReady = true) (ready' : σ'.isReady = true)
      (view : σ'.view = σ.view) (ct : Bytes) (encrypt : σ.encrypt pt = .ok (σ', ct)) (os : List Obs)
      (carries : ∀ o ∈ os, o.Carries .directMessage ct) :
      Seal d fp pt ({ d with sessions := d.sessions.insert fp σ' }.note
        (.encryptCall fp σ.view pt :: .encrypted fp σ.view σ.sendNonce pt :: os))

omit [Store S] in
theorem Seal.ready {d d' : Desk S} {fp : Fingerprint} {pt : Bytes} (h : Seal d fp pt d') : d'.ready fp := by
  cases h with
  | refused σ held ready e encrypt => exact ⟨σ, held, ready⟩
  | sealed σ σ' held ready ready' view ct encrypt os carries => exact ⟨σ', by simp [Desk.note], ready'⟩

/-- The row of a text the user sends. -/
def ownRow (fp : Fingerprint) (now : Millis) (body : Bytes) : StoredDm :=
  { peer := fp, mine := true, timestampMs := now, body }

/-- The row and the event of a plaintext from `fp`. -/
def peerRow (fp : Fingerprint) (now : Millis) (pt : Bytes) : StoredDm :=
  { peer := fp, mine := false, timestampMs := now
    body := if (MeshNode.splitKind pt).1 = dmKindText then (MeshNode.splitKind pt).2 else [(MeshNode.splitKind pt).1] }

def peerEvent (fp : Fingerprint) (eph : EphId) (pt : Bytes) : MeshEvent :=
  .dmReceived fp eph (if (MeshNode.splitKind pt).1 = dmKindText then fromUtf8Lossy (MeshNode.splitKind pt).2 else "")
    (MeshNode.splitKind pt).1

/-- The desk with a decrypted plaintext stored and surfaced. -/
def Desk.received (d : Desk S) (fp : Fingerprint) (σ σ' : NoiseSession) (n : ℕ) (pt : Bytes) (eph : EphId) : Desk S :=
  { d with
    sessions := d.sessions.insert fp σ'
    store := Store.putDm d.store (peerRow fp d.clock pt) }.note
    [.decrypted fp σ.view n pt, .event (peerEvent fp eph pt) (some σ'.view)]

@[simp] theorem Desk.received_trace (d : Desk S) (fp : Fingerprint) (σ σ' : NoiseSession) (n : ℕ) (pt : Bytes) (eph : EphId) :
    (d.received fp σ σ' n pt eph).trace =
      d.trace ++ [.decrypted fp σ.view n pt, .event (peerEvent fp eph pt) (some σ'.view)] := rfl

inductive Beat : Desk S × List Errand → Desk S × List Errand → Prop
  | idle (d : Desk S) (st : S) (os : List Obs) (hand : List Errand) (writes : SideWrites d.store st) (quiet : ∀ o ∈ os, o.Idle) :
      Beat (d, hand) ({ d with store := st }.note os, hand)
  /-- An announce: the peer is routable from now on, and what was held for it is taken up. -/
  | meet (d : Desk S) (fp : Fingerprint) (eph : EphId) (st : S) (os : List Obs) (hand : List Errand)
      (writes : SideWrites d.store st) (quiet : ∀ o ∈ os, o.Idle) :
      Beat (d, hand) ({ d with fpToEph := d.fpToEph.insert fp eph, store := (Store.takeEnvelopes st fp).1 }.note os,
        (Store.takeEnvelopes st fp).2.map (fun b => .text fp (fromUtf8Lossy b)) ++ hand)
  /-- A session starts with a message of its own, which goes out if the peer is routable. -/
  | start (d : Desk S) (fp : Fingerprint) (σ : NoiseSession) (m : Bytes) (os : List Obs) (hand : List Errand)
      (shape : σ.InFlight) (own : σ.ownMsg = some m) (carries : ∀ o ∈ os, o.Carries .noiseHandshake m)
      (lost : d.fpToEph[fp]? = none → os = []) :
      Beat (d, hand) ({ d with sessions := d.sessions.insert fp σ }.note (.wrote fp σ.initiator m :: os), hand)
  | lose (d : Desk S) (fp : Fingerprint) (hand : List Errand) : Beat (d, hand) ({ d with sessions := d.sessions.erase fp }, hand)
  /-- A handshake ends in a session, and what waited for it is taken up. -/
  | complete (d : Desk S) (fp : Fingerprint) (σ σ' : NoiseSession) (ms : List Bytes) (os : List Obs) (hand : List Errand)
      (held : d.sessions[fp]? = some σ) (shape : σ.InFlight) (ready : σ'.isReady = true)
      (transcript : σ'.transcript = σ.transcript ++ ms) (role : σ'.initiator = σ.initiator)
      (written : Written fp σ'.initiator os) :
      Beat (d, hand) ({ d with sessions := d.sessions.insert fp σ', pendingDms := d.pendingDms.erase fp }.note
          (os ++ [Obs.event (.dmSession fp true) (some σ'.view)]),
        (d.pendingDms[fp]?.getD []).map (.text fp) ++ hand)
  /-- A handshake ends with the wrong peer. -/
  | reject (d : Desk S) (fp : Fingerprint) (initiator : Bool) (os : List Obs) (hand : List Errand) (written : Written fp initiator os) :
      Beat (d, hand) ({ d with sessions := d.sessions.erase fp, pendingDms := d.pendingDms.erase fp }.note
        (os ++ [Obs.event (.dmSession fp false) none]), hand)
  /-- A text enters the thread. -/
  | record (d : Desk S) (fp : Fingerprint) (text : String) (hand : List Errand) :
      Beat (d, .text fp text :: hand) ({ d with store := Store.putDm d.store (ownRow fp d.clock (asBytes text)) }, .text fp text :: hand)
  | send (d d' : Desk S) (fp : Fingerprint) (text : String) (hand : List Errand)
      (pass : Seal d fp (dmKindText :: asBytes text) d') : Beat (d, .text fp text :: hand) (d', hand)
  | hold (d : Desk S) (fp : Fingerprint) (text : String) (hand : List Errand) (waiting : ¬ d.ready fp)
      (unrouted : d.fpToEph[fp]? = none) :
      Beat (d, .text fp text :: hand) ({ d with store := Store.queueEnvelope d.store fp (asBytes text) d.clock }, hand)
  | queue (d : Desk S) (fp : Fingerprint) (eph : EphId) (text : String) (hand : List Errand) (waiting : ¬ d.ready fp)
      (routed : d.fpToEph[fp]? = some eph) :
      Beat (d, .text fp text :: hand)
        ({ d with pendingDms := d.pendingDms.insert fp (d.pendingDms[fp]?.getD [] ++ [text]) }, hand)
  /-- The notice of a verification goes out. -/
  | notify (d d' : Desk S) (fp : Fingerprint) (hand : List Errand) (owed : d.noticePending.contains fp = true)
      (pass : Seal { d with
        noticePending := d.noticePending.erase fp
        store := Store.putDm d.store (ownRow fp d.clock [dmKindVerifyNotice]) } fp [dmKindVerifyNotice] d') :
      Beat (d, hand) (d', hand)
  | receive (d : Desk S) (fp : Fingerprint) (σ σ' : NoiseSession) (n : ℕ) (pt : Bytes) (eph : EphId) (hand : List Errand)
      (held : d.sessions[fp]? = some σ) (ready : σ.isReady = true) (ready' : σ'.isReady = true) (view : σ'.view = σ.view)
      (other : (MeshNode.splitKind pt).1 ≠ dmKindVerifyNotice) :
      Beat (d, hand) (d.received fp σ σ' n pt eph, hand)
  /-- A verify-notice is answered with an ack at once. -/
  | answer (d d' : Desk S) (fp : Fingerprint) (σ σ' : NoiseSession) (n : ℕ) (pt : Bytes) (eph : EphId) (hand : List Errand)
      (held : d.sessions[fp]? = some σ) (ready : σ.isReady = true) (ready' : σ'.isReady = true) (view : σ'.view = σ.view)
      (notice : (MeshNode.splitKind pt).1 = dmKindVerifyNotice)
      (pass : Seal { d.received fp σ σ' n pt eph with
        store := Store.putDm (d.received fp σ σ' n pt eph).store (ownRow fp d.clock [dmKindVerifyAck]) } fp [dmKindVerifyAck] d') :
      Beat (d, hand) (d', hand)
  | verify (d : Desk S) (fp : Fingerprint) (st : S) (hand : List Errand) (writes : SideWrites d.store st) :
      Beat (d, .verify fp :: hand)
        ({ d with store := Store.deleteDms st fp true, noticePending := d.noticePending.insert fp }, hand)
  | unverify (d : Desk S) (fp : Fingerprint) (st : S) (hand : List Errand) (writes : SideWrites d.store st) :
      Beat (d, .unverify fp :: hand) ({ d with store := Store.deleteDms st fp true }.dropped fp, hand)
  | forget (d : Desk S) (fp : Fingerprint) (hand : List Errand) :
      Beat (d, .forget fp :: hand)
        ({ d with store := Store.deletePeer (Store.deleteDms d.store fp false) fp, fpToEph := d.fpToEph.erase fp }.dropped fp, hand)
  | wipe (d : Desk S) (hand : List Errand) :
      Beat (d, .wipe :: hand)
        ({ d with store := Store.panicWipe d.store, sessions := ∅, pendingDms := ∅, fpToEph := ∅, noticePending := ∅ }, hand)

abbrev Beats : Desk S × List Errand → Desk S × List Errand → Prop := Relation.ReflTransGen Beat

end CockroachChat
