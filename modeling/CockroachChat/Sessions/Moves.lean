import CockroachChat.Sessions.Phases

/-! # Moves

What a node can do to its sessions, its announced keys and the texts on their way, one atomic change
at a time. Every call of the node is a chain of moves, so an invariant of the sessions is proved once
for each kind of move. -/
namespace CockroachChat
set_option autoImplicit false

/-- A store whose held envelopes can be read off, with what each operation may do to them. -/
class EnvelopeStore (S : Type) [Store S] where
  envelopes : S → Fingerprint → List Bytes
  put_channel : ∀ s m, envelopes (Store.putChannelMessage s m) = envelopes s
  upsert_peer : ∀ s p, envelopes (Store.upsertPeer s p) = envelopes s
  put_dm : ∀ s dm, envelopes (Store.putDm s dm) = envelopes s
  delete_peer : ∀ s fp, envelopes (Store.deletePeer s fp) = envelopes s
  delete_dms : ∀ s fp only, envelopes (Store.deleteDms s fp only) = envelopes s
  queue : ∀ s fp b now fp', (envelopes (Store.queueEnvelope s fp b now) fp').Sublist
    (if fp' = fp then envelopes s fp' ++ [b] else envelopes s fp')
  take_held : ∀ s fp, (Store.takeEnvelopes s fp).2.Sublist (envelopes s fp)
  take_left : ∀ s fp fp', envelopes (Store.takeEnvelopes s fp).1 fp' = if fp' = fp then [] else envelopes s fp'
  wipe : ∀ s fp, envelopes (Store.panicWipe s) fp = []

namespace MemoryStore

/-- The envelopes held for a peer. -/
def heldFor (s : MemoryStore) (fp : Fingerprint) : List Bytes := (s.envelopes[fp]?.getD []).map (·.packetBytes)

theorem pruneChannel_envelopes (s : MemoryStore) (channel : String) (nowMs : Millis) :
    (s.pruneChannel channel nowMs).envelopes = s.envelopes := by
  unfold pruneChannel
  split <;> rfl

theorem putChannelMessage_envelopes (s : MemoryStore) (msg : StoredMessage) :
    (s.putChannelMessage msg).envelopes = s.envelopes := by
  unfold putChannelMessage
  split_ifs
  · rfl
  · exact pruneChannel_envelopes _ _ _

theorem deleteDms_envelopes (s : MemoryStore) (fp : Fingerprint) (onlyControl : Bool) :
    (s.deleteDms fp onlyControl).envelopes = s.envelopes := by
  unfold deleteDms
  split_ifs
  · split <;> rfl
  · rfl

theorem putDm_heldFor (s : MemoryStore) (dm : StoredDm) : (Store.putDm s dm).heldFor = s.heldFor := rfl

theorem deleteDms_heldFor (s : MemoryStore) (fp : Fingerprint) (onlyControl : Bool) :
    (Store.deleteDms s fp onlyControl).heldFor = s.heldFor := by
  funext fp'
  simp only [heldFor, Store.deleteDms, deleteDms_envelopes]

/-- Queuing drops expired and excess envelopes and adds one at the end. -/
theorem queueEnvelope_heldFor (s : MemoryStore) (fp : Fingerprint) (b : Bytes) (now : Millis) (fp' : Fingerprint) :
    ((s.queueEnvelope fp b now).heldFor fp').Sublist (if fp' = fp then s.heldFor fp' ++ [b] else s.heldFor fp') := by
  unfold heldFor queueEnvelope
  simp only [Std.ExtTreeMap.getElem?_insert, Std.compare_eq_iff_eq]
  by_cases h : fp = fp'
  · subst h
    simp only [if_true, Option.getD_some, lastN, List.map_drop, List.map_append]
    refine (List.drop_sublist _ _).trans ?_
    exact (List.filter_sublist.map _).append_right _
  · rw [if_neg h, if_neg (Ne.symm h)]

theorem takeEnvelopes_heldFor (s : MemoryStore) (fp fp' : Fingerprint) :
    (s.takeEnvelopes fp).1.heldFor fp' = if fp' = fp then [] else s.heldFor fp' := by
  unfold heldFor takeEnvelopes
  simp only [Std.ExtTreeMap.getElem?_erase, Std.compare_eq_iff_eq]
  by_cases h : fp = fp'
  · simp [h]
  · rw [if_neg h, if_neg (Ne.symm h)]

end MemoryStore

instance : EnvelopeStore MemoryStore where
  envelopes := MemoryStore.heldFor
  put_channel s m := funext fun fp => by
    simp only [MemoryStore.heldFor, Store.putChannelMessage, MemoryStore.putChannelMessage_envelopes]
  upsert_peer _ _ := rfl
  put_dm := MemoryStore.putDm_heldFor
  delete_peer _ _ := rfl
  delete_dms := MemoryStore.deleteDms_heldFor
  queue := MemoryStore.queueEnvelope_heldFor
  take_held _ _ := List.Sublist.refl _
  take_left := MemoryStore.takeEnvelopes_heldFor
  wipe s fp := by simp [MemoryStore.heldFor, Store.panicWipe, MemoryStore.panicWipe]

variable [P : Prims] {S : Type}

/-- An announce of the identity `fp` that carries the X25519 key `k`: its signature verifies under
the Ed25519 key it carries, and that key hashes to `fp`. -/
def Packet.Binds (pkt : Packet) (fp : Fingerprint) (k : Key32) : Prop :=
  pkt.msgType = .announce ∧ ∃ ed nick vk, decodeAnnounce pkt.payload = some (ed, k, nick) ∧
    P.vkFromBytes ed = some vk ∧ pkt.verifyWith vk = .ok () ∧ P.sha256 ed.toList = fp

/-- Observations that concern no text and no session in use. -/
def Obs.Neutral (id : LocalIdentity) : Obs → Prop
  | .send _ _ | .close _ | .wrote _ _ _ => True
  | .originate pkt => id.Signs pkt
  | .event (.dmReceived _ _ _ _) _ => False
  | .event (.dmSession _ verified) _ => verified = false
  | .event _ _ => True
  | _ => False

theorem Obs.Quiet.neutral {id : LocalIdentity} {o : Obs} (h : o.Quiet id) : o.Neutral id := by
  cases o <;> first | exact h | trivial

/-- One plaintext that went through a session, at either end. -/
structure Transfer where
  fp : Fingerprint
  side : SessionView
  nonce : ℕ
  plaintext : Bytes

/-- The chat text of a plaintext, with the peer it is exchanged with. -/
def Transfer.text (t : Transfer) : Option (Fingerprint × String) :=
  let (kind, body) := MeshNode.splitKind t.plaintext
  if kind = dmKindText then some (t.fp, fromUtf8Lossy body) else none

def Obs.sealed : Obs → Option Transfer
  | .encrypted fp side nonce plaintext => some { fp, side, nonce, plaintext }
  | _ => none

def Obs.opened : Obs → Option Transfer
  | .decrypted fp side nonce plaintext => some { fp, side, nonce, plaintext }
  | _ => none

/-- The chat text an observation shows leaving the node, with the peer it was encrypted for. -/
def Obs.sentText (o : Obs) : Option (Fingerprint × String) := o.sealed.bind Transfer.text

theorem Obs.Neutral.sealed {id : LocalIdentity} {o : Obs} (h : o.Neutral id) : o.sealed = none := by
  cases o <;> first | rfl | exact h.elim

theorem Obs.Neutral.opened {id : LocalIdentity} {o : Obs} (h : o.Neutral id) : o.opened = none := by
  cases o <;> first | rfl | exact h.elim

theorem Obs.Neutral.sentText {id : LocalIdentity} {o : Obs} (h : o.Neutral id) : o.sentText = none := by
  rw [Obs.sentText, h.sealed, Option.bind_none]

/-- The message of its own that a session's transcript begins with. -/
def NoiseSession.ownMsg (σ : NoiseSession) : Option Bytes := σ.transcript[if σ.initiator then 0 else 1]?

/-- Texts a call has taken out of one place and not yet put into the next. -/
abbrev Hand := List (Fingerprint × String)

/-- `m'` holds nothing that `m` does not. -/
def Part {V : Type} (m' m : Std.ExtTreeMap Fingerprint V) : Prop :=
  ∀ (fp : Fingerprint) (v : V), m'[fp]? = some v → m[fp]? = some v

omit P in
theorem Part.refl {V : Type} (m : Std.ExtTreeMap Fingerprint V) : Part m m := fun _ _ h => h

omit P in
theorem Part.erase {V : Type} (m : Std.ExtTreeMap Fingerprint V) (fp : Fingerprint) : Part (m.erase fp) m := by
  intro fp' v h
  grind

namespace MeshNode

/-- A ready session has no retry entry. -/
def Settled (s : MeshNode S) : Prop := ∀ fp, s.sessionReady fp = true → s.handshakeAttempts[fp]? = none

variable [Store S]

/-- How often a text for a peer is on its way: encrypted, queued for a session, or held. -/
def load [EnvelopeStore S] (s : MeshNode S) (x : Fingerprint × String) : ℕ :=
  (s.trace.filterMap Obs.sentText).count x +
    ((s.pendingDms[x.1]?.getD []).count x.2 + ((EnvelopeStore.envelopes s.store x.1).map fromUtf8Lossy).count x.2)

/-- What every move keeps, besides what its kind says. -/
structure Keeps (c c' : MeshNode S × Hand) : Prop where
  identity : c'.1.identity = c.1.identity
  settled : c.1.Settled → c'.1.Settled
  /-- No text is ever copied. -/
  texts : ∀ [EnvelopeStore S] x, c'.1.load x + c'.2.count x ≤ c.1.load x + c.2.count x

/-- The kinds of moves, by what they do to the sessions, the announced keys and the trace. -/
inductive Change (s s' : MeshNode S) : Prop
  | neutral (os : List Obs) (trace : s'.trace = s.trace ++ os) (quiet : ∀ o ∈ os, o.Neutral s.identity)
      (sessions : Part s'.noiseSessions s.noiseSessions) (peers : Part s'.peerStaticDh s.peerStaticDh)
  /-- An announce is accepted. -/
  | learn (pkt : Packet) (fp : Fingerprint) (k : Key32) (binds : pkt.Binds fp k)
      (trace : s'.trace = s.trace ++ [.accept pkt])
      (sessions : s'.noiseSessions = s.noiseSessions) (peers : s'.peerStaticDh = s.peerStaticDh.insert fp k)
  /-- A session starts, with a first message of its own. -/
  | start (fp : Fingerprint) (σ : NoiseSession) (m : Bytes) (os : List Obs)
      (trace : s'.trace = s.trace ++ .wrote fp σ.initiator m :: os) (quiet : ∀ o ∈ os, o.Neutral s.identity)
      (shape : σ.InFlight) (own : σ.ownMsg = some m)
      (sessions : s'.noiseSessions = s.noiseSessions.insert fp σ) (peers : s'.peerStaticDh = s.peerStaticDh)
  /-- A handshake ends in a session with the peer that announced the key it authenticated. -/
  | complete (fp : Fingerprint) (σ σ' : NoiseSession) (ms : List Bytes) (k : Key32) (os : List Obs)
      (held : s.noiseSessions[fp]? = some σ) (shape : σ.InFlight)
      (trace : s'.trace = s.trace ++ os ++ [.event (.dmSession fp true) (some σ'.view)])
      (quiet : ∀ o ∈ os, o.Neutral s.identity)
      (ready : σ'.isReady = true) (transcript : σ'.transcript = σ.transcript ++ ms)
      (role : σ'.initiator = σ.initiator) (window : σ'.recvNonce = 0)
      (known : s.peerStaticDh[fp]? = some k) (bound : σ'.remoteStatic = some k)
      (sessions : s'.noiseSessions = s.noiseSessions.insert fp σ') (peers : s'.peerStaticDh = s.peerStaticDh)
  | encrypt (fp : Fingerprint) (σ σ' : NoiseSession) (n : ℕ) (pt : Bytes) (os : List Obs)
      (held : s.noiseSessions[fp]? = some σ) (ready : σ.isReady = true)
      (trace : s'.trace = s.trace ++ .encryptCall fp σ.view pt :: .encrypted fp σ.view n pt :: os)
      (quiet : ∀ o ∈ os, o.Neutral s.identity)
      (ready' : σ'.isReady = true) (view : σ'.view = σ.view) (window : σ'.recvNonce = σ.recvNonce)
      (sessions : s'.noiseSessions = s.noiseSessions.insert fp σ') (peers : s'.peerStaticDh = s.peerStaticDh)
  | encryptFail (fp : Fingerprint) (σ : NoiseSession) (pt : Bytes)
      (held : s.noiseSessions[fp]? = some σ) (ready : σ.isReady = true)
      (trace : s'.trace = s.trace ++ [.encryptCall fp σ.view pt])
      (sessions : s'.noiseSessions = s.noiseSessions) (peers : s'.peerStaticDh = s.peerStaticDh)
  | decrypt (fp : Fingerprint) (σ σ' : NoiseSession) (n : ℕ) (pt : Bytes) (eph : EphId)
      (held : s.noiseSessions[fp]? = some σ) (ready : σ.isReady = true)
      (trace : s'.trace = s.trace ++ [.decrypted fp σ.view n pt, .event (.dmReceived fp eph
        (if (splitKind pt).1 = dmKindText then fromUtf8Lossy (splitKind pt).2 else "") (splitKind pt).1)
        (some σ'.view)])
      (ready' : σ'.isReady = true) (view : σ'.view = σ.view)
      (fresh : σ.recvNonce ≤ n) (window : σ'.recvNonce = n + 1)
      (sessions : s'.noiseSessions = s.noiseSessions.insert fp σ') (peers : s'.peerStaticDh = s.peerStaticDh)
  /-- The UI is told again about a session that is up. -/
  | surface (fp : Fingerprint) (σ : NoiseSession) (held : s.noiseSessions[fp]? = some σ)
      (ready : σ.isReady = true) (trace : s'.trace = s.trace ++ [.event (.dmSession fp true) (some σ.view)])
      (sessions : s'.noiseSessions = s.noiseSessions) (peers : s'.peerStaticDh = s.peerStaticDh)

structure Move (c c' : MeshNode S × Hand) : Prop where
  keeps : Keeps c c'
  change : Change c.1 c'.1

/-- A chain of moves. -/
abbrev Moves : MeshNode S × Hand → MeshNode S × Hand → Prop := Relation.ReflTransGen Move

end MeshNode
end CockroachChat
