import CockroachChat.Flood.Inventory
import CockroachChat.Stores.Interchange

/-! # What a call asks of its store

A call changes its store by operations of the interface only. Channel messages put there are our own
or come with a packet that was taken in, and nothing is deleted but by the calls made for that. -/
namespace CockroachChat
set_option autoImplicit false

section Asks
variable {S : Type} [Store S] {p : StoreOp → Prop} {s s₁ s₂ : S}

/-- The second store comes from the first by operations that meet `p`. -/
def Asks (p : StoreOp → Prop) (s s' : S) : Prop := ∃ ops : List StoreOp, s' = ops.foldl StoreOp.apply s ∧ ∀ op ∈ ops, p op

theorem Asks.refl : Asks p s s := ⟨[], rfl, by simp⟩

theorem Asks.trans (h₁ : Asks p s s₁) (h₂ : Asks p s₁ s₂) : Asks p s s₂ := by
  obtain ⟨ops₁, heq₁, hops₁⟩ := h₁
  obtain ⟨ops₂, heq₂, hops₂⟩ := h₂
  refine ⟨ops₁ ++ ops₂, by rw [List.foldl_append, ← heq₁, ← heq₂], fun op hop => ?_⟩
  exact (List.mem_append.mp hop).elim (hops₁ op) (hops₂ op)

theorem Asks.one (op : StoreOp) (hop : p op) : Asks p s (op.apply s) := ⟨[op], rfl, by simpa using hop⟩

end Asks

variable [P : Prims] {S : Type} [Store S]

namespace MeshNode

/-- The row of a channel message of our own. -/
def ownMessage (s : MeshNode S) (channel text : String) : StoredMessage :=
  let pkt := s.ownPacket .channelMessage none (encodeChannel (normalize channel) text s.cfg)
  { digest := pkt.digest, channel := normalize channel, sender := s.identity.ephId, timestampMs := s.clock,
    body := asBytes text, raw := pkt.encode }

/-- The row that a channel packet is filed as. -/
def Files (s : MeshNode S) (pkt : Packet) (m : StoredMessage) : Prop :=
  pkt.msgType = .channelMessage ∧ s.channelVerified pkt ≠ none ∧
    ∃ channel text, decodeChannel pkt.payload s.cfg = some (channel, text) ∧ m = storedMessage pkt channel text

/-- The operations that a call may ask for. -/
def Grants (s : MeshNode S) (a : Action) : StoreOp → Prop
  | .putChannelMessage m =>
    (∃ channel text, a = .sendChannelMessage channel text ∧ m = s.ownMessage channel text) ∨ ∃ pkt ∈ s.taken a, s.Files pkt m
  | .deleteDms fp _ => a = .verifyPeer fp ∨ a = .unverifyPeer fp ∨ a = .forgetPeer fp
  | .panicWipe => a = .panicWipe
  | _ => True

section Handlers
variable (s : MeshNode S) (a : Action) {t u : MeshNode S}

theorem DmOnly.asks (h : DmOnly t u) {st : S} (hst : t.store = st) : Asks (s.Grants a) st u.store := by
  have hwrites := h.store
  rw [hst] at hwrites
  generalize u.store = st' at hwrites
  induction hwrites with
  | refl => exact .refl
  | tail _ write ih =>
    refine ih.trans ?_
    cases write with
    | put dm => exact .one (.putDm dm) trivial
    | queue fp b now => exact .one (.queueEnvelope fp b now) trivial
    | take fp => exact .one (.takeEnvelopes fp) trivial

theorem handleAnnounce_asks (t : MeshNode S) (pkt : Packet) : Asks (s.Grants a) t.store (t.handleAnnounce pkt).store := by
  rcases handleAnnounce_cases t pkt with heq | ⟨ed, dh, nick, vk, -, -, -, heq⟩
  · rw [heq]
    exact .refl
  · rw [heq]
    refine .trans ?_ (DmOnly.asks s a (deliverHeld_dmOnly _ _) rfl)
    obtain ⟨links, os, hdedup, -⟩ := dedupLinks_update (t.announced pkt ed dh nick)
    rw [hdedup]
    have hrecord : ∀ (u : MeshNode S) (fp : Fingerprint), Asks (s.Grants a) u.store (u.recordPeer fp pkt).store := by
      intro u fp
      exact .one (.upsertPeer _) trivial
    unfold announced
    refine .trans ?_ (hrecord _ _)
    exact DmOnly.asks s a (noteKeyChange_dmOnly _ _ _ _) rfl

theorem dispatch_asks (t : MeshNode S) (link : LinkId) (pkt : Packet)
    (hfiles : ∀ m, t.Files pkt m → s.Grants a (.putChannelMessage m)) :
    Asks (s.Grants a) t.store (t.dispatch link pkt).store := by
  unfold dispatch
  split
  · exact handleAnnounce_asks s a t pkt
  · rename_i kind
    rcases handleChannel_update t pkt with heq | ⟨channel, text, verified, hdec, hver, heq⟩
    · rw [heq]
      exact .refl
    · have hput : Asks (s.Grants a) t.store (Store.putChannelMessage t.store (storedMessage pkt channel text)) := by
        refine .one (.putChannelMessage _) (hfiles _ ⟨kind, ?_, channel, text, hdec, rfl⟩)
        rw [hver]
        simp
      rw [heq]
      simp only
      split_ifs <;> exact hput
  · obtain ⟨os, heq, -⟩ := handleSyncRequest_update t link pkt
    rw [heq]
    exact .refl
  · exact DmOnly.asks s a (handleNoiseHandshake_dmOnly t pkt) rfl
  · exact DmOnly.asks s a (handleDirectMessage_dmOnly t pkt) rfl
  · exact .refl

theorem onPacket_asks (t : MeshNode S) (link : LinkId) (pkt : Packet)
    (hfiles : t.accepts pkt = true → ∀ m, t.Files pkt m → s.Grants a (.putChannelMessage m)) :
    Asks (s.Grants a) t.store (t.onPacket link pkt).store := by
  obtain ⟨links, os, htag, -⟩ := tagged_update t link pkt
  rw [onPacket_phased]
  split_ifs with hfresh hadmits
  · have haccepts : t.accepts pkt = true := by
      rw [← tagged_accepts t link, accepts, hfresh, hadmits]
      rfl
    obtain ⟨rng, scheduler, hrelay⟩ := maybeRelay_update
      ((((t.tagged link pkt).observed pkt).charged pkt).dispatch link pkt) link pkt
    rw [hrelay]
    have hdispatch := dispatch_asks s a (((t.tagged link pkt).observed pkt).charged pkt) link pkt
    rw [htag] at hdispatch ⊢
    exact hdispatch (hfiles haccepts)
  · rw [htag]
    exact .refl
  · rw [htag]
    exact .refl

end Handlers

theorem act_asks (s : MeshNode S) (a : Action) : Asks (s.Grants a) s.store (s.act a).store := by
  have hupsert : ∀ (st : S) (peer : PeerRecord), Asks (s.Grants a) st (Store.upsertPeer st peer) :=
    fun st peer => .one (.upsertPeer peer) trivial
  cases a with
  | transport ev =>
    cases ev with
    | linkUp link mtu =>
      simp only [act, onTransportEvent]
      rw [announce_eq, (sendSyncRequests_update _ link).choose_spec.1]
      exact .refl
    | linkDown link => exact .refl
    | mtuChanged link mtu =>
      simp only [act, onTransportEvent]
      split <;> exact .refl
    | frameReceived link frame =>
      have hact : s.act (.transport (.frameReceived link frame)) = s.onFrame link frame := rfl
      rw [hact, onFrame_eq]
      cases hpkt : s.assembled frame with
      | none => exact .refl
      | some pkt =>
        refine onPacket_asks s _ (s.fed frame) link pkt fun haccepts m hm => .inr ⟨pkt, ?_, hm⟩
        have hheard : s.heard (.transport (.frameReceived link frame)) = some pkt := hpkt
        have hsame : s.accepts pkt = true := haccepts
        rw [taken, hheard, Option.filter_some, if_pos hsame]
        rfl
  | tick =>
    obtain ⟨scheduler, fired, seen, reassembler, os, heq, -⟩ := swept_update s
    have hstore : s.swept.store = s.store := by
      rw [heq]
    exact DmOnly.asks s .tick (retryStalledHandshakes_dmOnly s.swept s.clock) hstore
  | takeEvents => exact .refl
  | joinChannel name => exact .refl
  | sendChannelMessage channel text =>
    rw [act, sendChannelMessage_eq]
    exact .one (.putChannelMessage (s.ownMessage channel text)) (.inl ⟨channel, text, rfl, rfl⟩)
  | announce =>
    rw [act, announce_eq]
    exact .refl
  | sendDm fp text => exact DmOnly.asks s _ (sendDm_dmOnly s fp text) rfl
  | startDmSession fp => exact DmOnly.asks s _ (startDmSession_dmOnly s fp) rfl
  | verifyPeer fp =>
    refine .trans ?_ (DmOnly.asks s _ (trySendVerifyNotice_dmOnly _ fp) rfl)
    exact (hupsert _ _).trans (.one (.deleteDms fp true) (.inl rfl))
  | unverifyPeer fp =>
    rw [act, unverifyPeer]
    have hdelete : ∀ st : S, Asks (s.Grants (.unverifyPeer fp)) st (Store.deleteDms st fp true) :=
      fun st => .one (.deleteDms fp true) (.inr (.inl rfl))
    cases Store.getPeer s.store fp with
    | none => exact hdelete _
    | some peer => exact (hupsert _ _).trans (hdelete _)
  | forgetPeer fp =>
    have hdelete : Asks (s.Grants (.forgetPeer fp)) s.store (Store.deleteDms s.store fp false) :=
      .one (.deleteDms fp false) (.inr (.inr rfl))
    exact hdelete.trans (.one (.deletePeer fp) trivial)
  | setPetname fp name => exact hupsert _ _
  | panicWipe => exact .one .panicWipe rfl

end MeshNode
end CockroachChat
