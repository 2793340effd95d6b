import CockroachChat.Flood.Budget
import CockroachChat.Flood.Delivery
import CockroachChat.Peers.Bindings
import CockroachChat.Stores.Authorship
import CockroachChat.Stores.Retention

/-! # A message behind a copy of its signature

Packets are told apart by their signatures, before anything is verified. A genuine message comes
through after other packets unless one of them has its signature, or takes its sender's name. -/
namespace CockroachChat
set_option autoImplicit false

/-- A store that comes to know no digests but those of the messages put there. -/
class DigestStore (S : Type) [Store S] : Prop where
  filed : ∀ (op : StoreOp) (s : S) (d : Digest), Store.hasMessage (op.apply s) d = true →
    Store.hasMessage s d = true ∨ ∃ msg, op = .putChannelMessage msg ∧ msg.digest = d

instance : DigestStore MemoryStore where
  filed op s d h := by
    cases op with
    | putChannelMessage msg =>
      rcases MemoryStore.has_put_le h with hd | hold
      · exact .inr ⟨msg, rfl, hd.symm⟩
      · exact .inl hold
    | deleteDms fp only =>
      have hsame : (s.deleteDms fp only).digests = s.digests := by
        unfold MemoryStore.deleteDms
        split_ifs
        · split <;> rfl
        · rfl
      left
      change s.digests.contains d = true
      rw [← hsame]
      exact h
    | panicWipe => simp [StoreOp.apply, Store.panicWipe, MemoryStore.panicWipe, Store.hasMessage, MemoryStore.hasMessage] at h
    | _ => exact .inl h

instance [E : Engine] : DigestStore SqliteStore where
  filed op s d h := by
    have hmem : ∀ t : SqliteStore, t.hasMessage d = true ↔ ∃ m ∈ t.messages, m.digest = d := by
      simp [SqliteStore.hasMessage]
    obtain ⟨m, hm, hd⟩ := (hmem _).mp h
    cases op with
    | putChannelMessage msg =>
      rcases SqliteStore.putChannelMessage_messages hm with rfl | hold
      · exact .inr ⟨m, rfl, hd⟩
      · exact .inl ((hmem s).mpr ⟨m, hold, hd⟩)
    | deleteDms fp only =>
      have hsame : (s.deleteDms fp only).messages = s.messages := by
        unfold SqliteStore.deleteDms
        split_ifs <;> rfl
      exact .inl ((hmem s).mpr ⟨m, hsame ▸ hm, hd⟩)
    | panicWipe => cases hm
    | _ => exact .inl h

/-- A digest that a store comes to know was known, or is that of a message put there. -/
theorem Asks.known {S : Type} [Store S] [D : DigestStore S] {p : StoreOp → Prop} {s s' : S} (h : Asks p s s') {d : Digest}
    (hd : Store.hasMessage s' d = true) : Store.hasMessage s d = true ∨ ∃ msg, p (.putChannelMessage msg) ∧ msg.digest = d := by
  obtain ⟨ops, rfl, hops⟩ := h
  induction ops generalizing s with
  | nil => exact .inl hd
  | cons op ops ih =>
    rcases ih (fun o ho => hops o (List.mem_cons_of_mem op ho)) hd with hmid | hput
    · rcases D.filed op s d hmid with hold | ⟨msg, rfl, hmsg⟩
      · exact .inl hold
      · exact .inr ⟨msg, hops _ List.mem_cons_self, hmsg⟩
    · exact .inr hput

variable [P : Prims] {S : Type} [Store S]

/-- Signed by the key behind these bytes. -/
def Packet.signedBy (pkt : Packet) (ed : Key32) : Bool := ((P.vkFromBytes ed).map fun vk => (pkt.verifyWith vk).isOk).getD false

instance : DecidablePred Action.moves
  | .transport (.frameReceived _ _) => .isTrue trivial
  | .transport (.linkUp _ _) => .isFalse id
  | .transport (.linkDown _) => .isFalse id
  | .transport (.mtuChanged _ _) => .isFalse id
  | .tick => .isTrue trivial
  | .takeEvents => .isFalse id
  | .joinChannel _ => .isFalse id
  | .sendChannelMessage _ _ => .isFalse id
  | .announce => .isFalse id
  | .sendDm _ _ => .isFalse id
  | .startDmSession _ => .isFalse id
  | .verifyPeer _ => .isFalse id
  | .unverifyPeer _ => .isFalse id
  | .forgetPeer _ => .isFalse id
  | .setPetname _ _ => .isFalse id
  | .panicWipe => .isFalse id

namespace MeshNode
variable {s : MeshNode S} {c : Call} {p : Packet}

/-- A call takes the message in: it is shown, and its row given to a store that has none of this digest. -/
structure Received (s : MeshNode S) (c : Call) (p : Packet) : Prop where
  shown : p.digest ∈ s.surfaced c
  new : Store.hasMessage s.store p.digest = false
  stored : ∃ channel text, decodeChannel p.payload s.cfg = some (channel, text) ∧
    (exec s c).store = Store.putChannelMessage s.store (storedMessage p channel text)

/-- A frame or a tick leaves the way free for the message. No packet that it completes, and none that it makes the node
send, has the digest of the message, and an announce that it takes in under the sender's name has the message's key. -/
structure MakesWay (p : Packet) (s : MeshNode S) (c : Call) : Prop where
  moves : c.action.moves
  heard : ∀ q ∈ (s.at_ c.now).heard c.action, q.digest ≠ p.digest
  built : ∀ q ∈ s.builtBy (exec s c), q.digest ≠ p.digest
  bound : ∀ e ∈ (s.at_ c.now).learned c.action, e.1 = p.sender → p.signedBy e.2 = true

/-- The message would be taken in, if it came by and the limiter let it through. -/
structure Welcome (s : MeshNode S) (p : Packet) : Prop where
  kind : p.msgType = .channelMessage
  fresh : s.seen.map[p.digest]? = none
  genuine : ∃ ed, s.ephKeys[p.sender]? = some ed ∧ p.signedBy ed = true
  addressed : ∃ channel text, decodeChannel p.payload s.cfg = some (channel, text) ∧ s.subscribed.contains channel = true
  new : Store.hasMessage s.store p.digest = false

omit [Store S] in
theorem channelVerified_iff (s : MeshNode S) (p : Packet) :
    s.channelVerified p = some true ↔ ∃ ed, s.ephKeys[p.sender]? = some ed ∧ p.signedBy ed = true := by
  unfold channelVerified Packet.signedBy
  cases s.ephKeys[p.sender]? with
  | none => simp
  | some ed =>
    cases hvk : P.vkFromBytes ed with
    | none => simp [hvk]
    | some vk => cases hver : (p.verifyWith vk).isOk <;> simp [hvk, hver]

omit [Store S] in
theorem showing_isSome (h : s.channelVerified p = some true) : (s.showing p).isSome = true ↔
    ∃ channel text, decodeChannel p.payload s.cfg = some (channel, text) ∧ s.subscribed.contains channel = true := by
  unfold showing
  rw [h]
  cases decodeChannel p.payload s.cfg with
  | none => simp
  | some named =>
    obtain ⟨channel, text⟩ := named
    constructor
    · intro hshow
      simp only at hshow
      split_ifs at hshow with hsub
      · exact ⟨channel, text, rfl, hsub⟩
      · cases hshow
    · rintro ⟨channel', text', heq, hsub⟩
      cases heq
      simp only
      rw [if_pos hsub]
      rfl

/-! ## One delivery -/

theorem mem_surfaced_iff (heard : (s.at_ c.now).heard c.action = some p) (genuine : s.channelVerified p = some true) :
    p.digest ∈ s.surfaced c ↔ (s.at_ c.now).accepts p = true ∧ p.msgType = .channelMessage ∧
      ∃ channel text, decodeChannel p.payload s.cfg = some (channel, text) ∧ s.subscribed.contains channel = true := by
  have hshowing := showing_isSome (s := s.at_ c.now) genuine
  rw [surfaced_eq, displayed, taken, heard, Option.filter_some]
  by_cases haccepts : (s.at_ c.now).accepts p = true
  · rw [if_pos haccepts, Option.bind_some]
    by_cases hkind : p.msgType = .channelMessage
    · rw [if_pos hkind]
      simp only [haccepts, hkind, true_and]
      refine Iff.trans ?_ hshowing
      cases (s.at_ c.now).showing p <;> simp
    · rw [if_neg hkind]
      simp [hkind]
  · rw [if_neg haccepts]
    simp [haccepts]

theorem taken_store {link : LinkId} {frame : Bytes} (taken : s.taken (.transport (.frameReceived link frame)) = some p)
    (kind : p.msgType = .channelMessage) (genuine : s.channelVerified p = some true) {channel text : String}
    (decoded : decodeChannel p.payload s.cfg = some (channel, text)) :
    (s.onFrame link frame).store = Store.putChannelMessage s.store (storedMessage p channel text) := by
  have htaken := onFrame_taken s link frame
  rw [taken] at htaken
  obtain ⟨t, hbook, heq, -⟩ := htaken
  obtain ⟨rng, scheduler, hrelay⟩ := maybeRelay_update (t.dispatch link p) link p
  have hdispatch : t.dispatch link p = t.handleChannel p := by
    unfold dispatch
    rw [kind]
  have hdecoded : decodeChannel p.payload t.cfg = some (channel, text) := by
    rw [hbook.eq]
    exact decoded
  have hgenuine : t.channelVerified p = some true := by
    rw [channelVerified_iff, hbook.ephKeys, ← channelVerified_iff]
    exact genuine
  rw [heq, hrelay, hdispatch, ← hbook.store]
  unfold handleChannel
  rw [hdecoded, hgenuine]
  simp only
  split_ifs <;> rfl

theorem received_iff (heard : (s.at_ c.now).heard c.action = some p) (budget : (s.at_ c.now).admits p = true)
    (genuine : s.channelVerified p = some true) : Received s c p ↔ Welcome s p := by
  have hsurfaced := mem_surfaced_iff heard genuine
  constructor
  · intro h
    obtain ⟨haccepts, hkind, haddressed⟩ := hsurfaced.mp h.shown
    have hfresh : s.seen.map[p.digest]? = none := (fresh_iff (s.at_ c.now) p).mp (Bool.and_eq_true_iff.mp haccepts).1
    exact ⟨hkind, hfresh, (channelVerified_iff s p).mp genuine, haddressed, h.new⟩
  · intro h
    have hfresh : (s.at_ c.now).fresh p = true := (fresh_iff (s.at_ c.now) p).mpr h.fresh
    have haccepts : (s.at_ c.now).accepts p = true := Bool.and_eq_true_iff.mpr ⟨hfresh, budget⟩
    obtain ⟨channel, text, hdecoded, hsub⟩ := h.addressed
    refine ⟨hsurfaced.mpr ⟨haccepts, h.kind, h.addressed⟩, h.new, channel, text, hdecoded, ?_⟩
    obtain ⟨now, a⟩ := c
    have htaken : (s.at_ now).taken a = some p := by
      rw [taken, heard, Option.filter_some, if_pos haccepts]
    cases a with
    | transport ev =>
      cases ev with
      | frameReceived link frame => exact taken_store htaken h.kind genuine hdecoded
      | linkUp _ _ | linkDown _ | mtuChanged _ _ => cases heard
    | _ => cases heard

theorem Received.admitted (h : Received s c p) (heard : (s.at_ c.now).heard c.action = some p)
    (genuine : s.channelVerified p = some true) : (s.at_ c.now).admits p = true :=
  (Bool.and_eq_true_iff.mp ((mem_surfaced_iff heard genuine).mp h.shown).1).2

/-! ## What comes before -/

theorem dispatch_subscribed (s : MeshNode S) (link : LinkId) (pkt : Packet) : (s.dispatch link pkt).subscribed = s.subscribed := by
  have hdm : ∀ {t u : MeshNode S}, DmOnly t u → u.subscribed = t.subscribed := fun h => congrArg Surroundings.subscribed h.same
  unfold dispatch
  split
  · rcases handleAnnounce_cases s pkt with heq | ⟨ed, dh, nick, vk, -, -, -, heq⟩
    · rw [heq]
    · obtain ⟨links, os, hdedup, -⟩ := dedupLinks_update (s.announced pkt ed dh nick)
      rw [heq, hdm (deliverHeld_dmOnly _ _), hdedup]
      exact congrArg Surroundings.subscribed (noteKeyChange_dmOnly _ _ _ _).same
  · rcases handleChannel_update s pkt with heq | ⟨channel, text, verified, -, -, heq⟩
    · rw [heq]
    · rw [heq]
      simp only
      split_ifs <;> rfl
  · obtain ⟨os, heq, -⟩ := handleSyncRequest_update s link pkt
    rw [heq]
  · exact hdm (handleNoiseHandshake_dmOnly s pkt)
  · exact hdm (handleDirectMessage_dmOnly s pkt)
  · rfl

theorem moves_subscribed (moves : c.action.moves) : (exec s c).subscribed = s.subscribed := by
  obtain ⟨now, a⟩ := c
  have hbook : ∀ {t u : MeshNode S}, Bookkept t u → u.subscribed = t.subscribed := by
    intro t u h
    rw [h.eq]
  cases a with
  | transport ev =>
    cases ev with
    | frameReceived link frame =>
      have hframe := onFrame_taken (s.at_ now) link frame
      change ((s.at_ now).onFrame link frame).subscribed = (s.at_ now).subscribed
      cases htaken : (s.at_ now).taken (.transport (.frameReceived link frame)) with
      | none =>
        rw [htaken] at hframe
        exact hbook hframe
      | some pkt =>
        rw [htaken] at hframe
        obtain ⟨t, hbefore, heq, -⟩ := hframe
        obtain ⟨rng, scheduler, hrelay⟩ := maybeRelay_update (t.dispatch link pkt) link pkt
        rw [heq, hrelay]
        exact (dispatch_subscribed t link pkt).trans (hbook hbefore)
    | linkUp _ _ | linkDown _ | mtuChanged _ _ => exact moves.elim
  | tick =>
    have hretry := (retryStalledHandshakes_dmOnly (s.at_ now).swept now).same
    have hswept : (s.at_ now).swept.subscribed = (s.at_ now).subscribed := hbook (swept_bookkept (s.at_ now))
    exact (congrArg Surroundings.subscribed hretry).trans hswept
  | _ => exact moves.elim

theorem Welcome.step [ArchiveStore S] [DigestStore S] (h : Welcome s p) (way : MakesWay p s c) : Welcome (exec s c) p := by
  obtain ⟨os, htrace, -, hseen, -⟩ := act_yields (s.at_ c.now) c.action
  have hbuilt : s.builtBy (exec s c) = os.filterMap Obs.built := by
    rw [builtBy, show (exec s c).trace = s.trace ++ os from htrace, List.drop_left]
  refine ⟨h.kind, ?_, ?_, ?_, ?_⟩
  · by_contra hheld
    rcases hseen p.digest hheld with hold | ⟨q, hq, hd⟩ | ⟨q, hq, hd⟩
    · exact hold h.fresh
    · exact way.built q (hbuilt ▸ hq) hd
    · exact way.heard q hq hd
  · obtain ⟨ed, hed, hsigned⟩ := h.genuine
    cases hlearned : (s.at_ c.now).learned c.action with
    | none =>
      rw [(moves_mapsKept way.moves hlearned).ephKeys]
      exact ⟨ed, hed, hsigned⟩
    | some e =>
      obtain ⟨hkeys, -⟩ := exec_learned hlearned
      rw [hkeys, Std.ExtTreeMap.getElem?_insert]
      by_cases hsender : e.1 = p.sender
      · exact ⟨e.2, by simp [hsender], way.bound e (by rw [hlearned]; rfl) hsender⟩
      · exact ⟨ed, by simp [hsender, hed], hsigned⟩
  · rw [(exec_rate s c).1, moves_subscribed way.moves]
    exact h.addressed
  · by_contra hknown
    rcases (act_asks (s.at_ c.now) c.action).known (Bool.eq_true_of_not_eq_false hknown) with hold | ⟨msg, hgrant, hd⟩
    · exact absurd (h.new.symm.trans hold) (by simp)
    · rcases hgrant with ⟨channel, text, hsend, -⟩ | ⟨q, hq, -, -, channel, text, -, rfl⟩
      · exact absurd way.moves (by rw [hsend]; exact id)
      · exact way.heard q (Option.filter_eq_some_iff.mp hq).1 hd

end MeshNode
end CockroachChat

namespace CockroachChat.Reference
open MeshNode
attribute [local instance] prims

/-- Node 2 writes to a channel. -/
def genuinePost : Packet :=
  (Packet.new .channelMessage 5 1 (Vector.replicate 8 2) none (encodeChannel defaultChannel "hi" {})).signWith (identity 2).signing

/-- Another text under the signature of that message. -/
def maskingPost : Packet := { genuinePost with payload := encodeChannel defaultChannel "ho" {} }

def delivery (now : Millis) (pkt : Packet) : Call := ⟨now, .transport (.frameReceived 0 (frameOf pkt))⟩

theorem genuinePost_verified : (met 1 2).channelVerified genuinePost = some true := by decide +kernel

theorem genuinePost_received : Received (met 1 2) (delivery 2 genuinePost) genuinePost := by
  have hheard : ((met 1 2).at_ 2).heard (delivery 2 genuinePost).action = some genuinePost := by decide +kernel
  have hgenuine := (channelVerified_iff (met 1 2) genuinePost).mp genuinePost_verified
  have hwelcome : Welcome (met 1 2) genuinePost :=
    ⟨rfl, by decide +kernel, hgenuine, ⟨defaultChannel, "hi", by decide +kernel, by decide +kernel⟩, by decide +kernel⟩
  exact (received_iff hheard (by decide +kernel) genuinePost_verified).mpr hwelcome

end CockroachChat.Reference
