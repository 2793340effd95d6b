import CockroachChat.Core.Fingerprints
import CockroachChat.Core.PacketCodec
import CockroachChat.Core.Sqlite
import CockroachChat.Node.ReferenceNodes
import CockroachChat.Stores.Requests

/-! # Who wrote a channel message

The user's view calls a stored message mine when its sender field is our own ephemeral id. That is so
for the messages sent from here, and for whatever else comes in with that id while no key is known
for it. -/
namespace CockroachChat
set_option autoImplicit false

/-- A stored channel message, for loading persisted history into the UI. -/
structure FfiMessage where
  sender : String
  body : String
  timestampMs : Millis
  mine : Bool
  deriving DecidableEq

def ffiMessage (me : EphId) (m : StoredMessage) : FfiMessage where
  sender := hex m.sender.toList
  body := fromUtf8Lossy m.body
  timestampMs := m.timestampMs
  mine := m.sender = me

/-- `FfiMeshNode::channel_history`. -/
def MeshNode.ffiChannelHistory [Prims] {S : Type} [Store S] (s : MeshNode S) (channel : String) (limit : ℕ) : List FfiMessage :=
  (Store.channelHistory s.store channel limit).map (ffiMessage s.ephId)

/-- An archive whose history shows only what is archived. -/
class HistoryStore (S : Type) [Store S] extends ArchiveStore S where
  shown : ∀ s channel limit m, m ∈ Store.channelHistory s channel limit → m ∈ archived s

/-! ## Both stores -/

instance : HistoryStore MemoryStore where
  shown s channel limit m h := by
    have hsorted := List.mem_of_mem_drop h
    have hheld : m ∈ s.channels[channel]?.getD [] := (List.perm_insertionSort _ _).mem_iff.mp hsorted
    cases hrows : s.channels[channel]? with
    | none =>
      rw [hrows] at hheld
      cases hheld
    | some rows =>
      rw [hrows] at hheld
      exact MemoryStore.mem_messages.mpr ⟨channel, rows, hrows, hheld⟩

namespace SqliteStore
variable [E : Engine]

theorem putChannelMessage_messages {s : SqliteStore} {msg m : StoredMessage} (h : m ∈ (s.putChannelMessage msg).messages) :
    m = msg ∨ m ∈ s.messages := by
  have hprune : ∀ (t : SqliteStore) (channel : String) (now : ℤ), m ∈ (t.pruneChannel channel now).messages → m ∈ t.messages := by
    intro t channel now hm
    unfold pruneChannel at hm
    have hrow := List.mem_of_mem_filter hm
    split_ifs at hrow
    · exact List.mem_of_mem_filter hrow
    · exact hrow
  have hadded := hprune _ _ _ h
  split_ifs at hadded
  · exact .inr hadded
  · rcases List.mem_append.mp hadded with hold | hnew
    · exact .inr hold
    · exact .inl (List.mem_singleton.mp hnew)

instance : HistoryStore SqliteStore where
  archived := messages
  find s d m h := List.mem_of_find?_eq_some h
  put_channel _ _ _ h := putChannelMessage_messages h
  upsert_peer _ _ _ h := h
  put_dm _ _ _ h := h
  queue _ _ _ _ _ h := h
  take_held _ _ _ h := h
  delete_peer _ _ _ h := h
  delete_dms s fp only m h := by
    have hsame : (s.deleteDms fp only).messages = s.messages := by
      unfold deleteDms
      split_ifs <;> rfl
    rw [← hsame]
    exact h
  wipe _ _ := List.not_mem_nil
  shown s channel limit m h := by
    have htop := (E.messages_perm _ _).mem_iff.mp ((List.perm_insertionSort _ _).mem_iff.mp h)
    have hrow := (E.messages_perm _ _).mem_iff.mp ((List.perm_insertionSort _ _).mem_iff.mp (List.mem_of_mem_take htop))
    exact List.mem_of_mem_filter hrow

end SqliteStore

/-- Whatever a store comes to hold was there or was put there. -/
theorem Asks.archived {S : Type} [Store S] [A : ArchiveStore S] {p : StoreOp → Prop} {s s' : S} (h : Asks p s s')
    {m : StoredMessage} (hm : m ∈ A.archived s') : m ∈ A.archived s ∨ p (.putChannelMessage m) := by
  obtain ⟨ops, rfl, hops⟩ := h
  induction ops generalizing s with
  | nil => exact .inl hm
  | cons op ops ih =>
    rcases ih (fun o ho => hops o (List.mem_cons_of_mem op ho)) hm with hmid | hput
    · have hop := hops op List.mem_cons_self
      cases op with
      | putChannelMessage msg =>
        rcases A.put_channel _ _ m hmid with rfl | hold
        · exact .inr hop
        · exact .inl hold
      | upsertPeer peer => exact .inl (A.upsert_peer _ _ m hmid)
      | putDm dm => exact .inl (A.put_dm _ _ m hmid)
      | queueEnvelope fp b now => exact .inl (A.queue _ _ _ _ m hmid)
      | takeEnvelopes fp => exact .inl (A.take_held _ _ m hmid)
      | deletePeer fp => exact .inl (A.delete_peer _ _ m hmid)
      | deleteDms fp only => exact .inl (A.delete_dms _ _ _ m hmid)
      | panicWipe => exact absurd hmid (A.wipe _ m)
    · exact .inr hput

/-! ## What is our own -/

namespace Packet

/-- The encoding shows the sender. -/
theorem sender_of_encode {p q : Packet} (h : p.encode = q.encode) : p.sender = q.sender := by
  have hp := (drop_encode p).2.1
  have hq := (drop_encode q).2.1
  rw [h, hq] at hp
  exact Vector.toList_inj.mp (List.append_inj_left hp (by simp)).symm

end Packet

/-- The message is one of these packets, with any number of hops left. -/
def StoredMessage.CopyOf (m : StoredMessage) (own : List Packet) : Prop := ∃ q ∈ own, ∃ ttl, m.raw = { q with ttl }.encode

/-- The sender field is the one of the packet it came with, and ours only on our own packets. -/
structure StoredMessage.Attributed (me : EphId) (own : List Packet) (m : StoredMessage) : Prop where
  sender : ∃ pkt : Packet, m.raw = pkt.encode ∧ pkt.sender = m.sender
  mine : m.sender = me → m.CopyOf own

namespace StoredMessage
variable {me : EphId} {own own' : List Packet} {m : StoredMessage}

theorem CopyOf.mono (h : m.CopyOf own) (hown : ∀ q ∈ own, q ∈ own') : m.CopyOf own' := by
  obtain ⟨q, hq, hraw⟩ := h
  exact ⟨q, hown q hq, hraw⟩

theorem Attributed.mono (h : m.Attributed me own) (hown : ∀ q ∈ own, q ∈ own') : m.Attributed me own' :=
  ⟨h.sender, fun hm => (h.mine hm).mono hown⟩

theorem Attributed.iff (h : m.Attributed me own) (hown : ∀ q ∈ own, q.sender = me) : m.sender = me ↔ m.CopyOf own := by
  refine ⟨h.mine, fun ⟨q, hq, ttl, hraw⟩ => ?_⟩
  obtain ⟨pkt, hpkt, hsender⟩ := h.sender
  rw [← hsender, ← hown q hq]
  exact Packet.sender_of_encode (q := { q with ttl }) (hpkt.symm.trans hraw)

end StoredMessage

variable [P : Prims] {S : Type} [Store S] [A : HistoryStore S]

namespace MeshNode

/-- The channel packet that a call of the user writes. -/
def composed (s : MeshNode S) (c : Call) : List Packet :=
  match c.action with
  | .sendChannelMessage channel text =>
    [(s.at_ c.now).ownPacket .channelMessage none (encodeChannel (normalize channel) text s.cfg)]
  | _ => []

/-- The node together with the channel packets written so far. -/
def writing (w : MeshNode S × List Packet) (c : Call) : MeshNode S × List Packet := (exec w.1 c, w.2 ++ w.1.composed c)

omit A in
theorem run_writing (s : MeshNode S) (past : List Packet) (calls : List Call) :
    Runs.run writing (s, past) calls = (Runs.run exec s calls, past ++ Runs.outputs exec composed s calls) := by
  induction calls generalizing s past with
  | nil => simp [Runs.outputs]
  | cons c calls ih => rw [Runs.run_cons, writing, ih, Runs.run_cons, Runs.outputs, List.append_assoc]

/-- No channel packet under our own id is taken in and stored, unless it is one we wrote. -/
def NoImpostor (w : MeshNode S × List Packet) (c : Call) : Prop :=
  ∀ pkt ∈ (w.1.at_ c.now).taken c.action, pkt.msgType = .channelMessage → pkt.sender = w.1.ephId →
    w.1.channelVerified pkt ≠ none → (decodeChannel pkt.payload w.1.cfg).isSome = true →
      ∃ q ∈ w.2, pkt = { q with ttl := pkt.ttl }

instance (w : MeshNode S × List Packet) (c : Call) : Decidable (NoImpostor w c) :=
  inferInstanceAs (Decidable (∀ pkt ∈ (_ : Option Packet), _))

/-- What the user is shown as his own is what he wrote. -/
def MineMeansMine (s : MeshNode S) (own : List Packet) : Prop :=
  ∀ channel limit, List.Forall₂ (fun (m : StoredMessage) (f : FfiMessage) => f.mine = true ↔ m.CopyOf own)
    (Store.channelHistory s.store channel limit) (s.ffiChannelHistory channel limit)

/-- Everything archived is attributed, and what we wrote carries our id. -/
structure Attributing (me : EphId) (w : MeshNode S × List Packet) : Prop where
  id : w.1.ephId = me
  own : ∀ q ∈ w.2, q.sender = me
  archived : ∀ m ∈ A.archived w.1.store, m.Attributed me w.2

theorem Attributing.step {me : EphId} {w : MeshNode S × List Packet} {c : Call} (h : Attributing me w) (hno : NoImpostor w c) :
    Attributing me (writing w c) := by
  obtain ⟨hidentity, -⟩ := exec_adds (p := fun _ _ => True) w.1 c (fun _ _ => trivial) (fun _ _ _ => trivial) fun _ _ => trivial
  refine ⟨(congrArg LocalIdentity.ephId hidentity).trans h.id, fun q hq => ?_, fun m hm => ?_⟩
  · rcases List.mem_append.mp hq with hq | hq
    · exact h.own q hq
    · unfold composed at hq
      split at hq
      · rw [List.mem_singleton.mp hq]
        exact h.id
      · cases hq
  · rcases (act_asks (w.1.at_ c.now) c.action).archived hm with hold | hput
    · exact (h.archived m hold).mono fun q hq => List.mem_append_left _ hq
    · rcases hput with ⟨channel, text, haction, rfl⟩ | ⟨pkt, htaken, htype, hver, channel, text, hdec, rfl⟩
      · let pkt := (w.1.at_ c.now).ownPacket .channelMessage none (encodeChannel (normalize channel) text w.1.cfg)
        refine ⟨⟨pkt, rfl, rfl⟩, fun _ => ⟨pkt, List.mem_append_right _ ?_, pkt.ttl, rfl⟩⟩
        unfold composed
        rw [haction]
        exact List.mem_singleton_self _
      · refine ⟨⟨pkt, rfl, rfl⟩, fun hmine => ?_⟩
        obtain ⟨q, hq, heq⟩ := hno pkt htaken htype (hmine.trans h.id.symm) hver (Option.isSome_of_eq_some hdec)
        exact ⟨q, List.mem_append_left _ hq, pkt.ttl, congrArg Packet.encode heq⟩

theorem Attributing.mineMeansMine {w : MeshNode S × List Packet} {me : EphId} (h : Attributing me w) : w.1.MineMeansMine w.2 := by
  intro channel limit
  unfold ffiChannelHistory
  rw [List.forall₂_map_right_iff, List.forall₂_same]
  intro m hm
  have hiff := (h.archived m (A.shown _ _ _ m hm)).iff h.own
  rw [← hiff, ← h.id]
  exact decide_eq_true_iff

omit A in
/-- Of one who wrote nothing, nothing is shown. -/
theorem MineMeansMine.nothing {s : MeshNode S} (h : s.MineMeansMine []) (channel : String) (limit : ℕ) (f : FfiMessage)
    (hf : f ∈ s.ffiChannelHistory channel limit) : f.mine = false := by
  have hall := h channel limit
  unfold ffiChannelHistory at hf hall
  rw [List.forall₂_map_right_iff, List.forall₂_same] at hall
  obtain ⟨m, hm, rfl⟩ := List.mem_map.mp hf
  apply Bool.eq_false_iff.mpr
  intro hmine
  obtain ⟨q, hq, -⟩ := (hall m hm).mp hmine
  cases hq

/-- As long as no packet in our name is taken in that we did not write, mine means mine. -/
theorem mine_means_mine (s : MeshNode S) (past : List Packet) (own : ∀ q ∈ past, q.sender = s.ephId)
    (archived : ∀ m ∈ A.archived s.store, m.Attributed s.ephId past) (calls : List Call)
    (noImpostor : Runs.Guarded writing NoImpostor (s, past) calls) :
    (Runs.run exec s calls).MineMeansMine (past ++ Runs.outputs exec composed s calls) := by
  have hrun : Attributing s.ephId (Runs.run writing (s, past) calls) :=
    Runs.Guarded.invariant writing (fun _ _ h hno => Attributing.step h hno) ⟨rfl, own, archived⟩ noImpostor
  rw [run_writing] at hrun
  exact hrun.mineMeansMine

end MeshNode
end CockroachChat

namespace CockroachChat.Reference
open MeshNode
attribute [local instance] prims

/-- A channel message under the id of node `k`, which nobody signed. -/
def unsigned (k : UInt8) : Packet :=
  Packet.new .channelMessage 5 2 (Vector.replicate 8 k) none (encodeChannel "#news" "hi" {})

/-- Node 1 writes a message, and hears one of node 2. -/
def oneOfEach : List Call :=
  [up 0 0, ⟨1, .sendChannelMessage "news" "mine"⟩] ++ arriving 2 0 [frameOf (unsigned 2)]

/-- Of the two messages, node 1 is shown as the author of its own. -/
theorem own_message_mine : (Runs.run exec (node 1 {}) oneOfEach).MineMeansMine (Runs.outputs exec composed (node 1 {}) oneOfEach) :=
  mine_means_mine (node 1 {}) [] (by simp) (fun m hm => by cases hm) oneOfEach (by decide +kernel)

/-- A message that comes in under the id of node 1 is shown as its own. -/
theorem impostor_shown_as_mine : ¬ ∀ calls : List Call,
    (Runs.run exec (node 1 {}) calls).MineMeansMine (Runs.outputs exec composed (node 1 {}) calls) := by
  intro h
  let calls := arriving 2 0 [frameOf (unsigned 1)]
  have hshown : ∃ f ∈ (Runs.run exec (node 1 {}) calls).ffiChannelHistory "#news" 1, f.mine = true := by decide +kernel
  have hnothing : Runs.outputs exec composed (node 1 {}) calls = [] := by decide +kernel
  have hmine := h calls
  rw [hnothing] at hmine
  obtain ⟨f, hf, htrue⟩ := hshown
  rw [hmine.nothing "#news" 1 f hf] at htrue
  cases htrue

end CockroachChat.Reference
