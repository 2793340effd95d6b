import CockroachChat.Stores.Tables
import CockroachChat.Foundations.Runs

/-! # Two stores side by side

The same operations on a `MemoryStore` and on a `SqliteStore`. The two forget by age in different
ways; where an operation forgets nothing by age that the other store keeps, their answers agree. -/
namespace CockroachChat
set_option autoImplicit false
open Sorting
open MemoryStore (lastN)

inductive StoreOp where
  | putChannelMessage (msg : StoredMessage)
  | upsertPeer (peer : PeerRecord)
  | putDm (dm : StoredDm)
  | queueEnvelope (recipient : Fingerprint) (packetBytes : Bytes) (nowMs : Millis)
  | takeEnvelopes (recipient : Fingerprint)
  | deletePeer (fp : Fingerprint)
  | deleteDms (fp : Fingerprint) (onlyControl : Bool)
  | panicWipe

namespace StoreOp

def apply {S : Type} [Store S] (s : S) : StoreOp → S
  | putChannelMessage msg => Store.putChannelMessage s msg
  | upsertPeer peer => Store.upsertPeer s peer
  | putDm dm => Store.putDm s dm
  | queueEnvelope recipient packetBytes nowMs => Store.queueEnvelope s recipient packetBytes nowMs
  | takeEnvelopes recipient => (Store.takeEnvelopes s recipient).1
  | deletePeer fp => Store.deletePeer s fp
  | deleteDms fp onlyControl => Store.deleteDms s fp onlyControl
  | panicWipe => Store.panicWipe s

/-- Timestamps and clock values below 2^63. -/
def InRange : StoreOp → Prop
  | putChannelMessage msg => msg.timestampMs < 2 ^ 63
  | upsertPeer peer => peer.lastSeenMs < 2 ^ 63
  | putDm dm => dm.timestampMs < 2 ^ 63
  | queueEnvelope _ _ nowMs => nowMs < 2 ^ 63
  | _ => True

/-- The count limit of the channel does not cut through rows of equal time. -/
def Uncut (s : MemoryStore) : StoreOp → Prop
  | putChannelMessage msg =>
      s.hasMessage msg.digest = true ∨ Sorting.Uncut StoredMessage.timestampMs s.historyMax (s.rows msg.channel ++ [msg])
  | _ => True

/-- The operation forgets nothing by age that only one of the stores forgets. A channel message finds
none in its channel that is too old. An envelope finds a retention time that both stores read
alike, or else the envelopes that stay besides it are kept by both. -/
def AgesAlike (s : MemoryStore) : StoreOp → Prop
  | putChannelMessage msg => s.historyMs = 0 ∨ ((s.historyMs < 2 ^ 63 ∨ s.historyMax = 0) ∧
      ∀ m ∈ s.rows msg.channel, msg.timestampMs - m.timestampMs < s.historyMs)
  | queueEnvelope recipient _ nowMs => (0 < s.envelopeTtlMs ∧ s.envelopeTtlMs < 2 ^ 63) ∨
      ∀ e ∈ lastN (s.envelopeMaxPerPeer - 1) (s.queue recipient),
        0 < s.envelopeTtlMs ∧ (nowMs : ℤ) - e.queuedMs < asI64 s.envelopeTtlMs
  | _ => True

end StoreOp

/-- Equal answers, up to the order of rows that the queries leave open. -/
structure Agree [Engine] (m : MemoryStore) (q : SqliteStore) : Prop where
  hasMessage : ∀ d : Digest, m.hasMessage d = q.hasMessage d
  messageByDigest : ∀ d : Digest, m.messageByDigest d = q.messageByDigest d
  getPeer : ∀ fp : Fingerprint, m.getPeer fp = q.getPeer fp
  takeEnvelopes : ∀ fp : Fingerprint, (m.takeEnvelopes fp).2 = (q.takeEnvelopes fp).2
  dmHistory : ∀ (fp : Fingerprint) (limit : ℕ), m.dmHistory fp limit = q.dmHistory fp limit
  channelDigests : ∀ (channel : String) (d : Digest), d ∈ m.channelDigests channel ↔ d ∈ q.channelDigests channel
  listPeers : ∀ r : PeerRecord, r ∈ m.listPeers ↔ r ∈ q.listPeers
  channelHistory : ∀ (channel : String) (limit : ℕ), Sorting.Uncut StoredMessage.timestampMs limit (m.rows channel) →
    (m.channelHistory channel limit).Perm (q.channelHistory channel limit)

/-- The two stores hold the same rows. -/
structure Mirror (m : MemoryStore) (q : SqliteStore) : Prop where
  historyMax : q.historyMax = m.historyMax
  historyMs : q.historyMs = m.historyMs
  envelopeTtlMs : q.envelopeTtlMs = m.envelopeTtlMs
  envelopeMaxPerPeer : q.envelopeMaxPerPeer = m.envelopeMaxPerPeer
  channels : SameChannels m.channels m.digests q.messages
  room : ∀ channel : String, (m.rows channel).length ≤ m.historyMax
  peers : SamePeers m.peers q.peers
  threads : SameThreads m.dms q.dms q.dmSeq
  queues : SameQueues m.envelopes q.envelopes q.envelopeSeq

theorem age_lt {now queued ttl : ℕ} (hpos : 0 < ttl) : (now : ℤ) - queued < ttl ↔ now - queued < ttl := by omega

namespace Mirror
variable {m : MemoryStore} {q : SqliteStore}

theorem agree [E : Engine] (h : Mirror m q) : Agree m q where
  hasMessage d := by
    rw [Bool.eq_iff_iff]
    refine (h.channels.digests d).trans ?_
    simp [SqliteStore.hasMessage]
  messageByDigest d := find_congr StoredMessage.digest h.channels.mem_values h.channels.nodup d
  getPeer fp := (h.peers.find fp).symm
  takeEnvelopes fp := h.queues.take fp
  dmHistory fp limit := h.threads.history fp limit
  channelDigests channel d := by
    have hperm := (E.messages_perm .digests _).trans (h.channels.perm channel)
    exact (hperm.map StoredMessage.digest).symm.mem_iff
  listPeers r := (h.peers.mem_values r).trans (E.peers_perm q.peers).mem_iff.symm
  channelHistory channel limit huncut := h.channels.history channel limit huncut

/-- Where the channel holds nothing old, only the count limit prunes it. -/
theorem put_cut [Engine] (h : Mirror m q) (msg : StoredMessage) (hmsg : msg.timestampMs < 2 ^ 63)
    (hages : (StoreOp.putChannelMessage msg).AgesAlike m) {channels : Std.ExtTreeMap String (List StoredMessage)}
    {digests : Std.ExtTreeSet Digest} {rows : List StoredMessage} (hsame : SameChannels channels digests rows)
    (hheld : ∀ r ∈ channels[msg.channel]?.getD [], r = msg ∨ r ∈ m.rows msg.channel) :
    cutRows (if q.historyMs > 0 then rows.filter fun r => ¬ (r.channel = msg.channel ∧
      asI64 msg.timestampMs - asI64 r.timestampMs ≥ asI64 q.historyMs) else rows) msg.channel q.historyMax =
      cutRows rows msg.channel m.historyMax := by
  rw [h.historyMs, h.historyMax]
  apply hsame.expired_cut msg.channel hmsg
  rcases Nat.eq_zero_or_pos m.historyMs with hzero | hpos
  · exact .inl hzero
  obtain ⟨hsmall, hyoung⟩ := Or.resolve_left hages hpos.ne'
  refine .inr ⟨hsmall, fun r hr hc => ?_⟩
  rcases hheld r ((hsame.mem_held _ r).mpr ⟨hr, hc⟩) with rfl | hr
  · rwa [Nat.sub_self]
  · exact hyoung r hr

theorem put_known [Engine] (h : Mirror m q) (msg : StoredMessage) (hmsg : msg.timestampMs < 2 ^ 63)
    (hages : (StoreOp.putChannelMessage msg).AgesAlike m) (hheld : m.digests.contains msg.digest = true) :
    Mirror (m.putChannelMessage msg) (q.putChannelMessage msg) := by
  have hknown : q.messages.any (·.digest = msg.digest) = true := (h.agree.hasMessage msg.digest).symm.trans hheld
  have hm : m.putChannelMessage msg = m := if_pos hheld
  have hq : q.putChannelMessage msg = q := by
    have hcut := h.put_cut msg hmsg hages h.channels fun r hr => .inr hr
    rw [h.channels.cut_none msg.channel (h.room msg.channel)] at hcut
    unfold SqliteStore.putChannelMessage
    dsimp only
    rw [if_pos hknown]
    exact congrArg (fun rows => { q with messages := rows }) hcut
  rw [hm, hq]
  exact h

theorem put_new [Engine] (h : Mirror m q) (msg : StoredMessage) (hmsg : msg.timestampMs < 2 ^ 63)
    (huncut : Sorting.Uncut StoredMessage.timestampMs m.historyMax (m.rows msg.channel ++ [msg]))
    (hages : (StoreOp.putChannelMessage msg).AgesAlike m) (hheld : m.digests.contains msg.digest = false) :
    Mirror (m.putChannelMessage msg) (q.putChannelMessage msg) := by
  have hunknown : ¬ q.messages.any (·.digest = msg.digest) = true := by
    have hmissing := (h.agree.hasMessage msg.digest).symm.trans hheld
    exact Bool.eq_false_iff.mp hmissing
  obtain ⟨sorted, hsorted⟩ : ∃ sorted, sorted = MemoryStore.sortByTime StoredMessage.timestampMs (m.rows msg.channel ++ [msg]) :=
    ⟨_, rfl⟩
  have hadd : SameChannels (m.channels.insert msg.channel sorted) (m.digests.insert msg.digest) (q.messages ++ [msg]) :=
    hsorted ▸ h.channels.add msg hmsg hheld
  have hsort : sorted.Perm (m.rows msg.channel ++ [msg]) := hsorted ▸ List.perm_insertionSort _ _
  have hget : (m.channels.insert msg.channel sorted)[msg.channel]?.getD [] = sorted := by simp
  have hmem : ∀ r ∈ sorted, r = msg ∨ r ∈ m.rows msg.channel := by
    intro r hr
    have hr' := hsort.mem_iff.mp hr
    rw [List.mem_append, List.mem_singleton] at hr'
    exact hr'.symm
  have hcut := hadd.cut msg.channel m.historyMax (by rw [hget]; exact huncut.perm _ hsort.symm)
  rw [hget, Maps.insert_insert] at hcut
  have hm : m.putChannelMessage msg = { m with
      channels := m.channels.insert msg.channel (MemoryStore.dropExcess m.historyMax sorted (m.digests.insert msg.digest)).1
      digests := (MemoryStore.dropExcess m.historyMax sorted (m.digests.insert msg.digest)).2 } := by
    have hyoung : (if m.historyMs > 0 then sorted.filter fun r => msg.timestampMs - r.timestampMs < m.historyMs else sorted) =
        sorted := by
      rcases Nat.eq_zero_or_pos m.historyMs with hzero | hpos
      · rw [if_neg (by simp [hzero])]
      · rw [if_pos hpos, List.filter_eq_self]
        intro r hr
        rw [decide_eq_true_eq]
        rcases hmem r hr with rfl | hr
        · rwa [Nat.sub_self]
        · exact (Or.resolve_left hages hpos.ne').2 r hr
    unfold MemoryStore.putChannelMessage MemoryStore.pruneChannel
    simp only [hheld, Bool.false_eq_true, if_false, Std.ExtTreeMap.getElem?_insert_self]
    rw [MemoryStore.rows] at hsorted
    rw [← hsorted, hyoung, Maps.insert_insert]
  have hq : q.putChannelMessage msg = { q with messages := cutRows (q.messages ++ [msg]) msg.channel m.historyMax } := by
    have hrows := h.put_cut msg hmsg hages hadd (by rw [hget]; exact hmem)
    unfold SqliteStore.putChannelMessage
    dsimp only
    rw [if_neg hunknown]
    exact congrArg (fun rows => { q with messages := rows }) hrows
  rw [hm, hq]
  refine { h with channels := hcut, room := ?_ }
  intro channel
  unfold MemoryStore.rows
  dsimp only
  rw [Std.ExtTreeMap.getElem?_insert]
  by_cases hc : msg.channel = channel
  · subst hc
    simp only [Std.ReflCmp.compare_self, if_true, Option.getD_some, MemoryStore.dropExcess_eq]
    exact MemoryStore.lastN_length_le _ _
  · rw [if_neg (by simpa using hc)]
    exact h.room channel

theorem putChannelMessage [Engine] (h : Mirror m q) (msg : StoredMessage) (hmsg : msg.timestampMs < 2 ^ 63)
    (huncut : (StoreOp.putChannelMessage msg).Uncut m) (hages : (StoreOp.putChannelMessage msg).AgesAlike m) :
    Mirror (m.putChannelMessage msg) (q.putChannelMessage msg) := by
  by_cases hheld : m.digests.contains msg.digest = true
  · exact h.put_known msg hmsg hages hheld
  · rw [Bool.not_eq_true] at hheld
    refine h.put_new msg hmsg (Or.resolve_left huncut ?_) hages hheld
    exact fun hknown => Bool.false_ne_true (hheld.symm.trans hknown)

/-- The queue that comes of it, by the age limit of either store. -/
theorem queue_same (fp : Fingerprint) (packetBytes : Bytes) (nowMs : Millis) (hnow : nowMs < 2 ^ 63)
    (hages : (StoreOp.queueEnvelope fp packetBytes nowMs).AgesAlike m) (e : Envelope) :
    lastN m.envelopeMaxPerPeer ((m.queue fp).filter (fun e => nowMs - e.queuedMs < m.envelopeTtlMs) ++ [e]) =
      lastN m.envelopeMaxPerPeer ((m.queue fp).filter (fun e => e.outlasts m.envelopeTtlMs nowMs) ++ [e]) := by
  rcases hages with ⟨hpos, hsmall⟩ | hkept
  · congr 2
    apply List.filter_congr
    intro e _
    rw [decide_eq_decide, Envelope.outlasts, or_iff_right hpos.ne', asI64_small hsmall]
    exact (age_lt hpos).symm
  · cases hmax : m.envelopeMaxPerPeer with
    | zero => simp [lastN]
    | succ n =>
      rw [hmax, Nat.add_sub_cancel] at hkept
      rw [MemoryStore.lastN_snoc, MemoryStore.lastN_snoc, MemoryStore.lastN_filter, MemoryStore.lastN_filter]
      · intro e he
        obtain ⟨-, hage⟩ := hkept e he
        exact decide_eq_true (.inr hage)
      · intro e he
        obtain ⟨hpos, hage⟩ := hkept e he
        rw [decide_eq_true_eq]
        by_cases hsmall : m.envelopeTtlMs < 2 ^ 63
        · rw [asI64_small hsmall] at hage
          exact (age_lt hpos).mp hage
        · exact (Nat.sub_le _ _).trans_lt (hnow.trans_le (Nat.le_of_not_lt hsmall))

theorem queueEnvelope (h : Mirror m q) (fp : Fingerprint) (packetBytes : Bytes) (nowMs : Millis) (hnow : nowMs < 2 ^ 63)
    (hages : (StoreOp.queueEnvelope fp packetBytes nowMs).AgesAlike m) :
    Mirror (m.queueEnvelope fp packetBytes nowMs) (q.queueEnvelope fp packetBytes nowMs) := by
  have hqueues := ((h.queues.expire fp q.envelopeTtlMs nowMs hnow).add fp packetBytes nowMs hnow).cut fp q.envelopeMaxPerPeer
  have hsame := queue_same fp packetBytes nowMs hnow hages { packetBytes, queuedMs := nowMs }
  rw [MemoryStore.queue, ← h.envelopeTtlMs, ← h.envelopeMaxPerPeer] at hsame
  simp only [Maps.insert_insert, Std.ExtTreeMap.getElem?_insert_self, Option.getD_some] at hqueues
  rw [← hsame, h.envelopeTtlMs, h.envelopeMaxPerPeer] at hqueues
  refine { h with queues := ?_ }
  unfold SqliteStore.queueEnvelope
  rw [h.envelopeTtlMs, h.envelopeMaxPerPeer]
  exact hqueues

theorem deleteDms (h : Mirror m q) (fp : Fingerprint) (onlyControl : Bool) :
    Mirror (m.deleteDms fp onlyControl) (q.deleteDms fp onlyControl) := by
  cases onlyControl with
  | false => exact { h with threads := h.threads.erase fp }
  | true =>
    unfold MemoryStore.deleteDms
    rw [if_pos rfl]
    cases hthread : m.dms[fp]? with
    | none =>
      refine { h with threads := h.threads.eraseControl fp fun fp' => ?_ }
      by_cases hfp : fp = fp'
      · subst hfp
        simp [hthread]
      · rw [if_neg hfp]
    | some thread =>
      refine { h with threads := h.threads.eraseControl fp fun fp' => ?_ }
      dsimp only
      rw [Std.ExtTreeMap.getElem?_insert]
      by_cases hfp : fp = fp'
      · subst hfp
        simp [hthread]
      · rw [if_neg hfp, if_neg (by simpa using hfp)]

theorem putDm (h : Mirror m q) (dm : StoredDm) (hdm : dm.timestampMs < 2 ^ 63) : Mirror (m.putDm dm) (q.putDm dm) := by
  have hthreads := h.threads.put dm hdm m.historyMax
  refine { h with threads := ?_ }
  unfold SqliteStore.putDm
  rw [h.historyMax]
  exact hthreads

theorem apply [Engine] (h : Mirror m q) (op : StoreOp) (hrange : op.InRange) (huncut : op.Uncut m) (hages : op.AgesAlike m) :
    Mirror (op.apply m) (op.apply q) := by
  cases op with
  | putChannelMessage msg => exact h.putChannelMessage msg hrange huncut hages
  | upsertPeer peer => exact { h with peers := h.peers.upsert peer }
  | putDm dm => exact h.putDm dm hrange
  | queueEnvelope fp packetBytes nowMs => exact h.queueEnvelope fp packetBytes nowMs hrange hages
  | takeEnvelopes fp => exact { h with queues := h.queues.erase fp }
  | deletePeer fp => exact { h with peers := h.peers.delete fp }
  | deleteDms fp onlyControl => exact h.deleteDms fp onlyControl
  | panicWipe =>
    exact { h with channels := .empty, room := fun _ => Nat.zero_le _, peers := .empty, threads := .empty _, queues := .empty _ }

end Mirror

namespace StoreOp

instance (s : MemoryStore) : (op : StoreOp) → Decidable (op.Uncut s)
  | .putChannelMessage _ => inferInstanceAs (Decidable (_ ∨ _))
  | .upsertPeer _ | .putDm _ | .queueEnvelope .. | .takeEnvelopes _ | .deletePeer _ | .deleteDms .. | .panicWipe =>
      inferInstanceAs (Decidable True)

instance (s : MemoryStore) : (op : StoreOp) → Decidable (op.AgesAlike s)
  | .putChannelMessage _ => inferInstanceAs (Decidable (_ ∨ _))
  | .queueEnvelope .. => inferInstanceAs (Decidable (_ ∨ _))
  | .upsertPeer _ | .putDm _ | .takeEnvelopes _ | .deletePeer _ | .deleteDms .. | .panicWipe => inferInstanceAs (Decidable True)

/-- The two stores after the same operations, where none of these forgets by age in one store only. -/
theorem stores_agree [Engine] (historyMax envelopeMaxPerPeer : ℕ) (historyMs envelopeTtlMs : Millis) (ops : List StoreOp)
    (hrange : ∀ op ∈ ops, op.InRange)
    (huncut : Runs.Guarded apply (fun s op => op.Uncut s)
      (MemoryStore.new historyMax historyMs envelopeTtlMs envelopeMaxPerPeer) ops)
    (hages : Runs.Guarded apply (fun s op => op.AgesAlike s)
      (MemoryStore.new historyMax historyMs envelopeTtlMs envelopeMaxPerPeer) ops) :
    Agree (Runs.run apply (MemoryStore.new historyMax historyMs envelopeTtlMs envelopeMaxPerPeer) ops)
      (Runs.run apply (SqliteStore.new historyMax historyMs envelopeTtlMs envelopeMaxPerPeer) ops) := by
  have hstart : Mirror (MemoryStore.new historyMax historyMs envelopeTtlMs envelopeMaxPerPeer)
      (SqliteStore.new historyMax historyMs envelopeTtlMs envelopeMaxPerPeer) :=
    ⟨rfl, rfl, rfl, rfl, .empty, fun _ => Nat.zero_le _, .empty, .empty 0, .empty 0⟩
  have hguard := (Runs.Guarded.of_forall apply _ hrange).and apply (huncut.and apply hages)
  refine (hguard.simulation apply ?_ hstart).agree
  intro m q op hmirror ⟨hrange, huncut, hages⟩
  exact hmirror.apply op hrange huncut hages

end StoreOp
end CockroachChat

namespace CockroachChat.Reference
open StoreOp

/-- An engine that reads its tables in the order they were written. -/
@[reducible] def engine : Engine where
  messages _ rows := rows
  messages_perm _ rows := .refl rows
  peers rows := rows
  peers_perm rows := .refl rows

attribute [local instance] engine

def notice (n : UInt8) (timestampMs : Millis) : StoreOp :=
  .putChannelMessage
    { digest := Vector.replicate 8 n, channel := "#news", sender := Vector.replicate 8 3, timestampMs, body := [7], raw := [8] }

/-- A message that pushes an older one out by age: `MemoryStore` still knows the older digest. -/
def ageing : List StoreOp := [notice 1 1000, notice 2 5000]

theorem stores_differ :
    (∀ op ∈ ageing, op.InRange) ∧ Runs.Guarded apply (fun s op => op.Uncut s) (MemoryStore.new 10 2000 3000 4) ageing ∧
      ¬ Agree (Runs.run apply (MemoryStore.new 10 2000 3000 4) ageing) (Runs.run apply (SqliteStore.new 10 2000 3000 4) ageing) := by
  refine ⟨?_, by decide +kernel, fun h => ?_⟩
  · intro op hop
    simp only [ageing, List.mem_cons, List.not_mem_nil, or_false] at hop
    rcases hop with rfl | rfl <;> norm_num [notice, InRange]
  · have hknown := h.hasMessage (Vector.replicate 8 1)
    revert hknown
    decide +kernel

/-- Two messages within the retention time, one envelope, and a third message that the limit of two keeps. -/
def lively : List StoreOp :=
  [notice 1 1000, notice 2 2500, .queueEnvelope (Vector.replicate 32 9) [4] 2600,
    .putDm ⟨Vector.replicate 32 9, true, 2700, [5]⟩, notice 3 2800]

theorem lively_stores_agree :
    Agree (Runs.run apply (MemoryStore.new 2 2000 3000 4) lively) (Runs.run apply (SqliteStore.new 2 2000 3000 4) lively) := by
  apply stores_agree
  · intro op hop
    simp only [lively, List.mem_cons, List.not_mem_nil, or_false] at hop
    rcases hop with rfl | rfl | rfl | rfl | rfl <;> norm_num [notice, InRange]
  · decide +kernel
  · decide +kernel

end CockroachChat.Reference
