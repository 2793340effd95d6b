import CockroachChat.Core.Relay

/-! # Persistence

The node only touches the operations of `Store`. `MemoryStore` is the in-process implementation;
its hash maps are read in key order where the source iterates over them. -/
namespace CockroachChat
set_option autoImplicit false

structure StoredMessage where
  digest : Digest
  channel : String
  sender : EphId
  timestampMs : Millis
  body : Bytes
  /-- The original signed packet bytes, resent verbatim by set reconciliation. -/
  raw : Bytes
  deriving DecidableEq

structure PeerRecord where
  fingerprint : Fingerprint
  petname : Option String
  verified : Bool
  lastEph : EphId
  lastSeenMs : Millis
  deriving DecidableEq

structure StoredDm where
  peer : Fingerprint
  mine : Bool
  timestampMs : Millis
  body : Bytes
  deriving DecidableEq

structure Envelope where
  packetBytes : Bytes
  queuedMs : Millis
  deriving DecidableEq

class Store (S : Type) where
  putChannelMessage : S → StoredMessage → S
  hasMessage : S → Digest → Bool
  channelHistory : S → String → ℕ → List StoredMessage
  channelDigests : S → String → List Digest
  messageByDigest : S → Digest → Option StoredMessage
  upsertPeer : S → PeerRecord → S
  getPeer : S → Fingerprint → Option PeerRecord
  listPeers : S → List PeerRecord
  putDm : S → StoredDm → S
  dmHistory : S → Fingerprint → ℕ → List StoredDm
  queueEnvelope : S → Fingerprint → Bytes → Millis → S
  takeEnvelopes : S → Fingerprint → S × List Bytes
  deletePeer : S → Fingerprint → S
  deleteDms : S → Fingerprint → Bool → S
  panicWipe : S → S

/-- Verify-notice (1), verify-ack (2) or key-changed marker (3), stored as a bare kind byte. -/
def isControlDm (body : Bytes) : Bool :=
  match body with
  | [b] => 1 ≤ b && b ≤ 3
  | _ => false

structure MemoryStore where
  channels : Std.ExtTreeMap String (List StoredMessage) := ∅
  digests : Std.ExtTreeSet Digest := ∅
  peers : Std.ExtTreeMap Fingerprint PeerRecord := ∅
  dms : Std.ExtTreeMap Fingerprint (List StoredDm) := ∅
  envelopes : Std.ExtTreeMap Fingerprint (List Envelope) := ∅
  historyMax : ℕ
  historyMs : Millis
  envelopeTtlMs : Millis
  envelopeMaxPerPeer : ℕ

namespace MemoryStore

def new (historyMax : ℕ) (historyMs envelopeTtlMs : Millis) (envelopeMaxPerPeer : ℕ) : MemoryStore :=
  { historyMax, historyMs, envelopeTtlMs, envelopeMaxPerPeer }

/-- `sort_by_key(|m| m.timestamp_ms)`, a stable sort. -/
def sortByTime {α : Type} (time : α → Millis) (l : List α) : List α :=
  l.insertionSort fun a b => time a ≤ time b

/-- The last `limit` elements of a list. -/
def lastN {α : Type} (limit : ℕ) (l : List α) : List α := l.drop (l.length - limit)

/-- `while msgs.len() > history_max { digests.remove(&msgs.remove(0).digest) }`. -/
def dropExcess (historyMax : ℕ) : List StoredMessage → Std.ExtTreeSet Digest →
    List StoredMessage × Std.ExtTreeSet Digest
  | [], digests => ([], digests)
  | m :: msgs, digests =>
      if (m :: msgs).length > historyMax then dropExcess historyMax msgs (digests.erase m.digest)
      else (m :: msgs, digests)

def pruneChannel (s : MemoryStore) (channel : String) (nowMs : Millis) : MemoryStore :=
  match s.channels[channel]? with
  | none => s
  | some msgs =>
      let msgs := if s.historyMs > 0 then msgs.filter fun m => nowMs - m.timestampMs < s.historyMs else msgs
      let (msgs, digests) := dropExcess s.historyMax msgs s.digests
      { s with channels := s.channels.insert channel msgs, digests := digests }

def putChannelMessage (s : MemoryStore) (msg : StoredMessage) : MemoryStore :=
  if s.digests.contains msg.digest then s else
  -- the time the channel is pruned at is the message's own timestamp
  let now := msg.timestampMs
  let held := s.channels[msg.channel]?.getD [] ++ [msg]
  let s := { s with
    digests := s.digests.insert msg.digest
    channels := s.channels.insert msg.channel (sortByTime (·.timestampMs) held) }
  s.pruneChannel msg.channel now

def hasMessage (s : MemoryStore) (digest : Digest) : Bool := s.digests.contains digest

def channelHistory (s : MemoryStore) (channel : String) (limit : ℕ) : List StoredMessage :=
  lastN limit (sortByTime (·.timestampMs) (s.channels[channel]?.getD []))

def channelDigests (s : MemoryStore) (channel : String) : List Digest :=
  (s.channels[channel]?.getD []).map (·.digest)

def messageByDigest (s : MemoryStore) (digest : Digest) : Option StoredMessage :=
  s.channels.values.flatten.find? fun m => m.digest = digest

def upsertPeer (s : MemoryStore) (peer : PeerRecord) : MemoryStore :=
  { s with peers := s.peers.insert peer.fingerprint peer }

def getPeer (s : MemoryStore) (fp : Fingerprint) : Option PeerRecord := s.peers[fp]?

def listPeers (s : MemoryStore) : List PeerRecord := s.peers.values

def putDm (s : MemoryStore) (dm : StoredDm) : MemoryStore :=
  let thread := sortByTime (·.timestampMs) (s.dms[dm.peer]?.getD [] ++ [dm])
  -- `while thread.len() > history_max { thread.remove(0) }`
  { s with dms := s.dms.insert dm.peer (lastN s.historyMax thread) }

def dmHistory (s : MemoryStore) (peer : Fingerprint) (limit : ℕ) : List StoredDm :=
  lastN limit (sortByTime (·.timestampMs) (s.dms[peer]?.getD []))

def queueEnvelope (s : MemoryStore) (recipient : Fingerprint) (packetBytes : Bytes) (nowMs : Millis) :
    MemoryStore :=
  let q := (s.envelopes[recipient]?.getD []).filter fun e => nowMs - e.queuedMs < s.envelopeTtlMs
  let q := q ++ [{ packetBytes, queuedMs := nowMs }]
  { s with envelopes := s.envelopes.insert recipient (lastN s.envelopeMaxPerPeer q) }

def takeEnvelopes (s : MemoryStore) (recipient : Fingerprint) : MemoryStore × List Bytes :=
  ({ s with envelopes := s.envelopes.erase recipient },
   (s.envelopes[recipient]?.getD []).map (·.packetBytes))

def deletePeer (s : MemoryStore) (fp : Fingerprint) : MemoryStore := { s with peers := s.peers.erase fp }

def deleteDms (s : MemoryStore) (fp : Fingerprint) (onlyControl : Bool) : MemoryStore :=
  if onlyControl then
    match s.dms[fp]? with
    | some thread => { s with dms := s.dms.insert fp (thread.filter fun d => !isControlDm d.body) }
    | none => s
  else { s with dms := s.dms.erase fp }

def panicWipe (s : MemoryStore) : MemoryStore :=
  { s with channels := ∅, digests := ∅, peers := ∅, dms := ∅, envelopes := ∅ }

instance : Store MemoryStore where
  putChannelMessage := putChannelMessage
  hasMessage := hasMessage
  channelHistory := channelHistory
  channelDigests := channelDigests
  messageByDigest := messageByDigest
  upsertPeer := upsertPeer
  getPeer := getPeer
  listPeers := listPeers
  putDm := putDm
  dmHistory := dmHistory
  queueEnvelope := queueEnvelope
  takeEnvelopes := takeEnvelopes
  deletePeer := deletePeer
  deleteDms := deleteDms
  panicWipe := panicWipe

end MemoryStore
end CockroachChat
