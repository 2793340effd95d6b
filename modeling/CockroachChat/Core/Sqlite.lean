import CockroachChat.Core.Store

/-! # The SQLCipher store

`SqliteStore` keeps four tables; its methods are read as SQL over lists of rows. `AUTOINCREMENT` ids
are explicit, and rows of equal sort keys come out in any order the engine likes. Encryption, the
file and `VACUUM` are not modelled. -/
namespace CockroachChat
set_option autoImplicit false

/-- `x as i64` of a `u64`. -/
def asI64 (n : ℕ) : ℤ := Int.bmod n (2 ^ 64)

/-- The statements that leave the order of some rows open. -/
inductive Statement where
  | prune | newest | oldestFirst | digests
  deriving DecidableEq

/-- The order in which the engine visits rows, where a query leaves it open. -/
class Engine where
  messages : Statement → List StoredMessage → List StoredMessage
  messages_perm : ∀ st rows, (messages st rows).Perm rows
  peers : List PeerRecord → List PeerRecord
  peers_perm : ∀ rows, (peers rows).Perm rows

structure EnvelopeRow where
  id : ℕ
  recipient : Fingerprint
  packet : Bytes
  queuedMs : Millis
  deriving DecidableEq

structure DmRow where
  id : ℕ
  dm : StoredDm
  deriving DecidableEq

structure SqliteStore where
  messages : List StoredMessage := []
  peers : List PeerRecord := []
  envelopes : List EnvelopeRow := []
  dms : List DmRow := []
  /-- The largest ids given so far. -/
  envelopeSeq : ℕ := 0
  dmSeq : ℕ := 0
  historyMax : ℕ
  historyMs : Millis
  envelopeTtlMs : Millis
  envelopeMaxPerPeer : ℕ

namespace SqliteStore

/-- `SqliteStore::open` on a new file. -/
def new (historyMax : ℕ) (historyMs envelopeTtlMs : Millis) (envelopeMaxPerPeer : ℕ) : SqliteStore :=
  { historyMax, historyMs, envelopeTtlMs, envelopeMaxPerPeer }

/-- `ORDER BY timestamp_ms DESC`. -/
def newestFirst (rows : List StoredMessage) : List StoredMessage :=
  rows.insertionSort fun a b => asI64 b.timestampMs ≤ asI64 a.timestampMs

/-- `ORDER BY timestamp_ms ASC`. -/
def oldestFirst (rows : List StoredMessage) : List StoredMessage :=
  rows.insertionSort fun a b => asI64 a.timestampMs ≤ asI64 b.timestampMs

/-- The sort key `timestamp_ms, id` of a DM. -/
def dmKey (r : DmRow) : ℤ ×ₗ ℕ := toLex (asI64 r.dm.timestampMs, r.id)

/-- `ORDER BY timestamp_ms DESC, id DESC LIMIT n` of one peer's rows. A limit of 2^63 or more is
negative for SQLite, which means none; no table has that many rows. -/
def newestDms (rows : List DmRow) (peer : Fingerprint) (n : ℕ) : List DmRow :=
  ((rows.filter fun r => r.dm.peer = peer).insertionSort fun a b => dmKey b ≤ dmKey a).take n

section Engine
variable [E : Engine]

def pruneChannel (s : SqliteStore) (channel : String) (nowMs : ℤ) : SqliteStore :=
  let rows := if s.historyMs > 0 then
      s.messages.filter fun m => ¬ (m.channel = channel ∧ nowMs - asI64 m.timestampMs ≥ asI64 s.historyMs)
    else s.messages
  -- the newest `history_max` in this channel
  let kept := ((newestFirst (E.messages .prune (rows.filter fun m => m.channel = channel))).take s.historyMax).map (·.digest)
  { s with messages := rows.filter fun m => ¬ (m.channel = channel ∧ m.digest ∉ kept) }

def putChannelMessage (s : SqliteStore) (msg : StoredMessage) : SqliteStore :=
  let now := asI64 msg.timestampMs
  -- `INSERT OR IGNORE`
  let s := if s.messages.any (·.digest = msg.digest) then s else { s with messages := s.messages ++ [msg] }
  s.pruneChannel msg.channel now

def channelHistory (s : SqliteStore) (channel : String) (limit : ℕ) : List StoredMessage :=
  let top := (newestFirst (E.messages .newest (s.messages.filter fun m => m.channel = channel))).take limit
  oldestFirst (E.messages .oldestFirst top)

def channelDigests (s : SqliteStore) (channel : String) : List Digest :=
  (E.messages .digests (s.messages.filter fun m => m.channel = channel)).map (·.digest)

def listPeers (s : SqliteStore) : List PeerRecord := E.peers s.peers

end Engine

def hasMessage (s : SqliteStore) (digest : Digest) : Bool := s.messages.any (·.digest = digest)

def messageByDigest (s : SqliteStore) (digest : Digest) : Option StoredMessage :=
  s.messages.find? (·.digest = digest)

/-- `INSERT OR REPLACE`. -/
def upsertPeer (s : SqliteStore) (peer : PeerRecord) : SqliteStore :=
  { s with peers := (s.peers.filter fun p => p.fingerprint ≠ peer.fingerprint) ++ [peer] }

def getPeer (s : SqliteStore) (fp : Fingerprint) : Option PeerRecord := s.peers.find? (·.fingerprint = fp)

def putDm (s : SqliteStore) (dm : StoredDm) : SqliteStore :=
  let rows := s.dms ++ [{ id := s.dmSeq + 1, dm }]
  let kept := (newestDms rows dm.peer s.historyMax).map (·.id)
  { s with
    dmSeq := s.dmSeq + 1
    dms := rows.filter fun r => ¬ (r.dm.peer = dm.peer ∧ r.id ∉ kept) }

def dmHistory (s : SqliteStore) (peer : Fingerprint) (limit : ℕ) : List StoredDm :=
  ((newestDms s.dms peer limit).insertionSort fun a b => dmKey a ≤ dmKey b).map (·.dm)

def queueEnvelope (s : SqliteStore) (recipient : Fingerprint) (packetBytes : Bytes) (nowMs : Millis) : SqliteStore :=
  let now := asI64 nowMs
  let rows := if s.envelopeTtlMs > 0 then
      s.envelopes.filter fun e => ¬ (e.recipient = recipient ∧ now - asI64 e.queuedMs ≥ asI64 s.envelopeTtlMs)
    else s.envelopes
  let rows := rows ++ [{ id := s.envelopeSeq + 1, recipient, packet := packetBytes, queuedMs := nowMs }]
  -- the newest `envelope_max_per_peer` for this recipient
  let kept := (((rows.filter fun e => e.recipient = recipient).insertionSort fun a b => b.id ≤ a.id).take
    s.envelopeMaxPerPeer).map (·.id)
  { s with
    envelopeSeq := s.envelopeSeq + 1
    envelopes := rows.filter fun e => ¬ (e.recipient = recipient ∧ e.id ∉ kept) }

def takeEnvelopes (s : SqliteStore) (recipient : Fingerprint) : SqliteStore × List Bytes :=
  ({ s with envelopes := s.envelopes.filter fun e => ¬ e.recipient = recipient },
   ((s.envelopes.filter fun e => e.recipient = recipient).insertionSort fun a b => a.id ≤ b.id).map (·.packet))

def deletePeer (s : SqliteStore) (fp : Fingerprint) : SqliteStore :=
  { s with peers := s.peers.filter fun p => ¬ p.fingerprint = fp }

def deleteDms (s : SqliteStore) (fp : Fingerprint) (onlyControl : Bool) : SqliteStore :=
  if onlyControl then
    { s with dms := s.dms.filter fun r => ¬ (r.dm.peer = fp ∧ r.dm.body.length = 1 ∧
        (r.dm.body = [0x01] ∨ r.dm.body = [0x02] ∨ r.dm.body = [0x03])) }
  else { s with dms := s.dms.filter fun r => ¬ r.dm.peer = fp }

def panicWipe (s : SqliteStore) : SqliteStore := { s with messages := [], peers := [], dms := [], envelopes := [] }

instance [Engine] : Store SqliteStore where
  putChannelMessage := putChannelMessage
  hasMessage := hasMessage
  channelHistory := channelHistory
  channelDigests := channelDigests
  messageByDigest := messageByDigest
  upsertPeer := upsertPeer
  getPeer := getPeer
  listPeers := listPeers
  putDm := putDm
  dmHistory := dmHistory
  queueEnvelope := queueEnvelope
  takeEnvelopes := takeEnvelopes
  deletePeer := deletePeer
  deleteDms := deleteDms
  panicWipe := panicWipe

end SqliteStore
end CockroachChat
