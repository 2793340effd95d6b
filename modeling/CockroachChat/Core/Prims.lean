import CockroachChat.Foundations.Utf8

/-! # What the core takes from its libraries

Signatures, hashing, the Noise engine, LZ4, the random generator and Unicode case mapping come
from other crates. They enter as the operations of one class, with no law attached: a theorem
that needs a documented behaviour names it as a hypothesis. -/
namespace CockroachChat
set_option autoImplicit false

abbrev Digest := Vector UInt8 8
abbrev EphId := Vector UInt8 8
abbrev Key32 := Vector UInt8 32
abbrev Signature := Vector UInt8 64
/-- SHA-256 of the Ed25519 public key. The stable identity of a node. -/
abbrev Fingerprint := Vector UInt8 32
abbrev LinkId := ℕ
/-- Clock readings are `u64`; sums of times stay far below 2^64 and are taken in `ℕ`. -/
abbrev Millis := ℕ

instance transOrdEphId : Std.TransOrd EphId := transOrdArray

instance transOrdKey32 : Std.TransOrd Key32 := transOrdArray

instance lawfulBEqDigest : LawfulBEq Digest := inferInstance

class Prims where
  /-- `Sha256::digest`. -/
  sha256 : Bytes → Vector UInt8 32
  -- ed25519_dalek
  SigningKey : Type
  VerifyingKey : Type
  verifyingKey : SigningKey → VerifyingKey
  vkAsBytes : VerifyingKey → Key32
  vkFromBytes : Key32 → Option VerifyingKey
  sign : SigningKey → Bytes → Signature
  verify : VerifyingKey → Bytes → Signature → Bool
  -- x25519_dalek
  DhSecret : Type
  dhPublic : DhSecret → Key32
  dhPrivateBytes : DhSecret → Key32
  -- snow, pattern Noise_XX_25519_ChaChaPoly_SHA256; failures carry the error text
  Entropy : Type
  HandshakeState : Type
  TransportState : Type
  buildInitiator : Key32 → Except String HandshakeState
  buildResponder : Key32 → Except String HandshakeState
  hsWriteMessage : HandshakeState → Entropy → Except String (HandshakeState × Bytes)
  hsReadMessage : HandshakeState → Bytes → Except String HandshakeState
  isHandshakeFinished : HandshakeState → Bool
  hsRemoteStatic : HandshakeState → Option Bytes
  intoTransportMode : HandshakeState → Except String TransportState
  tsRemoteStatic : TransportState → Option Bytes
  sendingNonce : TransportState → ℕ
  receivingNonce : TransportState → ℕ
  setReceivingNonce : TransportState → ℕ → TransportState
  tsWriteMessage : TransportState → Bytes → Except String (TransportState × Bytes)
  tsReadMessage : TransportState → Bytes → Except String (TransportState × Bytes)
  /-- The handshake messages a state has written or read so far, oldest first (an observer). -/
  hsTranscript : HandshakeState → List Bytes
  /-- The three handshake messages a transport state came out of (an observer). -/
  tsTranscript : TransportState → List Bytes
  -- lz4_flex
  lz4Compress : Bytes → Bytes
  lz4Decompress : Bytes → ℕ → Except String Bytes
  -- rand
  Rng : Type
  seedFromU64 : ℕ → Rng
  genF64 : Rng → ℚ × Rng
  genRange : Rng → ℕ → ℕ → ℕ × Rng
  /-- `str::to_lowercase`. -/
  toLowercase : String → String

/-- snow's bookkeeping of the XX pattern: whose turn it is, when the exchange is over, and that a
transport state keeps the handshake it came from and the peer key it learnt there. -/
structure SnowLaws (P : Prims) : Prop where
  initiator_starts : ∀ k, ∃ hs, P.buildInitiator k = .ok hs
  responder_starts : ∀ k, ∃ hs, P.buildResponder k = .ok hs
  initiator_empty : ∀ k hs, P.buildInitiator k = .ok hs → P.hsTranscript hs = []
  responder_empty : ∀ k hs, P.buildResponder k = .ok hs → P.hsTranscript hs = []
  first_write : ∀ k hs ent, P.buildInitiator k = .ok hs → ∃ r, P.hsWriteMessage hs ent = .ok r
  write_transcript : ∀ hs ent hs' m, P.hsWriteMessage hs ent = .ok (hs', m) →
    P.hsTranscript hs' = P.hsTranscript hs ++ [m]
  read_transcript : ∀ hs m hs', P.hsReadMessage hs m = .ok hs' →
    P.hsTranscript hs' = P.hsTranscript hs ++ [m]
  /-- A message can be written right after one was read, unless it was the last of the three. -/
  answer : ∀ hs m hs' ent, P.hsReadMessage hs m = .ok hs' → (P.hsTranscript hs').length < 3 →
    ∃ r, P.hsWriteMessage hs' ent = .ok r
  finished : ∀ hs, P.isHandshakeFinished hs = true ↔ (P.hsTranscript hs).length = 3
  transport : ∀ hs, P.isHandshakeFinished hs = true → ∃ ts, P.intoTransportMode hs = .ok ts
  transport_transcript : ∀ hs ts, P.intoTransportMode hs = .ok ts → P.tsTranscript ts = P.hsTranscript hs
  transport_receiving : ∀ hs ts, P.intoTransportMode hs = .ok ts → P.receivingNonce ts = 0
  set_transcript : ∀ ts n, P.tsTranscript (P.setReceivingNonce ts n) = P.tsTranscript ts
  set_remote : ∀ ts n, P.tsRemoteStatic (P.setReceivingNonce ts n) = P.tsRemoteStatic ts
  set_restore : ∀ ts n, P.setReceivingNonce (P.setReceivingNonce ts n) (P.receivingNonce ts) = ts
  encrypt_transcript : ∀ ts m ts' c, P.tsWriteMessage ts m = .ok (ts', c) → P.tsTranscript ts' = P.tsTranscript ts
  encrypt_remote : ∀ ts m ts' c, P.tsWriteMessage ts m = .ok (ts', c) → P.tsRemoteStatic ts' = P.tsRemoteStatic ts
  encrypt_receiving : ∀ ts m ts' c, P.tsWriteMessage ts m = .ok (ts', c) →
    P.receivingNonce ts' = P.receivingNonce ts
  decrypt_transcript : ∀ ts c ts' m, P.tsReadMessage ts c = .ok (ts', m) → P.tsTranscript ts' = P.tsTranscript ts
  decrypt_remote : ∀ ts c ts' m, P.tsReadMessage ts c = .ok (ts', m) → P.tsRemoteStatic ts' = P.tsRemoteStatic ts
  /-- A successful read at nonce `n` moves the counter to `n + 1`. -/
  decrypt_receiving : ∀ ts n c ts' m, P.tsReadMessage (P.setReceivingNonce ts n) c = .ok (ts', m) →
    P.receivingNonce ts' = n + 1

end CockroachChat
