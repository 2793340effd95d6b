import CockroachChat.Core.Wire

/-! # Tunables

Every protocol constant, with the defaults of the reference implementation. Probabilities are
`f64` literals in the source and exact rationals here. -/
namespace CockroachChat
set_option autoImplicit false

structure Tunables where
  -- link framing
  defaultMtu : ℕ := 182
  reassemblySlots : ℕ := 128
  reassemblyTimeoutMs : Millis := 30000
  reassemblyMaxBytes : ℕ := 2 ^ 20
  -- relay / flood control
  ttlAnnounce : UInt8 := 15
  ttlAnnounceDense : UInt8 := 12
  ttlChannel : UInt8 := 10
  ttlChannelDense : UInt8 := 7
  ttlDm : UInt8 := 10
  ttlDmDense : UInt8 := 7
  denseDegree : ℕ := 6
  jitterMinMs : Millis := 10
  jitterMaxMs : Millis := 220
  suppressionThreshold : ℕ := 3
  relayProbSparse : ℚ := 1
  relayProbMid : ℚ := 7 / 10
  relayProbDense : ℚ := 45 / 100
  relaySparseMax : ℕ := 3
  relayMidMax : ℕ := 6
  seenCacheCapacity : ℕ := 1000
  seenCacheTtlMs : Millis := 5 * 60000
  -- rate limiting
  rateBurst : ℕ := 10
  rateSustainedPerMin : ℕ := 30
  greylistMs : Millis := 60000
  -- compression
  compressMinBytes : ℕ := 128
  decompressMaxBytes : ℕ := 4096
  -- retention
  channelHistoryMs : Millis := 6 * 3600000
  channelHistoryMaxMsgs : ℕ := 1000
  envelopeTtlMs : Millis := 24 * 3600000
  envelopeMaxPerPeer : ℕ := 100

/-- The TTL to originate a packet of `msgType` with. Types not listed are link-local. -/
def Tunables.originTtl (cfg : Tunables) (msgType : MsgType) (degree : ℕ) : UInt8 :=
  let dense := decide (degree ≥ cfg.denseDegree)
  match msgType with
  | .announce => if dense then cfg.ttlAnnounceDense else cfg.ttlAnnounce
  | .channelMessage => if dense then cfg.ttlChannelDense else cfg.ttlChannel
  | .directMessage | .noiseHandshake => if dense then cfg.ttlDmDense else cfg.ttlDm
  | _ => 1

end CockroachChat
