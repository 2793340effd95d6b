import CockroachChat.Core.Frag

/-! # Flood control: dedup, rate limiting, jittered rebroadcast -/
namespace CockroachChat
set_option autoImplicit false

structure Observation where
  isNew : Bool
  hearCount : ℕ
  deriving DecidableEq

structure SeenEntry where
  firstSeenMs : Millis
  hearCount : ℕ
  deriving DecidableEq

structure SeenCache where
  map : Std.ExtTreeMap Digest SeenEntry := ∅

namespace SeenCache

def evictOldest (c : SeenCache) : SeenCache :=
  match c.map.toList.argmin (fun e => e.2.firstSeenMs) with
  | some e => { c with map := c.map.erase e.1 }
  | none => c

def observe (cfg : Tunables) (c : SeenCache) (digest : Digest) (nowMs : Millis) : SeenCache × Observation :=
  match c.map[digest]? with
  | some e =>
      -- `saturating_add` on the u32 counter
      let e := { e with hearCount := min (e.hearCount + 1) (2 ^ 32 - 1) }
      ({ c with map := c.map.insert digest e }, { isNew := false, hearCount := e.hearCount })
  | none =>
      let c := if c.map.size ≥ cfg.seenCacheCapacity then c.evictOldest else c
      ({ c with map := c.map.insert digest { firstSeenMs := nowMs, hearCount := 1 } },
       { isNew := true, hearCount := 1 })

def hearCount (c : SeenCache) (digest : Digest) : ℕ := (c.map[digest]?.map (·.hearCount)).getD 0

def evictExpired (cfg : Tunables) (c : SeenCache) (nowMs : Millis) : SeenCache :=
  { c with map := c.map.filter fun _ e => nowMs - e.firstSeenMs < cfg.seenCacheTtlMs }

end SeenCache

/-- Tokens are `f64` in the source and exact rationals here. -/
structure Bucket where
  tokens : ℚ
  lastMs : Millis
  greylistUntil : Millis
  deriving DecidableEq

structure RateLimiter where
  buckets : Std.ExtTreeMap EphId Bucket := ∅

namespace RateLimiter

def refillRatePerMs (cfg : Tunables) : ℚ := cfg.rateSustainedPerMin / 60000

/-- Whether a packet from `sender` is admitted now. -/
def allow (cfg : Tunables) (r : RateLimiter) (sender : EphId) (nowMs : Millis) : RateLimiter × Bool :=
  let burst : ℚ := cfg.rateBurst
  let bucket := r.buckets[sender]?.getD { tokens := burst, lastMs := nowMs, greylistUntil := 0 }
  if nowMs < bucket.greylistUntil then ({ r with buckets := r.buckets.insert sender bucket }, false)
  else
    let elapsed : ℚ := ((nowMs - bucket.lastMs : ℕ) : ℚ)
    let tokens := min (bucket.tokens + elapsed * refillRatePerMs cfg) burst
    if tokens ≥ 1 then
      let bucket := { bucket with tokens := tokens - 1, lastMs := nowMs }
      ({ r with buckets := r.buckets.insert sender bucket }, true)
    else
      let bucket := { tokens := tokens, lastMs := nowMs, greylistUntil := nowMs + cfg.greylistMs }
      ({ r with buckets := r.buckets.insert sender bucket }, false)

def isGreylisted (r : RateLimiter) (sender : EphId) (nowMs : Millis) : Bool :=
  (r.buckets[sender]?.map fun b => decide (nowMs < b.greylistUntil)).getD false

end RateLimiter

structure Pending where
  packet : Packet
  sendAtMs : Millis
  excludeLink : LinkId
  deriving DecidableEq

structure DueRelay where
  packet : Packet
  excludeLink : LinkId
  deriving DecidableEq

structure RelayScheduler where
  pending : Std.ExtTreeMap Digest Pending := ∅

namespace RelayScheduler

/-- Only the first copy of a digest is scheduled. -/
def schedule (r : RelayScheduler) (digest : Digest) (packet : Packet) (excludeLink : LinkId)
    (delayMs nowMs : Millis) : RelayScheduler :=
  { r with pending := r.pending.insertIfNew digest { packet, sendAtMs := nowMs + delayMs, excludeLink } }

/-- Release what has waited out its jitter, dropping what was overheard often enough. -/
def due (cfg : Tunables) (r : RelayScheduler) (nowMs : Millis) (seen : SeenCache) :
    RelayScheduler × List DueRelay :=
  let ready := r.pending.toList.filter fun e => e.2.sendAtMs ≤ nowMs
  let out := ready.filter fun e => seen.hearCount e.1 < cfg.suppressionThreshold
  ({ r with pending := ready.foldl (fun m e => m.erase e.1) r.pending },
   out.map fun e => { packet := e.2.packet, excludeLink := e.2.excludeLink })

end RelayScheduler

def rebroadcastProbability (degree : ℕ) (cfg : Tunables) : ℚ :=
  if degree ≤ cfg.relaySparseMax then cfg.relayProbSparse
  else if degree ≤ cfg.relayMidMax then cfg.relayProbMid
  else cfg.relayProbDense

section Coin
variable [P : Prims]

def shouldRelay (degree : ℕ) (cfg : Tunables) (rng : P.Rng) : P.Rng × Bool :=
  let (x, rng) := P.genF64 rng
  (rng, decide (x < rebroadcastProbability degree cfg))

def relayDelay (cfg : Tunables) (rng : P.Rng) : P.Rng × Millis :=
  if cfg.jitterMaxMs ≤ cfg.jitterMinMs then (rng, cfg.jitterMinMs)
  else
    let (d, rng) := P.genRange rng cfg.jitterMinMs cfg.jitterMaxMs
    (rng, d)

end Coin
end CockroachChat
