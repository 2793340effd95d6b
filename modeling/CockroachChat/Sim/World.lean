import CockroachChat.Flood.Network
import CockroachChat.Node.ReferenceNodes
import CockroachChat.Peers.OnAir

/-! # The simulator

A world of real nodes on one virtual clock. Each edge is an undirected radio link; its index is the link
id on both ends. What a node sends waits in its outbox until the world routes it, and is then in the air
for the latency of the edge. -/
namespace CockroachChat
set_option autoImplicit false

/-- Keys made from bytes. -/
class KeySeeds [P : Prims] where
  signingKeyFromBytes : Key32 → P.SigningKey
  staticSecretFrom : Key32 → P.DhSecret

section Identity
variable [P : Prims]

def derive (seed : Key32) (label : String) : Key32 := P.sha256 (seed.toList ++ asBytes label)

def LocalIdentity.fromSeed [K : KeySeeds] (seed : Key32) : LocalIdentity where
  signing := K.signingKeyFromBytes seed
  dhSecret := K.staticSecretFrom (derive seed "cockroach/dh/v1")
  ephId := Vector.ofFn fun i : Fin 8 => (derive seed "cockroach/eph/v1").get ⟨i, by omega⟩

end Identity

/-- One undirected radio link. -/
structure Edge (n : ℕ) where
  a : Fin n
  b : Fin n
  latencyMs : Millis
  loss : ℚ
  mtu : ℕ
  up : Bool

structure InFlight (n : ℕ) where
  deliverAt : Millis
  dest : Fin n
  link : LinkId
  frame : Bytes
  deriving DecidableEq

variable [P : Prims]

structure SimNode where
  node : MeshNode MemoryStore
  outbox : List (LinkId × Bytes) := []
  closed : List LinkId := []
  events : List MeshEvent := []

/-- The clock that the nodes share reads `now`. -/
structure World (n : ℕ) where
  nodes : Fin n → SimNode
  edges : List (Edge n) := []
  inflight : List (InFlight n) := []
  rng : P.Rng
  stepMs : Millis
  now : Millis
  txFrames : ℕ := 0
  stepping : 0 < stepMs

namespace World
variable {n : ℕ}

/-- The seed of node `i`: its index, least byte first, and a mark behind it. -/
def idSeed (i : ℕ) : Key32 :=
  Vector.ofFn fun k : Fin 32 =>
    if k.1 < 8 then UInt8.ofNat (i / 256 ^ k.1) else if k.1 = 8 then 0xC0 else 0

def new [KeySeeds] (n : ℕ) (cfg : Tunables) (seed : ℕ) (entropy : Fin n → ℕ → P.Entropy) : World n where
  nodes i := {
    node := MeshNode.new (LocalIdentity.fromSeed (idSeed i)) cfg 0
      (MemoryStore.new cfg.channelHistoryMaxMsgs cfg.channelHistoryMs cfg.envelopeTtlMs cfg.envelopeMaxPerPeer)
      ("node" ++ toString i.1) (seed ^^^ (i.1 * 0x9E3779B97F4A7C15 % 2 ^ 64)) (entropy i) }
  rng := P.seedFromU64 (seed ^^^ 0xA5A5)
  stepMs := 10
  now := 0
  stepping := by decide

def setStepMs (w : World n) (step : Millis) : World n :=
  { w with stepMs := max step 1, stepping := Nat.lt_of_lt_of_le Nat.one_pos (Nat.le_max_right step 1) }

/-- Add a bidirectional link. -/
def link (w : World n) (a b : Fin n) (latencyMs : Millis) (loss : ℚ) (mtu : ℕ) : World n × LinkId :=
  ({ w with edges := w.edges ++ [{ a, b, latencyMs, loss, mtu, up := true }] }, w.edges.length)

/-- A call of node `i`; its transport keeps what it sends and closes. -/
def call (w : World n) (i : Fin n) (a : Action) : World n :=
  let s := w.nodes i
  let node := MeshNode.exec s.node ⟨w.now, a⟩
  let did := node.trace.drop s.node.trace.length
  { w with nodes := Function.update w.nodes i { s with
      node, outbox := s.outbox ++ did.filterMap Obs.outgoing, closed := s.closed ++ did.filterMap Obs.closing } }

/-- The same event of the platform at both ends of an edge. -/
def both (w : World n) (e : Edge n) (ev : MeshNode.TransportEvent) : World n :=
  (w.call e.a (.transport ev)).call e.b (.transport ev)

/-! ## Routing -/

/-- The coin is tossed on lossy edges only. -/
def lost (w : World n) (edge : Edge n) : Bool × P.Rng :=
  if edge.loss > 0 then
    let (x, rng) := P.genF64 w.rng
    (decide (x < edge.loss), rng)
  else (false, w.rng)

def route (i : Fin n) (w : World n) (out : LinkId × Bytes) : World n :=
  match w.edges[out.1]? with
  | none => w -- the source indexes the edges: a node sends on its own edges only
  | some edge =>
      if !edge.up then w
      else
        let w := { w with txFrames := w.txFrames + 1 }
        let (lost, rng) := w.lost edge
        let w := { w with rng := rng }
        if lost then w -- dropped on the air
        else
          let dest := if edge.a = i then edge.b else edge.a
          { w with inflight := w.inflight ++
              [{ deliverAt := w.now + edge.latencyMs, dest, link := out.1, frame := out.2 }] }

def collect (w : World n) (i : Fin n) : World n :=
  let evs := (w.nodes i).node.events
  let w := w.call i .takeEvents
  let s := w.nodes i
  s.outbox.foldl (route i) { w with nodes := Function.update w.nodes i { s with
    events := s.events ++ evs, outbox := [] } }

def collectAndRoute (w : World n) : World n := (List.finRange n).foldl collect w

/-! ## Edges up and down -/

def connect (w : World n) (a b : Fin n) (latencyMs : Millis) (loss : ℚ) (mtu : ℕ) : World n :=
  let (w, id) := w.link a b latencyMs loss mtu
  (w.both { a, b, latencyMs, loss, mtu, up := true } (.linkUp id mtu)).collectAndRoute

/-- Bring every current edge up at both endpoints. -/
def bootstrap (w : World n) : World n :=
  (w.edges.zipIdx.foldl (fun w e => w.both e.1 (.linkUp e.2 e.1.mtu)) w).collectAndRoute

def setEdgeUp (w : World n) (edge : LinkId) (up : Bool) : World n :=
  match w.edges[edge]? with
  | none => w
  | some e =>
      if e.up ≠ up then
        let w := { w with edges := w.edges.set edge { e with up := up } }
        w.both e (if up then .linkUp edge e.mtu else .linkDown edge)
      else w

/-! ## Time -/

def isUp (w : World n) (link : LinkId) : Bool := (w.edges[link]?.map (·.up)).getD false

/-- A frame whose latency has elapsed is handed over, if its edge is still up. -/
def deliver (w : World n) (f : InFlight n) : World n :=
  if w.isUp f.link then w.call f.dest (.transport (.frameReceived f.link f.frame)) else w

/-- Honor the link closes a node asked for: tear the edge down on both ends. -/
def honorCloses (w : World n) (i : Fin n) : World n :=
  let s := w.nodes i
  s.closed.foldl (fun w link => w.setEdgeUp link false)
    { w with nodes := Function.update w.nodes i { s with closed := [] } }

def step (w : World n) : World n :=
  let w := { w with now := w.now + w.stepMs }
  -- deliver
  let ready := w.inflight.filter fun f => f.deliverAt ≤ w.now
  let w := { w with inflight := w.inflight.filter fun f => ¬ f.deliverAt ≤ w.now }
  let w := ready.foldl deliver w
  -- tick all nodes
  let w := (List.finRange n).foldl (fun w i => w.call i .tick) w
  let w := w.collectAndRoute
  (List.finRange n).foldl honorCloses w

/-- The loop of `run_for`, with as many turns as it can take. -/
def runUntil (target : Millis) : ℕ → World n → World n
  | 0, w => w
  | turns + 1, w => if w.now < target then runUntil target turns w.step else w

def runFor (w : World n) (durationMs : Millis) : World n := runUntil (w.now + durationMs) durationMs w

/-! ## Scenarios -/

/-- What a scenario does with its world. -/
inductive Op (n : ℕ) where
  | setStepMs (step : Millis)
  | link (a b : Fin n) (latencyMs : Millis) (loss : ℚ) (mtu : ℕ)
  | connect (a b : Fin n) (latencyMs : Millis) (loss : ℚ) (mtu : ℕ)
  | bootstrap
  | setEdgeUp (edge : LinkId) (up : Bool)
  /-- A command of a node's user: `node_mut(i)`. -/
  | command (i : Fin n) (a : Action)
  | step

def perform (w : World n) : Op n → World n
  | .setStepMs step => w.setStepMs step
  | .link a b latencyMs loss mtu => (w.link a b latencyMs loss mtu).1
  | .connect a b latencyMs loss mtu => w.connect a b latencyMs loss mtu
  | .bootstrap => w.bootstrap
  | .setEdgeUp edge up => w.setEdgeUp edge up
  | .command _ (.transport _) => w -- links and frames are the world's
  | .command i a => w.call i a
  | .step => w.step

end World
end CockroachChat

namespace CockroachChat.Reference

attribute [local instance] prims

/-- Keys of the reference primitives are one byte. -/
@[reducible] def seeds : KeySeeds where
  signingKeyFromBytes bytes := bytes.get 0
  staticSecretFrom bytes := bytes.get 0

end CockroachChat.Reference
