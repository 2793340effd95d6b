import CockroachChat.Core.Reference
import CockroachChat.Node.Steps

/-! # Nodes over the reference primitives

Small nodes that can be run: node `k` signs with key `k`, keeps its X25519 key under the same
number, and calls itself by it. What one node put on a link can be fed to another. -/
namespace CockroachChat.Reference
set_option autoImplicit false

attribute [local instance] prims

abbrev Node := MeshNode MemoryStore

def identity (k : UInt8) : LocalIdentity := { signing := k, dhSecret := k, ephId := Vector.replicate 8 k }

/-- The stable identity of node `k`. -/
def fpOf (k : UInt8) : Fingerprint := Vector.replicate 32 k

def store : MemoryStore := MemoryStore.new 1000 21600000 86400000 100

def node (k : UInt8) (cfg : Tunables) : Node :=
  MeshNode.new (identity k) cfg 0 store "" 0 fun n => n + 1000 * k.toNat

theorem node_initial (k : UInt8) (cfg : Tunables) : (node k cfg).Initial := ⟨_, _, _, _, _, _, _, rfl⟩

/-- The frames a node has put on its links, from some point of its trace on. -/
def framesFrom (start : ℕ) (s : Node) : List Bytes :=
  (s.trace.drop start).filterMap fun o => match o with
    | .send _ frame => some frame
    | _ => none

/-- The single frame of a packet that fits in one. -/
def frameOf (pkt : Packet) : Bytes := kindComplete :: pkt.encode

/-- Frames arriving on a link at a time. -/
def arriving (now : Millis) (link : LinkId) (frames : List Bytes) : List Call :=
  frames.map fun frame => ⟨now, .transport (.frameReceived link frame)⟩

def run (s : Node) (calls : List Call) : Node := Runs.run MeshNode.exec s calls

theorem run_reachable {s : Node} (h : s.Reachable) (calls : List Call) : (run s calls).Reachable := h.run calls

/-- A link comes up at a node, which announces itself on it. -/
def up (now : Millis) (link : LinkId) : Call := ⟨now, .transport (.linkUp link 1000)⟩

/-- Node `k` with its link up. -/
def linked (k : UInt8) : Node := run (node k {}) [up 0 0]

/-- Node `k` once it has heard the announce of node `j`. -/
def met (k j : UInt8) : Node := run (linked k) (arriving 0 0 (framesFrom 0 (linked j)))

theorem met_reachable (k j : UInt8) : (met k j).Reachable :=
  run_reachable (run_reachable (node_initial k {}).reachable _) _

/-- Node `k` sends `text` to node `j`, which it has met. -/
def calling (k j : UInt8) (text : String) : Node := run (met k j) [⟨1, .sendDm (fpOf j) text⟩]

/-- Node `j` has answered the first handshake message. -/
def answering (k j : UInt8) (text : String) : Node :=
  run (met j k) (arriving 1 0 (framesFrom (met k j).trace.length (calling k j text)))

/-- Node `k` has the answer: the handshake is over and the text is out. -/
def connected (k j : UInt8) (text : String) : Node :=
  run (calling k j text) (arriving 1 0 (framesFrom (met j k).trace.length (answering k j text)))

/-- Node `j` has the last handshake message and the text. -/
def called (k j : UInt8) (text : String) : Node :=
  run (answering k j text) (arriving 1 0 (framesFrom (calling k j text).trace.length (connected k j text)))

theorem called_reachable (k j : UInt8) (text : String) : (called k j text).Reachable :=
  run_reachable (run_reachable (met_reachable j k) _) _

/-- The last packet a node built. -/
def lastBuilt (s : Node) : Packet :=
  (s.trace.filterMap fun o => match o with
    | .originate pkt => some pkt
    | _ => none).getLastD (Packet.new .announce 0 0 (Vector.replicate 8 0) none [])

end CockroachChat.Reference
