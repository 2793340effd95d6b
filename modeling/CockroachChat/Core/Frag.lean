import CockroachChat.Core.Config

/-! # Link framing

`Complete (0x01): kind ‖ packet` and `Fragment (0x02): kind ‖ digest(8) ‖ index(2) ‖ total(2) ‖
chunk`. Each component of the source keeps its own clone of the node's tunables; here they are
passed in. -/
namespace CockroachChat
set_option autoImplicit false

def kindComplete : UInt8 := 0x01
def kindFragment : UInt8 := 0x02
def fragHeader : ℕ := 1 + 8 + 2 + 2

inductive FragError where
  | mtuTooSmall (mtu : ℕ)
  | badIndex (index total : ℕ)
  | tooLarge (cap : ℕ)
  deriving DecidableEq, Repr

/-- `slice::chunks`, with the fuel of a list that has at most that many chunks. -/
def chunksAux (size : ℕ) : ℕ → Bytes → List Bytes
  | 0, _ => []
  | _, [] => []
  | fuel + 1, b@(_ :: _) => b.take size :: chunksAux size fuel (b.drop size)

def chunks (size : ℕ) (b : Bytes) : List Bytes := chunksAux size b.length b

def fragmentFrame (digest : Digest) (total i : ℕ) (chunk : Bytes) : Bytes :=
  kindFragment :: (digest.toList ++ beBytes 2 i ++ beBytes 2 total ++ chunk)

/-- Frames for `mtu`: one Complete frame when the packet fits, else fragments sharing `digest`. -/
def split (packetBytes : Bytes) (digest : Digest) (mtu : ℕ) : Except FragError (List Bytes) :=
  if mtu ≤ fragHeader then .error (.mtuTooSmall mtu)
  else if packetBytes.length < mtu then .ok [kindComplete :: packetBytes]
  else
    let chunkSize := mtu - fragHeader
    let total := (packetBytes.length + chunkSize - 1) / chunkSize
    if total > 65535 then .error (.tooLarge (chunkSize * 65535))
    else .ok ((chunks chunkSize packetBytes).mapIdx fun i chunk => fragmentFrame digest total i chunk)

structure Partial where
  total : ℕ
  received : ℕ
  chunks : List (Option Bytes)
  bytes : ℕ
  firstSeenMs : Millis
  deriving DecidableEq

structure Reassembler where
  slots : Std.ExtTreeMap Digest Partial := ∅

namespace Reassembler

def inFlight (r : Reassembler) : ℕ := r.slots.size

/-- The first slot in key order among those seen first. -/
def evictOldest (r : Reassembler) : Reassembler :=
  match r.slots.toList.argmin (fun e => e.2.firstSeenMs) with
  | some e => { r with slots := r.slots.erase e.1 }
  | none => r

def evictExpired (cfg : Tunables) (r : Reassembler) (nowMs : Millis) : Reassembler :=
  { r with slots := r.slots.filter fun _ p => nowMs - p.firstSeenMs < cfg.reassemblyTimeoutMs }

def freshPartial (total : ℕ) (nowMs : Millis) : Partial where
  total := total
  received := 0
  chunks := List.replicate total none
  bytes := 0
  firstSeenMs := nowMs

def ingestFragment (cfg : Tunables) (r : Reassembler) (frame : Bytes) (nowMs : Millis) :
    Reassembler × Except FragError (Option Bytes) :=
  if frame.length < fragHeader then (r, .ok none) else
  let digest : Digest := arrayOf 8 (frame.drop 1)
  let index := ofBe ((frame.drop 9).take 2)
  let total := ofBe ((frame.drop 11).take 2)
  let chunk := frame.drop fragHeader
  if total = 0 ∨ index ≥ total then (r, .error (.badIndex index total)) else
  -- evict the oldest slot if at capacity and this is a new message
  let r := if r.slots[digest]? = none ∧ r.slots.size ≥ cfg.reassemblySlots then r.evictOldest else r
  let cap := cfg.reassemblyMaxBytes
  let entry := r.slots[digest]?.getD (freshPartial total nowMs)
  -- a peer changing `total` mid-message is malformed: drop the slot
  if entry.total ≠ total then
    ({ r with slots := r.slots.erase digest }, .error (.badIndex index total)) else
  let free := (entry.chunks.getD index none).isNone
  if free ∧ entry.bytes + chunk.length > cap then
    ({ r with slots := r.slots.erase digest }, .error (.tooLarge cap)) else
  let entry := if free then
      { entry with
        chunks := entry.chunks.set index (some chunk)
        received := entry.received + 1
        bytes := entry.bytes + chunk.length }
    else entry
  if entry.received = entry.total then
    -- every chunk is filled here, so the source's `unwrap` has a value
    ({ r with slots := r.slots.erase digest }, .ok (some (entry.chunks.flatMap (·.getD []))))
  else ({ r with slots := r.slots.insert digest entry }, .ok none)

/-- Feed one frame; `some bytes` when a message completes. -/
def ingest (cfg : Tunables) (r : Reassembler) (frame : Bytes) (nowMs : Millis) :
    Reassembler × Except FragError (Option Bytes) :=
  match frame with
  | [] => (r, .ok none)
  | kind :: rest =>
      if kind = kindComplete then (r, .ok (some rest))
      else if kind = kindFragment then r.ingestFragment cfg frame nowMs
      else (r, .ok none)

end Reassembler
end CockroachChat
