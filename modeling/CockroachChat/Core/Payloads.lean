import CockroachChat.Core.Noise

/-! # Channel names, sync filters, compression and payload formats -/
namespace CockroachChat
set_option autoImplicit false

variable [P : Prims]

/-! ## Channels -/

/-- The `White_Space` property, as `str::trim` uses it. -/
def isWhitespace (c : Char) : Bool :=
  let n := c.toNat
  (0x09 ≤ n && n ≤ 0x0D) || n == 0x20 || n == 0x85 || n == 0xA0 || n == 0x1680 ||
  (0x2000 ≤ n && n ≤ 0x200A) || n == 0x2028 || n == 0x2029 || n == 0x202F || n == 0x205F || n == 0x3000

def trim (s : List Char) : List Char :=
  ((s.dropWhile isWhitespace).reverse.dropWhile isWhitespace).reverse

/-- Lower-cased, leading `#` implied. -/
def normalize (name : String) : String :=
  let trimmed := (trim name.toList).dropWhile (· == '#')
  "#" ++ P.toLowercase (String.ofList trimmed)

omit P in
/-- The default channel every node joins on first run. -/
def defaultChannel : String := "#general"

structure SyncFilter where
  channel : String
  /-- Sorted and without repetitions. -/
  digests : List Digest
  deriving DecidableEq

omit P in
def SyncFilter.new (channel : String) (digests : List Digest) : SyncFilter where
  channel := channel
  digests := (Std.ExtTreeSet.ofList digests compare).toList

omit P in
/-- Digests held locally that the remote filter is missing. -/
def SyncFilter.missingFrom (self remote : SyncFilter) : List Digest :=
  self.digests.filter fun d => !remote.digests.contains d

/-! ## Compression -/

def maybeCompress (input : Bytes) (cfg : Tunables) : Option Bytes :=
  if input.length < cfg.compressMinBytes then none else
  let body := P.lz4Compress input
  let out := beBytes 4 input.length ++ body
  if out.length < input.length then some out else none

def decompress (input : Bytes) (cfg : Tunables) : Except Error Bytes :=
  if input.length < 4 then .error (.compress "truncated length prefix") else
  let declared := ofBe (input.take 4)
  let cap := cfg.decompressMaxBytes
  if declared > cap then .error (.compress s!"declared size {declared} exceeds cap {cap}") else
  match P.lz4Decompress (input.drop 4) declared with
  | .error e => .error (.compress s!"lz4: {e}")
  | .ok out =>
      if out.length ≠ declared then .error (.compress "length mismatch after decompress") else .ok out

/-! ## Payloads -/

omit P in
/-- `ed25519_pub(32) ‖ x25519_pub(32) ‖ nick_len(1) ‖ nick`. -/
def encodeAnnounce (edPub dhPub : Key32) (nick : String) : Bytes :=
  let nickBytes := asBytes nick
  let n := min nickBytes.length 24
  edPub.toList ++ dhPub.toList ++ [UInt8.ofNat n] ++ nickBytes.take n

omit P in
def decodeAnnounce (payload : Bytes) : Option (Key32 × Key32 × String) :=
  if payload.length < 65 then none else
  let ed : Key32 := arrayOf 32 payload
  let dh : Key32 := arrayOf 32 (payload.drop 32)
  let n := (payload.getD 64 0).toNat
  if 65 + n > payload.length then none else
  some (ed, dh, fromUtf8Lossy ((payload.drop 65).take n))

/-- `flag_compressed(1) ‖ chan_len(1) ‖ chan ‖ text`, text optionally LZ4'd. -/
def encodeChannel (channel text : String) (cfg : Tunables) : Bytes :=
  let chan := asBytes channel
  let clen := min chan.length 255
  let textBytes := asBytes text
  let (compressed, body) : UInt8 × Bytes := match maybeCompress textBytes cfg with
    | some c => (1, c)
    | none => (0, textBytes)
  [compressed, UInt8.ofNat clen] ++ chan.take clen ++ body

def decodeChannel (payload : Bytes) (cfg : Tunables) : Option (String × String) :=
  if payload.length < 2 then none else
  let compressed := payload.getD 0 0
  let clen := (payload.getD 1 0).toNat
  if 2 + clen > payload.length then none else
  let channel := fromUtf8Lossy ((payload.drop 2).take clen)
  let body := payload.drop (2 + clen)
  let textBytes := if compressed = 1 then (decompress body cfg).toOption else some body
  textBytes.map fun textBytes => (channel, fromUtf8Lossy textBytes)

omit P in
/-- `chan_len(1) ‖ chan ‖ digest*8...`. -/
def encodeSync (filter : SyncFilter) : Bytes :=
  let chan := asBytes filter.channel
  let clen := min chan.length 255
  [UInt8.ofNat clen] ++ chan.take clen ++ filter.digests.flatMap Vector.toList

omit P in
/-- `chunks_exact(8)` into arrays; a short tail is dropped. -/
def digestChunks : ℕ → Bytes → List Digest
  | 0, _ => []
  | fuel + 1, b => if b.length < 8 then [] else arrayOf 8 b :: digestChunks fuel (b.drop 8)

omit P in
def decodeSync (payload : Bytes) : Option SyncFilter :=
  match payload with
  | [] => none
  | len :: rest =>
      let clen := len.toNat
      if 1 + clen > payload.length then none else
      let channel := fromUtf8Lossy (rest.take clen)
      let rest := rest.drop clen
      some (SyncFilter.new channel (digestChunks rest.length rest))

end CockroachChat
