import CockroachChat.Core.Prims

/-! # The packet format

`version(1) ‖ type(1) ‖ flags(1) ‖ TTL(1) ‖ timestamp_ms(8) ‖ sender(8) ‖ [recipient(8)] ‖
payload_len(2) ‖ payload ‖ signature(64)`, big-endian. The TTL byte is signed as zero. -/
namespace CockroachChat
set_option autoImplicit false

def protocolVersion : UInt8 := 1
def hasRecipientFlag : UInt8 := 0b00000001
def sigLen : ℕ := 64
/-- Through `payload_len`, no recipient. -/
def minHeader : ℕ := 1 + 1 + 1 + 1 + 8 + 8 + 2

inductive WireError where
  | short (need have_ : ℕ)
  | badVersion (v : UInt8)
  | badLength (declared remaining : ℕ)
  | trailing (extra : ℕ)
  | badSignature
  deriving DecidableEq, Repr

inductive MsgType where
  | announce | channelMessage | directMessage | noiseHandshake | receipt | syncRequest
  | syncResponse | mediaOffer | mediaFetchRequest | mediaChunk | mediaFetchAck
  | unknown (b : UInt8)
  deriving DecidableEq, Repr

def MsgType.fromU8 (b : UInt8) : MsgType :=
  if b = 0x01 then .announce else if b = 0x02 then .channelMessage
  else if b = 0x03 then .directMessage else if b = 0x04 then .noiseHandshake
  else if b = 0x05 then .receipt else if b = 0x06 then .syncRequest
  else if b = 0x07 then .syncResponse else if b = 0x10 then .mediaOffer
  else if b = 0x11 then .mediaFetchRequest else if b = 0x12 then .mediaChunk
  else if b = 0x13 then .mediaFetchAck else .unknown b

def MsgType.toU8 : MsgType → UInt8
  | .announce => 0x01 | .channelMessage => 0x02 | .directMessage => 0x03
  | .noiseHandshake => 0x04 | .receipt => 0x05 | .syncRequest => 0x06
  | .syncResponse => 0x07 | .mediaOffer => 0x10 | .mediaFetchRequest => 0x11
  | .mediaChunk => 0x12 | .mediaFetchAck => 0x13 | .unknown b => b

structure Packet where
  version : UInt8
  msgType : MsgType
  flags : UInt8
  ttl : UInt8
  timestampMs : UInt64
  sender : EphId
  recipient : Option EphId
  payload : Bytes
  /-- All-zero until `Packet.signWith` fills it. -/
  signature : Signature
  deriving DecidableEq

namespace Packet

/-- An unsigned packet; `flags` is derived from `recipient` at encode time. -/
def new (msgType : MsgType) (ttl : UInt8) (timestampMs : Millis) (sender : EphId)
    (recipient : Option EphId) (payload : Bytes) : Packet where
  version := protocolVersion
  msgType := msgType
  flags := 0
  ttl := ttl
  timestampMs := UInt64.ofNat timestampMs
  sender := sender
  recipient := recipient
  payload := payload
  signature := Vector.replicate 64 0

def effectiveFlags (p : Packet) : UInt8 :=
  let f := p.flags &&& ~~~hasRecipientFlag
  if p.recipient.isSome then f ||| hasRecipientFlag else f

/-- Header and payload; the TTL byte is `ttlOverride` when signing, the real one on the wire. -/
def writeBody (p : Packet) (ttlOverride : Option UInt8) : Bytes :=
  [p.version, p.msgType.toU8, p.effectiveFlags, ttlOverride.getD p.ttl]
    ++ beBytes 8 p.timestampMs.toNat
    ++ p.sender.toList
    ++ (match p.recipient with | some r => r.toList | none => [])
    ++ beBytes 2 p.payload.length
    ++ p.payload

def signedRegion (p : Packet) : Bytes := p.writeBody (some 0)

def encode (p : Packet) : Bytes := p.writeBody none ++ p.signature.toList

/-- `need(off, n, have)?` of the decoder. -/
def need (off n have_ : ℕ) : Except WireError Unit :=
  if off + n > have_ then .error (.short (off + n) have_) else .ok ()

/-- `bytes[off]`; the decoder only indexes below a length it has checked. -/
def byteAt (bytes : Bytes) (off : ℕ) : UInt8 := bytes.getD off 0

def decode (bytes : Bytes) : Except WireError Packet := do
  let have_ := bytes.length
  need 0 minHeader have_
  let version := byteAt bytes 0
  if version ≠ protocolVersion then throw (.badVersion version)
  let msgType := MsgType.fromU8 (byteAt bytes 1)
  let flags := byteAt bytes 2
  let ttl := byteAt bytes 3
  let timestampMs := UInt64.ofNat (ofBe ((bytes.drop 4).take 8))
  let sender := arrayOf 8 (bytes.drop 12)
  let hasRecipient := flags &&& hasRecipientFlag ≠ 0
  if hasRecipient then need 20 8 have_
  let recipient := if hasRecipient then some (arrayOf 8 (bytes.drop 20)) else none
  let off := if hasRecipient then 28 else 20
  need off 2 have_
  let payloadLen := ofBe ((bytes.drop off).take 2)
  let off := off + 2
  let remaining := have_ - off
  if payloadLen + sigLen > remaining then throw (.badLength payloadLen remaining)
  let payload := (bytes.drop off).take payloadLen
  let off := off + payloadLen
  let signature := arrayOf 64 (bytes.drop off)
  let off := off + sigLen
  if off ≠ have_ then throw (.trailing (have_ - off))
  return { version, msgType, flags := flags &&& ~~~hasRecipientFlag, ttl, timestampMs, sender,
           recipient, payload, signature }

section Crypto
variable [P : Prims]

/-- `Packet::sign`. -/
def signWith (p : Packet) (key : P.SigningKey) : Packet :=
  { p with signature := P.sign key p.signedRegion }

/-- `Packet::verify`. -/
def verifyWith (p : Packet) (key : P.VerifyingKey) : Except WireError Unit :=
  if P.verify key p.signedRegion p.signature then .ok () else .error .badSignature

/-- The dedup digest: first 8 bytes of SHA-256 over the signature. -/
def digest (p : Packet) : Digest := arrayOf 8 (P.sha256 p.signature.toList).toList

end Crypto

end Packet
end CockroachChat
