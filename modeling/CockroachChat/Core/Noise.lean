import CockroachChat.Core.Store

/-! # Noise sessions

`NoiseSession` wraps the engine's handshake and transport states. A transport message is
`nonce(8, BE) ‖ ciphertext`; the receiver accepts only nonces at or past the next expected one. -/
namespace CockroachChat
set_option autoImplicit false

inductive Error where
  | noise (text : String)
  | compress (text : String)
  deriving DecidableEq, Repr

variable [P : Prims]

inductive Inner where
  | handshake (hs : P.HandshakeState)
  | transport (ts : P.TransportState)
  /-- Only observed mid-transition; any operation on it errors. -/
  | poisoned

structure NoiseSession where
  inner : Inner
  initiator : Bool

namespace NoiseSession

def mapErr {α : Type} (r : Except String α) : Except Error α := r.mapError .noise

def newInitiator (localPrivate : Key32) : Except Error NoiseSession := do
  let hs ← mapErr (P.buildInitiator localPrivate)
  return { inner := .handshake hs, initiator := true }

def newResponder (localPrivate : Key32) : Except Error NoiseSession := do
  let hs ← mapErr (P.buildResponder localPrivate)
  return { inner := .handshake hs, initiator := false }

def isReady (s : NoiseSession) : Bool :=
  match s.inner with
  | .transport _ => true
  | _ => false

def isHandshaking (s : NoiseSession) : Bool :=
  match s.inner with
  | .handshake _ => true
  | _ => false

def remoteStatic (s : NoiseSession) : Option Key32 :=
  let rs := match s.inner with
    | .handshake hs => P.hsRemoteStatic hs
    | .transport ts => P.tsRemoteStatic ts
    | .poisoned => none
  rs.bind fun rs => if rs.length = 32 then some (arrayOf 32 rs) else none

/-- A finished handshake turns into a transport state; a failure leaves the session poisoned, and
the caller drops it. -/
def maybeTransition (s : NoiseSession) : Except Error NoiseSession :=
  match s.inner with
  | .handshake hs =>
      if P.isHandshakeFinished hs then do
        let ts ← mapErr (P.intoTransportMode hs)
        return { s with inner := .transport ts }
      else .ok s
  | _ => .ok s

def writeHandshake (s : NoiseSession) (ent : P.Entropy) : Except Error (NoiseSession × Bytes) :=
  match s.inner with
  | .handshake hs => do
      let (hs, buf) ← mapErr (P.hsWriteMessage hs ent)
      let s ← maybeTransition { s with inner := .handshake hs }
      return (s, buf)
  | _ => .error (.noise "write_handshake after handshake")

def readHandshake (s : NoiseSession) (msg : Bytes) : Except Error NoiseSession :=
  match s.inner with
  | .handshake hs => do
      let hs ← mapErr (P.hsReadMessage hs msg)
      maybeTransition { s with inner := .handshake hs }
  | _ => .error (.noise "read_handshake after handshake")

def encrypt (s : NoiseSession) (plaintext : Bytes) : Except Error (NoiseSession × Bytes) :=
  match s.inner with
  | .transport ts => do
      let nonce := P.sendingNonce ts
      let (ts, buf) ← mapErr (P.tsWriteMessage ts plaintext)
      return ({ s with inner := .transport ts }, beBytes 8 nonce ++ buf)
  | _ => .error (.noise "encrypt before handshake complete")

/-- The session after the call and its result; an unauthenticated nonce does not move the window. -/
def decrypt (s : NoiseSession) (payload : Bytes) : NoiseSession × Except Error Bytes :=
  match s.inner with
  | .transport ts =>
      if payload.length < 8 then (s, .error (.noise "dm payload too short")) else
      let nonce := ofBe (payload.take 8)
      let expected := P.receivingNonce ts
      if nonce < expected then (s, .error (.noise "replayed or out-of-order dm nonce")) else
      let ciphertext := payload.drop 8
      let ts := P.setReceivingNonce ts nonce
      match P.tsReadMessage ts ciphertext with
      | .ok (ts, buf) => ({ s with inner := .transport ts }, .ok buf)
      | .error e => ({ s with inner := .transport (P.setReceivingNonce ts expected) }, .error (.noise e))
  | _ => (s, .error (.noise "decrypt before handshake complete"))

/-- The handshake messages behind the session so far (observer). -/
def transcript (s : NoiseSession) : List Bytes :=
  match s.inner with
  | .handshake hs => P.hsTranscript hs
  | .transport ts => P.tsTranscript ts
  | .poisoned => []

def recvNonce (s : NoiseSession) : ℕ :=
  match s.inner with
  | .transport ts => P.receivingNonce ts
  | _ => 0

def sendNonce (s : NoiseSession) : ℕ :=
  match s.inner with
  | .transport ts => P.sendingNonce ts
  | _ => 0

end NoiseSession
end CockroachChat
