import CockroachChat.Core.Prims

/-! # Reference primitives

A small executable instance of the library operations, for runs on concrete inputs: hashes and
signatures are checksums, the Noise engine keeps the XX message order, sizes and nonce rules and
authenticates with a checksum over the transcript, and nothing compresses. -/
namespace CockroachChat.Reference
set_option autoImplicit false

def mix (b : Bytes) : Bytes := beBytes 2 (b.foldl (fun acc x => (acc * 257 + x.toNat + 1) % 65521) 7)

def checksum (vk : Key32) (region : Bytes) : Signature := arrayOf 64 (mix (vk.toList ++ region) ++ vk.toList)

def publicOf (priv : Key32) : Key32 := priv.map (· ^^^ 0x80)

structure Handshake where
  initiator : Bool
  priv : Key32
  transcript : List Bytes
  remote : Option Bytes

structure Transport where
  initiator : Bool
  transcript : List Bytes
  remote : Option Bytes
  sending : ℕ
  receiving : ℕ

def nonceKey (ent : ℕ) : Bytes := beBytes 2 ent ++ List.replicate 30 0

def writeMessage (hs : Handshake) (ent : ℕ) : Except String (Handshake × Bytes) :=
  let msg := match hs.transcript.length, hs.initiator with
    | 0, true => some (nonceKey ent)
    | 1, false => some (nonceKey ent ++ (publicOf hs.priv).toList ++ List.replicate 32 0)
    | 2, true => some ((publicOf hs.priv).toList ++ List.replicate 32 0)
    | _, _ => none
  match msg with
  | some m => .ok ({ hs with transcript := hs.transcript ++ [m] }, m)
  | none => .error "state error"

def readMessage (hs : Handshake) (m : Bytes) : Except String Handshake :=
  match hs.transcript.length, hs.initiator, m.length with
  | 0, false, 32 => .ok { hs with transcript := hs.transcript ++ [m] }
  | 1, true, 96 => .ok { hs with transcript := hs.transcript ++ [m], remote := some ((m.drop 32).take 32) }
  | 2, false, 64 => .ok { hs with transcript := hs.transcript ++ [m], remote := some (m.take 32) }
  | _, _, _ => .error "decrypt error"

def tag (transcript : List Bytes) (initiator : Bool) (nonce : ℕ) (m : Bytes) : Bytes :=
  mix (transcript.flatten ++ [if initiator then 1 else 0] ++ beBytes 2 nonce ++ m)

def sealBox (ts : Transport) (m : Bytes) : Except String (Transport × Bytes) :=
  if ts.sending < 2 ^ 64 - 1 then
    .ok ({ ts with sending := ts.sending + 1 }, m ++ tag ts.transcript ts.initiator ts.sending m)
  else .error "state error"

def openBox (ts : Transport) (c : Bytes) : Except String (Transport × Bytes) :=
  let m := c.take (c.length - 2)
  if ts.receiving < 2 ^ 64 - 1 ∧ c = m ++ tag ts.transcript (!ts.initiator) ts.receiving m then
    .ok ({ ts with receiving := ts.receiving + 1 }, m)
  else .error "decrypt error"

@[reducible] def prims : Prims where
  sha256 b := arrayOf 32 b
  SigningKey := UInt8
  VerifyingKey := Key32
  verifyingKey k := Vector.replicate 32 k
  vkAsBytes k := k
  vkFromBytes k := some k
  sign k region := checksum (Vector.replicate 32 k) region
  verify vk region sig := decide (sig = checksum vk region)
  DhSecret := UInt8
  dhPublic k := publicOf (Vector.replicate 32 k)
  dhPrivateBytes k := Vector.replicate 32 k
  Entropy := ℕ
  HandshakeState := Handshake
  TransportState := Transport
  buildInitiator priv := .ok { initiator := true, priv, transcript := [], remote := none }
  buildResponder priv := .ok { initiator := false, priv, transcript := [], remote := none }
  hsWriteMessage := writeMessage
  hsReadMessage := readMessage
  isHandshakeFinished hs := hs.transcript.length == 3
  hsRemoteStatic hs := hs.remote
  intoTransportMode hs :=
    .ok { initiator := hs.initiator, transcript := hs.transcript, remote := hs.remote, sending := 0, receiving := 0 }
  tsRemoteStatic ts := ts.remote
  sendingNonce ts := ts.sending
  receivingNonce ts := ts.receiving
  setReceivingNonce ts n := { ts with receiving := n }
  tsWriteMessage := sealBox
  tsReadMessage := openBox
  hsTranscript hs := hs.transcript
  tsTranscript ts := ts.transcript
  lz4Compress b := b
  lz4Decompress b n := if b.length = n then .ok b else .error "lz4"
  Rng := Unit
  seedFromU64 _ := ()
  genF64 r := (0, r)
  genRange r lo _ := (lo, r)
  toLowercase s := s

theorem writeMessage_ok {hs hs' : Handshake} {ent : ℕ} {m : Bytes} (h : writeMessage hs ent = .ok (hs', m)) :
    hs'.transcript = hs.transcript ++ [m] := by
  simp only [writeMessage] at h
  split at h
  · cases h
    rfl
  · cases h

theorem readMessage_ok {hs hs' : Handshake} {m : Bytes} (h : readMessage hs m = .ok hs') :
    hs'.transcript = hs.transcript ++ [m] ∧
      (hs'.transcript.length = 1 ∧ hs'.initiator = false ∨ hs'.transcript.length = 2 ∧ hs'.initiator = true ∨
        hs'.transcript.length = 3) := by
  unfold readMessage at h
  split at h <;> cases h <;> simp_all

theorem writeMessage_turn {hs : Handshake} (ent : ℕ)
    (h : hs.transcript.length = 1 ∧ hs.initiator = false ∨ hs.transcript.length = 2 ∧ hs.initiator = true) :
    ∃ r, writeMessage hs ent = .ok r := by
  rcases h with ⟨hlen, hrole⟩ | ⟨hlen, hrole⟩ <;> exact ⟨_, by simp only [writeMessage, hlen, hrole]; rfl⟩

theorem sealBox_ok {ts ts' : Transport} {m c : Bytes} (h : sealBox ts m = .ok (ts', c)) :
    ts' = { ts with sending := ts.sending + 1 } := by
  unfold sealBox at h
  split at h <;> cases h
  rfl

theorem openBox_ok {ts ts' : Transport} {m c : Bytes} (h : openBox ts c = .ok (ts', m)) :
    ts' = { ts with receiving := ts.receiving + 1 } := by
  simp only [openBox] at h
  split at h <;> cases h
  rfl

theorem laws : SnowLaws prims where
  initiator_starts _ := ⟨_, rfl⟩
  responder_starts _ := ⟨_, rfl⟩
  initiator_empty _ _ h := by cases h; rfl
  responder_empty _ _ h := by cases h; rfl
  first_write _ _ _ h := by cases h; exact ⟨_, rfl⟩
  write_transcript _ _ _ _ h := writeMessage_ok h
  read_transcript _ _ _ h := (readMessage_ok h).1
  answer hs m hs' ent h hlen := by
    obtain h1 | h2 | h3 := (readMessage_ok h).2
    · exact writeMessage_turn ent (.inl h1)
    · exact writeMessage_turn ent (.inr h2)
    · exact absurd h3 (Nat.ne_of_lt hlen)
  finished hs := beq_iff_eq
  transport _ _ := ⟨_, rfl⟩
  transport_transcript _ _ h := by cases h; rfl
  transport_receiving _ _ h := by cases h; rfl
  set_transcript _ _ := rfl
  set_remote _ _ := rfl
  set_restore _ _ := rfl
  encrypt_transcript _ _ _ _ h := by cases sealBox_ok h; rfl
  encrypt_remote _ _ _ _ h := by cases sealBox_ok h; rfl
  encrypt_receiving _ _ _ _ h := by cases sealBox_ok h; rfl
  decrypt_transcript _ _ _ _ h := by cases openBox_ok h; rfl
  decrypt_remote _ _ _ _ h := by cases openBox_ok h; rfl
  decrypt_receiving _ _ _ _ _ h := by cases openBox_ok h; rfl

end CockroachChat.Reference
