import CockroachChat.Node.Steps

/-! # What one call on a Noise session does

Under the engine's laws each operation of `NoiseSession` is described by its transcript, its role
and its peer key; the node-level proofs use these descriptions and never unfold the operations. -/
namespace CockroachChat
set_option autoImplicit false

variable [P : Prims]

namespace NoiseSession

omit P in
@[simp] theorem mapErr_ok {α : Type} {r : Except String α} {a : α} : mapErr r = .ok a ↔ r = .ok a := by
  cases r <;> simp [mapErr, Except.mapError]

/-- The shape of a session between two calls of the node: its own message is out, the peer's
answer is not in, or the exchange is over. -/
def InFlight (σ : NoiseSession) : Prop :=
  (∃ hs, σ.inner = .handshake hs) ∧
    (σ.initiator = true ∧ σ.transcript.length = 1 ∨ σ.initiator = false ∧ σ.transcript.length = 2)

theorem isReady_iff {σ : NoiseSession} : σ.isReady = true ↔ ∃ ts, σ.inner = .transport ts := by
  unfold isReady
  cases σ.inner <;> simp

theorem InFlight.not_ready {σ : NoiseSession} (h : σ.InFlight) : σ.isReady = false := by
  obtain ⟨⟨hs, hinner⟩, -⟩ := h
  simp [isReady, hinner]

theorem InFlight.handshaking {σ : NoiseSession} (h : σ.InFlight) : σ.isHandshaking = true := by
  obtain ⟨⟨hs, hinner⟩, -⟩ := h
  simp [isHandshaking, hinner]

section Laws
variable (laws : SnowLaws P)
include laws

theorem newInitiator_spec (k : Key32) :
    ∃ σ, newInitiator k = .ok σ ∧ σ.initiator = true ∧ σ.transcript = [] ∧ (∃ hs, σ.inner = .handshake hs) ∧
      ∀ ent, ∃ r, σ.writeHandshake ent = .ok r := by
  obtain ⟨hs, hhs⟩ := laws.initiator_starts k
  refine ⟨⟨.handshake hs, true⟩, ?_, rfl, laws.initiator_empty k hs hhs, ⟨hs, rfl⟩, fun ent => ?_⟩
  · simp [newInitiator, hhs, mapErr, Except.mapError, Bind.bind, Except.bind, Pure.pure, Except.pure]
  · obtain ⟨⟨hs', m⟩, hw⟩ := laws.first_write k hs ent hhs
    have hlen : (P.hsTranscript hs').length = 1 := by
      rw [laws.write_transcript hs ent hs' m hw, laws.initiator_empty k hs hhs]
      rfl
    have hnot : P.isHandshakeFinished hs' = false := by
      rw [Bool.eq_false_iff, ne_eq, laws.finished, hlen]
      decide
    exact ⟨(⟨.handshake hs', true⟩, m), by
      simp [writeHandshake, hw, mapErr, Except.mapError, Bind.bind, Except.bind, Pure.pure, Except.pure,
        maybeTransition, hnot]⟩

theorem newResponder_spec (k : Key32) :
    ∃ σ, newResponder k = .ok σ ∧ σ.initiator = false ∧ σ.transcript = [] ∧ ∃ hs, σ.inner = .handshake hs := by
  obtain ⟨hs, hhs⟩ := laws.responder_starts k
  exact ⟨⟨.handshake hs, false⟩, by
    simp [newResponder, hhs, mapErr, Except.mapError, Bind.bind, Except.bind, Pure.pure, Except.pure],
    rfl, laws.responder_empty k hs hhs, hs, rfl⟩

/-- A handshake state wrapped up again after a message, in transport mode after the third. -/
theorem maybeTransition_spec (hs : P.HandshakeState) (b : Bool) :
    ∃ σ, maybeTransition ⟨.handshake hs, b⟩ = .ok σ ∧ σ.initiator = b ∧ σ.transcript = P.hsTranscript hs ∧
      (σ.isReady = true ↔ (P.hsTranscript hs).length = 3) ∧
      (σ.isReady = true → σ.recvNonce = 0) ∧
      (σ.isReady = false → σ.inner = .handshake hs) := by
  by_cases hfin : P.isHandshakeFinished hs = true
  · obtain ⟨ts, hts⟩ := laws.transport hs hfin
    refine ⟨⟨.transport ts, b⟩, ?_, rfl, laws.transport_transcript hs ts hts, ?_, ?_, ?_⟩
    · simp [maybeTransition, hfin, hts, mapErr, Except.mapError, Bind.bind, Except.bind, Pure.pure, Except.pure]
    · simpa [isReady] using (laws.finished hs).mp hfin
    · intro _
      exact laws.transport_receiving hs ts hts
    · simp [isReady]
  · refine ⟨⟨.handshake hs, b⟩, by simp [maybeTransition, hfin], rfl, rfl, ?_, ?_, fun _ => rfl⟩
    · simpa [isReady] using fun h => hfin ((laws.finished hs).mpr h)
    · simp [isReady]

theorem writeHandshake_spec {σ σ' : NoiseSession} {ent : P.Entropy} {m : Bytes}
    (h : σ.writeHandshake ent = .ok (σ', m)) :
    σ'.transcript = σ.transcript ++ [m] ∧ σ'.initiator = σ.initiator ∧
      (σ'.isReady = true ↔ σ'.transcript.length = 3) ∧
      (σ'.isReady = true → σ'.recvNonce = 0) ∧ (σ'.isReady = false → ∃ hs, σ'.inner = .handshake hs) := by
  unfold writeHandshake at h
  split at h
  case h_2 => cases h
  case h_1 hs hinner =>
    cases hw : P.hsWriteMessage hs ent with
    | error e => simp [hw, mapErr, Except.mapError, Bind.bind, Except.bind] at h
    | ok r =>
      obtain ⟨hs', m'⟩ := r
      obtain ⟨σ₁, hσ₁, hinit, htr, hready, hrecv, hshape⟩ := maybeTransition_spec laws hs' σ.initiator
      have htr' := laws.write_transcript hs ent hs' m' hw
      simp [hw, mapErr, Except.mapError, Bind.bind, Except.bind, hσ₁, Pure.pure, Except.pure] at h
      obtain ⟨rfl, rfl⟩ := h
      refine ⟨?_, hinit, by rw [htr]; exact hready, hrecv, fun hn => ⟨hs', hshape hn⟩⟩
      rw [htr, htr', transcript, hinner]

theorem readHandshake_spec {σ σ' : NoiseSession} {m : Bytes} (h : σ.readHandshake m = .ok σ') :
    (∃ hs, σ.inner = .handshake hs) ∧
      σ'.transcript = σ.transcript ++ [m] ∧ σ'.initiator = σ.initiator ∧
      (σ'.isReady = true ↔ σ'.transcript.length = 3) ∧
      (σ'.isReady = true → σ'.recvNonce = 0) ∧
      (σ'.isReady = false → (∃ hs, σ'.inner = .handshake hs)) ∧
      (σ'.transcript.length < 3 → ∀ ent, ∃ r, σ'.writeHandshake ent = .ok r) := by
  unfold readHandshake at h
  split at h
  case h_2 => cases h
  case h_1 hs hinner =>
    cases hr : P.hsReadMessage hs m with
    | error e => simp [hr, mapErr, Except.mapError, Bind.bind, Except.bind] at h
    | ok hs' =>
      obtain ⟨σ₁, hσ₁, hinit, htr, hready, hrecv, hshape⟩ := maybeTransition_spec laws hs' σ.initiator
      have htr' := laws.read_transcript hs m hs' hr
      simp [hr, mapErr, Except.mapError, Bind.bind, Except.bind, hσ₁] at h
      subst h
      refine ⟨⟨hs, hinner⟩, ?_, hinit, by rw [htr]; exact hready, hrecv, fun hn => ⟨hs', hshape hn⟩, ?_⟩
      · rw [htr, htr', transcript, hinner]
      · intro hlen ent
        rw [htr] at hlen
        have hn : σ₁.isReady = false := by
          rw [Bool.eq_false_iff, ne_eq, hready]
          omega
        obtain ⟨⟨hs'', m''⟩, hw⟩ := laws.answer hs m hs' ent hr hlen
        obtain ⟨σ₂, hσ₂, -⟩ := maybeTransition_spec laws hs'' σ₁.initiator
        exact ⟨(σ₂, m''), by
          simp [writeHandshake, hshape hn, hw, mapErr, Except.mapError, Bind.bind, Except.bind, hσ₂, Pure.pure,
            Except.pure]⟩

theorem encrypt_spec {σ σ' : NoiseSession} {pt ct : Bytes} (h : σ.encrypt pt = .ok (σ', ct)) :
    σ.isReady = true ∧ σ'.isReady = true ∧ σ'.view = σ.view ∧ σ'.recvNonce = σ.recvNonce := by
  unfold encrypt at h
  split at h
  case h_2 => cases h
  case h_1 ts hinner =>
    cases hw : P.tsWriteMessage ts pt with
    | error e => simp [hw, mapErr, Except.mapError, Bind.bind, Except.bind] at h
    | ok r =>
      obtain ⟨ts', c⟩ := r
      simp [hw, mapErr, Except.mapError, Bind.bind, Except.bind, Pure.pure, Except.pure] at h
      obtain ⟨rfl, -⟩ := h
      refine ⟨by simp [isReady, hinner], rfl, ?_, ?_⟩
      · simp [NoiseSession.view, transcript, remoteStatic, hinner, laws.encrypt_transcript ts pt ts' c hw,
          laws.encrypt_remote ts pt ts' c hw]
      · simp [recvNonce, hinner, laws.encrypt_receiving ts pt ts' c hw]

/-- A failing decrypt leaves the session as it was. -/
theorem decrypt_error {σ σ' : NoiseSession} {payload : Bytes} {e : Error}
    (h : σ.decrypt payload = (σ', .error e)) : σ' = σ := by
  unfold decrypt at h
  split at h
  case h_2 => cases h; rfl
  case h_1 ts hinner =>
    split at h
    · cases h; rfl
    · simp only at h
      split at h
      · cases h; rfl
      · split at h
        · cases h
        · rw [laws.set_restore] at h
          cases h
          cases σ
          simp_all

/-- A successful decrypt is at a nonce not below the window, which then starts right after it. -/
theorem decrypt_ok {σ σ' : NoiseSession} {payload pt : Bytes} (h : σ.decrypt payload = (σ', .ok pt)) :
    σ.isReady = true ∧ σ'.isReady = true ∧ σ'.view = σ.view ∧ σ.recvNonce ≤ ofBe (payload.take 8) ∧
      σ'.recvNonce = ofBe (payload.take 8) + 1 := by
  unfold decrypt at h
  split at h
  case h_2 => cases h
  case h_1 ts hinner =>
    split at h
    · cases h
    · simp only at h
      split at h
      · cases h
      · rename_i hge
        split at h
        · rename_i ts' buf hr
          cases h
          refine ⟨by simp [isReady, hinner], rfl, ?_, by simpa [recvNonce, hinner] using hge, ?_⟩
          · simp [NoiseSession.view, transcript, remoteStatic, hinner,
              laws.decrypt_transcript _ _ _ _ hr, laws.decrypt_remote _ _ _ _ hr, laws.set_transcript, laws.set_remote]
          · simp [recvNonce, laws.decrypt_receiving _ _ _ _ _ hr]
        · cases h

end Laws

end NoiseSession
end CockroachChat
