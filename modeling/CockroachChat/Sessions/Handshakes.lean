import CockroachChat.Foundations.Maps
import CockroachChat.Sessions.Moves

/-! # What one handshake step does to the node

`beginHandshake` and `handleNoiseHandshake` under the engine's laws, each described once: the state a
call ends in, with the guards that lead there. -/
namespace CockroachChat.MeshNode
set_option autoImplicit false

variable [P : Prims] {S : Type}

/-- Every session is in flight or ready. -/
def Shaped (s : MeshNode S) : Prop :=
  ∀ (fp : Fingerprint) (σ : NoiseSession), s.noiseSessions[fp]? = some σ → σ.InFlight ∨ σ.isReady = true

theorem Shaped.of_sessions {s s' : MeshNode S} (h : s.Shaped) (sessions : s'.noiseSessions = s.noiseSessions) :
    s'.Shaped := fun fp σ held => h fp σ (sessions ▸ held)

/-- A new initiator session of the node and its first message. -/
def FreshInitiator (s : MeshNode S) (σ : NoiseSession) (m : Bytes) : Prop :=
  ∃ σ₀, NoiseSession.newInitiator s.identity.dhPrivateBytes = .ok σ₀ ∧
    σ₀.writeHandshake (s.entropy s.drawn) = .ok (σ, m)

theorem FreshInitiator.spec (laws : SnowLaws P) {s : MeshNode S} {σ : NoiseSession} {m : Bytes}
    (h : s.FreshInitiator σ m) : σ.InFlight ∧ σ.initiator = true ∧ σ.transcript = [m] := by
  obtain ⟨σ₀, hnew, hwrite⟩ := h
  obtain ⟨σ₁, hnew', hrole, htr, -⟩ := NoiseSession.newInitiator_spec laws s.identity.dhPrivateBytes
  obtain rfl : σ₀ = σ₁ := by
    rw [hnew] at hnew'
    exact Except.ok.inj hnew'
  obtain ⟨htr', hrole', hready, -, hshape⟩ := NoiseSession.writeHandshake_spec laws hwrite
  rw [htr, List.nil_append] at htr'
  rw [hrole] at hrole'
  have hnot : σ.isReady = false := by
    rw [Bool.eq_false_iff, ne_eq, hready, htr']
    simp
  exact ⟨⟨hshape hnot, .inl ⟨hrole', by rw [htr']; rfl⟩⟩, hrole', htr'⟩

theorem freshInitiator_exists (laws : SnowLaws P) (s : MeshNode S) : ∃ σ m, s.FreshInitiator σ m := by
  obtain ⟨σ₀, hnew, -, -, -, hwrite⟩ := NoiseSession.newInitiator_spec laws s.identity.dhPrivateBytes
  obtain ⟨⟨σ, m⟩, hr⟩ := hwrite (s.entropy s.drawn)
  exact ⟨σ, m, σ₀, hnew, hr⟩

/-- The handshake message `m` of the session `σ` is out. -/
def handshakeOut (s : MeshNode S) (fp : Fingerprint) (σ : NoiseSession) (m : Bytes) : MeshNode S :=
  ({ s with drawn := s.drawn + 1, noiseSessions := s.noiseSessions.insert fp σ }.note
    (.wrote fp σ.initiator m)).sendDirected .noiseHandshake fp m

/-- The state after `begin_handshake`: the transmission is entered, and the message is out. -/
def begun (s : MeshNode S) (fp : Fingerprint) (σ : NoiseSession) (m : Bytes) : MeshNode S :=
  ({ s with
      handshakeLastMs := s.handshakeLastMs.insert fp s.clock
      handshakeAttempts := s.handshakeAttempts.insert fp (s.handshakeAttempts[fp]?.getD 0 + 1) } : MeshNode S).handshakeOut
    fp σ m

/-- Sending neither reads nor writes the retry tables. -/
theorem handshakeOut_tables (s : MeshNode S) (fp : Fingerprint) (σ : NoiseSession) (m : Bytes)
    (last : Std.ExtTreeMap Fingerprint Millis) (attempts : Std.ExtTreeMap Fingerprint ℕ) :
    ({ s with handshakeLastMs := last, handshakeAttempts := attempts } : MeshNode S).handshakeOut fp σ m =
      { s.handshakeOut fp σ m with handshakeLastMs := last, handshakeAttempts := attempts } := by
  unfold handshakeOut sendDirected
  simp only [note]
  cases s.fpToEph[fp]? with
  | none => rfl
  | some eph =>
    simp only [broadcast_eq]
    rfl

theorem handshakeOut_carries (s : MeshNode S) (fp : Fingerprint) (σ : NoiseSession) (m : Bytes) :
    ∃ seen os, s.handshakeOut fp σ m =
        { s with
          drawn := s.drawn + 1
          noiseSessions := s.noiseSessions.insert fp σ
          seen := seen
          trace := s.trace ++ .wrote fp σ.initiator m :: os } ∧
      (∀ o ∈ os, o.Carries .noiseHandshake m) ∧ (s.fpToEph[fp]? = none → os = []) := by
  obtain ⟨seen, os, heq, hos, hroute⟩ := sendDirected_carries
    ({ s with drawn := s.drawn + 1, noiseSessions := s.noiseSessions.insert fp σ }.note (.wrote fp σ.initiator m))
    .noiseHandshake fp m
  refine ⟨seen, os, ?_, hos, hroute⟩
  rw [handshakeOut, heq]
  simp [note]

theorem handshakeOut_update (s : MeshNode S) (fp : Fingerprint) (σ : NoiseSession) (m : Bytes) :
    ∃ seen os, s.handshakeOut fp σ m =
        { s with
          drawn := s.drawn + 1
          noiseSessions := s.noiseSessions.insert fp σ
          seen := seen
          trace := s.trace ++ .wrote fp σ.initiator m :: os } ∧
      ∀ o ∈ os, o.Quiet s.identity := by
  obtain ⟨seen, os, heq, hos, -⟩ := handshakeOut_carries s fp σ m
  exact ⟨seen, os, heq, fun o ho => (hos o ho).quiet (by decide) _⟩

theorem beginHandshake_spec (laws : SnowLaws P) (s : MeshNode S) (fp : Fingerprint) :
    ∃ σ m, s.FreshInitiator σ m ∧ s.beginHandshake fp = s.begun fp σ m := by
  obtain ⟨σ, m, σ₀, hnew, hwrite⟩ := freshInitiator_exists laws s
  have hrole : σ.initiator = true := (FreshInitiator.spec laws ⟨σ₀, hnew, hwrite⟩).2.1
  obtain ⟨seen, os, heq, -⟩ := handshakeOut_update s fp σ m
  refine ⟨σ, m, ⟨σ₀, hnew, hwrite⟩, ?_⟩
  have hout : ({ s with drawn := s.drawn + 1, noiseSessions := s.noiseSessions.insert fp σ }.note
      (.wrote fp true m)).sendDirected .noiseHandshake fp m = s.handshakeOut fp σ m := by
    rw [handshakeOut, hrole]
  simp only [beginHandshake, hnew, hwrite, hout, begun, handshakeOut_tables, heq]

variable [Store S]

/-! ## Inbound handshake packets -/

/-- The states in which an inbound handshake packet meets no session: there was none, the tally of a
live one is full, or ours yields. -/
inductive Opens (s : MeshNode S) (fp : Fingerprint) (payload : Bytes) : MeshNode S → Prop
  | absent (none_held : s.noiseSessions[fp]? = none) : Opens s fp payload s
  | restart (ready : s.sessionReady fp = true)
      (tally : resyncHandshakeThreshold ≤ s.resyncPending[fp]?.getD 0 + 1) :
      Opens s fp payload { s with
        resyncPending := s.resyncPending.erase fp
        noiseSessions := s.noiseSessions.erase fp }
  | yield (σ : NoiseSession) (held : s.noiseSessions[fp]? = some σ) (shape : σ.InFlight)
      (role : σ.initiator = true) (len : payload.length = xxMsg1Len)
      (higher : compare s.fingerprint fp ≠ .lt) :
      Opens s fp payload { s with noiseSessions := s.noiseSessions.erase fp }

omit [Store S] in
theorem Opens.base_eq {s base : MeshNode S} {fp : Fingerprint} {payload : Bytes} (h : Opens s fp payload base) :
    ∃ tallies, base = { s with resyncPending := tallies, noiseSessions := s.noiseSessions.erase fp } := by
  cases h with
  | absent none_held => exact ⟨s.resyncPending, by rw [Maps.erase_absent none_held]⟩
  | restart ready tally => exact ⟨_, rfl⟩
  | yield σ held shape role len higher => exact ⟨_, rfl⟩

/-- `handle_noise_handshake` from the point where the peer is known. -/
def handleHandshake (s : MeshNode S) (fp : Fingerprint) (payload : Bytes) : MeshNode S :=
  let (s, go) := s.resyncGate fp
  if !go then s else
  let (s, go) := s.glareGate fp payload
  if !go then s else
  let (s, go) := s.ensureResponder fp
  if !go then s else
  s.readAndAdvance fp payload

/-- The outcomes of an inbound handshake packet from `fp`. -/
inductive Handled (s : MeshNode S) (fp : Fingerprint) (payload : Bytes) : MeshNode S → Prop
  /-- A live session: the first fresh handshake is only counted. -/
  | counted (ready : s.sessionReady fp = true)
      (tally : s.resyncPending[fp]?.getD 0 + 1 < resyncHandshakeThreshold) :
      Handled s fp payload
        { s with resyncPending := s.resyncPending.insert fp (s.resyncPending[fp]?.getD 0 + 1) }
  /-- Glare, and we keep initiating. -/
  | won (σ : NoiseSession) (held : s.noiseSessions[fp]? = some σ) (shape : σ.InFlight)
      (role : σ.initiator = true) (len : payload.length = xxMsg1Len)
      (lower : compare s.fingerprint fp = .lt) : Handled s fp payload s
  /-- A new responder that cannot read the message. -/
  | refused (base : MeshNode S) (opens : Opens s fp payload base) (σ₀ : NoiseSession) (e : Error)
      (new : NoiseSession.newResponder s.identity.dhPrivateBytes = .ok σ₀)
      (read : σ₀.readHandshake payload = .error e) :
      Handled s fp payload { base with
        noiseSessions := base.noiseSessions.erase fp
        handshakeLastMs := base.handshakeLastMs.insert fp base.clock
        handshakeAttempts := base.handshakeAttempts.insertIfNew fp 0 }
  /-- A new responder, whose answer goes out. -/
  | answered (base : MeshNode S) (opens : Opens s fp payload base) (σ₀ σ₁ σ : NoiseSession) (m : Bytes)
      (new : NoiseSession.newResponder s.identity.dhPrivateBytes = .ok σ₀)
      (read : σ₀.readHandshake payload = .ok σ₁)
      (shape : σ.InFlight) (role : σ.initiator = false) (transcript : σ.transcript = [payload, m]) :
      Handled s fp payload
        (({ base with
            handshakeLastMs := base.handshakeLastMs.insert fp base.clock
            handshakeAttempts := base.handshakeAttempts.insertIfNew fp 0 } : MeshNode S).handshakeOut fp σ m)
  /-- The session in flight cannot read the message. -/
  | lost (σ : NoiseSession) (e : Error) (held : s.noiseSessions[fp]? = some σ) (shape : σ.InFlight)
      (other : ¬ (σ.initiator = true ∧ payload.length = xxMsg1Len)) (read : σ.readHandshake payload = .error e) :
      Handled s fp payload { s with noiseSessions := s.noiseSessions.erase fp }
  /-- The session in flight becomes ready. -/
  | finished (σ σ₁ σ' : NoiseSession) (ms : List Bytes) (drawn : ℕ) (seen : SeenCache) (os : List Obs)
      (held : s.noiseSessions[fp]? = some σ) (shape : σ.InFlight)
      (other : ¬ (σ.initiator = true ∧ payload.length = xxMsg1Len)) (read : σ.readHandshake payload = .ok σ₁)
      (quiet : ∀ o ∈ os, o.Neutral s.identity)
      (ready : σ'.isReady = true) (transcript : σ'.transcript = σ.transcript ++ ms)
      (role : σ'.initiator = σ.initiator) (window : σ'.recvNonce = 0) (written : Written fp σ'.initiator os) :
      Handled s fp payload
        (({ s with
            noiseSessions := s.noiseSessions.insert fp σ'
            handshakeLastMs := s.handshakeLastMs.insert fp s.clock
            drawn := drawn
            seen := seen
            trace := s.trace ++ os } : MeshNode S).finishSession fp)

/-- With no session in the way, a responder is created and fed the message. -/
theorem open_cases (laws : SnowLaws P) {s base : MeshNode S} {fp : Fingerprint} {payload : Bytes}
    (opens : Opens s fp payload base) (absent : base.noiseSessions[fp]? = none)
    (identity : base.identity = s.identity) :
    Handled s fp payload ((base.ensureResponder fp).1.readAndAdvance fp payload) ∧ (base.ensureResponder fp).2 = true := by
  obtain ⟨σ₀, hnew, hrole₀, htr₀, hinner₀⟩ := NoiseSession.newResponder_spec laws s.identity.dhPrivateBytes
  let t : MeshNode S := { base with
    noiseSessions := base.noiseSessions.insert fp σ₀
    handshakeLastMs := base.handshakeLastMs.insert fp base.clock
    handshakeAttempts := base.handshakeAttempts.insertIfNew fp 0 }
  have hens : base.ensureResponder fp = (t, true) := by
    simp [ensureResponder, Maps.contains_absent absent, identity, hnew, t]
  rw [hens]
  refine ⟨?_, rfl⟩
  have held : t.noiseSessions[fp]? = some σ₀ := by simp [t]
  cases hread : σ₀.readHandshake payload with
  | error e =>
    have heq : t.readAndAdvance fp payload = { t with noiseSessions := t.noiseSessions.erase fp } := by
      simp only [readAndAdvance, held, hread]
    rw [heq]
    simp only [t, Maps.erase_insert]
    exact .refused base opens σ₀ e hnew hread
  | ok σ₁ =>
    obtain ⟨-, htr₁, hrole₁, hready₁, -, -, hanswer⟩ := NoiseSession.readHandshake_spec laws hread
    rw [htr₀, List.nil_append] at htr₁
    have hnot₁ : σ₁.isReady = false := by
      rw [Bool.eq_false_iff, ne_eq, hready₁, htr₁]
      simp
    obtain ⟨⟨σ, m⟩, hwrite⟩ := hanswer (by simp [htr₁]) (base.entropy base.drawn)
    obtain ⟨htr, hrole, hready, -, hshape⟩ := NoiseSession.writeHandshake_spec laws hwrite
    have htr' : σ.transcript = [payload, m] := by rw [htr, htr₁]; rfl
    have hrole' : σ.initiator = false := by rw [hrole, hrole₁, hrole₀]
    have hnot : σ.isReady = false := by
      rw [Bool.eq_false_iff, ne_eq, hready, htr']
      simp
    let u : MeshNode S := { base with
      handshakeLastMs := base.handshakeLastMs.insert fp base.clock
      handshakeAttempts := base.handshakeAttempts.insertIfNew fp 0 }
    obtain ⟨seen, os, hout, -⟩ := handshakeOut_update u fp σ m
    have hstill : (u.handshakeOut fp σ m).sessionReady fp = false := by
      rw [hout]
      simp [sessionReady, hnot]
    have heq : t.readAndAdvance fp payload = u.handshakeOut fp σ m := by
      have hadv : t.readAndAdvance fp payload =
          if (u.handshakeOut fp σ m).sessionReady fp then (u.handshakeOut fp σ m).finishSession fp
          else u.handshakeOut fp σ m := by
        simp [readAndAdvance, hread, advanceHandshake, hnot₁, hwrite, t, u, handshakeOut, hrole, hrole₁]
      rw [hadv, hstill]
      rfl
    rw [heq]
    exact .answered base opens σ₀ σ₁ σ m hnew hread ⟨hshape hnot, .inr ⟨hrole', by rw [htr']; rfl⟩⟩ hrole' htr'

/-- A session in flight that is fed a message is lost or complete. -/
theorem progress_cases (laws : SnowLaws P) {s : MeshNode S} {fp : Fingerprint} {σ : NoiseSession} (payload : Bytes)
    (held : s.noiseSessions[fp]? = some σ) (shape : σ.InFlight)
    (other : ¬ (σ.initiator = true ∧ payload.length = xxMsg1Len)) :
    Handled s fp payload (s.readAndAdvance fp payload) := by
  cases hread : σ.readHandshake payload with
  | error e =>
    have heq : s.readAndAdvance fp payload = { s with noiseSessions := s.noiseSessions.erase fp } := by
      simp only [readAndAdvance, held, hread]
    rw [heq]
    exact .lost σ e held shape other hread
  | ok σ₁ =>
    obtain ⟨-, htr₁, hrole₁, hready₁, hwin₁, -, hanswer⟩ := NoiseSession.readHandshake_spec laws hread
    have hturn := shape.2
    rcases hturn with ⟨hinit, hlen⟩ | ⟨hresp, hlen⟩
    · -- the initiator answers with the third message
      have hlen₁ : σ₁.transcript.length = 2 := by simp [htr₁, hlen]
      have hnot₁ : σ₁.isReady = false := by
        rw [Bool.eq_false_iff, ne_eq, hready₁]
        omega
      obtain ⟨⟨σ', m⟩, hwrite⟩ := hanswer (by omega) (s.entropy s.drawn)
      obtain ⟨htr, hrole, hready, hwin, -⟩ := NoiseSession.writeHandshake_spec laws hwrite
      have hr : σ'.isReady = true := hready.mpr (by simp [htr, hlen₁])
      let u : MeshNode S := { s with handshakeLastMs := s.handshakeLastMs.insert fp s.clock }
      obtain ⟨seen, os, hout, hos, -⟩ := handshakeOut_carries u fp σ' m
      have hready' : (u.handshakeOut fp σ' m).sessionReady fp = true := by
        rw [hout]
        simp [sessionReady, hr]
      have heq : s.readAndAdvance fp payload = (u.handshakeOut fp σ' m).finishSession fp := by
        have hadv : s.readAndAdvance fp payload =
            if (u.handshakeOut fp σ' m).sessionReady fp then (u.handshakeOut fp σ' m).finishSession fp
            else u.handshakeOut fp σ' m := by
          simp [readAndAdvance, held, hread, advanceHandshake, hnot₁, hwrite, u, handshakeOut, hrole, note]
        rw [hadv, hready']
        rfl
      rw [heq, hout]
      refine .finished σ σ₁ σ' [payload, m] (s.drawn + 1) seen (.wrote fp σ'.initiator m :: os) held shape
        other hread ?_ hr ?_ (hrole.trans hrole₁) (hwin hr) (.inr ⟨m, os, rfl, hos⟩)
      · intro o ho
        rcases List.mem_cons.mp ho with rfl | ho
        · trivial
        · exact ((hos o ho).quiet (by decide) _).neutral
      · rw [htr, htr₁, List.append_assoc]
        rfl
    · -- the responder has all three
      have hr : σ₁.isReady = true := hready₁.mpr (by simp [htr₁, hlen])
      have heq : s.readAndAdvance fp payload = (({ s with
          noiseSessions := s.noiseSessions.insert fp σ₁
          handshakeLastMs := s.handshakeLastMs.insert fp s.clock
          drawn := s.drawn
          seen := s.seen
          trace := s.trace ++ [] } : MeshNode S).finishSession fp) := by
        simp [readAndAdvance, held, hread, advanceHandshake, hr]
      rw [heq]
      exact .finished σ σ₁ σ₁ [payload] s.drawn s.seen [] held shape other hread (by simp) hr htr₁ hrole₁
        (hwin₁ hr) (.inl rfl)

/-- The gates let the packet through to a node without a session, to one in flight, or not at all. -/
theorem handleHandshake_cases (laws : SnowLaws P) {s : MeshNode S} (shaped : s.Shaped) (fp : Fingerprint)
    (payload : Bytes) : Handled s fp payload (s.handleHandshake fp payload) := by
  have hpast : ∀ {t : MeshNode S}, t.noiseSessions[fp]? = none → t.glareGate fp payload = (t, true) := by
    intro t ht
    simp [glareGate, ht]
  have hopen : ∀ {base : MeshNode S}, Opens s fp payload base → base.noiseSessions[fp]? = none →
      base.identity = s.identity → s.resyncGate fp = (base, true) →
      Handled s fp payload (s.handleHandshake fp payload) := by
    intro base opens absent identity hgate
    obtain ⟨hcase, hgo⟩ := open_cases laws opens absent identity
    simpa [handleHandshake, hgate, hpast absent, hgo] using hcase
  cases held : s.noiseSessions[fp]? with
  | none =>
    refine hopen (.absent held) held rfl ?_
    simp [resyncGate, sessionReady, held]
  | some σ =>
    rcases shaped fp σ held with shape | ready
    · have hnot : s.sessionReady fp = false := by simp [sessionReady, held, shape.not_ready]
      have hgate : s.resyncGate fp = (s, true) := by simp [resyncGate, hnot]
      by_cases hglare : σ.initiator = true ∧ payload.length = xxMsg1Len
      · obtain ⟨hrole, hlen⟩ := hglare
        by_cases hlower : compare s.fingerprint fp = .lt
        · have heq : s.handleHandshake fp payload = s := by
            simp [handleHandshake, hgate, glareGate, hlen, held, shape.handshaking, hrole, hlower]
          rw [heq]
          exact .won σ held shape hrole hlen hlower
        · have habsent : ({ s with noiseSessions := s.noiseSessions.erase fp } : MeshNode S).noiseSessions[fp]? =
              none := by simp
          obtain ⟨hcase, hgo⟩ := open_cases laws (.yield σ held shape hrole hlen hlower) habsent rfl
          simpa [handleHandshake, hgate, glareGate, hlen, held, shape.handshaking, hrole, hlower, hgo] using hcase
      · have hpass : s.glareGate fp payload = (s, true) := by
          by_cases hlen : payload.length = xxMsg1Len
          · have hrole : σ.initiator = false := by simpa [hlen] using hglare
            simp [glareGate, hlen, held, hrole]
          · simp [glareGate, hlen]
        have hens : s.ensureResponder fp = (s, true) := by
          simp [ensureResponder, Maps.contains_held held]
        simpa [handleHandshake, hgate, hpass, hens] using progress_cases laws payload held shape hglare
    · have hready : s.sessionReady fp = true := by simp [sessionReady, held, ready]
      by_cases htally : s.resyncPending[fp]?.getD 0 + 1 < resyncHandshakeThreshold
      · have heq : s.handleHandshake fp payload =
            { s with resyncPending := s.resyncPending.insert fp (s.resyncPending[fp]?.getD 0 + 1) } := by
          simp [handleHandshake, resyncGate, hready, htally]
        rw [heq]
        exact .counted hready htally
      · refine hopen (.restart hready (by omega)) (by simp) rfl ?_
        simp [resyncGate, hready, htally]

theorem handleNoiseHandshake_eq {s : MeshNode S} {pkt : Packet} {fp : Fingerprint}
    (recipient : pkt.recipient = some s.identity.ephId) (sender : s.ephToFp pkt.sender = some fp) :
    s.handleNoiseHandshake pkt = s.handleHandshake fp pkt.payload := by
  simp [handleNoiseHandshake, recipient, sender, handleHandshake]

theorem handleNoiseHandshake_ignored {s : MeshNode S} {pkt : Packet}
    (h : pkt.recipient ≠ some s.identity.ephId ∨ s.ephToFp pkt.sender = none) : s.handleNoiseHandshake pkt = s := by
  rcases h with h | h
  · simp [handleNoiseHandshake, h]
  · simp [handleNoiseHandshake, h]

end CockroachChat.MeshNode
