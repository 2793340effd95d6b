import CockroachChat.Node.ReferenceNodes
import CockroachChat.Sessions.Calls

/-! # Sessions are bound to announced keys

The invariant of the session table: what is in flight has the shape its role demands, and what is
ready authenticated a key that an accepted announce of that very identity carried. -/
namespace CockroachChat
set_option autoImplicit false

variable [P : Prims] {S : Type}

/-- An accepted announce of `fp` carried `k`. -/
def Announced (trace : List Obs) (fp : Fingerprint) (k : Key32) : Prop :=
  ∃ pkt, Obs.accept pkt ∈ trace ∧ pkt.Binds fp k

theorem Announced.mono {trace : List Obs} {fp : Fingerprint} {k : Key32} (h : Announced trace fp k)
    (os : List Obs) : Announced (trace ++ os) fp k := by
  obtain ⟨pkt, hmem, hbinds⟩ := h
  exact ⟨pkt, List.mem_append_left os hmem, hbinds⟩

/-- The peer of the session authenticated a key announced for `fp`. -/
def SessionView.BoundTo (v : SessionView) (trace : List Obs) (fp : Fingerprint) : Prop :=
  ∃ k, v.remoteStatic = some k ∧ Announced trace fp k

theorem SessionView.BoundTo.mono {v : SessionView} {trace : List Obs} {fp : Fingerprint} (h : v.BoundTo trace fp)
    (os : List Obs) : v.BoundTo (trace ++ os) fp := by
  obtain ⟨k, hk, hann⟩ := h
  exact ⟨k, hk, hann.mono os⟩

/-- Whatever uses a session or reports on one does so on a bound one, given the trace before it. -/
def Obs.OnBound (before : List Obs) : Obs → Prop
  | .encryptCall fp side _ | .encrypted fp side _ _ | .decrypted fp side _ _ => side.BoundTo before fp
  | .event (.dmReceived fp _ _ _) side => ∃ v, side = some v ∧ v.BoundTo before fp
  | .event (.dmSession fp verified) side => verified = true → ∃ v, side = some v ∧ v.BoundTo before fp
  | _ => True

theorem Obs.OnBound.mono (before more : List Obs) (o : Obs) (h : o.OnBound before) : o.OnBound (before ++ more) := by
  cases o with
  | encryptCall fp side pt => exact SessionView.BoundTo.mono h more
  | encrypted fp side n pt => exact SessionView.BoundTo.mono h more
  | decrypted fp side n pt => exact SessionView.BoundTo.mono h more
  | event e side =>
    cases e with
    | dmReceived fp eph text kind =>
      obtain ⟨v, hv, hb⟩ := h
      exact ⟨v, hv, hb.mono more⟩
    | dmSession fp verified =>
      intro hver
      obtain ⟨v, hv, hb⟩ := h hver
      exact ⟨v, hv, hb.mono more⟩
    | _ => trivial
  | _ => trivial

theorem Obs.Neutral.onBound {id : LocalIdentity} {o : Obs} (h : o.Neutral id) (before : List Obs) :
    o.OnBound before := by
  cases o with
  | event e side =>
    cases e with
    | dmReceived fp eph text kind => exact h.elim
    | dmSession fp verified => exact fun hver => absurd (h.symm.trans hver) (by decide)
    | _ => trivial
  | encryptCall fp side pt => exact h.elim
  | encrypted fp side n pt => exact h.elim
  | decrypted fp side n pt => exact h.elim
  | _ => trivial

namespace MeshNode

/-! ## Shape -/

theorem Shaped.insert {s s' : MeshNode S} (h : s.Shaped) {fp : Fingerprint} {σ : NoiseSession}
    (hσ : σ.InFlight ∨ σ.isReady = true) (sessions : s'.noiseSessions = s.noiseSessions.insert fp σ) : s'.Shaped := by
  intro fp' σ' held
  rw [sessions, Std.ExtTreeMap.getElem?_insert] at held
  split_ifs at held
  · cases held
    exact hσ
  · exact h fp' σ' held

theorem Change.shaped {s s' : MeshNode S} (h : s.Shaped) (change : Change s s') : s'.Shaped := by
  cases change with
  | neutral os trace quiet sessions peers => exact fun fp σ held => h fp σ (sessions fp σ held)
  | learn pkt fp k binds trace sessions peers => exact h.of_sessions sessions
  | start fp σ m os trace quiet shape own sessions peers => exact h.insert (.inl shape) sessions
  | complete fp σ σ' ms k os held shape trace quiet ready transcript role window known bound sessions peers =>
    exact h.insert (.inr ready) sessions
  | encrypt fp σ σ' n pt os held ready trace quiet ready' view window sessions peers =>
    exact h.insert (.inr ready') sessions
  | encryptFail fp σ pt held ready trace sessions peers => exact h.of_sessions sessions
  | decrypt fp σ σ' n pt eph held ready trace ready' view fresh window sessions peers =>
    exact h.insert (.inr ready') sessions
  | surface fp σ held ready trace sessions peers => exact h.of_sessions sessions

/-! ## Binding -/

structure BoundNode (s : MeshNode S) : Prop where
  peers : ∀ (fp : Fingerprint) (k : Key32), s.peerStaticDh[fp]? = some k → Announced s.trace fp k
  sessions : ∀ (fp : Fingerprint) (σ : NoiseSession), s.noiseSessions[fp]? = some σ → σ.isReady = true →
    σ.view.BoundTo s.trace fp
  trace : Runs.Justified Obs.OnBound s.trace

/-- One session changes to one bound by what was announced before. -/
theorem BoundNode.update {s s' : MeshNode S} (h : s.BoundNode) {fp : Fingerprint} {σ : NoiseSession} {os : List Obs}
    (hσ : σ.isReady = true → σ.view.BoundTo s.trace fp) (sessions : s'.noiseSessions = s.noiseSessions.insert fp σ)
    (peers : s'.peerStaticDh = s.peerStaticDh) (trace : s'.trace = s.trace ++ os)
    (hos : ∀ o ∈ os, o.OnBound s.trace) : s'.BoundNode := by
  refine ⟨fun fp' k hk => ?_, fun fp' σ' held ready => ?_, ?_⟩
  · rw [trace]
    exact (h.peers fp' k (peers ▸ hk)).mono os
  · rw [trace]
    rw [sessions, Std.ExtTreeMap.getElem?_insert] at held
    split_ifs at held with heq
    · cases held
      obtain rfl : fp = fp' := by simpa using heq
      exact (hσ ready).mono os
    · exact (h.sessions fp' σ' held ready).mono os
  · rw [trace]
    exact h.trace.append Obs.OnBound.mono hos

theorem Change.boundNode {s s' : MeshNode S} (h : s.BoundNode) (change : Change s s') : s'.BoundNode := by
  cases change with
  | neutral os trace quiet sessions peers =>
    refine ⟨fun fp k hk => ?_, fun fp σ held ready => ?_, ?_⟩
    · rw [trace]
      exact (h.peers fp k (peers fp k hk)).mono os
    · rw [trace]
      exact (h.sessions fp σ (sessions fp σ held) ready).mono os
    · rw [trace]
      exact h.trace.append Obs.OnBound.mono fun o ho => (quiet o ho).onBound _
  | learn pkt fp k binds trace sessions peers =>
    refine ⟨fun fp' k' hk => ?_, fun fp' σ held ready => ?_, ?_⟩
    · rw [trace]
      rw [peers, Std.ExtTreeMap.getElem?_insert] at hk
      split_ifs at hk with heq
      · cases hk
        obtain rfl : fp = fp' := by simpa using heq
        exact ⟨pkt, by simp, binds⟩
      · exact (h.peers fp' k' hk).mono _
    · rw [trace]
      exact (h.sessions fp' σ (sessions ▸ held) ready).mono _
    · rw [trace]
      exact h.trace.append Obs.OnBound.mono (by simp [Obs.OnBound])
  | start fp σ m os trace quiet shape own sessions peers =>
    refine h.update ?_ sessions peers trace ?_
    · exact fun ready => absurd (shape.not_ready.symm.trans ready) (by decide)
    · intro o ho
      rcases List.mem_cons.mp ho with rfl | ho
      · trivial
      · exact (quiet o ho).onBound _
  | complete fp σ σ' ms k os held shape trace quiet ready transcript role window known bound sessions peers =>
    have hb : σ'.view.BoundTo s.trace fp := ⟨k, bound, h.peers fp k known⟩
    rw [List.append_assoc] at trace
    refine h.update (fun _ => hb) sessions peers trace ?_
    intro o ho
    rcases List.mem_append.mp ho with ho | ho
    · exact (quiet o ho).onBound _
    · rw [List.mem_singleton.mp ho]
      exact fun _ => ⟨σ'.view, rfl, hb⟩
  | encrypt fp σ σ' n pt os held ready trace quiet ready' view window sessions peers =>
    have hb := h.sessions fp σ held ready
    refine h.update (fun _ => view ▸ hb) sessions peers trace ?_
    intro o ho
    rcases List.mem_cons.mp ho with rfl | ho
    · exact hb
    · rcases List.mem_cons.mp ho with rfl | ho
      · exact hb
      · exact (quiet o ho).onBound _
  | encryptFail fp σ pt held ready trace sessions peers =>
    have hb := h.sessions fp σ held ready
    have hins : s'.noiseSessions = s.noiseSessions.insert fp σ := sessions.trans (Maps.insert_held held).symm
    refine h.update (fun _ => hb) hins peers trace ?_
    intro o ho
    rw [List.mem_singleton.mp ho]
    exact hb
  | decrypt fp σ σ' n pt eph held ready trace ready' view fresh window sessions peers =>
    have hb := h.sessions fp σ held ready
    refine h.update (fun _ => view ▸ hb) sessions peers trace ?_
    intro o ho
    rcases List.mem_cons.mp ho with rfl | ho
    · exact hb
    · rw [List.mem_singleton.mp ho]
      exact ⟨σ'.view, rfl, view ▸ hb⟩
  | surface fp σ held ready trace sessions peers =>
    have hb := h.sessions fp σ held ready
    have hins : s'.noiseSessions = s.noiseSessions.insert fp σ := sessions.trans (Maps.insert_held held).symm
    refine h.update (fun _ => hb) hins peers trace ?_
    intro o ho
    rw [List.mem_singleton.mp ho]
    exact fun _ => ⟨σ.view, rfl, hb⟩

/-! ## Reachable nodes -/

variable [Store S]

/-- The rule for what every move keeps: it holds in every reachable node. -/
theorem Reachable.of_moves (laws : SnowLaws P) (Inv : MeshNode S → Prop) (h₀ : ∀ s : MeshNode S, s.Initial → Inv s)
    (hmove : ∀ c c' : MeshNode S × Hand, c.1.Shaped → Inv c.1 → Move c c' → Inv c'.1) {s : MeshNode S}
    (hs : s.Reachable) : s.Shaped ∧ Inv s := by
  refine Reachable.invariant (fun s => s.Shaped ∧ Inv s) ?_ ?_ hs
  · intro s hinit
    refine ⟨?_, h₀ s hinit⟩
    obtain ⟨identity, cfg, clock, store, nickname, rngSeed, entropy, rfl⟩ := hinit
    intro fp σ held
    simp [MeshNode.new] at held
  · intro s c hinv
    refine Runs.chain_invariant (fun d : MeshNode S × Hand => d.1.Shaped ∧ Inv d.1) ?_
      (exec_moves laws hinv.1 c) hinv
    exact fun d d' hd move => ⟨move.change.shaped hd.1, hmove d d' hd.1 hd.2 move⟩

theorem Reachable.shaped (laws : SnowLaws P) {s : MeshNode S} (hs : s.Reachable) : s.Shaped :=
  (hs.of_moves laws (fun _ => True) (fun _ _ => trivial) fun _ _ _ _ _ => trivial).1

theorem Reachable.settled (laws : SnowLaws P) {s : MeshNode S} (hs : s.Reachable) : s.Settled := by
  refine (hs.of_moves laws Settled ?_ fun c c' _ h move => move.keeps.settled h).2
  rintro s ⟨identity, cfg, clock, store, nickname, rngSeed, entropy, rfl⟩ fp hready
  simp [MeshNode.new]

theorem Reachable.boundNode (laws : SnowLaws P) {s : MeshNode S} (hs : s.Reachable) : s.BoundNode := by
  refine (hs.of_moves laws BoundNode ?_ fun c c' _ h move => move.change.boundNode h).2
  rintro s ⟨identity, cfg, clock, store, nickname, rngSeed, entropy, rfl⟩
  refine ⟨fun fp k hk => ?_, fun fp σ held => ?_, Runs.justified_nil _⟩
  · simp [MeshNode.new] at hk
  · simp [MeshNode.new] at held

/-- In every reachable node a ready session for `fp` authenticated the X25519 key of an accepted
announce of `fp`; whatever was encrypted, surfaced as a message or reported as verified for `fp` was
on such a session, under an announce accepted before it. -/
theorem session_bound_to_announce (laws : SnowLaws P) {s : MeshNode S} (hs : s.Reachable) :
    (∀ (fp : Fingerprint) (σ : NoiseSession), s.noiseSessions[fp]? = some σ → σ.isReady = true →
      ∃ k pkt, σ.remoteStatic = some k ∧ .accept pkt ∈ s.trace ∧ pkt.Binds fp k) ∧
    (∀ before after fp side plaintext, s.trace = before ++ .encryptCall fp side plaintext :: after →
      ∃ k pkt, side.remoteStatic = some k ∧ .accept pkt ∈ before ∧ pkt.Binds fp k) ∧
    (∀ before after fp eph text kind side, s.trace = before ++ .event (.dmReceived fp eph text kind) side :: after →
      ∃ v k pkt, side = some v ∧ v.remoteStatic = some k ∧ .accept pkt ∈ before ∧ pkt.Binds fp k) ∧
    (∀ before after fp side, s.trace = before ++ .event (.dmSession fp true) side :: after →
      ∃ v k pkt, side = some v ∧ v.remoteStatic = some k ∧ .accept pkt ∈ before ∧ pkt.Binds fp k) := by
  have h := hs.boundNode laws
  refine ⟨?_, ?_, ?_, ?_⟩
  · intro fp σ held ready
    obtain ⟨k, hk, pkt, hmem, hbinds⟩ := h.sessions fp σ held ready
    exact ⟨k, pkt, hk, hmem, hbinds⟩
  · intro before after fp side plaintext hsplit
    obtain ⟨k, hk, pkt, hmem, hbinds⟩ := h.trace before _ after hsplit
    exact ⟨k, pkt, hk, hmem, hbinds⟩
  · intro before after fp eph text kind side hsplit
    obtain ⟨v, hv, k, hk, pkt, hmem, hbinds⟩ := h.trace before _ after hsplit
    exact ⟨v, k, pkt, hv, hk, hmem, hbinds⟩
  · intro before after fp side hsplit
    obtain ⟨v, hv, k, hk, pkt, hmem, hbinds⟩ := h.trace before _ after hsplit rfl
    exact ⟨v, k, pkt, hv, hk, hmem, hbinds⟩

end MeshNode

end CockroachChat

namespace CockroachChat.Reference
attribute [local instance] prims

/-- Node 2 completed a handshake with node 1, and its session is bound to what node 1 announced. -/
theorem called_session_bound : ∃ σ : NoiseSession, (called 1 2 "hi").noiseSessions[fpOf 1]? = some σ ∧
    σ.isReady = true ∧ ∃ k pkt, σ.remoteStatic = some k ∧ .accept pkt ∈ (called 1 2 "hi").trace ∧
      pkt.Binds (fpOf 1) k := by
  have hready : (called 1 2 "hi").sessionReady (fpOf 1) = true := by decide +kernel
  have hs := called_reachable 1 2 "hi"
  generalize called 1 2 "hi" = s at hready hs
  obtain ⟨σ, held, ready⟩ := MeshNode.sessionReady_iff.mp hready
  exact ⟨σ, held, ready, (MeshNode.session_bound_to_announce laws hs).1 (fpOf 1) σ held ready⟩

end CockroachChat.Reference
