import CockroachChat.Sessions.Binding

/-! # Texts are sent once and opened once

Along every run of a node, the texts it encrypted are among those it was asked to send, each at most
as often; and no slot of a session, given by its handshake, its direction and a nonce, is opened
twice, as long as the handshake messages the node writes are all different. -/
namespace CockroachChat
set_option autoImplicit false

variable [P : Prims] {S : Type}

def SessionView.ownMsg (v : SessionView) : Option Bytes := v.transcript[if v.initiator then 0 else 1]?

/-- Where in which session a plaintext went. -/
def Transfer.slot (t : Transfer) : List Bytes × Bool × ℕ := (t.side.transcript, t.side.initiator, t.nonce)

/-- A handshake message a node wrote, with the peer and the role it wrote it in. -/
def Obs.wroteEntry : Obs → Option (Fingerprint × Bool × Bytes)
  | .wrote fp initiator msg => some (fp, initiator, msg)
  | _ => none

omit P in
theorem Obs.mem_wroteEntry {trace : List Obs} {fp : Fingerprint} {initiator : Bool} {msg : Bytes} :
    .wrote fp initiator msg ∈ trace ↔ (fp, initiator, msg) ∈ trace.filterMap Obs.wroteEntry := by
  rw [List.mem_filterMap]
  constructor
  · exact fun h => ⟨_, h, rfl⟩
  · rintro ⟨o, ho, heq⟩
    cases o <;> cases heq
    exact ho

theorem Obs.filterMap_opened {id : LocalIdentity} {os : List Obs} (h : ∀ o ∈ os, o.Neutral id) :
    os.filterMap Obs.opened = [] := by
  rw [List.filterMap_eq_nil_iff]
  exact fun o ho => (h o ho).opened

/-- The chat text an observation shows reaching the user, with the peer it is said to come from. -/
def Obs.receivedText : Obs → Option (Fingerprint × String)
  | .event (.dmReceived fp _ text kind) _ => if kind = dmKindText then some (fp, text) else none
  | _ => none

theorem Obs.Neutral.receivedText {id : LocalIdentity} {o : Obs} (h : o.Neutral id) : o.receivedText = none := by
  cases o with
  | event e side =>
    cases e with
    | dmReceived fp eph text kind => exact h.elim
    | _ => rfl
  | _ => rfl

theorem Obs.filterMap_receivedText {id : LocalIdentity} {os : List Obs} (h : ∀ o ∈ os, o.Neutral id) :
    os.filterMap Obs.receivedText = [] := by
  rw [List.filterMap_eq_nil_iff]
  exact fun o ho => (h o ho).receivedText

namespace MeshNode

/-! ## Sending -/

section Sending
variable [Store S] [EnvelopeStore S]

theorem Moves.texts {c c' : MeshNode S × Hand} (h : Moves c c') (x : Fingerprint × String) :
    c'.1.load x + c'.2.count x ≤ c.1.load x + c.2.count x := by
  induction h with
  | refl => exact le_refl _
  | tail _ move ih => exact (move.keeps.texts x).trans ih

/-- Each text encrypted for a peer is one the node was asked to send to that peer, and none is
encrypted more often than it was asked for. -/
theorem sent_subperm_asked (laws : SnowLaws P) {s₀ : MeshNode S} (hinit : s₀.Initial)
    (empty : ∀ fp, EnvelopeStore.envelopes s₀.store fp = []) (calls : List Call) :
    ((Runs.run exec s₀ calls).trace.filterMap Obs.sentText).Subperm (calls.flatMap fun c => asked c.action) := by
  have hrun := Runs.run_history exec
    (fun past s => s.Shaped ∧ ∀ x, s.load x ≤ (past.flatMap fun c => asked c.action).count x) s₀ ?_ ?_ calls
  · rw [List.subperm_ext_iff]
    intro x _
    exact (Nat.le_add_right _ _).trans (hrun.2 x)
  · refine ⟨hinit.reachable.shaped laws, fun x => ?_⟩
    obtain ⟨identity, cfg, clock, store, nickname, rngSeed, entropy, rfl⟩ := hinit
    have hheld : EnvelopeStore.envelopes store x.1 = [] := empty x.1
    simp [load, MeshNode.new, hheld]
  · rintro past s c ⟨shaped, hload⟩
    have hmoves := exec_moves laws shaped c
    refine ⟨?_, fun x => ?_⟩
    · exact Runs.chain_invariant (fun d : MeshNode S × Hand => d.1.Shaped)
        (fun d d' hd move => move.change.shaped hd) hmoves shaped
    · have hstep := hmoves.texts x
      have hpast := hload x
      simp only [List.count_nil, Nat.add_zero] at hstep
      rw [List.flatMap_append, List.count_append, List.flatMap_singleton]
      omega

end Sending

/-! ## Opening -/

/-- All handshake messages the node wrote are different: each carries fresh randomness. -/
def FreshMessages (s : MeshNode S) : Prop := ((s.trace.filterMap Obs.wroteEntry).map (·.2.2)).Nodup

theorem FreshMessages.before {s s' : MeshNode S} {os : List Obs} (h : s'.FreshMessages) (trace : s'.trace = s.trace ++ os) :
    s.FreshMessages := by
  unfold FreshMessages at h ⊢
  rw [trace, List.filterMap_append, List.map_append, List.nodup_append] at h
  exact h.1

/-- A message belongs to one peer and one role. -/
theorem FreshMessages.unique {s : MeshNode S} (h : s.FreshMessages) {fp fp' : Fingerprint} {b b' : Bool} {m : Bytes}
    (h₁ : .wrote fp b m ∈ s.trace) (h₂ : .wrote fp' b' m ∈ s.trace) : fp = fp' ∧ b = b' := by
  have heq := List.inj_on_of_nodup_map h (Obs.mem_wroteEntry.mp h₁) (Obs.mem_wroteEntry.mp h₂) rfl
  cases heq
  exact ⟨rfl, rfl⟩

/-- The nonce windows of the sessions held cover what was opened on them, and what was opened on
sessions no longer held was opened under messages never written again. -/
structure Windowed (s : MeshNode S) : Prop where
  own : ∀ (fp : Fingerprint) (σ : NoiseSession), s.noiseSessions[fp]? = some σ →
    ∃ m, σ.ownMsg = some m ∧ .wrote fp σ.initiator m ∈ s.trace
  past : ∀ t ∈ s.trace.filterMap Obs.opened, ∃ m, t.side.ownMsg = some m ∧ .wrote t.fp t.side.initiator m ∈ s.trace
  below : ∀ t ∈ s.trace.filterMap Obs.opened, ∀ σ, s.noiseSessions[t.fp]? = some σ → σ.ownMsg = t.side.ownMsg →
    t.nonce < σ.recvNonce
  distinct : ((s.trace.filterMap Obs.opened).map Transfer.slot).Nodup

/-- A move that opens nothing: the sessions after it are old ones, or have windows of their own. -/
theorem Windowed.update {s s' : MeshNode S} (h : s.Windowed) {os : List Obs} (trace : s'.trace = s.trace ++ os)
    (opens : os.filterMap Obs.opened = [])
    (sessions : ∀ (fp : Fingerprint) (σ : NoiseSession), s'.noiseSessions[fp]? = some σ →
      s.noiseSessions[fp]? = some σ ∨
        (∃ m, σ.ownMsg = some m ∧ .wrote fp σ.initiator m ∈ s'.trace) ∧
          ∀ t ∈ s.trace.filterMap Obs.opened, t.fp = fp → σ.ownMsg = t.side.ownMsg → t.nonce < σ.recvNonce) :
    s'.Windowed := by
  have hopened : s'.trace.filterMap Obs.opened = s.trace.filterMap Obs.opened := by
    rw [trace, List.filterMap_append, opens, List.append_nil]
  have hmono : ∀ o ∈ s.trace, o ∈ s'.trace := fun o ho => trace ▸ List.mem_append_left os ho
  refine ⟨?_, ?_, ?_, ?_⟩
  · intro fp σ held
    rcases sessions fp σ held with hold | ⟨hown, -⟩
    · obtain ⟨m, hm, hwrote⟩ := h.own fp σ hold
      exact ⟨m, hm, hmono _ hwrote⟩
    · exact hown
  · rw [hopened]
    intro t ht
    obtain ⟨m, hm, hwrote⟩ := h.past t ht
    exact ⟨m, hm, hmono _ hwrote⟩
  · rw [hopened]
    intro t ht σ held hsame
    rcases sessions t.fp σ held with hold | ⟨-, hbelow⟩
    · exact h.below t ht σ hold hsame
    · exact hbelow t ht rfl hsame
  · rw [hopened]
    exact h.distinct

theorem InFlight.recvNonce {σ : NoiseSession} (h : σ.InFlight) : σ.recvNonce = 0 := by
  obtain ⟨⟨hs, hinner⟩, -⟩ := h
  simp [NoiseSession.recvNonce, hinner]

/-- Completing a handshake does not change which message of its own a session began with. -/
theorem ownMsg_extend {σ σ' : NoiseSession} {ms : List Bytes} (shape : σ.InFlight)
    (transcript : σ'.transcript = σ.transcript ++ ms) (role : σ'.initiator = σ.initiator) : σ'.ownMsg = σ.ownMsg := by
  unfold NoiseSession.ownMsg
  rw [role, transcript]
  obtain ⟨-, ⟨hrole, hlen⟩ | ⟨hrole, hlen⟩⟩ := shape
  · rw [hrole]
    exact List.getElem?_append_left (by simp [hlen])
  · rw [hrole]
    exact List.getElem?_append_left (by simp [hlen])

theorem Change.windowed {s s' : MeshNode S} (fresh : s'.FreshMessages) (h : s.Windowed) (change : Change s s') :
    s'.Windowed := by
  cases change with
  | neutral os trace quiet sessions peers =>
    exact h.update trace (Obs.filterMap_opened quiet) fun fp σ held => .inl (sessions fp σ held)
  | learn pkt fp k binds trace sessions peers =>
    exact h.update trace rfl fun fp σ held => .inl (sessions ▸ held)
  | start fp σ m os trace quiet shape own sessions peers =>
    have hall : ∀ o ∈ Obs.wrote fp σ.initiator m :: os, o.Neutral s.identity :=
      List.forall_mem_cons.mpr ⟨trivial, quiet⟩
    refine h.update trace (Obs.filterMap_opened hall) fun fp' σ' held => ?_
    rw [sessions, Std.ExtTreeMap.getElem?_insert] at held
    split_ifs at held with heq
    · cases held
      obtain rfl : fp = fp' := by simpa using heq
      refine .inr ⟨⟨m, own, by simp [trace]⟩, fun t ht _ hsame => ?_⟩
      -- a message that was just written is not that of an earlier session
      obtain ⟨m', hm', hwrote⟩ := h.past t ht
      have hnew : σ.ownMsg = t.side.ownMsg := hsame
      rw [own, hm', Option.some.injEq] at hnew
      subst hnew
      unfold FreshMessages at fresh
      rw [trace, List.filterMap_append, List.map_append, List.nodup_append] at fresh
      have hold : m ∈ (s.trace.filterMap Obs.wroteEntry).map (·.2.2) :=
        List.mem_map.mpr ⟨_, Obs.mem_wroteEntry.mp hwrote, rfl⟩
      have hnow : m ∈ ((Obs.wrote fp σ.initiator m :: os).filterMap Obs.wroteEntry).map (·.2.2) :=
        List.mem_map.mpr ⟨_, Obs.mem_wroteEntry.mp List.mem_cons_self, rfl⟩
      exact absurd rfl (fresh.2.2 m hold m hnow)
    · exact .inl held
  | complete fp σ σ' ms k os held shape trace quiet ready transcript role window known bound sessions peers =>
    have hopens : (os ++ [Obs.event (.dmSession fp true) (some σ'.view)]).filterMap Obs.opened = [] := by
      rw [List.filterMap_append, Obs.filterMap_opened quiet]
      rfl
    rw [List.append_assoc] at trace
    refine h.update trace hopens fun fp' σ₁ held₁ => ?_
    rw [sessions, Std.ExtTreeMap.getElem?_insert] at held₁
    split_ifs at held₁ with heq
    · cases held₁
      obtain rfl : fp = fp' := by simpa using heq
      obtain ⟨m, hm, hwrote⟩ := h.own fp σ held
      have hown := ownMsg_extend shape transcript role
      refine .inr ⟨⟨m, hown.trans hm, ?_⟩, fun t ht hfp hsame => ?_⟩
      · rw [role, trace]
        exact List.mem_append_left _ hwrote
      · -- nothing was opened while the session was in flight
        subst hfp
        have hzero := h.below t ht σ held (hown.symm.trans hsame)
        rw [InFlight.recvNonce shape] at hzero
        exact absurd hzero (Nat.not_lt_zero _)
    · exact .inl held₁
  | encrypt fp σ σ' n pt os held ready trace quiet ready' view window sessions peers =>
    have hopens : (Obs.encryptCall fp σ.view pt :: .encrypted fp σ.view n pt :: os).filterMap Obs.opened = [] := by
      show os.filterMap Obs.opened = []
      exact Obs.filterMap_opened quiet
    refine h.update trace hopens fun fp' σ₁ held₁ => ?_
    rw [sessions, Std.ExtTreeMap.getElem?_insert] at held₁
    split_ifs at held₁ with heq
    · cases held₁
      obtain rfl : fp = fp' := by simpa using heq
      have hown : σ'.ownMsg = σ.ownMsg := congrArg SessionView.ownMsg view
      have hrole : σ'.initiator = σ.initiator := congrArg SessionView.initiator view
      obtain ⟨m, hm, hwrote⟩ := h.own fp σ held
      refine .inr ⟨⟨m, hown.trans hm, ?_⟩, fun t ht hfp hsame => ?_⟩
      · rw [hrole, trace]
        exact List.mem_append_left _ hwrote
      · subst hfp
        rw [window]
        exact h.below t ht σ held (hown.symm.trans hsame)
    · exact .inl held₁
  | encryptFail fp σ pt held ready trace sessions peers =>
    exact h.update trace rfl fun fp σ held => .inl (sessions ▸ held)
  | decrypt fp σ σ' n pt eph held ready trace ready' view window_le window sessions peers =>
    have hopened : s'.trace.filterMap Obs.opened = s.trace.filterMap Obs.opened ++ [⟨fp, σ.view, n, pt⟩] := by
      rw [trace, List.filterMap_append]
      rfl
    have hmono : ∀ o ∈ s.trace, o ∈ s'.trace := fun o ho => trace ▸ List.mem_append_left _ ho
    have hown : σ'.ownMsg = σ.ownMsg := congrArg SessionView.ownMsg view
    have hrole : σ'.initiator = σ.initiator := congrArg SessionView.initiator view
    obtain ⟨m, hm, hwrote⟩ := h.own fp σ held
    refine ⟨?_, ?_, ?_, ?_⟩
    · intro fp' σ₁ held₁
      rw [sessions, Std.ExtTreeMap.getElem?_insert] at held₁
      split_ifs at held₁ with heq
      · cases held₁
        obtain rfl : fp = fp' := by simpa using heq
        exact ⟨m, hown.trans hm, by rw [hrole]; exact hmono _ hwrote⟩
      · obtain ⟨m', hm', hwrote'⟩ := h.own fp' σ₁ held₁
        exact ⟨m', hm', hmono _ hwrote'⟩
    · rw [hopened]
      intro t ht
      rcases List.mem_append.mp ht with hold | hnew
      · obtain ⟨m', hm', hwrote'⟩ := h.past t hold
        exact ⟨m', hm', hmono _ hwrote'⟩
      · obtain rfl := List.mem_singleton.mp hnew
        exact ⟨m, hm, hmono _ hwrote⟩
    · rw [hopened]
      intro t ht σ₁ held₁ hsame
      rw [sessions] at held₁
      rcases List.mem_append.mp ht with hold | hnew
      · rw [Std.ExtTreeMap.getElem?_insert] at held₁
        split_ifs at held₁ with heq
        · cases held₁
          obtain rfl : fp = t.fp := by simpa using heq
          have hlt := h.below t hold σ held (hown.symm.trans hsame)
          omega
        · exact h.below t hold σ₁ held₁ hsame
      · obtain rfl := List.mem_singleton.mp hnew
        rw [Std.ExtTreeMap.getElem?_insert_self] at held₁
        cases held₁
        show n < σ'.recvNonce
        omega
    · rw [hopened, List.map_append, List.nodup_append]
      refine ⟨h.distinct, List.nodup_singleton _, fun slot hold slot' hnew heq => ?_⟩
      -- an earlier opening in this slot was on this very session, below its window
      obtain ⟨t, ht, rfl⟩ := List.mem_map.mp hold
      obtain rfl := List.mem_singleton.mp hnew
      simp only [Transfer.slot, Prod.mk.injEq] at heq
      obtain ⟨htrans, hinit, hnonce⟩ := heq
      obtain ⟨m', hm', hwrote'⟩ := h.past t ht
      have hsame : σ.ownMsg = t.side.ownMsg := by
        unfold NoiseSession.ownMsg SessionView.ownMsg
        rw [htrans, hinit]
        rfl
      rw [← hsame, hm, Option.some.injEq] at hm'
      subst hm'
      obtain ⟨hfp, -⟩ := (fresh.before trace).unique hwrote' hwrote
      have hlt := h.below t ht σ (hfp ▸ held) hsame
      omega
  | surface fp σ held ready trace sessions peers =>
    exact h.update trace rfl fun fp σ held => .inl (sessions ▸ held)

/-! ## Reporting -/

/-- What every change adds to the trace: announces of our own carry our own keys, and the texts
reported are those opened. -/
theorem Change.adds {s s' : MeshNode S} (change : Change s s') :
    ∃ os, s'.trace = s.trace ++ os ∧ (∀ pkt, .originate pkt ∈ os → s.identity.Signs pkt) ∧
      os.filterMap Obs.receivedText = (os.filterMap Obs.opened).filterMap Transfer.text := by
  have hquiet : ∀ os : List Obs, (∀ o ∈ os, o.Neutral s.identity) →
      (∀ pkt, .originate pkt ∈ os → s.identity.Signs pkt) ∧
        os.filterMap Obs.receivedText = (os.filterMap Obs.opened).filterMap Transfer.text := by
    intro os quiet
    refine ⟨fun pkt hpkt => quiet _ hpkt, ?_⟩
    rw [Obs.filterMap_receivedText quiet, Obs.filterMap_opened quiet]
    rfl
  cases change with
  | neutral os trace quiet sessions peers => exact ⟨os, trace, hquiet os quiet⟩
  | learn pkt fp k binds trace sessions peers => exact ⟨_, trace, by simp, rfl⟩
  | start fp σ m os trace quiet shape own sessions peers =>
    exact ⟨_, trace, hquiet _ (List.forall_mem_cons.mpr ⟨trivial, quiet⟩)⟩
  | complete fp σ σ' ms k os held shape trace quiet ready transcript role window known bound sessions peers =>
    obtain ⟨hsigns, htexts⟩ := hquiet os quiet
    refine ⟨_, trace.trans (List.append_assoc ..), ?_, ?_⟩
    · simpa using hsigns
    · rw [List.filterMap_append, List.filterMap_append, List.filterMap_append, htexts]
      rfl
  | encrypt fp σ σ' n pt os held ready trace quiet ready' view window sessions peers =>
    obtain ⟨hsigns, htexts⟩ := hquiet os quiet
    exact ⟨_, trace, by simpa using hsigns, htexts⟩
  | encryptFail fp σ pt held ready trace sessions peers => exact ⟨_, trace, by simp, rfl⟩
  | decrypt fp σ σ' n pt eph held ready trace ready' view window_le window sessions peers =>
    refine ⟨_, trace, by simp, ?_⟩
    simp only [List.filterMap_cons, List.filterMap_nil, Obs.receivedText, Obs.opened, Transfer.text]
    split_ifs <;> rfl
  | surface fp σ held ready trace sessions peers => exact ⟨_, trace, by simp, rfl⟩

/-- The trace of a node is an account of what it did under its own identity. -/
structure Accounted (s : MeshNode S) : Prop where
  signs : ∀ pkt, .originate pkt ∈ s.trace → s.identity.Signs pkt
  texts : s.trace.filterMap Obs.receivedText = (s.trace.filterMap Obs.opened).filterMap Transfer.text

/-! ## Reachable nodes -/

section Reachable
variable [Store S]

theorem Move.accounted {c c' : MeshNode S × Hand} (h : c.1.Accounted) (move : Move c c') : c'.1.Accounted := by
  obtain ⟨os, trace, hsigns, htexts⟩ := move.change.adds
  refine ⟨fun pkt hpkt => ?_, ?_⟩
  · rw [move.keeps.identity]
    rw [trace, List.mem_append] at hpkt
    exact hpkt.elim (h.signs pkt) (hsigns pkt)
  · rw [trace, List.filterMap_append, List.filterMap_append, List.filterMap_append, h.texts, htexts]

theorem Reachable.accounted (laws : SnowLaws P) {s : MeshNode S} (hs : s.Reachable) : s.Accounted := by
  refine (hs.of_moves laws Accounted ?_ fun c c' _ h move => move.accounted h).2
  rintro s ⟨identity, cfg, clock, store, nickname, rngSeed, entropy, rfl⟩
  exact ⟨by simp [MeshNode.new], rfl⟩

theorem Reachable.windowed (laws : SnowLaws P) {s : MeshNode S} (hs : s.Reachable) (fresh : s.FreshMessages) :
    s.Windowed := by
  refine (hs.of_moves laws (fun s => s.FreshMessages → s.Windowed) ?_ ?_).2 fresh
  · rintro s ⟨identity, cfg, clock, store, nickname, rngSeed, entropy, rfl⟩ -
    exact ⟨by simp [MeshNode.new], by simp [MeshNode.new], by simp [MeshNode.new], by simp [MeshNode.new]⟩
  · intro c c' _ h move fresh'
    obtain ⟨os, trace, -⟩ := move.change.adds
    exact move.change.windowed fresh' (h (fresh'.before trace))

end Reachable

end MeshNode
end CockroachChat
