import CockroachChat.Node.ReferenceNodes
import CockroachChat.Sessions.Binding

/-! # Retries

Which handshakes a tick drives again, and after which commands and which inbound handshake packets a
handshake is among them. -/
namespace CockroachChat
set_option autoImplicit false

namespace MeshNode
variable [P : Prims] {S : Type}

/-! ## What a tick retries -/

/-- Among `os` a fresh first handshake message for `fp` goes out to where `fp` is. -/
def Msg1 (s : MeshNode S) (fp : Fingerprint) (os : List Obs) : Prop :=
  ∃ pkt eph n σ₀ σ, .wrote fp true pkt.payload ∈ os ∧ .originate pkt ∈ os ∧ pkt.msgType = .noiseHandshake ∧
    s.fpToEph[fp]? = some eph ∧ pkt.recipient = some eph ∧ s.drawn ≤ n ∧
    NoiseSession.newInitiator s.identity.dhPrivateBytes = .ok σ₀ ∧
    σ₀.writeHandshake (s.entropy n) = .ok (σ, pkt.payload)

theorem Msg1.weaken {s t : MeshNode S} {fp : Fingerprint} {os : List Obs} (h : t.Msg1 fp os)
    (identity : t.identity = s.identity) (entropy : t.entropy = s.entropy) (fpToEph : t.fpToEph = s.fpToEph)
    (drawn : s.drawn ≤ t.drawn) (before after : List Obs) : s.Msg1 fp (before ++ os ++ after) := by
  obtain ⟨pkt, eph, n, σ₀, σ, hwrote, hpkt, htype, heph, hrec, hn, hnew, hwrite⟩ := h
  refine ⟨pkt, eph, n, σ₀, σ, ?_, ?_, htype, fpToEph ▸ heph, hrec, drawn.trans hn, identity ▸ hnew, entropy ▸ hwrite⟩
  · simp [hwrote]
  · simp [hpkt]

/-- Starting over with `fp`: the first message is written, and sent if `fp` is routable. -/
theorem restart_spec (laws : SnowLaws P) (s : MeshNode S) (fp : Fingerprint) :
    ∃ sessions seen last attempts m os,
      { s with noiseSessions := s.noiseSessions.erase fp }.beginHandshake fp =
        { s with
          drawn := s.drawn + 1, noiseSessions := sessions, seen := seen, handshakeLastMs := last
          handshakeAttempts := attempts, trace := s.trace ++ .wrote fp true m :: os } ∧
      (∀ o ∈ os, o.Quiet s.identity) ∧ (s.fpToEph.contains fp = true → s.Msg1 fp (.wrote fp true m :: os)) := by
  let t : MeshNode S := { s with noiseSessions := s.noiseSessions.erase fp }
  obtain ⟨σ, m, hfresh, heq⟩ := beginHandshake_spec laws t fp
  obtain ⟨-, hrole, -⟩ := hfresh.spec laws
  obtain ⟨σ₀, hnew, hwrite⟩ := hfresh
  rw [heq, begun]
  let u : MeshNode S := { t with
    handshakeLastMs := t.handshakeLastMs.insert fp t.clock
    handshakeAttempts := t.handshakeAttempts.insert fp (t.handshakeAttempts[fp]?.getD 0 + 1) }
  cases hroute : s.fpToEph[fp]? with
  | none =>
    obtain ⟨seen, os, hout, hos⟩ := handshakeOut_update u fp σ m
    refine ⟨u.noiseSessions.insert fp σ, seen, u.handshakeLastMs, u.handshakeAttempts, m, os, ?_, hos, ?_⟩
    · rw [hout, hrole]
    · intro h
      rw [Std.ExtTreeMap.contains_eq_isSome_getElem?, hroute] at h
      cases h
  | some eph =>
    let v : MeshNode S := { u with drawn := u.drawn + 1, noiseSessions := u.noiseSessions.insert fp σ }.note
      (.wrote fp σ.initiator m)
    let pkt := v.ownPacket .noiseHandshake (some eph) m
    have hsend : u.handshakeOut fp σ m = v.flood pkt := sendDirected_some (s := v) hroute .noiseHandshake m
    refine ⟨v.noiseSessions, (v.seen.observe v.cfg pkt.digest v.clock).1, u.handshakeLastMs, u.handshakeAttempts, m,
      .originate pkt :: v.broadcastObs pkt none, ?_, ?_, ?_⟩
    · rw [hsend]
      simp [flood, v, u, t, note, hrole]
    · intro o ho
      rcases List.mem_cons.mp ho with rfl | ho
      · exact fun hann => absurd (show MsgType.noiseHandshake.toU8 = MsgType.announce.toU8 from hann) (by decide)
      · exact broadcastObs_quiet v pkt none o ho
    · intro _
      have hpayload : pkt.payload = m := rfl
      exact ⟨pkt, eph, s.drawn, σ₀, σ, by simp [hpayload], by simp, rfl, hroute, rfl, le_refl _, hnew, hwrite⟩

/-- A tick starts over with exactly the peers on the list. -/
theorem retryAll_spec (laws : SnowLaws P) (l : List Fingerprint) (s : MeshNode S) :
    ∃ os, (l.foldl (fun s fp => { s with noiseSessions := s.noiseSessions.erase fp }.beginHandshake fp) s).trace =
        s.trace ++ os ∧
      (∀ fp m, .wrote fp true m ∈ os → fp ∈ l) ∧ ∀ fp ∈ l, s.fpToEph.contains fp = true → s.Msg1 fp os := by
  induction l generalizing s with
  | nil => exact ⟨[], by simp, by simp, by simp⟩
  | cons fp l ih =>
    obtain ⟨sessions, seen, last, attempts, m, os₁, heq, hquiet, hmsg⟩ := restart_spec laws s fp
    obtain ⟨os₂, htrace, honly, hall⟩ := ih ({ s with noiseSessions := s.noiseSessions.erase fp }.beginHandshake fp)
    rw [heq] at htrace hall
    refine ⟨.wrote fp true m :: os₁ ++ os₂, ?_, ?_, ?_⟩
    · rw [List.foldl_cons, heq, htrace]
      simp
    · intro fp' m' hmem
      rcases List.mem_append.mp hmem with hmem | hmem
      · rcases List.mem_cons.mp hmem with h | h
        · cases h
          exact List.mem_cons_self
        · exact (hquiet _ h).elim
      · exact List.mem_cons_of_mem _ (honly fp' m' hmem)
    · intro fp' hmem hroute
      rcases List.mem_cons.mp hmem with rfl | hmem
      · have := (hmsg hroute).weaken rfl rfl rfl (le_refl _) [] os₂
        simpa using this
      · have := (hall fp' hmem hroute).weaken (s := s) rfl rfl rfl (Nat.le_succ _) (.wrote fp true m :: os₁) []
        simpa using this

variable [Store S]

/-- A tick at `now` sends a fresh first handshake message to `fp`. -/
def TickEmitsMsg1 (s : MeshNode S) (now : Millis) (fp : Fingerprint) : Prop :=
  ∃ os, (exec s ⟨now, .tick⟩).trace = s.trace ++ os ∧ s.Msg1 fp os

/-- The retry table holds an entry for `fp` with attempts left. -/
def Armed (s : MeshNode S) (fp : Fingerprint) : Prop :=
  ∃ n, s.handshakeAttempts[fp]? = some n ∧ n < dmHandshakeMaxAttempts

omit [Store S] in
theorem stalled_iff (s : MeshNode S) (now : Millis) (fp : Fingerprint) :
    s.stalled now fp = true ↔ s.sessionReady fp = false ∧ s.fpToEph.contains fp = true ∧
      s.handshakeAttempts[fp]?.getD 0 < dmHandshakeMaxAttempts ∧
      dmHandshakeRetryMs ≤ now - s.handshakeLastMs[fp]?.getD 0 := by
  simp [stalled, and_assoc]

theorem tick_emits_iff (laws : SnowLaws P) {s : MeshNode S} {fp : Fingerprint} (routable : s.fpToEph.contains fp = true)
    (waiting : s.sessionReady fp = false) (now : Millis) :
    s.TickEmitsMsg1 now fp ↔ s.Armed fp ∧ dmHandshakeRetryMs ≤ now - s.handshakeLastMs[fp]?.getD 0 := by
  obtain ⟨scheduler, fired, seen, reassembler, os₀, hswept, hquiet⟩ := swept_update (s.at_ now)
  obtain ⟨os, htrace, honly, hall⟩ :=
    retryAll_spec laws ((s.at_ now).swept.handshakeAttempts.keys.filter ((s.at_ now).swept.stalled now)) (s.at_ now).swept
  have hexec : (exec s ⟨now, .tick⟩).trace = s.trace ++ (os₀ ++ os) := by
    have htick : exec s ⟨now, .tick⟩ = (s.at_ now).swept.retryStalledHandshakes now := tick_eq (s.at_ now)
    rw [htick, retryStalledHandshakes, htrace, ← List.append_assoc]
    rw [hswept]
    rfl
  have hlisted : fp ∈ (s.at_ now).swept.handshakeAttempts.keys.filter ((s.at_ now).swept.stalled now) ↔
      s.Armed fp ∧ dmHandshakeRetryMs ≤ now - s.handshakeLastMs[fp]?.getD 0 := by
    rw [hswept]
    have hready : sessionReady { s.at_ now with
        scheduler := scheduler, relaysFired := fired, seen := seen, reassembler := reassembler
        trace := (s.at_ now).trace ++ os₀ } fp = false := waiting
    rw [List.mem_filter, Std.ExtTreeMap.mem_keys, Std.ExtTreeMap.mem_iff_isSome_getElem?, stalled_iff, hready]
    simp only [at_, routable, Armed, true_and]
    cases s.handshakeAttempts[fp]? <;> simp
  rw [← hlisted]
  constructor
  · rintro ⟨os', htr, pkt, eph, n, σ₀, σ, hwrote, -⟩
    rw [hexec, List.append_cancel_left_eq] at htr
    rw [← htr] at hwrote
    rcases List.mem_append.mp hwrote with h | h
    · exact (hquiet _ h).elim
    · exact honly fp _ h
  · intro hmem
    have hm := hall fp hmem (by rw [hswept]; exact routable)
    refine ⟨os₀ ++ os, hexec, ?_⟩
    have := hm.weaken (s := s) (by rw [hswept]; rfl) (by rw [hswept]; rfl) (by rw [hswept]; rfl)
      (by rw [hswept]; exact le_refl _) os₀ []
    simpa using this

/-! ## After a command -/

/-- When a handshake message was last sent to `fp`, as the node records it: in the state after the
command, else in the one before. -/
def lastSend (before after : MeshNode S) (fp : Fingerprint) : Millis :=
  (after.handshakeLastMs[fp]?.or before.handshakeLastMs[fp]?).getD 0

/-- After the command, the first tick that is due sends `fp` a fresh first handshake message. -/
def ReArms (s : MeshNode S) (fp : Fingerprint) (now : Millis) (a : Action) : Prop :=
  ∀ t, lastSend s (exec s ⟨now, a⟩) fp + dmHandshakeRetryMs ≤ t → (exec s ⟨now, a⟩).TickEmitsMsg1 t fp

theorem reArms_iff_armed (laws : SnowLaws P) {s : MeshNode S} {fp : Fingerprint} {now : Millis} {a : Action}
    (routable : (exec s ⟨now, a⟩).fpToEph.contains fp = true) (waiting : (exec s ⟨now, a⟩).sessionReady fp = false) :
    s.ReArms fp now a ↔ (exec s ⟨now, a⟩).Armed fp := by
  constructor
  · intro h
    exact ((tick_emits_iff laws routable waiting _).mp (h _ le_rfl)).1
  · intro harmed t ht
    refine (tick_emits_iff laws routable waiting t).mpr ⟨harmed, ?_⟩
    unfold lastSend at ht
    cases hlast : (exec s ⟨now, a⟩).handshakeLastMs[fp]? with
    | none => exact (Nat.le_add_left _ _).trans ht
    | some last =>
      rw [hlast] at ht
      exact Nat.le_sub_of_add_le (by rwa [Nat.add_comm])

omit [Store S] in
/-- What begins leaves one more attempt in the table, and nothing ready. -/
theorem beginHandshake_after (laws : SnowLaws P) (s : MeshNode S) (fp : Fingerprint) :
    (s.beginHandshake fp).handshakeAttempts[fp]? = some (s.handshakeAttempts[fp]?.getD 0 + 1) ∧
      (s.beginHandshake fp).fpToEph = s.fpToEph ∧ (s.beginHandshake fp).sessionReady fp = false := by
  obtain ⟨σ, m, hfresh, heq⟩ := beginHandshake_spec laws s fp
  have hnot := (hfresh.spec laws).1.not_ready
  obtain ⟨seen, os, hout, -⟩ := handshakeOut_update ({ s with
    handshakeLastMs := s.handshakeLastMs.insert fp s.clock
    handshakeAttempts := s.handshakeAttempts.insert fp (s.handshakeAttempts[fp]?.getD 0 + 1) } : MeshNode S) fp σ m
  rw [heq, begun, hout]
  refine ⟨by simp, rfl, ?_⟩
  rw [sessionReady_insert (s := s) (σ := σ) rfl, if_pos rfl, hnot]

theorem sendDm_armed_iff (laws : SnowLaws P) {s : MeshNode S} {fp : Fingerprint} (routable : s.fpToEph.contains fp = true)
    (waiting : s.sessionReady fp = false) (now : Millis) (text : String) :
    ((exec s ⟨now, .sendDm fp text⟩).fpToEph.contains fp = true ∧ (exec s ⟨now, .sendDm fp text⟩).sessionReady fp = false) ∧
      ((exec s ⟨now, .sendDm fp text⟩).Armed fp ↔
        s.noiseSessions[fp]? = none ∧ s.handshakeAttempts[fp]?.getD 0 + 1 < dmHandshakeMaxAttempts) := by
  let dm : StoredDm := { peer := fp, mine := true, timestampMs := now, body := asBytes text }
  let u : MeshNode S := { s.at_ now with
    store := Store.putDm s.store dm
    pendingDms := s.pendingDms.insert fp (s.pendingDms[fp]?.getD [] ++ [text]) }
  have heq : exec s ⟨now, .sendDm fp text⟩ = if !u.noiseSessions.contains fp then u.beginHandshake fp
      else { u with
        handshakeAttempts := u.handshakeAttempts.erase fp
        handshakeLastMs := u.handshakeLastMs.erase fp } := by
    have hroute : (s.at_ now).fpToEph.contains fp = true := routable
    change sendDm (s.at_ now) fp text = _
    unfold sendDm
    simp only [hroute, Bool.not_true, Bool.false_eq_true, if_false]
    exact if_neg fun ready => absurd (waiting.symm.trans ready) (by decide)
  rw [heq]
  cases held : s.noiseSessions[fp]? with
  | none =>
    have hnew : u.noiseSessions.contains fp = false := Maps.contains_absent held
    obtain ⟨hatt, hroute, hready⟩ := beginHandshake_after laws u fp
    rw [hnew]
    simp only [Bool.not_false, if_true, true_and]
    refine ⟨⟨by rw [hroute]; exact routable, hready⟩, ?_⟩
    simp only [Armed, hatt, Option.some.injEq, exists_eq_left']
    rfl
  | some σ =>
    have hold : u.noiseSessions.contains fp = true := Maps.contains_held held
    rw [hold]
    refine ⟨⟨routable, waiting⟩, ?_⟩
    simp [Armed]

theorem startDmSession_armed_iff (laws : SnowLaws P) {s : MeshNode S} {fp : Fingerprint}
    (routable : s.fpToEph.contains fp = true) (waiting : s.sessionReady fp = false) (now : Millis) :
    ((exec s ⟨now, .startDmSession fp⟩).fpToEph.contains fp = true ∧
        (exec s ⟨now, .startDmSession fp⟩).sessionReady fp = false) ∧
      ((exec s ⟨now, .startDmSession fp⟩).Armed fp ↔
        if s.noiseSessions[fp]? = none then s.handshakeAttempts[fp]?.getD 0 + 1 < dmHandshakeMaxAttempts
        else s.Armed fp) := by
  have heq : exec s ⟨now, .startDmSession fp⟩ =
      if !s.noiseSessions.contains fp then (s.at_ now).beginHandshake fp else s.at_ now := by
    have hr : (s.at_ now).sessionReady fp = false := waiting
    have hroute : (s.at_ now).fpToEph.contains fp = true := routable
    simp only [exec, act, startDmSession, hr, hroute]
    rfl
  rw [heq]
  cases held : s.noiseSessions[fp]? with
  | none =>
    obtain ⟨hatt, hroute, hready⟩ := beginHandshake_after laws (s.at_ now) fp
    rw [Maps.contains_absent held]
    simp only [Bool.not_false, if_true]
    refine ⟨⟨by rw [hroute]; exact routable, hready⟩, ?_⟩
    simp only [Armed, hatt, Option.some.injEq, exists_eq_left']
    rfl
  | some σ =>
    rw [Maps.contains_held held]
    exact ⟨⟨routable, waiting⟩, by simp [Armed, at_]⟩

/-- The session with `fp` is up, was rejected by the identity binding, or will be retried. -/
def NotWedged (s r : MeshNode S) (fp : Fingerprint) : Prop :=
  r.sessionReady fp = true ∨
    (∃ os side, r.trace = s.trace ++ os ∧ .event (.dmSession fp false) side ∈ os) ∨ r.Armed fp

/-- The states and packets for which that is so: the budget matters unless the session is up or about
to be, and the entry itself matters while we keep our own session. -/
def KeepsDriving (s : MeshNode S) (fp : Fingerprint) (payload : Bytes) : Prop :=
  match s.noiseSessions[fp]? with
  | none => s.handshakeAttempts[fp]?.getD 0 < dmHandshakeMaxAttempts
  | some σ =>
      σ.isReady = true ∨
      if σ.initiator = true ∧ payload.length = xxMsg1Len then
        if compare s.fingerprint fp = .lt then s.Armed fp
        else s.handshakeAttempts[fp]?.getD 0 < dmHandshakeMaxAttempts
      else (σ.readHandshake payload).isOk = true ∨ s.Armed fp

omit [Store S] in
theorem notWedged_iff_armed {s r : MeshNode S} {fp : Fingerprint} {os : List Obs} (waiting : r.sessionReady fp = false)
    (trace : r.trace = s.trace ++ os) (silent : ∀ side, .event (.dmSession fp false) side ∉ os) :
    s.NotWedged r fp ↔ r.Armed fp := by
  constructor
  · rintro (ready | ⟨os', side, htrace, hmem⟩ | armed)
    · exact absurd (waiting.symm.trans ready) (by decide)
    · rw [trace, List.append_cancel_left_eq] at htrace
      exact absurd (htrace ▸ hmem) (silent side)
    · exact armed
  · exact fun armed => .inr (.inr armed)

omit [Store S] in
/-- A new responder enters the table with the attempts already spent. -/
theorem armed_insertIfNew {s r : MeshNode S} {fp : Fingerprint}
    (attempts : r.handshakeAttempts = s.handshakeAttempts.insertIfNew fp 0) :
    r.Armed fp ↔ s.handshakeAttempts[fp]?.getD 0 < dmHandshakeMaxAttempts := by
  have hget : r.handshakeAttempts[fp]? = some (s.handshakeAttempts[fp]?.getD 0) := by
    rw [attempts]
    cases h : s.handshakeAttempts[fp]? <;> grind
  simp [Armed, hget]

omit [Store S] in
/-- Where a responder is opened, `KeepsDriving` is about the budget. -/
theorem Opens.keepsDriving_iff {s base : MeshNode S} {fp : Fingerprint} {payload : Bytes} (settled : s.Settled)
    (opens : Opens s fp payload base) :
    s.KeepsDriving fp payload ↔ s.handshakeAttempts[fp]?.getD 0 < dmHandshakeMaxAttempts := by
  unfold KeepsDriving
  cases opens with
  | absent none_held => rw [none_held]
  | restart ready tally =>
    obtain ⟨σ, held, hσ⟩ := sessionReady_iff.mp ready
    rw [held, settled fp ready]
    simp [hσ, dmHandshakeMaxAttempts]
  | yield σ held shape role len higher =>
    rw [held]
    simp [shape.not_ready, role, len, higher]

/-- One outcome at a time. What is still driven has not moved. -/
theorem Handled.driven (laws : SnowLaws P) {s r : MeshNode S} {fp : Fingerprint} {payload : Bytes} (settled : s.Settled)
    (h : Handled s fp payload r) :
    (s.NotWedged r fp ↔ s.KeepsDriving fp payload) ∧
      (r.Armed fp → r.sessionReady fp = false → r.fpToEph = s.fpToEph) := by
  cases h with
  | counted ready tally =>
    obtain ⟨σ, held, hσ⟩ := sessionReady_iff.mp ready
    have hk : s.KeepsDriving fp payload := by
      unfold KeepsDriving
      rw [held]
      exact .inl hσ
    exact ⟨iff_of_true (.inl ready) hk, fun _ _ => rfl⟩
  | won σ held shape role len lower =>
    have hwait : s.sessionReady fp = false := by simp [sessionReady, held, shape.not_ready]
    refine ⟨(notWedged_iff_armed hwait (List.append_nil _).symm (by simp)).trans ?_, fun _ _ => rfl⟩
    unfold KeepsDriving
    rw [held]
    simp [shape.not_ready, role, len, lower]
  | refused base opens σ₀ e new read =>
    rw [opens.keepsDriving_iff settled]
    obtain ⟨tallies, rfl⟩ := opens.base_eq
    refine ⟨(notWedged_iff_armed ?_ (List.append_nil _).symm (by simp)).trans (armed_insertIfNew rfl), fun _ _ => rfl⟩
    simp [sessionReady]
  | answered base opens σ₀ σ₁ σ m new read shape role transcript =>
    rw [opens.keepsDriving_iff settled]
    obtain ⟨tallies, rfl⟩ := opens.base_eq
    obtain ⟨seen, os, hout, hos⟩ := handshakeOut_update ({ s with
      resyncPending := tallies, noiseSessions := s.noiseSessions.erase fp
      handshakeLastMs := s.handshakeLastMs.insert fp s.clock
      handshakeAttempts := s.handshakeAttempts.insertIfNew fp 0 } : MeshNode S) fp σ m
    rw [hout]
    refine ⟨(notWedged_iff_armed ?_ rfl ?_).trans (armed_insertIfNew rfl), fun _ _ => rfl⟩
    · simp [sessionReady, shape.not_ready]
    · intro side hmem
      rcases List.mem_cons.mp hmem with h | h
      · cases h
      · exact hos _ h
  | lost σ e held shape other read =>
    refine ⟨(notWedged_iff_armed ?_ (List.append_nil _).symm (by simp)).trans ?_, fun _ _ => rfl⟩
    · simp [sessionReady]
    · unfold KeepsDriving
      rw [held]
      simp only [shape.not_ready, if_neg other, read]
      simp [Armed, Except.isOk, Except.toBool]
  | finished σ σ₁ σ' ms drawn seen os held shape other read quiet ready transcript role window =>
    have hk : s.KeepsDriving fp payload := by
      unfold KeepsDriving
      rw [held]
      simp [if_neg other, read, Except.isOk, Except.toBool]
    generalize ht : ({ s with
      noiseSessions := s.noiseSessions.insert fp σ'
      handshakeLastMs := s.handshakeLastMs.insert fp s.clock
      drawn := drawn
      seen := seen
      trace := s.trace ++ os } : MeshNode S) = t
    have htrace : t.trace = s.trace ++ os := by rw [← ht]
    have hready : t.sessionReady fp = true := by
      rw [← ht, sessionReady_insert (s := s) (σ := σ') rfl, if_pos rfl, ready]
    cases hbound : t.bound fp with
    | true =>
      have hup := finishSession_ready laws hready hbound
      exact ⟨iff_of_true (.inl hup) hk, fun _ hwait => absurd (hwait.symm.trans hup) (by decide)⟩
    | false =>
      have hrej : t.finishSession fp = t.rejectSession fp := by simp [finishSession, hbound]
      rw [hrej]
      refine ⟨iff_of_true (.inr (.inl ⟨os ++ [.event (.dmSession fp false) none], none, ?_, by simp⟩)) hk, fun harmed _ => ?_⟩
      · simp [rejectSession, emit, htrace]
      · obtain ⟨n, hn, -⟩ := harmed
        simp [rejectSession, emit] at hn

/-- After a handshake packet from a known peer, the exchange is up, rejected or still driven exactly
when the state before the packet says so; and one that is still driven is sent again by the first tick
that is due. -/
theorem handshake_packet_driven_iff (laws : SnowLaws P) {s : MeshNode S} (hs : s.Reachable) {pkt : Packet}
    {fp : Fingerprint} (recipient : pkt.recipient = some s.identity.ephId) (sender : s.ephToFp pkt.sender = some fp)
    (routable : s.fpToEph.contains fp = true) :
    (s.NotWedged (s.handleNoiseHandshake pkt) fp ↔ s.KeepsDriving fp pkt.payload) ∧
      ((s.handleNoiseHandshake pkt).Armed fp → (s.handleNoiseHandshake pkt).sessionReady fp = false →
        ∀ now, (s.handleNoiseHandshake pkt).handshakeLastMs[fp]?.getD 0 + dmHandshakeRetryMs ≤ now →
          (s.handleNoiseHandshake pkt).TickEmitsMsg1 now fp) := by
  have hcases := handleHandshake_cases laws (hs.shaped laws) fp pkt.payload
  rw [handleNoiseHandshake_eq recipient sender]
  obtain ⟨hiff, hroute⟩ := hcases.driven laws (hs.settled laws)
  refine ⟨hiff, fun armed waiting now hdue => ?_⟩
  rw [← hroute armed waiting] at routable
  exact (tick_emits_iff laws routable waiting now).mpr ⟨armed, Nat.le_sub_of_add_le (by rwa [Nat.add_comm])⟩

end MeshNode
end CockroachChat

namespace CockroachChat.Reference
attribute [local instance] prims

/-- Node 2's first handshake message reaches node 1, which holds no session: the exchange is driven on. -/
theorem first_message_driven :
    (met 1 2).NotWedged ((met 1 2).handleNoiseHandshake (lastBuilt (calling 2 1 "yo"))) (fpOf 2) := by
  have hroute : (met 1 2).fpToEph.contains (fpOf 2) = true := by decide +kernel
  have hpkt : (lastBuilt (calling 2 1 "yo")).recipient = some (met 1 2).identity.ephId ∧
      (met 1 2).ephToFp (lastBuilt (calling 2 1 "yo")).sender = some (fpOf 2) := by decide +kernel
  have hfresh : (met 1 2).noiseSessions.contains (fpOf 2) = false ∧
      (met 1 2).handshakeAttempts[fpOf 2]?.getD 0 < dmHandshakeMaxAttempts := by decide +kernel
  have hs := met_reachable 1 2
  generalize met 1 2 = s at hroute hpkt hfresh hs
  rw [Std.ExtTreeMap.contains_eq_isSome_getElem?, Option.isSome_eq_false_iff, Option.isNone_iff_eq_none] at hfresh
  refine (MeshNode.handshake_packet_driven_iff laws hs hpkt.1 hpkt.2 hroute).1.mpr ?_
  unfold MeshNode.KeepsDriving
  rw [hfresh.1]
  exact hfresh.2

/-- Node 1 after two sends to node 2 in a row. -/
def insisting : Node := run (met 1 2) [⟨1, .sendDm (fpOf 2) "hi"⟩, ⟨2, .sendDm (fpOf 2) "again"⟩]

/-- Both call each other, and node 1, whose second send took its retry entry, wins the glare: it ignores
the message and will not send its own again. -/
theorem glare_winner_wedged : insisting.Reachable ∧ insisting.fpToEph.contains (fpOf 2) = true ∧
    (lastBuilt (calling 2 1 "yo")).msgType = .noiseHandshake ∧
    (lastBuilt (calling 2 1 "yo")).recipient = some insisting.identity.ephId ∧
    insisting.ephToFp (lastBuilt (calling 2 1 "yo")).sender = some (fpOf 2) ∧
    ¬ insisting.NotWedged (insisting.handleNoiseHandshake (lastBuilt (calling 2 1 "yo"))) (fpOf 2) := by
  have hpkt : (lastBuilt (calling 2 1 "yo")).msgType = .noiseHandshake ∧
      (lastBuilt (calling 2 1 "yo")).recipient = some insisting.identity.ephId ∧
      insisting.ephToFp (lastBuilt (calling 2 1 "yo")).sender = some (fpOf 2) ∧
      insisting.fpToEph.contains (fpOf 2) = true := by decide +kernel
  have hafter : (insisting.handleNoiseHandshake (lastBuilt (calling 2 1 "yo"))).sessionReady (fpOf 2) = false ∧
      (insisting.handleNoiseHandshake (lastBuilt (calling 2 1 "yo"))).handshakeAttempts[fpOf 2]? = none ∧
      (insisting.handleNoiseHandshake (lastBuilt (calling 2 1 "yo"))).trace.length = insisting.trace.length := by
    decide +kernel
  refine ⟨run_reachable (met_reachable 1 2) _, hpkt.2.2.2, hpkt.1, hpkt.2.1, hpkt.2.2.1, ?_⟩
  rintro (ready | ⟨os, side, htrace, hmem⟩ | ⟨n, hn, -⟩)
  · exact absurd (hafter.1.symm.trans ready) (by decide)
  · have hlen := hafter.2.2
    rw [htrace, List.length_append] at hlen
    have hos : os = [] := List.eq_nil_of_length_eq_zero (by omega)
    rw [hos] at hmem
    cases hmem
  · rw [hafter.2.1] at hn
    cases hn

end CockroachChat.Reference
