import CockroachChat.Sessions.Agreement
import CockroachChat.Sessions.Errands

/-! # The order of texts

A text goes to its peer directly, through the queue that waits for a session, or through the store.
The texts sent, queued and held for one peer stand in one line, and every beat only moves the line
forward or takes something out of it. -/
namespace CockroachChat
set_option autoImplicit false

variable [P : Prims] {S : Type}

/-- All handshake messages of a trace are different. -/
def FreshTrace (trace : List Obs) : Prop := ((trace.filterMap Obs.wroteEntry).map (·.2.2)).Nodup

omit P in
theorem FreshTrace.before {trace os : List Obs} (h : FreshTrace (trace ++ os)) : FreshTrace trace := by
  unfold FreshTrace at h ⊢
  rw [List.filterMap_append, List.map_append, List.nodup_append] at h
  exact h.1

omit P in
theorem FreshTrace.ne {trace os : List Obs} (h : FreshTrace (trace ++ os)) {fp fp' : Fingerprint} {b b' : Bool} {m m' : Bytes}
    (old : .wrote fp b m ∈ trace) (new : .wrote fp' b' m' ∈ os) : m ≠ m' := by
  unfold FreshTrace at h
  rw [List.filterMap_append, List.map_append, List.nodup_append] at h
  exact h.2.2 m (List.mem_map.mpr ⟨_, Obs.mem_wroteEntry.mp old, rfl⟩) m' (List.mem_map.mpr ⟨_, Obs.mem_wroteEntry.mp new, rfl⟩)

/-- The handshake message that leaves the node with an observation. -/
def Obs.shipment : Obs → Option Bytes
  | .originate pkt => if pkt.msgType = .noiseHandshake then some pkt.payload else none
  | _ => none

def Shipped (trace : List Obs) (m : Bytes) : Prop := m ∈ trace.filterMap Obs.shipment

instance (trace : List Obs) (m : Bytes) : Decidable (Shipped trace m) := inferInstanceAs (Decidable (_ ∈ _))

/-- A session is up only if the message it began with on our side has left the node. -/
def Obs.Answered (pre : List Obs) : Obs → Prop
  | .event (.dmSession _ true) (some side) => ∀ m ∈ side.ownMsg, Shipped pre m
  | _ => True

instance (pre : List Obs) (o : Obs) : Decidable (o.Answered pre) := by
  unfold Obs.Answered
  split <;> infer_instance

/-- What leaves the node in a handshake was written first. -/
def Posted (os : List Obs) : Prop := ∀ m, Shipped os m → ∃ fp b, .wrote fp b m ∈ os

section Posted
omit P

theorem shipped_append {l os : List Obs} {m : Bytes} : Shipped (l ++ os) m ↔ Shipped l m ∨ Shipped os m := by
  simp only [Shipped, List.filterMap_append, List.mem_append]

theorem shipped_iff {os : List Obs} {m : Bytes} :
    Shipped os m ↔ ∃ pkt, .originate pkt ∈ os ∧ pkt.msgType = .noiseHandshake ∧ pkt.payload = m := by
  rw [Shipped, List.mem_filterMap]
  constructor
  · rintro ⟨o, ho, heq⟩
    cases o with
    | originate pkt =>
      simp only [Obs.shipment, Option.ite_none_right_eq_some, Option.some.injEq] at heq
      exact ⟨pkt, ho, heq⟩
    | _ => cases heq
  · rintro ⟨pkt, hpkt, htype, rfl⟩
    exact ⟨_, hpkt, if_pos htype⟩

theorem Posted.append {l os : List Obs} (h : Posted l) (h' : Posted os) : Posted (l ++ os) := by
  intro m hm
  rcases shipped_append.mp hm with hm | hm
  · obtain ⟨fp, b, hw⟩ := h m hm
    exact ⟨fp, b, List.mem_append_left os hw⟩
  · obtain ⟨fp, b, hw⟩ := h' m hm
    exact ⟨fp, b, List.mem_append_right l hw⟩

theorem Posted.idle {os : List Obs} (quiet : ∀ o ∈ os, o.Idle) : Posted os := by
  intro m hm
  obtain ⟨pkt, hpkt, ht, -⟩ := shipped_iff.mp hm
  exact absurd ht (quiet _ hpkt)

theorem Posted.wrote {os : List Obs} {fp : Fingerprint} {b : Bool} {m : Bytes} (carries : ∀ o ∈ os, o.Carries .noiseHandshake m) :
    Posted (.wrote fp b m :: os) := by
  intro m' hm
  obtain ⟨pkt, hpkt, -, rfl⟩ := shipped_iff.mp hm
  have ho : .originate pkt ∈ os := by simpa using hpkt
  exact ⟨fp, b, by rw [(carries _ ho).2]; exact List.mem_cons_self⟩

theorem Posted.written {os : List Obs} {fp : Fingerprint} {b : Bool} (h : Written fp b os) : Posted os := by
  rcases h with rfl | ⟨m, rest, rfl, carries⟩
  · exact .idle (by simp)
  · exact .wrote carries

end Posted

namespace Desk
variable [Store S]

/-- The texts encrypted for `fp` so far. -/
def sent (d : Desk S) (fp : Fingerprint) : List String := (d.trace.filterMap Obs.sentText).filterMap (textWith fp)

def waiting (d : Desk S) (fp : Fingerprint) : List String := d.pendingDms[fp]?.getD []

def held [EnvelopeStore S] (d : Desk S) (fp : Fingerprint) : List String :=
  (EnvelopeStore.envelopes d.store fp).map fromUtf8Lossy

end Desk

def Errand.textFor (fp : Fingerprint) : Errand → Option String
  | .text fp' body => if fp' = fp then some body else none
  | _ => none

variable [Store S] [EnvelopeStore S]

/-- Everything on its way to `fp`, first in front. -/
def line (fp : Fingerprint) (c : Desk S × List Errand) : List String :=
  c.1.sent fp ++ (c.1.waiting fp ++ (c.1.held fp ++ c.2.filterMap (Errand.textFor fp)))

/-- What stands in whose way at the counter of one peer. -/
structure Counter (d : Desk S) (fp : Fingerprint) : Prop where
  /-- The message a session began with was written, and has not left the node without a route. -/
  own : ∀ σ, d.sessions[fp]? = some σ → ∃ m, σ.ownMsg = some m ∧ .wrote fp σ.initiator m ∈ d.trace ∧
    (d.fpToEph[fp]? = none → ¬ Shipped d.trace m)
  routed : d.ready fp → d.fpToEph[fp]? ≠ none
  waits : d.waiting fp ≠ [] → ¬ d.ready fp ∧ d.fpToEph[fp]? ≠ none
  clear : d.fpToEph[fp]? ≠ none → d.held fp = []

/-- Nothing new begins at the counter of `fp`. -/
structure Settles (d d' : Desk S) (fp : Fingerprint) : Prop where
  session : ∀ σ', d'.sessions[fp]? = some σ' → ∃ σ, d.sessions[fp]? = some σ ∧ σ'.ownMsg = σ.ownMsg ∧
    σ'.initiator = σ.initiator ∧ σ'.isReady = σ.isReady
  route : d'.fpToEph[fp]? = d.fpToEph[fp]?
  waiting : d'.waiting fp = d.waiting fp ∨ d'.waiting fp = []
  held : (d'.held fp).Sublist (d.held fp)

theorem Settles.ready {d d' : Desk S} {fp : Fingerprint} (h : Settles d d' fp) (ready : d'.ready fp) : d.ready fp := by
  obtain ⟨σ', held, hσ'⟩ := ready
  obtain ⟨σ, hold, -, -, hready⟩ := h.session σ' held
  exact ⟨σ, hold, hready ▸ hσ'⟩

theorem Counter.settles {d d' : Desk S} {fp : Fingerprint} (h : Counter d fp) (hs : Settles d d' fp) {os : List Obs}
    (trace : d'.trace = d.trace ++ os) (posted : Posted os) (fresh : FreshTrace d'.trace) : Counter d' fp := by
  rw [trace] at fresh
  constructor
  · intro σ' held
    obtain ⟨σ, hold, hown, hrole, -⟩ := hs.session σ' held
    obtain ⟨m, hm, hwrote, hout⟩ := h.own σ hold
    refine ⟨m, hown.trans hm, by rw [trace, hrole]; exact List.mem_append_left os hwrote, fun hroute hship => ?_⟩
    rw [trace] at hship
    rcases shipped_append.mp hship with hship | hship
    · exact hout (hs.route ▸ hroute) hship
    · obtain ⟨fp', b, hnew⟩ := posted m hship
      exact fresh.ne hwrote hnew rfl
  · intro ready
    rw [hs.route]
    exact h.routed (hs.ready ready)
  · intro waiting
    rcases hs.waiting with heq | heq
    · obtain ⟨hready, hroute⟩ := h.waits (heq ▸ waiting)
      exact ⟨fun ready => hready (hs.ready ready), hs.route ▸ hroute⟩
    · exact absurd heq waiting
  · intro route
    rw [hs.route] at route
    have hheld := hs.held
    rw [h.clear route] at hheld
    exact List.sublist_nil.mp hheld

namespace Settles
variable {d d₁ d' : Desk S} {fp : Fingerprint}

theorem trans (h : Settles d d₁ fp) (h' : Settles d₁ d' fp) : Settles d d' fp := by
  constructor
  · intro σ' held'
    obtain ⟨σ₁, held₁, hown', hrole', hready'⟩ := h'.session σ' held'
    obtain ⟨σ, held, hown, hrole, hready⟩ := h.session σ₁ held₁
    exact ⟨σ, held, hown'.trans hown, hrole'.trans hrole, hready'.trans hready⟩
  · exact h'.route.trans h.route
  · rcases h'.waiting with heq | heq
    · rw [heq]
      exact h.waiting
    · exact .inr heq
  · exact h'.held.trans h.held

/-- The session is the same or gone. -/
theorem of_part (session : d'.sessions[fp]? = d.sessions[fp]? ∨ d'.sessions[fp]? = none)
    (route : d'.fpToEph[fp]? = d.fpToEph[fp]?) (waiting : d'.waiting fp = d.waiting fp ∨ d'.waiting fp = [])
    (held : (d'.held fp).Sublist (d.held fp)) : Settles d d' fp := by
  refine ⟨fun σ' held' => ?_, route, waiting, held⟩
  rcases session with heq | heq
  · exact ⟨σ', heq ▸ held', rfl, rfl, rfl⟩
  · rw [heq] at held'
    cases held'

theorem of_eq (session : d'.sessions = d.sessions) (route : d'.fpToEph = d.fpToEph) (waiting : d'.pendingDms = d.pendingDms)
    (held : (d'.held fp).Sublist (d.held fp)) : Settles d d' fp :=
  .of_part (.inl (by rw [session])) (by rw [route]) (.inl (by rw [Desk.waiting, waiting, Desk.waiting])) held

/-- One session goes on, in the same state. -/
theorem of_session (fp₀ : Fingerprint) {σ σ' : NoiseSession} (old : d.sessions[fp₀]? = some σ) (view : σ'.view = σ.view)
    (ready : σ'.isReady = σ.isReady) (session : d'.sessions = d.sessions.insert fp₀ σ') (route : d'.fpToEph = d.fpToEph)
    (waiting : d'.pendingDms = d.pendingDms) (held : (d'.held fp).Sublist (d.held fp)) : Settles d d' fp := by
  refine ⟨fun σ₁ held' => ?_, by rw [route], .inl (by rw [Desk.waiting, waiting, Desk.waiting]), held⟩
  rw [session, Std.ExtTreeMap.getElem?_insert] at held'
  split_ifs at held' with heq
  · rw [Std.compare_eq_iff_eq] at heq
    subst heq
    cases held'
    exact ⟨σ, old, congrArg SessionView.ownMsg view, congrArg SessionView.initiator view, ready⟩
  · exact ⟨σ₁, held', rfl, rfl, rfl⟩

end Settles

theorem Seal.settles {d d' : Desk S} {fp fp' : Fingerprint} {pt : Bytes} (h : Seal d fp pt d') : Settles d d' fp' := by
  cases h with
  | refused σ held ready e encrypt => exact .of_eq rfl rfl rfl (.refl _)
  | sealed σ σ' held ready ready' view ct encrypt os carries =>
    exact .of_session fp held view (ready'.trans ready.symm) rfl rfl rfl (.refl _)

omit [Store S] [EnvelopeStore S] in
theorem Seal.ready_before {d d' : Desk S} {fp : Fingerprint} {pt : Bytes} (h : Seal d fp pt d') : d.ready fp := by
  cases h with
  | refused σ held ready e encrypt => exact ⟨σ, held, ready⟩
  | sealed σ σ' held ready ready' view ct encrypt os carries => exact ⟨σ, held, ready⟩

omit [Store S] [EnvelopeStore S] in
theorem Seal.side {d d' : Desk S} {fp : Fingerprint} {pt : Bytes} (h : Seal d fp pt d') :
    d'.store = d.store ∧ d'.pendingDms = d.pendingDms ∧ d'.noticePending = d.noticePending := by
  cases h <;> exact ⟨rfl, rfl, rfl⟩

omit [Store S] [EnvelopeStore S] in
/-- What is encrypted by the way is at most the text of the plaintext. -/
theorem Seal.trace {d d' : Desk S} {fp : Fingerprint} {kind : UInt8} (hkind : kind ≤ dmKindVerifyAck) {body : Bytes}
    (h : Seal d fp (kind :: body) d') : ∃ os, d'.trace = d.trace ++ os ∧ Posted os ∧
      (os.filterMap Obs.sentText).Sublist (MeshNode.carried fp kind body) := by
  cases h with
  | refused σ held ready e encrypt =>
    exact ⟨_, rfl, by simp [Posted, Shipped, Obs.shipment], List.nil_sublist _⟩
  | sealed σ σ' held ready ready' view ct encrypt os carries =>
    have hidle : ∀ o ∈ os, o.Idle := fun o ho => (carries o ho).idle (by decide)
    have hnone : os.filterMap Obs.sentText = [] := by
      rw [List.filterMap_eq_nil_iff]
      intro o ho
      have hq := carries o ho
      cases o <;> first | rfl | exact hq.elim
    refine ⟨_, rfl, ?_, ?_⟩
    · intro m hm
      obtain ⟨pkt, hpkt, ht, -⟩ := shipped_iff.mp hm
      have ho : .originate pkt ∈ os := by simpa using hpkt
      exact absurd ht (hidle _ ho)
    · have hone := MeshNode.filterMap_encrypted fp σ.view σ.sendNonce hkind body
      have hsplit : (Obs.encryptCall fp σ.view (kind :: body) :: .encrypted fp σ.view σ.sendNonce (kind :: body) :: os) =
          .encryptCall fp σ.view (kind :: body) :: ([.encrypted fp σ.view σ.sendNonce (kind :: body)] ++ os) := rfl
      rw [hsplit, List.filterMap_cons_none rfl, List.filterMap_append, hone, hnone, List.append_nil]

/-! ## One beat -/

omit P in
theorem SideWrites.envelopes {st st' : S} (h : SideWrites st st') : EnvelopeStore.envelopes st' = EnvelopeStore.envelopes st := by
  induction h with
  | refl => rfl
  | tail _ write ih =>
    rw [← ih]
    cases write with
    | channel m => exact EnvelopeStore.put_channel _ m
    | peer p => exact EnvelopeStore.upsert_peer _ p
    | marker fp now => exact EnvelopeStore.put_dm _ _

theorem Desk.held_of_envelopes {d d' : Desk S} (h : EnvelopeStore.envelopes d'.store = EnvelopeStore.envelopes d.store)
    (fp : Fingerprint) : (d'.held fp).Sublist (d.held fp) := by
  rw [Desk.held, h, Desk.held]

omit [EnvelopeStore S] in
theorem Beat.growth {d d' : Desk S} {hand hand' : List Errand} (h : Beat (d, hand) (d', hand')) :
    ∃ os, d'.trace = d.trace ++ os ∧ Posted os := by
  have hempty : ∃ os, d.trace = d.trace ++ os ∧ Posted os := ⟨[], by simp, .idle (by simp)⟩
  cases h with
  | idle _ st os _ writes quiet => exact ⟨os, rfl, .idle quiet⟩
  | meet _ fp eph st os _ writes quiet => exact ⟨os, rfl, .idle quiet⟩
  | start _ fp σ m os _ shape own carries lost => exact ⟨_, rfl, .wrote carries⟩
  | lose _ fp _ => exact hempty
  | complete _ fp σ σ' ms os _ held shape ready transcript role written =>
    exact ⟨_, rfl, (Posted.written written).append (.idle (by simp [Obs.Idle]))⟩
  | reject _ fp initiator os _ written => exact ⟨_, rfl, (Posted.written written).append (.idle (by simp [Obs.Idle]))⟩
  | record _ fp text _ => exact hempty
  | send _ _ fp text _ pass =>
    obtain ⟨os, htrace, hos, -⟩ := pass.trace (by decide)
    exact ⟨os, htrace, hos⟩
  | hold _ fp text _ waiting unrouted => exact hempty
  | queue _ fp eph text _ waiting routed => exact hempty
  | notify _ _ fp _ owed pass =>
    obtain ⟨os, htrace, hos, -⟩ := pass.trace (by decide)
    exact ⟨os, htrace, hos⟩
  | receive _ fp σ σ' n pt eph _ held ready ready' view other =>
    exact ⟨_, rfl, by simp [Posted, Shipped, Obs.shipment]⟩
  | answer _ _ fp σ σ' n pt eph _ held ready ready' view notice pass =>
    obtain ⟨os, htrace, hos, -⟩ := pass.trace (by decide)
    rw [Desk.received_trace, List.append_assoc] at htrace
    exact ⟨_, htrace, Posted.append (by simp [Posted, Shipped, Obs.shipment]) hos⟩
  | verify _ fp st _ writes => exact hempty
  | unverify _ fp st _ writes => exact hempty
  | forget _ fp _ => exact hempty
  | wipe _ _ => exact hempty

/-- A node that has kept to its word, at every counter. -/
structure InOrder (d : Desk S) : Prop where
  counter : ∀ fp, Counter d fp
  posted : Posted d.trace

theorem Counter.start {d : Desk S} {fp : Fingerprint} (h : Counter d fp) (posted : Posted d.trace) {σ : NoiseSession} {m : Bytes}
    {os : List Obs} (shape : σ.InFlight) (own : σ.ownMsg = some m) (lost : d.fpToEph[fp]? = none → os = [])
    (fresh : FreshTrace (d.trace ++ .wrote fp σ.initiator m :: os)) :
    Counter ({ d with sessions := d.sessions.insert fp σ }.note (.wrote fp σ.initiator m :: os)) fp := by
  have hnot : ¬ ({ d with sessions := d.sessions.insert fp σ }.note (.wrote fp σ.initiator m :: os) : Desk S).ready fp := by
    rintro ⟨σ', held, ready⟩
    simp only [Desk.note, Std.ExtTreeMap.getElem?_insert_self, Option.some.injEq] at held
    rw [← held, shape.not_ready] at ready
    cases ready
  refine ⟨fun σ' held => ?_, fun ready => absurd ready hnot, fun waiting => ⟨hnot, (h.waits waiting).2⟩, h.clear⟩
  simp only [Desk.note, Std.ExtTreeMap.getElem?_insert_self, Option.some.injEq] at held
  subst held
  refine ⟨m, own, List.mem_append_right _ List.mem_cons_self, fun route hship => ?_⟩
  rcases shipped_append.mp hship with hship | hship
  · obtain ⟨fp', b, hold⟩ := posted m hship
    exact fresh.ne hold List.mem_cons_self rfl
  · -- without a route the message stays here
    rw [lost route] at hship
    simp [Shipped, Obs.shipment] at hship

/-- Where a session comes up, the peer is routable. -/
theorem Counter.complete_routed {d : Desk S} {fp : Fingerprint} (h : Counter d fp) {σ σ' : NoiseSession} {ms : List Bytes}
    {os : List Obs} (held : d.sessions[fp]? = some σ) (shape : σ.InFlight) (transcript : σ'.transcript = σ.transcript ++ ms)
    (role : σ'.initiator = σ.initiator) (written : Written fp σ'.initiator os)
    (fresh : FreshTrace (d.trace ++ os ++ [.event (.dmSession fp true) (some σ'.view)]))
    (answered : Runs.Justified Obs.Answered (d.trace ++ os ++ [.event (.dmSession fp true) (some σ'.view)])) :
    σ'.ownMsg = σ.ownMsg ∧ d.fpToEph[fp]? ≠ none := by
  obtain ⟨m, hm, hwrote, hout⟩ := h.own σ held
  have hown : σ'.ownMsg = some m := by
    have hlt : (if σ.initiator then 0 else 1) < σ.transcript.length := by
      obtain ⟨-, ⟨hrole, hlen⟩ | ⟨hrole, hlen⟩⟩ := shape <;> simp [hrole, hlen]
    rw [NoiseSession.ownMsg, role, transcript, List.getElem?_append_left hlt]
    exact hm
  refine ⟨hown.trans hm.symm, fun route => ?_⟩
  have hship : Shipped (d.trace ++ os) m := answered (d.trace ++ os) _ [] rfl m hown
  rcases shipped_append.mp hship with hship | hship
  · exact hout route hship
  · obtain ⟨fp', b, hnew⟩ := Posted.written written m hship
    exact fresh.before.ne hwrote hnew rfl

theorem Counter.complete {d : Desk S} {fp : Fingerprint} (h : Counter d fp) {σ σ' : NoiseSession} {ms : List Bytes} {os : List Obs}
    (held : d.sessions[fp]? = some σ) (shape : σ.InFlight) (transcript : σ'.transcript = σ.transcript ++ ms)
    (role : σ'.initiator = σ.initiator) (written : Written fp σ'.initiator os)
    (fresh : FreshTrace (d.trace ++ os ++ [.event (.dmSession fp true) (some σ'.view)]))
    (answered : Runs.Justified Obs.Answered (d.trace ++ os ++ [.event (.dmSession fp true) (some σ'.view)])) :
    Counter ({ d with sessions := d.sessions.insert fp σ', pendingDms := d.pendingDms.erase fp }.note
      (os ++ [Obs.event (.dmSession fp true) (some σ'.view)])) fp := by
  obtain ⟨hown, hroute⟩ := h.complete_routed held shape transcript role written fresh answered
  refine ⟨fun σ₁ held₁ => ?_, fun _ => hroute, fun waiting => ?_, h.clear⟩
  · simp only [Desk.note, Std.ExtTreeMap.getElem?_insert_self, Option.some.injEq] at held₁
    subst held₁
    obtain ⟨m, hm, hwrote, -⟩ := h.own σ held
    exact ⟨m, hown.trans hm, by rw [role]; exact List.mem_append_left _ hwrote, fun none => absurd none hroute⟩
  · simp [Desk.waiting, Desk.note] at waiting

theorem Counter.meet {d : Desk S} {fp : Fingerprint} (h : Counter d fp) (eph : EphId) (st : S) (os : List Obs) :
    Counter ({ d with fpToEph := d.fpToEph.insert fp eph, store := (Store.takeEnvelopes st fp).1 }.note os) fp := by
  have hroute : (d.fpToEph.insert fp eph)[fp]? ≠ none := by simp
  refine ⟨fun σ held => ?_, fun _ => hroute, fun waiting => ⟨(h.waits waiting).1, hroute⟩, fun _ => ?_⟩
  · obtain ⟨m, hm, hwrote, -⟩ := h.own σ held
    exact ⟨m, hm, List.mem_append_left os hwrote, fun none => absurd none hroute⟩
  · simp [Desk.held, Desk.note, EnvelopeStore.take_left]

/-- A beat that begins nothing at `fp`. -/
theorem Counter.beat_settles {d d' : Desk S} {hand hand' : List Errand} {fp : Fingerprint} (h : Counter d fp)
    (beat : Beat (d, hand) (d', hand')) (hs : Settles d d' fp) (fresh : FreshTrace d'.trace) : Counter d' fp := by
  obtain ⟨os, htrace, hposted⟩ := beat.growth
  exact h.settles hs htrace hposted fresh

/-- No session and nothing that waits for one. -/
theorem Counter.of_gone {d : Desk S} {fp : Fingerprint} (session : d.sessions[fp]? = none) (waiting : d.waiting fp = [])
    (clear : d.fpToEph[fp]? = none ∨ d.held fp = []) : Counter d fp := by
  refine ⟨fun σ held => ?_, fun ready => ?_, fun h => absurd waiting h, fun route => clear.resolve_left route⟩
  · rw [session] at held
    cases held
  · obtain ⟨σ, held, -⟩ := ready
    rw [session] at held
    cases held

omit P [Store S] [EnvelopeStore S] in
theorem Desk.erased {V : Type} (m : Std.ExtTreeMap Fingerprint V) (fp₀ fp : Fingerprint) :
    (m.erase fp₀)[fp]? = m[fp]? ∨ (m.erase fp₀)[fp]? = none := by
  by_cases h : fp₀ = fp
  · exact .inr (by simp [h])
  · exact .inl (Maps.getElem?_erase_ne m h)

omit [Store S] [EnvelopeStore S] in
theorem Desk.erased_waiting {d d' : Desk S} {fp₀ fp : Fingerprint} (h : d'.pendingDms = d.pendingDms.erase fp₀) :
    d'.waiting fp = d.waiting fp ∨ d'.waiting fp = [] := by
  unfold Desk.waiting
  rcases Desk.erased d.pendingDms fp₀ fp with heq | heq
  · exact .inl (by rw [h, heq])
  · exact .inr (by rw [h, heq]; rfl)

/-! ## The line moves forward -/

theorem line_settles {d d' : Desk S} {fp : Fingerprint} (hs : Settles d d' fp) (sent : d'.sent fp = d.sent fp)
    {hand hand' : List Errand} (rest : (hand'.filterMap (Errand.textFor fp)).Sublist (hand.filterMap (Errand.textFor fp))) :
    (line fp (d', hand')).Sublist (line fp (d, hand)) := by
  unfold line
  rw [sent]
  refine (List.Sublist.refl _).append (.append ?_ (hs.held.append rest))
  rcases hs.waiting with heq | heq
  · rw [heq]
  · rw [heq]
    exact List.nil_sublist _

omit [Store S] [EnvelopeStore S] in
theorem Desk.sent_append {d d' : Desk S} {os : List Obs} (trace : d'.trace = d.trace ++ os) (fp : Fingerprint) :
    d'.sent fp = d.sent fp ++ (os.filterMap Obs.sentText).filterMap (textWith fp) := by
  rw [Desk.sent, trace, List.filterMap_append, List.filterMap_append, Desk.sent]

omit P in
theorem Obs.Idle.sentText {o : Obs} (h : o.Idle) : o.sentText = none := by
  cases o <;> first | rfl | exact h.elim

omit [Store S] [EnvelopeStore S] in
theorem Desk.sent_quiet (d : Desk S) {os : List Obs} (quiet : ∀ o ∈ os, o.sentText = none) (fp : Fingerprint) :
    (d.note os).sent fp = d.sent fp := by
  rw [Desk.sent_append (d := d) rfl, List.filterMap_eq_nil_iff.mpr quiet, List.filterMap_nil, List.append_nil]

omit P in
theorem Written.sentText {fp : Fingerprint} {b : Bool} {os : List Obs} (h : Written fp b os) : ∀ o ∈ os, o.sentText = none := by
  rcases h with rfl | ⟨m, rest, rfl, carries⟩
  · simp
  · intro o ho
    rcases List.mem_cons.mp ho with rfl | ho
    · rfl
    · have hq := carries o ho
      cases o <;> first | rfl | exact hq.elim

omit P in
/-- The same with the event of the session's end. -/
theorem Written.completed {fp : Fingerprint} {b : Bool} {os : List Obs} (h : Written fp b os) {verified : Bool}
    {side : Option SessionView} : ∀ o ∈ os ++ [Obs.event (.dmSession fp verified) side], o.sentText = none := by
  intro o ho
  rcases List.mem_append.mp ho with ho | ho
  · exact h.sentText o ho
  · rw [List.mem_singleton.mp ho]
    rfl

omit [Store S] [EnvelopeStore S] in
theorem Seal.sent_other {d d' : Desk S} {fp fp' : Fingerprint} {text : String} (h : Seal d fp (dmKindText :: asBytes text) d')
    (other : fp ≠ fp') : d'.sent fp' = d.sent fp' := by
  obtain ⟨os, htrace, -, hos⟩ := h.trace (by decide)
  have hnone := hos.filterMap (textWith fp')
  rw [show (MeshNode.carried fp dmKindText (asBytes text)).filterMap (textWith fp') = [] by
    simp [MeshNode.carried, textWith, other], List.sublist_nil] at hnone
  rw [Desk.sent_append htrace fp', hnone, List.append_nil]

omit [Store S] [EnvelopeStore S] in
theorem Seal.control {d d' : Desk S} {fp : Fingerprint} {kind : UInt8} (hkind : kind ≤ dmKindVerifyAck) (control : kind ≠ dmKindText)
    (h : Seal d fp [kind] d') (fp' : Fingerprint) : d'.sent fp' = d.sent fp' := by
  obtain ⟨os, htrace, -, hsent⟩ := h.trace hkind
  rw [MeshNode.carried, if_neg control, List.sublist_nil] at hsent
  rw [Desk.sent_append htrace, hsent, List.filterMap_nil, List.append_nil]

/-! What the special beats do to the line of their own peer. -/

omit P [Store S] [EnvelopeStore S] in
theorem Errand.textFor_own (fp : Fingerprint) (texts : List String) :
    (texts.map (Errand.text fp)).filterMap (Errand.textFor fp) = texts := by
  rw [List.filterMap_map]
  have hall : (Errand.textFor fp ∘ Errand.text fp) = some := by
    funext text
    simp [Errand.textFor]
  rw [hall, List.filterMap_some]

omit P [Store S] [EnvelopeStore S] in
theorem Errand.textFor_other {fp fp' : Fingerprint} (h : fp ≠ fp') (texts : List String) :
    (texts.map (Errand.text fp)).filterMap (Errand.textFor fp') = [] := by
  rw [List.filterMap_map, List.filterMap_eq_nil_iff]
  intro text _
  simp [Errand.textFor, h]

theorem line_meet {d : Desk S} {fp : Fingerprint} {st : S} (writes : SideWrites d.store st) (eph : EphId) {os : List Obs}
    (quiet : ∀ o ∈ os, o.Idle) (hand : List Errand) :
    (line fp ({ d with fpToEph := d.fpToEph.insert fp eph, store := (Store.takeEnvelopes st fp).1 }.note os,
      (Store.takeEnvelopes st fp).2.map (fun b => .text fp (fromUtf8Lossy b)) ++ hand)).Sublist (line fp (d, hand)) := by
  have hsent := Desk.sent_quiet { d with fpToEph := d.fpToEph.insert fp eph, store := (Store.takeEnvelopes st fp).1 }
    (fun o ho => (quiet o ho).sentText) fp
  have hleft : ({ d with fpToEph := d.fpToEph.insert fp eph, store := (Store.takeEnvelopes st fp).1 }.note os : Desk S).held fp = [] := by
    simp [Desk.held, Desk.note, EnvelopeStore.take_left]
  have htaken : ((Store.takeEnvelopes st fp).2.map fromUtf8Lossy).Sublist (d.held fp) := by
    rw [Desk.held, ← writes.envelopes]
    exact (EnvelopeStore.take_held st fp).map _
  have hsplit : (Store.takeEnvelopes st fp).2.map (fun b => Errand.text fp (fromUtf8Lossy b)) =
      ((Store.takeEnvelopes st fp).2.map fromUtf8Lossy).map (Errand.text fp) := by
    rw [List.map_map]
    rfl
  unfold line
  rw [hsent, hleft, hsplit, List.nil_append, List.filterMap_append, Errand.textFor_own]
  exact (List.Sublist.refl _).append ((List.Sublist.refl _).append (htaken.append_right _))

theorem line_complete {d : Desk S} {fp : Fingerprint} (clear : d.held fp = []) (σ' : NoiseSession) {os : List Obs}
    (quiet : ∀ o ∈ os, o.sentText = none) (hand : List Errand) :
    line fp ({ d with sessions := d.sessions.insert fp σ', pendingDms := d.pendingDms.erase fp }.note os,
      (d.pendingDms[fp]?.getD []).map (.text fp) ++ hand) = line fp (d, hand) := by
  have hsent := Desk.sent_quiet { d with sessions := d.sessions.insert fp σ', pendingDms := d.pendingDms.erase fp } quiet fp
  have hgone : ({ d with sessions := d.sessions.insert fp σ', pendingDms := d.pendingDms.erase fp }.note os : Desk S).waiting fp = [] := by
    simp [Desk.waiting, Desk.note]
  have hheld : ({ d with sessions := d.sessions.insert fp σ', pendingDms := d.pendingDms.erase fp }.note os : Desk S).held fp =
      d.held fp := rfl
  unfold line
  rw [hsent, hgone, hheld, clear, List.filterMap_append, Errand.textFor_own]
  rfl

/-- A ready session has nobody in front. -/
theorem line_send {d d' : Desk S} {fp : Fingerprint} {text : String} (h : Counter d fp)
    (pass : Seal d fp (dmKindText :: asBytes text) d') (hand : List Errand) :
    (line fp (d', hand)).Sublist (line fp (d, .text fp text :: hand)) := by
  have hready := pass.ready_before
  have hwaiting : d.waiting fp = [] := by
    by_contra hne
    exact (h.waits hne).1 hready
  have hheld : d.held fp = [] := h.clear (h.routed hready)
  have hs : Settles d d' fp := pass.settles
  have hwaiting' : d'.waiting fp = [] := by
    rcases hs.waiting with heq | heq
    · exact heq.trans hwaiting
    · exact heq
  have hheld' : d'.held fp = [] := List.sublist_nil.mp (hheld ▸ hs.held)
  obtain ⟨os, htrace, -, hos⟩ := pass.trace (by decide)
  rw [MeshNode.carried, if_pos rfl, fromUtf8Lossy_asBytes] at hos
  have hone : ((os.filterMap Obs.sentText).filterMap (textWith fp)).Sublist [text] := by
    simpa [textWith] using hos.filterMap (textWith fp)
  have hfrom : line fp (d, .text fp text :: hand) = d.sent fp ++ ([text] ++ hand.filterMap (Errand.textFor fp)) := by
    simp [line, hwaiting, hheld, Errand.textFor]
  have hto : line fp (d', hand) = d.sent fp ++
      ((os.filterMap Obs.sentText).filterMap (textWith fp) ++ hand.filterMap (Errand.textFor fp)) := by
    rw [line, Desk.sent_append htrace fp, hwaiting', hheld', List.nil_append, List.nil_append, List.append_assoc]
  rw [hfrom, hto]
  exact (List.Sublist.refl _).append (hone.append (.refl _))

/-- A text put away is the last of those put away. -/
theorem line_hold (d : Desk S) (fp : Fingerprint) (text : String) (hand : List Errand) :
    (line fp ({ d with store := Store.queueEnvelope d.store fp (asBytes text) d.clock }, hand)).Sublist
      (line fp (d, .text fp text :: hand)) := by
  have hheld : (({ d with store := Store.queueEnvelope d.store fp (asBytes text) d.clock } : Desk S).held fp).Sublist
      (d.held fp ++ [text]) := by
    have hqueue := EnvelopeStore.queue d.store fp (asBytes text) d.clock fp
    rw [if_pos rfl] at hqueue
    have hmap := hqueue.map fromUtf8Lossy
    rwa [List.map_append, List.map_singleton, fromUtf8Lossy_asBytes] at hmap
  have hrest : (Errand.text fp text :: hand).filterMap (Errand.textFor fp) = [text] ++ hand.filterMap (Errand.textFor fp) := by
    simp [Errand.textFor]
  unfold line
  rw [hrest, ← List.append_assoc (d.held fp)]
  exact (List.Sublist.refl _).append ((List.Sublist.refl _).append (hheld.append (.refl _)))

theorem line_queue {d : Desk S} {fp : Fingerprint} (clear : d.held fp = []) (text : String) (hand : List Errand) :
    line fp ({ d with pendingDms := d.pendingDms.insert fp (d.pendingDms[fp]?.getD [] ++ [text]) }, hand) =
      line fp (d, .text fp text :: hand) := by
  have hqueued : ({ d with pendingDms := d.pendingDms.insert fp (d.pendingDms[fp]?.getD [] ++ [text]) } : Desk S).waiting fp =
      d.waiting fp ++ [text] := by
    simp [Desk.waiting]
  have hrest : (Errand.text fp text :: hand).filterMap (Errand.textFor fp) = [text] ++ hand.filterMap (Errand.textFor fp) := by
    simp [Errand.textFor]
  have hheld : ({ d with pendingDms := d.pendingDms.insert fp (d.pendingDms[fp]?.getD [] ++ [text]) } : Desk S).held fp =
      d.held fp := rfl
  unfold line
  rw [hqueued, hrest, hheld, clear, List.nil_append, List.nil_append, List.append_assoc]
  rfl

theorem Beat.step {d d' : Desk S} {hand hand' : List Errand} (beat : Beat (d, hand) (d', hand')) (order : InOrder d)
    (fresh : FreshTrace d'.trace) (answered : Runs.Justified Obs.Answered d'.trace) (fp : Fingerprint) :
    Counter d' fp ∧ (line fp (d', hand')).Sublist (line fp (d, hand)) := by
  have h := order.counter fp
  have hsettles : Settles d d' fp → d'.sent fp = d.sent fp →
      (hand'.filterMap (Errand.textFor fp)).Sublist (hand.filterMap (Errand.textFor fp)) →
      Counter d' fp ∧ (line fp (d', hand')).Sublist (line fp (d, hand)) :=
    fun hs hsent hrest => ⟨h.beat_settles beat hs fresh, line_settles hs hsent hrest⟩
  cases beat with
  | idle _ st os _ writes quiet =>
    exact hsettles (.of_eq rfl rfl rfl (Desk.held_of_envelopes writes.envelopes fp))
      (Desk.sent_quiet _ (fun o ho => (quiet o ho).sentText) fp) (.refl _)
  | meet _ fp₀ eph st os _ writes quiet =>
    by_cases hfp : fp₀ = fp
    · subst hfp
      exact ⟨h.meet eph st os, line_meet writes eph quiet _⟩
    · refine hsettles (.of_part (.inl rfl) (Maps.getElem?_insert_ne _ _ hfp) (.inl rfl) ?_)
        (Desk.sent_quiet _ (fun o ho => (quiet o ho).sentText) fp) ?_
      · simp only [Desk.held, Desk.note, EnvelopeStore.take_left, if_neg (Ne.symm hfp), writes.envelopes]
        exact .refl _
      · have hnone := Errand.textFor_other hfp ((Store.takeEnvelopes st fp₀).2.map fromUtf8Lossy)
        rw [List.map_map] at hnone
        rw [List.filterMap_append, show (fun b => Errand.text fp₀ (fromUtf8Lossy b)) = Errand.text fp₀ ∘ fromUtf8Lossy from rfl,
          hnone, List.nil_append]
  | start _ fp₀ σ m os _ shape own carries lost =>
    have hwritten : Written fp₀ σ.initiator (.wrote fp₀ σ.initiator m :: os) := .inr ⟨m, os, rfl, carries⟩
    have hsent := Desk.sent_quiet { d with sessions := d.sessions.insert fp₀ σ } hwritten.sentText fp
    by_cases hfp : fp₀ = fp
    · subst hfp
      refine ⟨h.start order.posted shape own lost fresh, ?_⟩
      unfold line
      rw [hsent]
      exact .refl _
    · exact hsettles (.of_part (.inl (Maps.getElem?_insert_ne _ _ hfp)) rfl (.inl rfl) (.refl _)) hsent (.refl _)
  | lose _ fp₀ _ => exact hsettles (.of_part (Desk.erased _ _ _) rfl (.inl rfl) (.refl _)) rfl (.refl _)
  | complete _ fp₀ σ σ' ms os _ held shape ready transcript role written =>
    have htrace : ({ d with sessions := d.sessions.insert fp₀ σ', pendingDms := d.pendingDms.erase fp₀ }.note
        (os ++ [Obs.event (.dmSession fp₀ true) (some σ'.view)]) : Desk S).trace =
        d.trace ++ os ++ [.event (.dmSession fp₀ true) (some σ'.view)] := (List.append_assoc _ _ _).symm
    rw [htrace] at fresh answered
    by_cases hfp : fp₀ = fp
    · subst hfp
      have hroute := (h.complete_routed held shape transcript role written fresh answered).2
      exact ⟨h.complete held shape transcript role written fresh answered, (line_complete (h.clear hroute) σ' written.completed _) ▸ .refl _⟩
    · refine hsettles (.of_part (.inl (Maps.getElem?_insert_ne _ _ hfp)) rfl
        (.inl (by simp only [Desk.waiting, Desk.note, Maps.getElem?_erase_ne _ hfp])) (.refl _)) (Desk.sent_quiet _ written.completed fp) ?_
      rw [List.filterMap_append, Errand.textFor_other hfp, List.nil_append]
  | reject _ fp₀ initiator os _ written =>
    refine hsettles (.of_part (Desk.erased _ _ _) rfl (Desk.erased_waiting rfl) (.refl _)) ?_ (.refl _)
    exact Desk.sent_quiet _ written.completed fp
  | record _ fp₀ text _ =>
    exact hsettles (.of_eq rfl rfl rfl (Desk.held_of_envelopes (EnvelopeStore.put_dm _ _) fp)) rfl (.refl _)
  | send _ _ fp₀ text _ pass =>
    by_cases hfp : fp₀ = fp
    · subst hfp
      exact ⟨h.beat_settles (.send d d' fp₀ text hand' pass) pass.settles fresh, line_send h pass hand'⟩
    · exact hsettles pass.settles (pass.sent_other hfp) (by simp [Errand.textFor, hfp])
  | hold _ fp₀ text _ waiting unrouted =>
    by_cases hfp : fp₀ = fp
    · subst hfp
      exact ⟨⟨h.own, h.routed, h.waits, fun route => absurd unrouted route⟩, line_hold d fp₀ text _⟩
    · refine hsettles (.of_eq rfl rfl rfl ?_) rfl (by simp [Errand.textFor, hfp])
      have hqueue := EnvelopeStore.queue d.store fp₀ (asBytes text) d.clock fp
      rw [if_neg (Ne.symm hfp)] at hqueue
      exact hqueue.map _
  | queue _ fp₀ eph text _ waiting routed =>
    by_cases hfp : fp₀ = fp
    · subst hfp
      have hroute : d.fpToEph[fp₀]? ≠ none := by
        rw [routed]
        simp
      exact ⟨⟨h.own, h.routed, fun _ => ⟨waiting, hroute⟩, h.clear⟩, (line_queue (h.clear hroute) text _) ▸ .refl _⟩
    · refine hsettles (.of_part (.inl rfl) rfl ?_ (.refl _)) rfl (by simp [Errand.textFor, hfp])
      exact .inl (by simp only [Desk.waiting, Maps.getElem?_insert_ne _ _ hfp])
  | notify _ _ fp₀ _ owed pass =>
    have hput : Settles d { d with
        noticePending := d.noticePending.erase fp₀
        store := Store.putDm d.store (ownRow fp₀ d.clock [dmKindVerifyNotice]) } fp :=
      .of_eq rfl rfl rfl (Desk.held_of_envelopes (EnvelopeStore.put_dm _ _) fp)
    exact hsettles (hput.trans pass.settles) (pass.control (by decide) (by decide) fp) (.refl _)
  | receive _ fp₀ σ σ' n pt eph _ held ready ready' view other =>
    refine hsettles ?_ (Desk.sent_quiet _ (by simp [Obs.sentText, Obs.sealed]) fp) (.refl _)
    exact .of_session fp₀ held view (ready'.trans ready.symm) rfl rfl rfl (Desk.held_of_envelopes (EnvelopeStore.put_dm _ _) fp)
  | answer _ _ fp₀ σ σ' n pt eph _ held ready ready' view notice pass =>
    have hput : Settles d { d.received fp₀ σ σ' n pt eph with
        store := Store.putDm (d.received fp₀ σ σ' n pt eph).store (ownRow fp₀ d.clock [dmKindVerifyAck]) } fp :=
      .of_session fp₀ held view (ready'.trans ready.symm) rfl rfl rfl
        (Desk.held_of_envelopes ((EnvelopeStore.put_dm _ _).trans (EnvelopeStore.put_dm _ _)) fp)
    have hreceived : (d.received fp₀ σ σ' n pt eph).sent fp = d.sent fp :=
      Desk.sent_quiet _ (by simp [Obs.sentText, Obs.sealed]) fp
    exact hsettles (hput.trans pass.settles) ((pass.control (by decide) (by decide) fp).trans hreceived) (.refl _)
  | verify _ fp₀ st _ writes =>
    exact hsettles (.of_eq rfl rfl rfl (Desk.held_of_envelopes ((EnvelopeStore.delete_dms _ _ _).trans writes.envelopes) fp)) rfl
      (.refl _)
  | unverify _ fp₀ st _ writes =>
    exact hsettles (.of_part (Desk.erased _ _ _) rfl (Desk.erased_waiting rfl)
      (Desk.held_of_envelopes ((EnvelopeStore.delete_dms _ _ _).trans writes.envelopes) fp)) rfl (.refl _)
  | forget _ fp₀ _ =>
    have hstore : EnvelopeStore.envelopes (Store.deletePeer (Store.deleteDms d.store fp₀ false) fp₀) =
        EnvelopeStore.envelopes d.store := (EnvelopeStore.delete_peer _ _).trans (EnvelopeStore.delete_dms _ _ _)
    have hsettled : Settles d { d with
        store := Store.deletePeer (Store.deleteDms d.store fp₀ false) fp₀
        sessions := d.sessions.erase fp₀, pendingDms := d.pendingDms.erase fp₀ } fp :=
      .of_part (Desk.erased _ _ _) rfl (Desk.erased_waiting rfl) (Desk.held_of_envelopes hstore fp)
    have hrest : (hand'.filterMap (Errand.textFor fp)).Sublist ((.forget fp₀ :: hand').filterMap (Errand.textFor fp)) := .refl _
    have hline := line_settles hsettled rfl hrest
    refine ⟨?_, hline⟩
    by_cases hfp : fp₀ = fp
    · subst hfp
      exact .of_gone (by simp [Desk.dropped]) (by simp [Desk.dropped, Desk.waiting]) (.inl (by simp [Desk.dropped]))
    · exact h.beat_settles (.forget d fp₀ hand') (.of_part (Desk.erased _ _ _) (Maps.getElem?_erase_ne _ hfp)
        (Desk.erased_waiting rfl) (Desk.held_of_envelopes hstore fp)) fresh
  | wipe _ _ =>
    refine ⟨.of_gone (by simp) (by simp [Desk.waiting]) (.inl (by simp)), ?_⟩
    have hwaiting : ({ d with store := Store.panicWipe d.store, sessions := ∅, pendingDms := ∅, fpToEph := ∅, noticePending := ∅ } :
        Desk S).waiting fp = [] := by simp [Desk.waiting]
    have hheld : ({ d with store := Store.panicWipe d.store, sessions := ∅, pendingDms := ∅, fpToEph := ∅, noticePending := ∅ } :
        Desk S).held fp = [] := by simp [Desk.held, EnvelopeStore.wipe]
    unfold line
    rw [hwaiting, hheld]
    exact (List.Sublist.refl _).append ((List.nil_sublist _).append ((List.nil_sublist _).append (.refl _)))

/-! ## Calls and runs -/

theorem Beats.inOrder {c c' : Desk S × List Errand} (beats : Beats c c') (order : InOrder c.1) (fresh : FreshTrace c'.1.trace)
    (answered : Runs.Justified Obs.Answered c'.1.trace) : InOrder c'.1 ∧ ∀ fp, (line fp c').Sublist (line fp c) := by
  induction beats with
  | refl => exact ⟨order, fun fp => .refl _⟩
  | tail _ beat ih =>
    obtain ⟨os, htrace, hposted⟩ := beat.growth
    rw [htrace] at fresh answered
    obtain ⟨horder, hline⟩ := ih fresh.before answered.before
    rw [← htrace] at fresh answered
    have hstep := beat.step horder fresh answered
    exact ⟨⟨fun fp => (hstep fp).1, by rw [htrace]; exact horder.posted.append hposted⟩,
      fun fp => (hstep fp).2.trans (hline fp)⟩

omit [EnvelopeStore S] in
theorem Beats.growth {c c' : Desk S × List Errand} (beats : Beats c c') : ∃ os, c'.1.trace = c.1.trace ++ os := by
  induction beats with
  | refl => exact ⟨[], by simp⟩
  | tail _ beat ih =>
    obtain ⟨os, htrace⟩ := ih
    obtain ⟨os', htrace', -⟩ := beat.growth
    exact ⟨os ++ os', by rw [htrace', htrace, List.append_assoc]⟩

/-- A new node has nothing in front of what it holds. -/
theorem InOrder.initial {d : Desk S} (sessions : d.sessions = ∅) (pending : d.pendingDms = ∅) (routes : d.fpToEph = ∅)
    (trace : d.trace = []) : InOrder d ∧ ∀ fp, line fp (d, []) = d.held fp := by
  refine ⟨⟨fun fp => ?_, ?_⟩, fun fp => ?_⟩
  · exact .of_gone (by simp [sessions]) (by simp [Desk.waiting, pending]) (.inl (by simp [routes]))
  · rw [trace]
    exact .idle (by simp)
  · simp [line, Desk.sent, Desk.waiting, trace, pending]

namespace MeshNode

omit P [Store S] [EnvelopeStore S] in
/-- What a call asks for, as errands and as texts. -/
theorem errands_asked (a : Action) (fp : Fingerprint) :
    (errands a).filterMap (Errand.textFor fp) = (asked a).filterMap (textWith fp) := by
  cases a <;> rfl

/-- The texts a node encrypts for a peer, over every run and any number of sessions, are some of those
it held for that peer at first and was given later, in their order. Nothing waits for a session that is
up, and nothing is held for a peer that is routable. A session comes up only if the message it began
with left the node, and all handshake messages are different. -/
theorem sent_in_order (laws : SnowLaws P) {s₀ : MeshNode S} (hinit : s₀.Initial) (calls : List Call)
    (fresh : (Runs.run exec s₀ calls).FreshMessages)
    (answered : Runs.Justified Obs.Answered (Runs.run exec s₀ calls).trace) (fp : Fingerprint) :
    (((Runs.run exec s₀ calls).trace.filterMap Obs.sentText).filterMap (textWith fp)).Sublist
        ((EnvelopeStore.envelopes s₀.store fp).map fromUtf8Lossy ++ (calls.flatMap fun c => asked c.action).filterMap (textWith fp)) ∧
      ((Runs.run exec s₀ calls).pendingDms[fp]?.getD [] ≠ [] → (Runs.run exec s₀ calls).sessionReady fp = false) ∧
      ((Runs.run exec s₀ calls).fpToEph.contains fp = true →
        EnvelopeStore.envelopes (Runs.run exec s₀ calls).store fp = []) := by
  have hrun := Runs.run_history exec (fun past s => s.Shaped ∧ (FreshTrace s.trace → Runs.Justified Obs.Answered s.trace →
    InOrder s.desk ∧ ∀ fp, (line fp (s.desk, [])).Sublist
      (s₀.desk.held fp ++ (past.flatMap fun c => asked c.action).filterMap (textWith fp)))) s₀ ?_ ?_ calls
  · obtain ⟨-, hrun⟩ := hrun
    obtain ⟨horder, hline⟩ := hrun fresh answered
    have hcounter := horder.counter fp
    refine ⟨(List.sublist_append_left _ _).trans (hline fp), fun hwait => ?_, fun hroute => ?_⟩
    · rw [Bool.eq_false_iff, ne_eq, ← ready_iff]
      exact (hcounter.waits hwait).1
    · rw [Std.ExtTreeMap.contains_eq_isSome_getElem?, Option.isSome_iff_ne_none] at hroute
      exact List.map_eq_nil_iff.mp (hcounter.clear hroute)
  · refine ⟨hinit.reachable.shaped laws, fun _ _ => ?_⟩
    obtain ⟨identity, cfg, clock, store, nickname, rngSeed, entropy, rfl⟩ := hinit
    obtain ⟨horder, hline⟩ := InOrder.initial (d := (MeshNode.new identity cfg clock store nickname rngSeed entropy).desk) rfl rfl rfl rfl
    refine ⟨horder, fun fp => ?_⟩
    rw [hline]
    exact List.sublist_append_left _ _
  · rintro past s c ⟨shaped, hpast⟩
    have hbeats := exec_beats laws shaped c
    obtain ⟨os, htrace⟩ := hbeats.growth
    refine ⟨exec_shaped laws shaped c, fun hfresh hanswered => ?_⟩
    have hbefore : (exec s c).trace = s.trace ++ os := htrace
    obtain ⟨horder, hline⟩ := hpast (by rw [hbefore] at hfresh; exact hfresh.before)
      (by rw [hbefore] at hanswered; exact hanswered.before)
    have hcounter : ∀ fp, Counter { s.desk with clock := c.now } fp := fun fp =>
      ⟨(horder.counter fp).own, (horder.counter fp).routed, (horder.counter fp).waits, (horder.counter fp).clear⟩
    obtain ⟨horder', hline'⟩ := hbeats.inOrder ⟨hcounter, horder.posted⟩ hfresh hanswered
    refine ⟨horder', fun fp => (hline' fp).trans ?_⟩
    have hstart : line fp ({ s.desk with clock := c.now }, errands c.action) =
        line fp (s.desk, []) ++ (asked c.action).filterMap (textWith fp) := by
      rw [← errands_asked]
      simp [line, Desk.sent, Desk.waiting, Desk.held]
    rw [hstart, List.flatMap_append, List.filterMap_append, List.flatMap_singleton, ← List.append_assoc]
    exact (hline fp).append_right _

end MeshNode
end CockroachChat

namespace CockroachChat.Reference
attribute [local instance] prims

/-- Node 1 has a text for node 2 before it hears of it, and one more while the handshake is under way. -/
def beforeAnswer : List Call :=
  [up 0 0, ⟨0, .sendDm (fpOf 2) "first"⟩] ++ arriving 0 0 (framesFrom 0 (linked 2)) ++ [⟨1, .sendDm (fpOf 2) "second"⟩]

/-- Node 2's answer to the handshake message, and one text more over the session. -/
def threePaths : List Call :=
  beforeAnswer ++
    arriving 1 0 (framesFrom (met 2 1).trace.length
      (run (met 2 1) (arriving 1 0 (framesFrom (linked 1).trace.length (run (node 1 {}) beforeAnswer))))) ++
    [⟨2, .sendDm (fpOf 2) "third"⟩]

theorem three_paths_in_order :
    (run (node 1 {}) threePaths).trace.filterMap Obs.sentText = [(fpOf 2, "first"), (fpOf 2, "second"), (fpOf 2, "third")] ∧
      (((run (node 1 {}) threePaths).trace.filterMap Obs.sentText).filterMap (textWith (fpOf 2))).Sublist
        ((EnvelopeStore.envelopes store (fpOf 2)).map fromUtf8Lossy ++
          (threePaths.flatMap fun c => MeshNode.asked c.action).filterMap (textWith (fpOf 2))) := by
  have hfresh : (run (node 1 {}) threePaths).FreshMessages := by
    unfold MeshNode.FreshMessages
    decide +kernel
  exact ⟨by decide +kernel,
    (MeshNode.sent_in_order laws (node_initial 1 {}) threePaths hfresh (by decide +kernel) (fpOf 2)).1⟩

end CockroachChat.Reference
