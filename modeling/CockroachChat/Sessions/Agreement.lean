import CockroachChat.Core.WireFormat
import CockroachChat.Foundations.Matching
import CockroachChat.Sessions.Transfers

/-! # Agreement of two nodes on the texts of a conversation

Two nodes and a network that can do anything with frames: a run interleaves any calls of the two,
with any frames among their arguments. Under ideal primitives every text that one node shows as the
other's was sent by the other, and as often. It was sent to an identity under which the other had
seen the X25519 key of the first announced. -/
namespace CockroachChat
set_option autoImplicit false

variable [P : Prims] {S : Type}

/-- The two ends of a conversation. -/
inductive Side
  | a
  | b
  deriving DecidableEq

/-- Two nodes side by side; whatever is between them is left to the calls of a run. -/
structure Pair (S : Type) where
  a : MeshNode S
  b : MeshNode S

/-- The primitives are ideal for the two nodes: `a` shares its keys with nobody, and `b` reads only
what was written under them. -/
structure IdealPrims (a b : MeshNode S) : Prop where
  /-- No other key hashes to `a`'s fingerprint. -/
  collisionFree : ∀ ed : Key32, P.sha256 ed.toList = a.fingerprint → ed = a.identity.edPublic
  /-- What verifies under `a`'s key is what `a` signed. -/
  unforgeable : ∀ pkt vk, .accept pkt ∈ b.trace → P.vkFromBytes a.identity.edPublic = some vk →
    pkt.verifyWith vk = .ok () → ∃ q, .originate q ∈ a.trace ∧ q.signedRegion = pkt.signedRegion
  /-- Every handshake message `b` writes carries fresh randomness. -/
  fresh : b.FreshMessages
  /-- What opens in a session with `a`'s static key was sealed by `a`, in the session with the same
  handshake and `b`'s static key, at the same nonce. -/
  transport : ∀ t ∈ b.trace.filterMap Obs.opened, t.side.remoteStatic = some a.identity.dhPublic →
    ∃ t' ∈ a.trace.filterMap Obs.sealed, t'.side.transcript = t.side.transcript ∧
      t'.side.initiator = !t.side.initiator ∧ t'.side.remoteStatic = some b.identity.dhPublic ∧
      t'.nonce = t.nonce ∧ t'.plaintext = t.plaintext

def Obs.accepted : Obs → Option Packet
  | .accept pkt => some pkt
  | _ => none

section Texts
omit P

namespace Transfer

theorem text_fp {t : Transfer} {x : Fingerprint × String} (h : t.text = some x) : x.1 = t.fp := by
  simp only [text] at h
  split_ifs at h
  cases h
  rfl

theorem text_of_plaintext {t t' : Transfer} (h : t'.plaintext = t.plaintext) :
    t'.text.map Prod.snd = t.text.map Prod.snd := by
  simp only [text, h]
  split_ifs <;> rfl

/-- The slot a transfer has at the other end. -/
def mirror (t : Transfer) : List Bytes × Bool × ℕ := (t.side.transcript, !t.side.initiator, t.nonce)

end Transfer

/-- The text of an exchange with `fp`. -/
def textWith (fp : Fingerprint) (x : Fingerprint × String) : Option String := if x.1 = fp then some x.2 else none

theorem text_bind_textWith (t : Transfer) (fp : Fingerprint) :
    t.text.bind (textWith fp) = if t.fp = fp then t.text.map Prod.snd else none := by
  cases htext : t.text with
  | none => simp
  | some x => simp [textWith, Transfer.text_fp htext]

end Texts

/-- The text of an exchange with an identity that announced `k`. -/
noncomputable def textUnder (trace : List Obs) (k : Key32) (x : Fingerprint × String) : Option String :=
  open Classical in if Announced trace x.1 k then some x.2 else none

theorem text_bind_textUnder {t : Transfer} {trace : List Obs} {k : Key32} (h : Announced trace t.fp k) :
    t.text.bind (textUnder trace k) = t.text.map Prod.snd := by
  cases htext : t.text with
  | none => rfl
  | some x => simp [textUnder, Transfer.text_fp htext, h]

namespace MeshNode

/-- The texts a node has shown as coming from `fp`. -/
def receivedFrom (s : MeshNode S) (fp : Fingerprint) : List String :=
  (s.trace.filterMap Obs.receivedText).filterMap (textWith fp)

variable [Store S]

/-- What `b` believes to be `a`'s key is `a`'s key. -/
theorem boundTo_dhPublic (laws : SnowLaws P) {a b : MeshNode S} (ha : a.Reachable) (ideal : IdealPrims a b)
    {v : SessionView} (h : v.BoundTo b.trace a.fingerprint) : v.remoteStatic = some a.identity.dhPublic := by
  obtain ⟨k, hk, pkt, haccept, htype, ed, nick, vk, hdec, hvk, hver, hsha⟩ := h
  obtain rfl := ideal.collisionFree ed hsha
  obtain ⟨q, hq, hregion⟩ := ideal.unforgeable pkt vk haccept hvk hver
  obtain ⟨hqtype, hpayload⟩ := Packet.signedRegion_inj hregion
  -- `a` signed the same payload, so it carries `a`'s own keys
  obtain ⟨nick', hown⟩ := (ha.accounted laws).signs q hq (by rw [hqtype, htype])
  obtain ⟨nick'', hkeys⟩ := decodeAnnounce_encodeAnnounce a.identity.edPublic a.identity.dhPublic nick'
  rw [← hpayload, hown, hkeys] at hdec
  cases hdec
  exact hk

/-- A sealed transfer is on a session bound to its peer. -/
theorem sealed_bound (laws : SnowLaws P) {s : MeshNode S} (hs : s.Reachable) {t : Transfer}
    (ht : t ∈ s.trace.filterMap Obs.sealed) : t.side.BoundTo s.trace t.fp := by
  obtain ⟨o, ho, hsealed⟩ := List.mem_filterMap.mp ht
  obtain ⟨pre, post, hsplit⟩ := List.append_of_mem ho
  have hbound := (hs.boundNode laws).trace pre o post hsplit
  cases o <;> cases hsealed
  rw [hsplit]
  exact SessionView.BoundTo.mono hbound _

theorem opened_bound (laws : SnowLaws P) {s : MeshNode S} (hs : s.Reachable) {t : Transfer}
    (ht : t ∈ s.trace.filterMap Obs.opened) : t.side.BoundTo s.trace t.fp := by
  obtain ⟨o, ho, hopened⟩ := List.mem_filterMap.mp ht
  obtain ⟨pre, post, hsplit⟩ := List.append_of_mem ho
  have hbound := (hs.boundNode laws).trace pre o post hsplit
  cases o <;> cases hopened
  rw [hsplit]
  exact SessionView.BoundTo.mono hbound _

/-- The texts `b` has shown as `a`'s are among those `a` encrypted for identities that announced
`b`'s key, with multiplicities. -/
theorem received_subperm_sent (laws : SnowLaws P) {a b : MeshNode S} (ha : a.Reachable) (hb : b.Reachable)
    (ideal : IdealPrims a b) {later : List Obs} (htrace : a.trace <+: later) :
    (b.receivedFrom a.fingerprint).Subperm
      ((a.trace.filterMap Obs.sentText).filterMap (textUnder later b.identity.dhPublic)) := by
  have hreceived : b.receivedFrom a.fingerprint =
      ((b.trace.filterMap Obs.opened).filter fun t => t.fp = a.fingerprint).filterMap (·.text.map Prod.snd) := by
    rw [receivedFrom, (hb.accounted laws).texts, List.filterMap_filterMap, List.filterMap_filter]
    refine List.filterMap_congr fun t _ => ?_
    rw [text_bind_textWith]
    simp only [decide_eq_true_eq]
  have hsent : a.trace.filterMap Obs.sentText = (a.trace.filterMap Obs.sealed).filterMap Transfer.text := by
    rw [List.filterMap_filterMap]
    rfl
  rw [hreceived, hsent, List.filterMap_filterMap]
  refine Matching.subperm_of_partners Transfer.slot Transfer.mirror ?_ ?_
  · exact (hb.windowed laws ideal.fresh).distinct.sublist (List.filter_sublist.map _)
  · intro t ht
    obtain ⟨hopened, hfp⟩ := List.mem_filter.mp ht
    have hbound := opened_bound laws hb hopened
    rw [of_decide_eq_true hfp] at hbound
    obtain ⟨t', hsealed, htranscript, hrole, hremote, hnonce, hplain⟩ :=
      ideal.transport t hopened (boundTo_dhPublic laws ha ideal hbound)
    refine ⟨t', hsealed, ?_, ?_⟩
    · simp [Transfer.mirror, Transfer.slot, htranscript, hrole, hnonce]
    · -- `a` used the session under `b`'s key only for an identity that announced that key
      obtain ⟨k, hk, hann⟩ := sealed_bound laws ha hsealed
      rw [hremote, Option.some.injEq] at hk
      subst hk
      obtain ⟨more, rfl⟩ := htrace
      rw [text_bind_textUnder (hann.mono more), Transfer.text_of_plaintext hplain]

theorem exec_keeps (laws : SnowLaws P) {s : MeshNode S} (hs : s.Shaped) (c : Call) :
    (exec s c).identity = s.identity ∧ s.trace <+: (exec s c).trace := by
  refine Runs.chain_invariant
    (fun d : MeshNode S × Hand => d.1.identity = s.identity ∧ s.trace <+: d.1.trace) ?_
    (exec_moves laws hs c) ⟨rfl, List.prefix_rfl⟩
  rintro d d' ⟨hid, htrace⟩ move
  obtain ⟨os, happend, -⟩ := move.change.adds
  exact ⟨move.keeps.identity.trans hid, htrace.trans ⟨os, happend.symm⟩⟩

theorem run_identity (laws : SnowLaws P) {s : MeshNode S} (hs : s.Reachable) (calls : List Call) :
    (Runs.run exec s calls).identity = s.identity := by
  refine (Runs.run_invariant exec (fun t => t.Reachable ∧ t.identity = s.identity) ?_ s ⟨hs, rfl⟩ calls).2
  rintro t c ⟨ht, hid⟩
  exact ⟨ht.run [c], (exec_keeps laws (ht.shaped laws) c).1.trans hid⟩

end MeshNode

/-! ## Runs of the pair -/

namespace Pair
open MeshNode
variable [Store S]

def step (p : Pair S) : Side × Call → Pair S
  | (.a, c) => { p with a := exec p.a c }
  | (.b, c) => { p with b := exec p.b c }

abbrev run (p : Pair S) (events : List (Side × Call)) : Pair S := Runs.run step p events

/-- The calls of one side. -/
def callsOf (side : Side) (events : List (Side × Call)) : List Call :=
  (events.filter fun e => e.1 = side).map Prod.snd

theorem run_a (p : Pair S) (events : List (Side × Call)) :
    (p.run events).a = Runs.run exec p.a (callsOf .a events) := by
  induction events generalizing p with
  | nil => rfl
  | cons e events ih =>
    obtain ⟨side, c⟩ := e
    rw [run, Runs.run_cons]
    cases side <;> exact ih _

theorem run_b (p : Pair S) (events : List (Side × Call)) :
    (p.run events).b = Runs.run exec p.b (callsOf .b events) := by
  induction events generalizing p with
  | nil => rfl
  | cons e events ih =>
    obtain ⟨side, c⟩ := e
    rw [run, Runs.run_cons]
    cases side <;> exact ih _

/-- The text an event asks `a` to send. -/
def askedOfA : Side × Call → Option (Fingerprint × String)
  | (.a, ⟨_, .sendDm fp text⟩) => some (fp, text)
  | _ => none

omit P [Store S] in
theorem flatMap_asked (events : List (Side × Call)) :
    (callsOf .a events).flatMap (fun c => asked c.action) = events.filterMap askedOfA := by
  induction events with
  | nil => rfl
  | cons e events ih =>
    obtain ⟨side, now, action⟩ := e
    rw [List.filterMap_cons, ← ih]
    cases side <;> cases action <;> rfl

/-- The text an event asks `a` to send to an identity that announced `k`. -/
noncomputable def askedUnder (trace : List Obs) (k : Key32) (e : Side × Call) : Option String :=
  (askedOfA e).bind (textUnder trace k)

theorem askedUnder_eq_some {trace : List Obs} {k : Key32} {e : Side × Call} {text : String}
    (h : askedUnder trace k e = some text) :
    ∃ now fp, e = (.a, ⟨now, .sendDm fp text⟩) ∧ Announced trace fp k := by
  obtain ⟨side, now, action⟩ := e
  obtain ⟨⟨fp, text'⟩, hasked, htext⟩ := Option.bind_eq_some_iff.mp h
  simp only [textUnder] at htext
  split_ifs at htext with hann
  cases htext
  cases side <;> cases action <;> cases hasked
  exact ⟨now, fp, rfl, hann⟩

section Run
variable (laws : SnowLaws P) {p₀ : Pair S} (ha : p₀.a.Initial) (hb : p₀.b.Initial)
include laws

include hb in
theorem received_grows (pre : List (Side × Call)) (e : Side × Call) (fp : Fingerprint) :
    (p₀.run pre).b.receivedFrom fp <+: (p₀.run (pre ++ [e])).b.receivedFrom fp := by
  have hreach : (p₀.run pre).b.Reachable := run_b p₀ pre ▸ hb.reachable.run _
  obtain ⟨side, c⟩ := e
  rw [run, run, Runs.run_snoc]
  cases side with
  | a => exact List.prefix_rfl
  | b =>
    obtain ⟨os, hos⟩ := (exec_keeps laws (hreach.shaped laws) c).2
    refine ⟨(os.filterMap Obs.receivedText).filterMap (textWith fp), ?_⟩
    show _ = ((exec (p₀.run pre).b c).trace.filterMap Obs.receivedText).filterMap (textWith fp)
    rw [← hos, List.filterMap_append, List.filterMap_append]
    rfl

include ha in
theorem trace_grows (pre post : List (Side × Call)) : (p₀.run pre).a.trace <+: (p₀.run (pre ++ post)).a.trace := by
  induction post using List.reverseRecOn with
  | nil => rw [List.append_nil]
  | append_singleton post e ih =>
    have hreach : (p₀.run (pre ++ post)).a.Reachable := run_a p₀ (pre ++ post) ▸ ha.reachable.run _
    obtain ⟨side, c⟩ := e
    rw [← List.append_assoc, run, run, Runs.run_snoc]
    refine ih.trans ?_
    cases side with
    | a => exact (exec_keeps laws (hreach.shaped laws) c).2
    | b => exact List.prefix_rfl

variable [EnvelopeStore S]
include ha hb

theorem received_covered (empty : ∀ fp, EnvelopeStore.envelopes p₀.a.store fp = []) (events : List (Side × Call))
    (ideal : IdealPrims (p₀.run events).a (p₀.run events).b) {later : List Obs}
    (htrace : (p₀.run events).a.trace <+: later) (text : String) :
    ((p₀.run events).b.receivedFrom p₀.a.fingerprint).count text ≤
      (events.filterMap (askedUnder later p₀.b.identity.dhPublic)).count text := by
  have hreach_a : (p₀.run events).a.Reachable := run_a p₀ events ▸ ha.reachable.run _
  have hreach_b : (p₀.run events).b.Reachable := run_b p₀ events ▸ hb.reachable.run _
  have hid_a : (p₀.run events).a.identity = p₀.a.identity := run_a p₀ events ▸ run_identity laws ha.reachable _
  have hid_b : (p₀.run events).b.identity = p₀.b.identity := run_b p₀ events ▸ run_identity laws hb.reachable _
  have hsent := received_subperm_sent laws hreach_a hreach_b ideal htrace
  rw [show (p₀.run events).a.fingerprint = p₀.a.fingerprint from congrArg LocalIdentity.fingerprint hid_a, hid_b] at hsent
  have hasked := sent_subperm_asked laws ha empty (callsOf .a events)
  rw [← run_a, flatMap_asked] at hasked
  -- what was asked for and not sent stays asked for
  obtain ⟨l, hperm, hsub⟩ := hasked
  have hunder := (hsub.filterMap (textUnder later p₀.b.identity.dhPublic)).subperm
  rw [List.filterMap_filterMap] at hunder
  exact ((hsent.trans (hperm.symm.filterMap _).subperm).trans hunder).count_le text

/-- Each text that `b` shows as `a`'s has a call of its own among the earlier calls of `a`: one that
sends this text to an identity under which `a` has accepted an announce of `b`'s X25519 key. -/
theorem dm_injective_agreement (empty : ∀ fp, EnvelopeStore.envelopes p₀.a.store fp = [])
    (events : List (Side × Call)) (ideal : Runs.Throughout step (fun p => IdealPrims p.a p.b) p₀ events) :
    ∃ index : ℕ → ℕ, Set.InjOn index {i | i < ((p₀.run events).b.receivedFrom p₀.a.fingerprint).length} ∧
      ∀ pre post, events = pre ++ post → ∀ i text,
        ((p₀.run pre).b.receivedFrom p₀.a.fingerprint)[i]? = some text →
          ∃ now fp, pre[index i]? = some (.a, ⟨now, .sendDm fp text⟩) ∧
            Announced (p₀.run events).a.trace fp p₀.b.identity.dhPublic := by
  let sends := askedUnder (p₀.run events).a.trace p₀.b.identity.dhPublic
  have covered : ∀ pre post, events = pre ++ post → ∀ text,
      ((p₀.run pre).b.receivedFrom p₀.a.fingerprint).count text ≤ (pre.filterMap sends).count text := by
    rintro pre post rfl text
    exact received_covered laws ha hb empty pre (ideal.after step pre post) (trace_grows laws ha pre post) text
  obtain ⟨index, hinj, hfound⟩ := Matching.exists_matching sends
    (fun pre => (p₀.run pre).b.receivedFrom p₀.a.fingerprint)
    (fun pre e => received_grows laws hb pre e _) covered
  refine ⟨index, hinj, fun pre post hsplit i text harrival => ?_⟩
  obtain ⟨e, he, hasked⟩ := hfound pre post hsplit i text harrival
  obtain ⟨now, fp, rfl, hann⟩ := askedUnder_eq_some hasked
  exact ⟨now, fp, he, hann⟩

end Run

end Pair
end CockroachChat

namespace CockroachChat.Reference
attribute [local instance] prims

/-- What `IdealPrims` asks of two given nodes, but for the hash. -/
abbrev Ideal (p : Pair MemoryStore) : Prop :=
  (∀ pkt ∈ p.b.trace.filterMap Obs.accepted, (pkt.verifyWith p.a.identity.edPublic).isOk = true →
    ∃ q ∈ p.a.trace.filterMap Obs.built, q.signedRegion = pkt.signedRegion) ∧
  ((p.b.trace.filterMap Obs.wroteEntry).map (·.2.2)).Nodup ∧
  ∀ t ∈ p.b.trace.filterMap Obs.opened, t.side.remoteStatic = some p.a.identity.dhPublic →
    ∃ t' ∈ p.a.trace.filterMap Obs.sealed, t'.side.transcript = t.side.transcript ∧
      t'.side.initiator = !t.side.initiator ∧ t'.side.remoteStatic = some p.b.identity.dhPublic ∧
      t'.nonce = t.nonce ∧ t'.plaintext = t.plaintext

theorem Ideal.prims {p : Pair MemoryStore} (h : Ideal p) : IdealPrims p.a p.b where
  collisionFree ed hed := by
    have hcopy : arrayOf 32 ed.toList = arrayOf 32 p.a.identity.edPublic.toList := hed
    rwa [arrayOf_toList, arrayOf_toList] at hcopy
  unforgeable pkt vk hpkt hvk hver := by
    cases hvk
    have hmem : pkt ∈ p.b.trace.filterMap Obs.accepted := List.mem_filterMap.mpr ⟨_, hpkt, rfl⟩
    obtain ⟨q, hq, hregion⟩ := h.1 pkt hmem (by
      show (pkt.verifyWith _).isOk = true
      rw [show pkt.verifyWith p.a.identity.edPublic = .ok () from hver]
      rfl)
    obtain ⟨o, ho, hbuilt⟩ := List.mem_filterMap.mp hq
    cases o <;> cases hbuilt
    exact ⟨q, ho, hregion⟩
  fresh := h.2.1
  transport := h.2.2

/-- The two nodes before anything happens. -/
def apart : Pair MemoryStore := ⟨node 1 {}, node 2 {}⟩

/-- `a` sends `b` a text over a network that loses nothing. -/
def conversation : List (Side × Call) :=
  let announceA := framesFrom 0 (linked 1)
  let announceB := framesFrom 0 (linked 2)
  let first := framesFrom (met 1 2).trace.length (calling 1 2 "x")
  let second := framesFrom (met 2 1).trace.length (answering 1 2 "x")
  let third := framesFrom (calling 1 2 "x").trace.length (connected 1 2 "x")
  [(.a, up 0 0), (.b, up 0 0)] ++ (arriving 0 0 announceB).map (.a, ·) ++ (arriving 0 0 announceA).map (.b, ·) ++
    [(.a, ⟨1, .sendDm (fpOf 2) "x"⟩)] ++ (arriving 1 0 first).map (.b, ·) ++ (arriving 1 0 second).map (.a, ·) ++
    (arriving 1 0 third).map (.b, ·)

/-- The text that node 2 shows was sent to an identity that had announced node 2's key. -/
theorem conversation_agrees : (apart.run conversation).b.receivedFrom apart.a.fingerprint = ["x"] ∧
    ∃ (j : ℕ) (now : Millis) (fp : Fingerprint), conversation[j]? = some (.a, ⟨now, .sendDm fp "x"⟩) ∧
      Announced (apart.run conversation).a.trace fp apart.b.identity.dhPublic := by
  have hreceived : (apart.run conversation).b.receivedFrom apart.a.fingerprint = ["x"] := by decide +kernel
  have hideal : Runs.Throughout Pair.step Ideal apart conversation := by decide +kernel
  obtain ⟨index, -, hfound⟩ := Pair.dm_injective_agreement laws (node_initial 1 {}) (node_initial 2 {})
    (fun _ => rfl) conversation (hideal.imp Pair.step fun _ => Ideal.prims)
  obtain ⟨now, fp, hcall, hann⟩ := hfound conversation [] (List.append_nil _).symm 0 "x" (by
    show ((apart.run conversation).b.receivedFrom apart.a.fingerprint)[0]? = some "x"
    rw [hreceived]
    rfl)
  exact ⟨hreceived, index 0, now, fp, hcall, hann⟩

/-! ## A text shown to a peer it was not sent to -/

/-- An identity of its own that announces node 2's X25519 key. -/
def impostor : LocalIdentity := { signing := (3 : UInt8), dhSecret := (2 : UInt8), ephId := Vector.replicate 8 3 }

def impostorAnnounce : Packet :=
  (Packet.new .announce 5 0 impostor.ephId none (encodeAnnounce impostor.edPublic impostor.dhPublic "")).signWith
    impostor.signing

/-- A directed packet under other addresses; nothing checks its signature. -/
def redirect (sender recipient : UInt8) (pkt : Packet) : Bytes :=
  frameOf { pkt with sender := Vector.replicate 8 sender, recipient := some (Vector.replicate 8 recipient) }

/-- The packets a node has built from some point of its trace on. -/
def builtFrom (start : ℕ) (s : Node) : List Packet := (s.trace.drop start).filterMap Obs.built

/-- Node 1 writes to the impostor. -/
def misled : Node := run (linked 1) (arriving 0 0 [frameOf impostorAnnounce])

def misledCalling : Node := run misled [⟨1, .sendDm (fpOf 3) "x"⟩]

def misledFirst : List Bytes := (builtFrom misled.trace.length misledCalling).map (redirect 1 2)

/-- Node 2, which knows node 1, answers what it takes for a handshake of node 1 with it. -/
def misledAnswering : Node := run (met 2 1) (arriving 1 0 misledFirst)

def misledSecond : List Bytes := (builtFrom (met 2 1).trace.length misledAnswering).map (redirect 3 1)

def misledConnected : Node := run misledCalling (arriving 1 0 misledSecond)

def misledThird : List Bytes := (builtFrom misledCalling.trace.length misledConnected).map (redirect 1 2)

def misdirection : List (Side × Call) :=
  [(.a, up 0 0), (.b, up 0 0)] ++ (arriving 0 0 (framesFrom 0 (linked 1))).map (.b, ·) ++
    (arriving 0 0 [frameOf impostorAnnounce]).map (.a, ·) ++ [(.a, ⟨1, .sendDm (fpOf 3) "x"⟩)] ++
    (arriving 1 0 misledFirst).map (.b, ·) ++ (arriving 1 0 misledSecond).map (.a, ·) ++
    (arriving 1 0 misledThird).map (.b, ·)

/-- Node 2 shows a text of node 1 that node 1 was never asked to send to node 2. -/
theorem misbound_text_has_no_call : ¬ ∀ (p₀ : Pair MemoryStore) (events : List (Side × Call)),
    p₀.a.Initial → p₀.b.Initial → (∀ fp, EnvelopeStore.envelopes p₀.a.store fp = []) →
    Runs.Throughout Pair.step (fun p => IdealPrims p.a p.b) p₀ events →
    ∀ text ∈ (p₀.run events).b.receivedFrom p₀.a.fingerprint,
      ∃ now, (Side.a, ⟨now, .sendDm p₀.b.fingerprint text⟩) ∈ events := by
  intro h
  have hreceived : (apart.run misdirection).b.receivedFrom apart.a.fingerprint = ["x"] := by decide +kernel
  have hideal : Runs.Throughout Pair.step Ideal apart misdirection := by decide +kernel
  have hasked : misdirection.filterMap Pair.askedOfA = [(fpOf 3, "x")] := by decide +kernel
  obtain ⟨now, hcall⟩ := h apart misdirection (node_initial 1 {}) (node_initial 2 {}) (fun _ => rfl)
    (hideal.imp Pair.step fun _ => Ideal.prims) "x" (by rw [hreceived]; exact List.mem_singleton_self _)
  have hmem : (apart.b.fingerprint, "x") ∈ misdirection.filterMap Pair.askedOfA :=
    List.mem_filterMap.mpr ⟨_, hcall, rfl⟩
  rw [hasked] at hmem
  exact absurd hmem (by decide +kernel)

end CockroachChat.Reference
