import CockroachChat.Sessions.SessionSpec

/-! # What sending does to the node

Sending touches the trace and, for packets of our own, the seen cache; nothing else. Each sender is
given as a record update with the list of observations it adds. -/
namespace CockroachChat
set_option autoImplicit false

variable [P : Prims] {S : Type}

/-- A packet a node signs: if it is read as an announce, it carries the node's own two keys. -/
def LocalIdentity.Signs (id : LocalIdentity) (pkt : Packet) : Prop :=
  pkt.msgType.toU8 = MsgType.announce.toU8 → ∃ nick, pkt.payload = encodeAnnounce id.edPublic id.dhPublic nick

/-- Frames handed to the transport, links closed, and packets of our own. -/
def Obs.Quiet (id : LocalIdentity) : Obs → Prop
  | .send _ _ | .close _ => True
  | .originate pkt => id.Signs pkt
  | _ => False

def Obs.built : Obs → Option Packet
  | .originate pkt => some pkt
  | _ => none

/-- Observations that say what leaves the node. -/
def Obs.outward : Obs → Bool
  | .send _ _ | .originate _ => true
  | _ => false

/-- Observations that direct messaging may leave: it shows no channel message and closes no link, and
what it builds it sends under its own name. -/
def Obs.Direct (id : LocalIdentity) : Obs → Prop
  | .close _ | .event (.messageReceived _ _ _ _ _) _ => False
  | .originate pkt => pkt.sender = id.ephId
  | _ => True

/-- A packet of our own with this content, or a frame. -/
def Obs.Carries (t : MsgType) (payload : Bytes) : Obs → Prop
  | .send _ _ => True
  | .originate pkt => pkt.msgType = t ∧ pkt.payload = payload
  | _ => False

/-- At most one handshake message is written, and what is sent carries it. -/
def Written (fp : Fingerprint) (initiator : Bool) (os : List Obs) : Prop :=
  os = [] ∨ ∃ m rest, os = .wrote fp initiator m :: rest ∧ ∀ o ∈ rest, o.Carries .noiseHandshake m

theorem Obs.Carries.quiet {t : MsgType} (ht : t.toU8 ≠ MsgType.announce.toU8) {payload : Bytes} (id : LocalIdentity) {o : Obs}
    (h : o.Carries t payload) : o.Quiet id := by
  cases o with
  | send link f => trivial
  | originate pkt => exact fun hann => absurd (h.1 ▸ hann) ht
  | _ => exact h.elim

/-- A frame that the bytes may be cut into, on some link. -/
def Framed (bytes f : Bytes) : Prop := ∃ digest mtu frames, split bytes digest mtu = .ok frames ∧ f ∈ frames

/-- What is sent are frames of packets that were built. -/
def Accounted (os : List Obs) : Prop :=
  ∀ link f, Obs.send link f ∈ os → ∃ pkt ∈ os.filterMap Obs.built, Framed pkt.encode f

omit P in
theorem accounted_quiet {os : List Obs} (h : ∀ link f, Obs.send link f ∉ os) : Accounted os :=
  fun link f hmem => absurd hmem (h link f)

omit P in
theorem accounted_inward {os : List Obs} (h : ∀ o ∈ os, o.outward = false) : Accounted os :=
  accounted_quiet fun _ _ hmem => absurd (h _ hmem) (by simp [Obs.outward])

omit P in
theorem Accounted.append {os₁ os₂ : List Obs} (h₁ : Accounted os₁) (h₂ : Accounted os₂) : Accounted (os₁ ++ os₂) := by
  intro link f hmem
  rw [List.filterMap_append]
  rcases List.mem_append.mp hmem with hmem | hmem
  · obtain ⟨pkt, hpkt, hframed⟩ := h₁ link f hmem
    exact ⟨pkt, List.mem_append_left _ hpkt, hframed⟩
  · obtain ⟨pkt, hpkt, hframed⟩ := h₂ link f hmem
    exact ⟨pkt, List.mem_append_right _ hpkt, hframed⟩

namespace MeshNode

/-- The packets built on the way from one state of a node to a later one. -/
def builtBy (s t : MeshNode S) : List Packet := (t.trace.drop s.trace.length).filterMap Obs.built

def sendObs (link : LinkId) (bytes : Bytes) (digest : Digest) (mtu : ℕ) : List Obs :=
  match split bytes digest mtu with
  | .ok frames => frames.map (.send link)
  | .error _ => []

def broadcastObs (s : MeshNode S) (pkt : Packet) (exclude : Option LinkId) : List Obs :=
  (s.links.toList.filter fun e => some e.1 ≠ exclude).flatMap fun e =>
    sendObs e.1 pkt.encode pkt.digest e.2.mtu

omit P in
theorem filterMap_sendObs (link : LinkId) (bytes : Bytes) (digest : Digest) (mtu : ℕ) :
    (sendObs link bytes digest mtu).filterMap Obs.built = [] := by
  rw [List.filterMap_eq_nil_iff]
  intro o ho
  unfold sendObs at ho
  split at ho
  · obtain ⟨f, -, rfl⟩ := List.mem_map.mp ho
    rfl
  · cases ho

theorem filterMap_broadcastObs (s : MeshNode S) (pkt : Packet) (exclude : Option LinkId) :
    (s.broadcastObs pkt exclude).filterMap Obs.built = [] := by
  rw [List.filterMap_eq_nil_iff]
  intro o ho
  obtain ⟨e, -, he⟩ := List.mem_flatMap.mp ho
  exact List.filterMap_eq_nil_iff.mp (filterMap_sendObs _ _ _ _) o he

omit P in
theorem framed_of_sendObs {l link : LinkId} {bytes f : Bytes} {digest : Digest} {mtu : ℕ}
    (h : Obs.send link f ∈ sendObs l bytes digest mtu) : link = l ∧ Framed bytes f := by
  unfold sendObs at h
  split at h
  · rename_i frames hsplit
    obtain ⟨g, hg, heq⟩ := List.mem_map.mp h
    cases heq
    exact ⟨rfl, digest, mtu, frames, hsplit, hg⟩
  · cases h

theorem framed_of_broadcastObs {s : MeshNode S} {pkt : Packet} {exclude : Option LinkId} {link : LinkId} {f : Bytes}
    (h : Obs.send link f ∈ s.broadcastObs pkt exclude) : Framed pkt.encode f := by
  obtain ⟨e, -, he⟩ := List.mem_flatMap.mp h
  exact (framed_of_sendObs he).2

/-- A packet of our own accounts for its frames. -/
theorem accounted_flood (s : MeshNode S) (pkt : Packet) (exclude : Option LinkId) :
    Accounted (.originate pkt :: s.broadcastObs pkt exclude) := by
  intro link f hmem
  refine ⟨pkt, ?_, framed_of_broadcastObs ((List.mem_cons.mp hmem).resolve_left Obs.noConfusion)⟩
  rw [List.filterMap_cons_some (show Obs.built (.originate pkt) = some pkt from rfl)]
  exact List.mem_cons_self

theorem direct_of_sendObs {id : LocalIdentity} {link : LinkId} {bytes : Bytes} {digest : Digest} {mtu : ℕ} :
    ∀ o ∈ sendObs link bytes digest mtu, o.Direct id := by
  intro o ho
  unfold sendObs at ho
  split at ho
  · obtain ⟨f, -, rfl⟩ := List.mem_map.mp ho
    trivial
  · cases ho

theorem direct_of_broadcastObs {id : LocalIdentity} {s : MeshNode S} {pkt : Packet} {exclude : Option LinkId} :
    ∀ o ∈ s.broadcastObs pkt exclude, o.Direct id := by
  intro o ho
  obtain ⟨e, -, he⟩ := List.mem_flatMap.mp ho
  exact direct_of_sendObs o he

theorem sendBytes_eq (s : MeshNode S) (link : LinkId) (bytes : Bytes) (digest : Digest) (mtu : ℕ) :
    s.sendBytes link bytes digest mtu = { s with trace := s.trace ++ sendObs link bytes digest mtu } := by
  cases h : split bytes digest mtu <;> simp [sendBytes, sendObs, h]

theorem broadcast_eq (s : MeshNode S) (pkt : Packet) (exclude : Option LinkId) :
    s.broadcast pkt exclude = { s with trace := s.trace ++ s.broadcastObs pkt exclude } := by
  have hfold : ∀ (l : List (LinkId × LinkState)) (t : MeshNode S),
      l.foldl (fun t e => t.sendBytes e.1 pkt.encode pkt.digest e.2.mtu) t =
        { t with trace := t.trace ++ l.flatMap fun e => sendObs e.1 pkt.encode pkt.digest e.2.mtu } := by
    intro l
    induction l with
    | nil => simp
    | cons e l ih =>
      intro t
      rw [List.foldl_cons, ih, sendBytes_eq]
      simp
  exact hfold _ s

/-- A packet of our own: noted, marked seen, and flooded. -/
def flood (s : MeshNode S) (pkt : Packet) : MeshNode S :=
  { s with
    seen := (s.seen.observe s.cfg pkt.digest s.clock).1
    trace := s.trace ++ .originate pkt :: s.broadcastObs pkt none }

theorem flood_eq (s : MeshNode S) (pkt : Packet) :
    ((s.note (.originate pkt)).markSeen pkt.digest).broadcast pkt none = s.flood pkt := by
  rw [broadcast_eq]
  simp [flood, note, markSeen, broadcastObs]

theorem announce_eq (s : MeshNode S) :
    s.announce = s.flood (s.ownPacket .announce none s.announcePayload) := flood_eq ..

theorem sendDirected_some {s : MeshNode S} {fp : Fingerprint} {eph : EphId} (h : s.fpToEph[fp]? = some eph)
    (t : MsgType) (payload : Bytes) :
    s.sendDirected t fp payload = s.flood (s.ownPacket t (some eph) payload) := by
  unfold sendDirected
  rw [h]
  exact flood_eq ..

theorem sendDirected_none {s : MeshNode S} {fp : Fingerprint} (h : s.fpToEph[fp]? = none) (t : MsgType)
    (payload : Bytes) : s.sendDirected t fp payload = s := by
  unfold sendDirected
  rw [h]

theorem broadcastObs_sends (s : MeshNode S) (pkt : Packet) (exclude : Option LinkId) :
    ∀ o ∈ s.broadcastObs pkt exclude, ∃ link f, o = .send link f := by
  intro o ho
  obtain ⟨e, -, he⟩ := List.mem_flatMap.mp ho
  unfold sendObs at he
  split at he
  · obtain ⟨f, -, rfl⟩ := List.mem_map.mp he
    exact ⟨e.1, f, rfl⟩
  · cases he

theorem sendObs_quiet (id : LocalIdentity) (link : LinkId) (bytes : Bytes) (digest : Digest) (mtu : ℕ) :
    ∀ o ∈ sendObs link bytes digest mtu, o.Quiet id := by
  intro o ho
  unfold sendObs at ho
  split at ho
  · obtain ⟨f, -, rfl⟩ := List.mem_map.mp ho
    trivial
  · cases ho

theorem broadcastObs_quiet (s : MeshNode S) (pkt : Packet) (exclude : Option LinkId) :
    ∀ o ∈ s.broadcastObs pkt exclude, o.Quiet s.identity := by
  intro o ho
  obtain ⟨e, -, he⟩ := List.mem_flatMap.mp ho
  exact sendObs_quiet _ _ _ _ _ o he

/-- Directed sending as one record update, whether or not the peer is routable. -/
theorem sendDirected_update (s : MeshNode S) {t : MsgType} (ht : t.toU8 ≠ MsgType.announce.toU8)
    (fp : Fingerprint) (payload : Bytes) :
    ∃ seen os, s.sendDirected t fp payload = { s with seen := seen, trace := s.trace ++ os } ∧
      ∀ o ∈ os, o.Quiet s.identity := by
  cases h : s.fpToEph[fp]? with
  | none => exact ⟨s.seen, [], by rw [sendDirected_none h, List.append_nil], by simp⟩
  | some eph =>
    refine ⟨_, _, sendDirected_some h t payload, ?_⟩
    intro o ho
    rcases List.mem_cons.mp ho with rfl | ho
    · exact fun hann => absurd hann ht
    · exact broadcastObs_quiet s _ none o ho

theorem sendDirected_carries (s : MeshNode S) (t : MsgType) (fp : Fingerprint) (payload : Bytes) :
    ∃ seen os, s.sendDirected t fp payload = { s with seen := seen, trace := s.trace ++ os } ∧
      (∀ o ∈ os, o.Carries t payload) ∧ (s.fpToEph[fp]? = none → os = []) := by
  cases h : s.fpToEph[fp]? with
  | none => exact ⟨s.seen, [], by rw [sendDirected_none h, List.append_nil], by simp, fun _ => rfl⟩
  | some eph =>
    refine ⟨_, _, sendDirected_some h t payload, ?_, fun hnone => absurd hnone (by simp)⟩
    intro o ho
    rcases List.mem_cons.mp ho with rfl | ho
    · exact ⟨rfl, rfl⟩
    · obtain ⟨link, f, rfl⟩ := broadcastObs_sends s _ none o ho
      trivial

variable [Store S]

/-- The sync requests of a link that comes up: one packet a channel. -/
theorem sendSyncRequests_trace (s : MeshNode S) (link : LinkId) (channels : List String) :
    ∃ os, channels.foldl (fun s channel =>
        let pkt := s.syncPacket channel
        (s.note (.originate pkt)).sendOnLink link pkt) s = { s with trace := s.trace ++ os } ∧
      os.filterMap Obs.built = channels.map s.syncPacket := by
  induction channels generalizing s with
  | nil => exact ⟨[], by simp, rfl⟩
  | cons channel channels ih =>
    let pkt := s.syncPacket channel
    let os₁ := sendObs link pkt.encode pkt.digest (s.linkMtu link)
    have hone : (s.note (.originate pkt)).sendOnLink link pkt = { s with trace := s.trace ++ .originate pkt :: os₁ } := by
      rw [sendOnLink, sendBytes_eq]
      simp [note, os₁, linkMtu]
    obtain ⟨os, hfold, hbuilt⟩ := ih { s with trace := s.trace ++ .originate pkt :: os₁ }
    refine ⟨.originate pkt :: os₁ ++ os, ?_, ?_⟩
    · rw [List.foldl_cons, show (let pkt := s.syncPacket channel; (s.note (.originate pkt)).sendOnLink link pkt) = _ from hone,
        hfold]
      simp
    · rw [List.filterMap_append, hbuilt, List.filterMap_cons_some (show Obs.built (.originate pkt) = some pkt from rfl),
        filterMap_sendObs]
      rfl

theorem sendSyncRequests_update (s : MeshNode S) (link : LinkId) :
    ∃ os, s.sendSyncRequests link = { s with trace := s.trace ++ os } ∧
      os.filterMap Obs.built = s.subscribed.toList.map s.syncPacket :=
  s.sendSyncRequests_trace link s.subscribed.toList

end MeshNode
end CockroachChat
