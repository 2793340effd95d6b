import CockroachChat.Node.ReferenceNodes
import CockroachChat.Sessions.Surroundings

/-! # Verification and petnames

The trust a user has put in a peer is kept in the peer's record, which five operations rewrite as a
whole, one of them driven by every announce. Only the user's own commands change it. -/
namespace CockroachChat
set_option autoImplicit false

/-- What is relied on of the peer records of a store. -/
class PeerStore (S : Type) [Store S] : Prop where
  upsert : ∀ (s : S) p fp, Store.getPeer (Store.upsertPeer s p) fp = if fp = p.fingerprint then some p else Store.getPeer s fp
  delete : ∀ (s : S) fp fp', Store.getPeer (Store.deletePeer s fp') fp = if fp = fp' then none else Store.getPeer s fp
  wipe : ∀ (s : S) fp, Store.getPeer (Store.panicWipe s) fp = none
  put_channel : ∀ (s : S) m, Store.getPeer (Store.putChannelMessage s m) = Store.getPeer s
  put_dm : ∀ (s : S) dm, Store.getPeer (Store.putDm s dm) = Store.getPeer s
  delete_dms : ∀ (s : S) fp only, Store.getPeer (Store.deleteDms s fp only) = Store.getPeer s
  queue : ∀ (s : S) fp b now, Store.getPeer (Store.queueEnvelope s fp b now) = Store.getPeer s
  take : ∀ (s : S) fp, Store.getPeer (Store.takeEnvelopes s fp).1 = Store.getPeer s

instance : PeerStore MemoryStore where
  upsert s p fp := by
    simp only [Store.getPeer, Store.upsertPeer, MemoryStore.getPeer, MemoryStore.upsertPeer, Std.ExtTreeMap.getElem?_insert,
      Std.compare_eq_iff_eq, @eq_comm _ fp]
  delete s fp fp' := by
    simp only [Store.getPeer, Store.deletePeer, MemoryStore.getPeer, MemoryStore.deletePeer, Std.ExtTreeMap.getElem?_erase,
      Std.compare_eq_iff_eq, @eq_comm _ fp]
  wipe s fp := by simp [Store.getPeer, Store.panicWipe, MemoryStore.getPeer, MemoryStore.panicWipe]
  put_channel s m := by
    have hprune : ∀ (t : MemoryStore) (channel : String) (now : Millis), (t.pruneChannel channel now).peers = t.peers := by
      intro t channel now
      unfold MemoryStore.pruneChannel
      split <;> rfl
    have hpeers : (s.putChannelMessage m).peers = s.peers := by
      unfold MemoryStore.putChannelMessage
      split_ifs
      · rfl
      · exact hprune _ _ _
    funext fp
    simp only [Store.getPeer, Store.putChannelMessage, MemoryStore.getPeer, hpeers]
  put_dm _ _ := rfl
  delete_dms s fp only := by
    have hpeers : (s.deleteDms fp only).peers = s.peers := by
      unfold MemoryStore.deleteDms
      split_ifs
      · split <;> rfl
      · rfl
    funext fp'
    simp only [Store.getPeer, Store.deleteDms, MemoryStore.getPeer, hpeers]
  queue _ _ _ _ := rfl
  take _ _ := rfl

variable [P : Prims] {S : Type} [Store S]

/-! ## The trust in one peer -/

/-- The verification and the petname of a peer. -/
abbrev Trust := Bool × Option String

/-- What a command does to the trust in a peer. -/
def Action.retrust (fp : Fingerprint) : Action → Trust → Trust
  | .verifyPeer fp', t => if fp = fp' then (true, t.2) else t
  | .unverifyPeer fp', t => if fp = fp' then (false, t.2) else t
  | .forgetPeer fp', t => if fp = fp' then (false, none) else t
  | .setPetname fp' name, t => if fp = fp' then (t.1, if name.isEmpty then none else some name) else t
  | .panicWipe, _ => (false, none)
  | _, t => t

namespace MeshNode

def trust (s : MeshNode S) (fp : Fingerprint) : Trust := (s.peerVerified fp, s.peerPetname fp)

/-- Every record is kept under its own fingerprint. -/
def Keyed (s : MeshNode S) : Prop := ∀ fp p, Store.getPeer s.store fp = some p → p.fingerprint = fp

/-- The trust of an optional record. -/
def trustOf (p : Option PeerRecord) : Trust := ((p.map (·.verified)).getD false, p.bind (·.petname))

theorem trust_eq (s : MeshNode S) (fp : Fingerprint) : s.trust fp = trustOf (Store.getPeer s.store fp) := rfl

theorem peerOrNew_fingerprint (s : MeshNode S) (keyed : s.Keyed) (fp : Fingerprint) : (s.peerOrNew fp).fingerprint = fp := by
  unfold peerOrNew
  cases h : Store.getPeer s.store fp with
  | none => rfl
  | some p => exact keyed fp p h

theorem peerOrNew_trust (s : MeshNode S) (fp : Fingerprint) :
    ((s.peerOrNew fp).verified, (s.peerOrNew fp).petname) = s.trust fp := by
  unfold peerOrNew
  rw [trust_eq]
  cases h : Store.getPeer s.store fp <;> rfl

/-- Trust is as it was, and records stay under their fingerprints. -/
structure TrustKept (s s' : MeshNode S) : Prop where
  keyed : s.Keyed → s'.Keyed
  trust : s.Keyed → ∀ fp, s'.trust fp = s.trust fp

theorem TrustKept.of_getPeer {s s' : MeshNode S} (h : Store.getPeer s'.store = Store.getPeer s.store) : TrustKept s s' where
  keyed keyed fp p hp := keyed fp p (h ▸ hp)
  trust _ fp := by rw [trust_eq, trust_eq, h]

theorem TrustKept.trans {s₁ s₂ s₃ : MeshNode S} (h₁ : TrustKept s₁ s₂) (h₂ : TrustKept s₂ s₃) : TrustKept s₁ s₃ where
  keyed keyed := h₂.keyed (h₁.keyed keyed)
  trust keyed fp := (h₂.trust (h₁.keyed keyed) fp).trans (h₁.trust keyed fp)

variable [PeerStore S]

/-- The records are untouched. -/
theorem DmOnly.getPeer {s s' : MeshNode S} (h : DmOnly s s') : Store.getPeer s'.store = Store.getPeer s.store := by
  have hwrite : ∀ t t' : S, DmWrite t t' → Store.getPeer t' = Store.getPeer t := by
    intro t t' hw
    cases hw with
    | put dm => exact PeerStore.put_dm t dm
    | queue fp b now => exact PeerStore.queue t fp b now
    | take fp => exact PeerStore.take t fp
  exact Runs.chain_invariant (fun t => Store.getPeer t = Store.getPeer s.store)
    (fun t t' ht hw => (hwrite t t' hw).trans ht) h.store rfl

/-- One record is replaced by another with its own fingerprint. -/
theorem upsert_spec {s s' : MeshNode S} {p : PeerRecord}
    (store : Store.getPeer s'.store = Store.getPeer (Store.upsertPeer s.store p)) (keyed : s.Keyed) :
    s'.Keyed ∧ ∀ fp, s'.trust fp = if fp = p.fingerprint then (p.verified, p.petname) else s.trust fp := by
  constructor
  · intro fp q hq
    rw [store, PeerStore.upsert] at hq
    split_ifs at hq with heq
    · cases hq
      exact heq.symm
    · exact keyed fp q hq
  · intro fp
    rw [trust_eq, store, PeerStore.upsert, trust_eq]
    split_ifs <;> rfl

/-! ## What the network does -/

theorem DmOnly.trustKept {s s' : MeshNode S} (h : DmOnly s s') : TrustKept s s' := .of_getPeer h.getPeer

theorem recordPeer_trustKept (s : MeshNode S) (fp : Fingerprint) (pkt : Packet) : TrustKept s (s.recordPeer fp pkt) := by
  constructor
  · exact fun keyed => (upsert_spec rfl keyed).1
  · intro keyed fp'
    rw [(upsert_spec (show Store.getPeer (s.recordPeer fp pkt).store = _ from rfl) keyed).2 fp']
    split_ifs with heq
    · subst heq
      rfl
    · rfl

theorem handleAnnounce_trustKept (s : MeshNode S) (pkt : Packet) : TrustKept s (s.handleAnnounce pkt) := by
  rcases handleAnnounce_cases s pkt with heq | ⟨ed, dh, nick, vk, -, -, -, heq⟩
  · rw [heq]
    exact .of_getPeer rfl
  · rw [heq]
    obtain ⟨links, os, hdedup, -⟩ := dedupLinks_update (s.announced pkt ed dh nick)
    refine .trans ?_ (deliverHeld_dmOnly _ _).trustKept
    rw [hdedup]
    refine TrustKept.trans ?_ (show TrustKept (s.announced pkt ed dh nick) _ from .of_getPeer rfl)
    unfold announced
    refine .trans ?_ (DmOnly.emit _ (e := .peerAppeared _ _ _) trivial).trustKept
    refine .trans ?_ (recordPeer_trustKept _ _ _)
    refine .trans ?_ (noteKeyChange_dmOnly _ _ _ _).trustKept
    exact .of_getPeer rfl

theorem handleChannel_trustKept (s : MeshNode S) (pkt : Packet) : TrustKept s (s.handleChannel pkt) := by
  rcases handleChannel_update s pkt with heq | ⟨channel, text, verified, -, -, heq⟩
  · rw [heq]
    exact .of_getPeer rfl
  · rw [heq]
    simp only
    split_ifs <;> exact .of_getPeer (PeerStore.put_channel _ _)

theorem dispatch_trustKept (s : MeshNode S) (link : LinkId) (pkt : Packet) : TrustKept s (s.dispatch link pkt) := by
  unfold dispatch
  split
  · exact handleAnnounce_trustKept s pkt
  · exact handleChannel_trustKept s pkt
  · obtain ⟨os, heq, -⟩ := handleSyncRequest_update s link pkt
    rw [heq]
    exact .of_getPeer rfl
  · exact (handleNoiseHandshake_dmOnly s pkt).trustKept
  · exact (handleDirectMessage_dmOnly s pkt).trustKept
  · exact .of_getPeer rfl

omit [PeerStore S] in
theorem Bookkept.trustKept {s s' : MeshNode S} (h : Bookkept s s') : TrustKept s s' :=
  .of_getPeer (congrArg Store.getPeer h.store)

theorem onTransportEvent_trustKept (s : MeshNode S) (ev : TransportEvent) : TrustKept s (s.onTransportEvent ev) := by
  rcases onTransportEvent_phases s ev with h | ⟨t, link, pkt, h₁, h₂⟩
  · exact h.trustKept
  · exact (h₁.trustKept.trans (dispatch_trustKept t link pkt)).trans h₂.trustKept

theorem tick_trustKept (s : MeshNode S) : TrustKept s s.tick :=
  (swept_bookkept s).trustKept.trans (retryStalledHandshakes_dmOnly _ _).trustKept

/-! ## What the user does -/

/-- One call: only the commands about trust change it. -/
theorem exec_trust {s : MeshNode S} (keyed : s.Keyed) (c : Call) :
    (exec s c).Keyed ∧ ∀ fp, (exec s c).trust fp = c.action.retrust fp (s.trust fp) := by
  have hkept : ∀ {s' : MeshNode S}, TrustKept (s.at_ c.now) s' → s'.Keyed ∧ ∀ fp, s'.trust fp = s.trust fp :=
    fun h => ⟨h.keyed keyed, h.trust keyed⟩
  unfold exec
  cases c.action with
  | transport ev => exact hkept (onTransportEvent_trustKept _ ev)
  | tick => exact hkept (tick_trustKept _)
  | takeEvents => exact hkept (.of_getPeer rfl)
  | joinChannel name => exact hkept (.of_getPeer rfl)
  | sendChannelMessage channel text =>
    refine hkept ?_
    rw [act, sendChannelMessage_eq]
    exact .of_getPeer (PeerStore.put_channel _ _)
  | announce =>
    refine hkept ?_
    rw [act, announce_eq]
    exact .of_getPeer rfl
  | sendDm fp text => exact hkept (sendDm_dmOnly _ fp text).trustKept
  | startDmSession fp => exact hkept (startDmSession_dmOnly _ fp).trustKept
  | verifyPeer fp =>
    have hstore : Store.getPeer ((s.at_ c.now).verifyPeer fp).store =
        Store.getPeer (Store.upsertPeer s.store { (s.at_ c.now).peerOrNew fp with verified := true }) := by
      unfold verifyPeer
      rw [(trySendVerifyNotice_dmOnly _ fp).getPeer]
      exact PeerStore.delete_dms _ _ _
    obtain ⟨hkeyed, htrust⟩ := upsert_spec hstore keyed
    refine ⟨hkeyed, fun fp' => (htrust fp').trans ?_⟩
    simp only [peerOrNew_fingerprint (s.at_ c.now) keyed fp, Action.retrust]
    split_ifs with heq
    · subst heq
      exact congrArg (fun t : Trust => (true, t.2)) (peerOrNew_trust (s.at_ c.now) fp')
    · rfl
  | unverifyPeer fp =>
    cases hget : Store.getPeer s.store fp with
    | none =>
      have hstore : Store.getPeer ((s.at_ c.now).unverifyPeer fp).store = Store.getPeer s.store := by
        unfold unverifyPeer dropPeerSessionState
        rw [show Store.getPeer (s.at_ c.now).store fp = none from hget]
        exact PeerStore.delete_dms _ _ _
      refine ⟨fun fp' p hp => keyed fp' p (by rwa [act, hstore] at hp), fun fp' => ?_⟩
      rw [act, trust_eq, hstore, Action.retrust, trust_eq]
      split_ifs with heq
      · rw [heq, hget]
        rfl
      · rfl
    | some p =>
      have hstore : Store.getPeer ((s.at_ c.now).unverifyPeer fp).store =
          Store.getPeer (Store.upsertPeer s.store { p with verified := false }) := by
        unfold unverifyPeer dropPeerSessionState
        rw [show Store.getPeer (s.at_ c.now).store fp = some p from hget]
        exact PeerStore.delete_dms _ _ _
      obtain ⟨hkeyed, htrust⟩ := upsert_spec hstore keyed
      refine ⟨hkeyed, fun fp' => (htrust fp').trans ?_⟩
      simp only [keyed fp p hget, Action.retrust]
      split_ifs with heq
      · rw [trust_eq, heq, hget]
        rfl
      · rfl
  | forgetPeer fp =>
    have hstore : ∀ fp', Store.getPeer ((s.at_ c.now).forgetPeer fp).store fp' =
        if fp' = fp then none else Store.getPeer s.store fp' := by
      intro fp'
      unfold forgetPeer dropPeerSessionState
      rw [PeerStore.delete, PeerStore.delete_dms]
      rfl
    constructor
    · intro fp' p hp
      rw [act, hstore] at hp
      split_ifs at hp
      exact keyed fp' p hp
    · intro fp'
      rw [act, trust_eq, hstore, Action.retrust]
      split_ifs <;> rfl
  | setPetname fp name =>
    have hstore : Store.getPeer ((s.at_ c.now).setPetname fp name).store = Store.getPeer (Store.upsertPeer s.store
        { (s.at_ c.now).peerOrNew fp with petname := if name.isEmpty then none else some name }) := rfl
    obtain ⟨hkeyed, htrust⟩ := upsert_spec hstore keyed
    refine ⟨hkeyed, fun fp' => (htrust fp').trans ?_⟩
    simp only [peerOrNew_fingerprint (s.at_ c.now) keyed fp, Action.retrust]
    by_cases heq : fp' = fp
    · rw [if_pos heq, if_pos heq, heq]
      exact congrArg (fun t : Trust => (t.1, _)) (peerOrNew_trust (s.at_ c.now) fp)
    · rw [if_neg heq, if_neg heq]
  | panicWipe =>
    constructor
    · intro fp p hp
      rw [act, panicWipe, PeerStore.wipe] at hp
      cases hp
    · intro fp
      rw [act, trust_eq, panicWipe, PeerStore.wipe]
      rfl

/-! ## Runs -/

end MeshNode

/-- The verdict of a command on the peer: verified, or no longer. -/
def Action.verdict (fp : Fingerprint) : Action → Option Bool
  | .verifyPeer fp' => if fp = fp' then some true else none
  | .unverifyPeer fp' => if fp = fp' then some false else none
  | .forgetPeer fp' => if fp = fp' then some false else none
  | .panicWipe => some false
  | _ => none

/-- The petname a command leaves the peer with. -/
def Action.naming (fp : Fingerprint) : Action → Option (Option String)
  | .setPetname fp' name => if fp = fp' then some (if name.isEmpty then none else some name) else none
  | .forgetPeer fp' => if fp = fp' then some none else none
  | .panicWipe => some none
  | _ => none

omit P in
theorem Action.retrust_eq (fp : Fingerprint) (a : Action) (t : Trust) :
    a.retrust fp t = ((a.verdict fp).getD t.1, (a.naming fp).getD t.2) := by
  cases a <;> simp only [retrust, verdict, naming] <;> first | rfl | split_ifs <;> rfl

namespace MeshNode
variable [PeerStore S]

/-- A peer is verified exactly when the last verdict on it was that, and it has the petname it was
last given, since it was last forgotten. Nothing else changes either. -/
theorem trust_is_last_command {s : MeshNode S} (empty : ∀ fp, Store.getPeer s.store fp = none) (calls : List Call)
    (fp : Fingerprint) :
    (Runs.run exec s calls).peerVerified fp = ((calls.filterMap fun c => c.action.verdict fp).getLast?).getD false ∧
      (Runs.run exec s calls).peerPetname fp = ((calls.filterMap fun c => c.action.naming fp).getLast?).getD none := by
  have hkeyed : s.Keyed := fun fp p hp => nomatch (empty fp).symm.trans hp
  have hstep : ∀ (t : MeshNode S) (c : Call), t.Keyed → (exec t c).Keyed := fun t c ht => (exec_trust ht c).1
  have hset : ∀ (t : MeshNode S) (c : Call), t.Keyed →
      (exec t c).trust fp = ((c.action.verdict fp).getD (t.peerVerified fp), (c.action.naming fp).getD (t.peerPetname fp)) :=
    fun t c ht => ((exec_trust ht c).2 fp).trans (Action.retrust_eq fp c.action (t.trust fp))
  constructor
  · rw [Runs.run_last_set exec Keyed hstep (fun t => t.peerVerified fp) (fun c => c.action.verdict fp)
      (fun t c ht => congrArg Prod.fst (hset t c ht)) s hkeyed calls]
    rw [peerVerified, empty]
    rfl
  · rw [Runs.run_last_set exec Keyed hstep (fun t => t.peerPetname fp) (fun c => c.action.naming fp)
      (fun t c ht => congrArg Prod.snd (hset t c ht)) s hkeyed calls]
    rw [peerPetname, empty]
    rfl

end MeshNode
end CockroachChat

namespace CockroachChat.Reference
attribute [local instance] prims

/-- Node 1 verifies node 2, names it, hears its announce again, and takes the verification back. -/
theorem trust_survives_announce :
    let calls : List Call := ⟨0, .verifyPeer (fpOf 2)⟩ :: ⟨0, .setPetname (fpOf 2) "B"⟩ ::
      (arriving 1 0 (framesFrom 0 (linked 2)) ++ [⟨2, .unverifyPeer (fpOf 2)⟩])
    (run (node 1 {}) calls).peerVerified (fpOf 2) = false ∧ (run (node 1 {}) calls).peerPetname (fpOf 2) = some "B" := by
  intro calls
  have hempty : ∀ fp, Store.getPeer (node 1 {}).store fp = none := by
    intro fp
    show (∅ : Std.ExtTreeMap Fingerprint PeerRecord)[fp]? = none
    exact Std.ExtTreeMap.getElem?_empty
  obtain ⟨hverified, hpetname⟩ := MeshNode.trust_is_last_command hempty calls (fpOf 2)
  refine ⟨hverified.trans ?_, hpetname.trans ?_⟩ <;> decide +kernel

end CockroachChat.Reference
