import CockroachChat.Node.ReferenceNodes
import CockroachChat.Sessions.Surroundings

/-! # Ephemeral ids

A node keeps the key behind each ephemeral id and the id that each identity uses. Announces are
signed by the key they carry, but they choose the id they are sent under. -/
namespace CockroachChat
set_option autoImplicit false

variable [P : Prims] {S : Type}

/-- The key of an announce that is signed by it. -/
def announcedKey (pkt : Packet) : Option Key32 :=
  match decodeAnnounce pkt.payload with
  | none => none
  | some (ed, _, _) =>
      match P.vkFromBytes ed with
      | none => none
      | some vk => if (pkt.verifyWith vk).isOk then some ed else none

namespace MeshNode

/-- The id of each identity is bound to its key. -/
def Consistent (s : MeshNode S) : Prop := ∀ fp eph, s.fpToEph[fp]? = some eph → s.ephToFp eph = some fp

variable [Store S]

/-- The binding that a call learns: the sender and the key of an announce that is heard for the first
time, let through by the limiter and signed by its key. -/
def learned (s : MeshNode S) : Action → Option (EphId × Key32)
  | .transport (.frameReceived _ frame) =>
      match s.assembled frame with
      | some pkt =>
          if pkt.msgType = .announce ∧ (s.fed frame).accepts pkt = true then (announcedKey pkt).map (pkt.sender, ·) else none
      | none => none
  | _ => none

/-- The announced id is in use by another identity. -/
def Usurps (s : MeshNode S) (c : Call) : Prop :=
  ∃ eph ed fp, (s.at_ c.now).learned c.action = some (eph, ed) ∧ s.fpToEph[fp]? = some eph ∧ fp ≠ P.sha256 ed.toList

/-! ## What a call does to the maps -/

theorem handleAnnounce_maps (s : MeshNode S) (pkt : Packet) :
    match announcedKey pkt with
    | some ed => (s.handleAnnounce pkt).ephKeys = s.ephKeys.insert pkt.sender ed ∧
        (s.handleAnnounce pkt).fpToEph = s.fpToEph.insert (P.sha256 ed.toList) pkt.sender
    | none => s.handleAnnounce pkt = s := by
  unfold announcedKey
  cases hdec : decodeAnnounce pkt.payload with
  | none => simp [handleAnnounce, hdec]
  | some keys =>
    obtain ⟨ed, dh, nick⟩ := keys
    cases hvk : P.vkFromBytes ed with
    | none => simp [handleAnnounce, hdec, hvk]
    | some vk =>
      cases hver : pkt.verifyWith vk with
      | error e => simp [handleAnnounce, hdec, hvk, hver, Except.isOk, Except.toBool]
      | ok u =>
        have heq : s.handleAnnounce pkt = ((s.announced pkt ed dh nick).dedupLinks).deliverHeld (P.sha256 ed.toList) := by
          simp only [handleAnnounce, hdec, hvk, hver]
          rfl
        have hdeliver := deliverHeld_dmOnly (s.announced pkt ed dh nick).dedupLinks (P.sha256 ed.toList)
        obtain ⟨links, os, hdedup, -⟩ := dedupLinks_update (s.announced pkt ed dh nick)
        have hchange := fun t : MeshNode S => noteKeyChange_dmOnly t (P.sha256 ed.toList) (s.peerStaticDh[(P.sha256 ed.toList : Fingerprint)]?) dh
        simp only [hvk, hver, Except.isOk, Except.toBool, if_true]
        rw [heq, hdeliver.ephKeys, hdeliver.fpToEph, hdedup]
        exact ⟨(hchange _).ephKeys, (hchange _).fpToEph⟩

/-- Neither map changes. -/
structure MapsKept (s s' : MeshNode S) : Prop where
  ephKeys : s'.ephKeys = s.ephKeys
  fpToEph : s'.fpToEph = s.fpToEph

theorem DmOnly.mapsKept {s s' : MeshNode S} (h : DmOnly s s') : MapsKept s s' := ⟨h.ephKeys, h.fpToEph⟩

omit [Store S] in
theorem Bookkept.mapsKept {s s' : MeshNode S} (h : Bookkept s s') : MapsKept s s' := ⟨h.ephKeys, h.fpToEph⟩

theorem dispatch_mapsKept (s : MeshNode S) (link : LinkId) {pkt : Packet} (other : pkt.msgType ≠ .announce) :
    MapsKept s (s.dispatch link pkt) := by
  unfold dispatch
  split
  · contradiction
  · rcases handleChannel_update s pkt with heq | ⟨channel, text, verified, -, -, heq⟩
    · rw [heq]
      exact ⟨rfl, rfl⟩
    · rw [heq]
      simp only
      split_ifs <;> exact ⟨rfl, rfl⟩
  · obtain ⟨os, heq, -⟩ := handleSyncRequest_update s link pkt
    rw [heq]
    exact ⟨rfl, rfl⟩
  · exact (handleNoiseHandshake_dmOnly s pkt).mapsKept
  · exact (handleDirectMessage_dmOnly s pkt).mapsKept
  · exact ⟨rfl, rfl⟩

/-- The maps after a packet: as the announce leaves them, or as they were. -/
theorem onPacket_maps (s : MeshNode S) (link : LinkId) (pkt : Packet) :
    match (if pkt.msgType = .announce ∧ s.accepts pkt = true then announcedKey pkt else none) with
    | some ed => (s.onPacket link pkt).ephKeys = s.ephKeys.insert pkt.sender ed ∧
        (s.onPacket link pkt).fpToEph = s.fpToEph.insert (P.sha256 ed.toList) pkt.sender
    | none => MapsKept s (s.onPacket link pkt) := by
  by_cases hann : pkt.msgType = .announce
  · have htag : s.tagged link pkt = s := by simp [tagged, hann]
    have hobserved : Bookkept s (s.observed pkt) := ⟨rfl⟩
    have hcharged : Bookkept s ((s.observed pkt).charged pkt) := ⟨rfl⟩
    rw [onPacket_phased, htag]
    by_cases hfresh : s.fresh pkt = true
    · by_cases hadmits : (s.observed pkt).admits pkt = true
      · have haccepts : s.accepts pkt = true := by simp [accepts, hfresh, hadmits]
        have hdispatch : ((s.observed pkt).charged pkt).dispatch link pkt = ((s.observed pkt).charged pkt).handleAnnounce pkt := by
          simp only [dispatch, hann]
        have hmaps := handleAnnounce_maps ((s.observed pkt).charged pkt) pkt
        have hrelay := (maybeRelay_bookkept (((s.observed pkt).charged pkt).handleAnnounce pkt) link pkt).mapsKept
        rw [if_pos ⟨hann, haccepts⟩, if_pos hfresh, if_pos hadmits, hdispatch]
        cases hkey : announcedKey pkt with
        | none =>
          simp only [hkey] at hmaps ⊢
          rw [hmaps] at hrelay ⊢
          exact ⟨hrelay.ephKeys.trans hcharged.ephKeys, hrelay.fpToEph.trans hcharged.fpToEph⟩
        | some ed =>
          simp only [hkey] at hmaps ⊢
          rw [hrelay.ephKeys, hrelay.fpToEph]
          exact hmaps
      · have haccepts : ¬ s.accepts pkt = true := by simp [accepts, hadmits]
        rw [if_neg (fun h => haccepts h.2), if_pos hfresh, if_neg hadmits]
        exact hcharged.mapsKept
    · have haccepts : ¬ s.accepts pkt = true := by simp [accepts, hfresh]
      rw [if_neg (fun h => haccepts h.2), if_neg hfresh]
      exact hobserved.mapsKept
  · rw [if_neg (fun h => hann h.1)]
    rcases onPacket_phases s link pkt with h | ⟨t, h₁, h₂⟩
    · exact h.mapsKept
    · have hdispatch := dispatch_mapsKept t link hann
      exact ⟨h₂.ephKeys.trans (hdispatch.ephKeys.trans h₁.ephKeys), h₂.fpToEph.trans (hdispatch.fpToEph.trans h₁.fpToEph)⟩

/-- A call learns a binding. -/
theorem exec_learned {s : MeshNode S} {c : Call} {eph : EphId} {ed : Key32}
    (h : (s.at_ c.now).learned c.action = some (eph, ed)) :
    (exec s c).ephKeys = s.ephKeys.insert eph ed ∧ (exec s c).fpToEph = s.fpToEph.insert (P.sha256 ed.toList) eph := by
  unfold exec
  cases haction : c.action with
  | transport ev =>
    rw [haction] at h
    cases ev with
    | frameReceived link frame =>
      simp only [learned] at h
      simp only [act, onTransportEvent, onFrame_eq]
      cases hasm : (s.at_ c.now).assembled frame with
      | none => simp [hasm] at h
      | some pkt =>
        simp only [hasm] at h ⊢
        have hmaps := onPacket_maps ((s.at_ c.now).fed frame) link pkt
        split_ifs at h with hcond
        obtain ⟨ed', hkey, heq⟩ := Option.map_eq_some_iff.mp h
        cases heq
        rw [if_pos hcond, hkey] at hmaps
        exact hmaps
    | _ => cases h
  | _ => rw [haction] at h; cases h

/-- A frame that learns no binding keeps the maps, and so does a tick. -/
theorem moves_mapsKept {s : MeshNode S} {c : Call} (moves : c.action.moves) (h : (s.at_ c.now).learned c.action = none) :
    MapsKept s (exec s c) := by
  obtain ⟨now, a⟩ := c
  cases a with
  | transport ev =>
    cases ev with
    | frameReceived link frame =>
      have hexec : exec s ⟨now, .transport (.frameReceived link frame)⟩ = (s.at_ now).onFrame link frame := rfl
      simp only [learned] at h
      rw [hexec, onFrame_eq]
      cases hasm : (s.at_ now).assembled frame with
      | none => exact ⟨rfl, rfl⟩
      | some pkt =>
        simp only [hasm] at h ⊢
        have hmaps := onPacket_maps ((s.at_ now).fed frame) link pkt
        have hnone : (if pkt.msgType = .announce ∧ ((s.at_ now).fed frame).accepts pkt = true then announcedKey pkt else none) =
            none := by
          split_ifs at h ⊢ with hcond
          · exact Option.map_eq_none_iff.mp h
          · rfl
        rw [hnone] at hmaps
        exact ⟨hmaps.ephKeys, hmaps.fpToEph⟩
    | linkUp _ _ | linkDown _ | mtuChanged _ _ => exact moves.elim
  | tick =>
    have hretry := (retryStalledHandshakes_dmOnly (s.at_ now).swept now).mapsKept
    have hswept := (swept_bookkept (s.at_ now)).mapsKept
    exact ⟨hretry.ephKeys.trans hswept.ephKeys, hretry.fpToEph.trans hswept.fpToEph⟩
  | _ => exact moves.elim

/-- Any other call keeps the maps, or forgets identities. -/
theorem exec_unlearned {s : MeshNode S} {c : Call} (h : (s.at_ c.now).learned c.action = none) :
    (exec s c).fpToEph = ∅ ∨ (exec s c).ephKeys = s.ephKeys ∧
      ((exec s c).fpToEph = s.fpToEph ∨ ∃ fp, (exec s c).fpToEph = s.fpToEph.erase fp) := by
  have hkept : ∀ {s' : MeshNode S}, MapsKept (s.at_ c.now) s' → s'.fpToEph = ∅ ∨ s'.ephKeys = s.ephKeys ∧
      (s'.fpToEph = s.fpToEph ∨ ∃ fp, s'.fpToEph = s.fpToEph.erase fp) := fun h => .inr ⟨h.ephKeys, .inl h.fpToEph⟩
  by_cases hmoves : c.action.moves
  · exact hkept (moves_mapsKept hmoves h)
  unfold exec
  cases haction : c.action with
  | transport ev =>
    rw [haction] at hmoves
    cases ev with
    | frameReceived link frame => exact absurd trivial hmoves
    | linkUp link mtu =>
      obtain ⟨seen, os, heq⟩ := linkUp_update (s.at_ c.now) link mtu
      rw [act, heq]
      exact hkept ⟨rfl, rfl⟩
    | linkDown link => exact hkept ⟨rfl, rfl⟩
    | mtuChanged link mtu =>
      refine hkept ?_
      simp only [act, onTransportEvent]
      split <;> exact ⟨rfl, rfl⟩
  | tick =>
    rw [haction] at hmoves
    exact absurd trivial hmoves
  | takeEvents => exact hkept ⟨rfl, rfl⟩
  | joinChannel name => exact hkept ⟨rfl, rfl⟩
  | sendChannelMessage channel text =>
    rw [act, sendChannelMessage_eq]
    exact hkept ⟨rfl, rfl⟩
  | announce =>
    rw [act, announce_eq]
    exact hkept ⟨rfl, rfl⟩
  | sendDm fp text => exact hkept (sendDm_dmOnly _ fp text).mapsKept
  | startDmSession fp => exact hkept (startDmSession_dmOnly _ fp).mapsKept
  | verifyPeer fp =>
    have hnotice := fun t : MeshNode S => (trySendVerifyNotice_dmOnly t fp).mapsKept
    exact hkept ⟨(hnotice _).ephKeys, (hnotice _).fpToEph⟩
  | unverifyPeer fp =>
    refine hkept ?_
    simp only [act, unverifyPeer, dropPeerSessionState]
    split <;> exact ⟨rfl, rfl⟩
  | forgetPeer fp => exact .inr ⟨rfl, .inr ⟨fp, rfl⟩⟩
  | setPetname fp name => exact hkept ⟨rfl, rfl⟩
  | panicWipe => exact .inl rfl

/-! ## When the maps agree -/

/-- A call keeps the maps consistent unless it learns a binding for an id that another identity uses. -/
theorem exec_consistent_iff {s : MeshNode S} (h : s.Consistent) (c : Call) : (exec s c).Consistent ↔ ¬ s.Usurps c := by
  cases hlearned : (s.at_ c.now).learned c.action with
  | none =>
    refine iff_of_true ?_ (by rintro ⟨eph, ed, fp, hsome, -⟩; rw [hlearned] at hsome; cases hsome)
    intro fp eph hfp
    obtain hempty | ⟨hkeys, hsame | ⟨fp', herase⟩⟩ := exec_unlearned hlearned
    · simp [hempty] at hfp
    · rw [ephToFp, hkeys]
      exact h fp eph (hsame ▸ hfp)
    · rw [herase, Std.ExtTreeMap.getElem?_erase] at hfp
      split_ifs at hfp
      rw [ephToFp, hkeys]
      exact h fp eph hfp
  | some binding =>
    obtain ⟨eph, ed⟩ := binding
    obtain ⟨hkeys, hfps⟩ := exec_learned hlearned
    constructor
    · rintro hnext ⟨eph', ed', fp, hsome, hused, hne⟩
      cases hlearned.symm.trans hsome
      have hstill : (exec s c).fpToEph[fp]? = some eph := by
        rw [hfps, Std.ExtTreeMap.getElem?_insert, if_neg (by rw [Std.compare_eq_iff_eq]; exact Ne.symm hne)]
        exact hused
      have hnow := hnext fp eph hstill
      rw [ephToFp, hkeys, Std.ExtTreeMap.getElem?_insert_self, Option.map_some, Option.some.injEq] at hnow
      exact hne hnow.symm
    · intro hfree fp eph' hfp
      rw [hfps, Std.ExtTreeMap.getElem?_insert] at hfp
      rw [ephToFp, hkeys]
      split_ifs at hfp with heq
      · cases hfp
        rw [Std.ExtTreeMap.getElem?_insert_self, ← Std.compare_eq_iff_eq.mp heq]
        rfl
      · have hother : eph ≠ eph' := by
          rintro rfl
          exact hfree ⟨eph, ed, fp, hlearned, hfp, fun hfp' => heq (Std.compare_eq_iff_eq.mpr hfp'.symm)⟩
        rw [Std.ExtTreeMap.getElem?_insert, if_neg (by rw [Std.compare_eq_iff_eq]; exact hother)]
        exact h fp eph' hfp

/-- In a run from the start every identity stays bound to its id exactly as long as no accepted
announce claims an id that another identity is using. -/
theorem bindings_consistent_iff {s : MeshNode S} (initial : s.Initial) (calls : List Call) :
    Runs.Throughout exec Consistent s calls ↔
      ∀ pre c post, calls = pre ++ c :: post → ¬ (Runs.run exec s pre).Usurps c := by
  have hstep : ∀ (t : MeshNode S) (c : Call), t.Consistent → ((exec t c).Consistent ↔ ¬ t.Usurps c) :=
    fun t c ht => exec_consistent_iff ht c
  refine Runs.throughout_iff exec hstep s ?_ calls
  obtain ⟨identity, cfg, clock, store, nickname, seed, entropy, rfl⟩ := initial
  intro fp eph hfp
  simp [new] at hfp

end MeshNode
end CockroachChat

namespace CockroachChat.Reference
attribute [local instance] prims

/-- Node 3 under the ephemeral id of node 2, its link up. -/
def usurper : Node :=
  run (MeshNode.new { signing := (3 : UInt8), dhSecret := (3 : UInt8), ephId := Vector.replicate 8 2 } {} 0 store "" 0 id) [up 0 0]

/-- The announce of the usurper arrives. -/
def usurping : Call := ⟨1, .transport (.frameReceived 1 ((framesFrom 0 usurper).headD []))⟩

/-- Node 1 has met node 2 when it hears the usurper. -/
theorem usurper_breaks_binding :
    ¬ Runs.Throughout MeshNode.exec MeshNode.Consistent (node 1 {})
      (up 0 0 :: arriving 0 0 (framesFrom 0 (linked 2)) ++ [usurping]) := by
  rw [MeshNode.bindings_consistent_iff (node_initial 1 {})]
  intro h
  refine h (up 0 0 :: arriving 0 0 (framesFrom 0 (linked 2))) usurping [] rfl ?_
  exact ⟨Vector.replicate 8 2, Vector.replicate 32 3, fpOf 2, by decide +kernel, by decide +kernel, by decide +kernel⟩

/-- The node then takes node 2 for the usurper. -/
theorem reachable_inconsistent : ¬ ∀ s : Node, s.Reachable → s.Consistent := by
  intro h
  have hid : (run (met 1 2) [usurping]).fpToEph[fpOf 2]? = some (Vector.replicate 8 2) := by decide +kernel
  have hkey : (run (met 1 2) [usurping]).ephToFp (Vector.replicate 8 2) = some (fpOf 3) := by decide +kernel
  have hboth := (h _ (run_reachable (met_reachable 1 2) [usurping]) (fpOf 2) _ hid).symm.trans hkey
  exact absurd hboth (by decide +kernel)

end CockroachChat.Reference
