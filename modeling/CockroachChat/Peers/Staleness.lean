import CockroachChat.Flood.Inventory
import CockroachChat.Peers.Trust

/-! # Announces out of order

A node files each announce over the one before, whatever their timestamps. What it knows of an
identity is what the announce it took in last told it. -/
namespace CockroachChat
set_option autoImplicit false

variable [P : Prims] {S : Type}

/-- What a signed announce tells of its identity. -/
structure Told where
  dh : Key32
  eph : EphId
  stamp : Millis
  deriving DecidableEq

/-- The identity that signed an announce, with what it announced. -/
def announcement (pkt : Packet) : Option (Fingerprint × Told) :=
  match decodeAnnounce pkt.payload with
  | none => none
  | some (ed, dh, _) =>
      match P.vkFromBytes ed with
      | none => none
      | some vk =>
          if (pkt.verifyWith vk).isOk then some (P.sha256 ed.toList, ⟨dh, pkt.sender, pkt.timestampMs.toNat⟩) else none

/-- What a node knows of an identity: its X25519 key, its ephemeral id, and when its record was last
refreshed, by which id. -/
structure Known where
  dh : Option Key32
  eph : Option EphId
  seen : Option (EphId × Millis)
  deriving DecidableEq

def Told.known (a : Told) : Known := ⟨some a.dh, some a.eph, some (a.eph, a.stamp)⟩

/-- The command forgets the identity. -/
def Action.forgets (fp : Fingerprint) : Action → Prop
  | .forgetPeer fp' => fp' = fp
  | .panicWipe => True
  | _ => False

instance (fp : Fingerprint) (a : Action) : Decidable (a.forgets fp) := by
  cases a <;> unfold Action.forgets <;> infer_instance

namespace MeshNode
variable [Store S]

def known (s : MeshNode S) (fp : Fingerprint) : Known where
  dh := s.peerStaticDh[fp]?
  eph := s.fpToEph[fp]?
  seen := (Store.getPeer s.store fp).map fun p => (p.lastEph, p.lastSeenMs)

/-- The announce of an identity that a call takes in. -/
def processed (fp : Fingerprint) (s : MeshNode S) (c : Call) : Option Told :=
  match (s.at_ c.now).taken c.action with
  | none => none
  | some pkt =>
      if pkt.msgType = .announce then
        (announcement pkt).bind fun told => if told.1 = fp then some told.2 else none
      else none

/-- The call raises `PeerKeyChanged` for the identity. -/
def Alarms (fp : Fingerprint) (s : MeshNode S) (c : Call) : Prop :=
  ∃ v, .event (.peerKeyChanged fp) v ∈ (exec s c).trace.drop s.trace.length

/-! ## One announce -/

theorem handleAnnounce_announcement (s : MeshNode S) (pkt : Packet) :
    announcement pkt = none ∧ s.handleAnnounce pkt = s ∨ ∃ ed dh nick,
      announcement pkt = some (P.sha256 ed.toList, ⟨dh, pkt.sender, pkt.timestampMs.toNat⟩) ∧
      s.handleAnnounce pkt = ((s.announced pkt ed dh nick).dedupLinks).deliverHeld (P.sha256 ed.toList) := by
  unfold announcement handleAnnounce
  cases hdec : decodeAnnounce pkt.payload with
  | none => exact .inl ⟨rfl, rfl⟩
  | some keys =>
    obtain ⟨ed, dh, nick⟩ := keys
    cases hvk : P.vkFromBytes ed with
    | none => exact .inl ⟨by simp only [hvk], by simp only [hvk]⟩
    | some vk =>
      cases hver : pkt.verifyWith vk with
      | error e => exact .inl ⟨by simp [hvk, hver, Except.isOk, Except.toBool], by simp only [hvk, hver]⟩
      | ok u =>
        refine .inr ⟨ed, dh, nick, by simp [hvk, hver, Except.isOk, Except.toBool], ?_⟩
        simp only [hvk, hver]
        rfl

theorem DmOnly.known [PeerStore S] {s s' : MeshNode S} (h : DmOnly s s') (fp : Fingerprint) : s'.known fp = s.known fp := by
  have hdh : s'.peerStaticDh = s.peerStaticDh := congrArg Surroundings.peerStaticDh h.same
  simp only [MeshNode.known, hdh, h.fpToEph, h.getPeer]

theorem Bookkept.known {s s' : MeshNode S} (h : Bookkept s s') (fp : Fingerprint) : s'.known fp = s.known fp := by
  have hdh : s'.peerStaticDh = s.peerStaticDh := by rw [h.eq]
  simp only [MeshNode.known, hdh, h.fpToEph, h.store]

theorem dedupLinks_known (s : MeshNode S) (fp : Fingerprint) : s.dedupLinks.known fp = s.known fp := by
  obtain ⟨links, os, hdedup, -⟩ := dedupLinks_update s
  rw [hdedup]
  rfl

/-! ## The alarm -/

/-- Anything but the event that an identity changed its key. -/
def NoAlarm (_ : LocalIdentity) : Obs → Prop
  | .event (.peerKeyChanged _) _ => False
  | _ => True

omit [Store S] in
theorem noAlarm_of_wordless (id : LocalIdentity) (o : Obs) (h : Wordless id o) : NoAlarm id o := by
  cases o <;> first | exact h.elim | trivial

theorem announced_noAlarm (s : MeshNode S) (pkt : Packet) (ed dh : Key32) (nick : String)
    (same : s.peerStaticDh[(P.sha256 ed.toList : Fingerprint)]? = some dh) : Adds NoAlarm s (s.announced pkt ed dh nick) := by
  unfold announced
  refine .trans ?_ (.emit trivial)
  refine .trans ?_ (.of_trace rfl rfl)
  have hprev : (s.note (.accept pkt)).peerStaticDh[(P.sha256 ed.toList : Fingerprint)]? = some dh := same
  rw [hprev]
  simp only [noteKeyChange, ne_eq, not_true_eq_false, false_and, if_false]
  have hnote : Adds NoAlarm s (s.note (.accept pkt)) := .note trivial
  exact hnote.trans (.of_trace rfl rfl)

/-! ## One announce, filed -/

variable [PeerStore S]

/-- An announce is filed under its identity and touches no other. -/
theorem announced_known (s : MeshNode S) (pkt : Packet) (ed dh : Key32) (nick : String) (fp : Fingerprint) :
    (s.announced pkt ed dh nick).known fp =
      if fp = P.sha256 ed.toList then (⟨dh, pkt.sender, pkt.timestampMs.toNat⟩ : Told).known else s.known fp := by
  have hchange := noteKeyChange_dmOnly { s.note (.accept pkt) with
    ephKeys := s.ephKeys.insert pkt.sender ed
    fpToEph := s.fpToEph.insert (P.sha256 ed.toList) pkt.sender
    peerStaticDh := s.peerStaticDh.insert (P.sha256 ed.toList) dh } (P.sha256 ed.toList)
    (s.peerStaticDh[(P.sha256 ed.toList : Fingerprint)]?) dh
  have hdh := congrArg Surroundings.peerStaticDh hchange.same
  have heph := hchange.fpToEph
  have hpeer := hchange.getPeer
  unfold announced
  simp only [MeshNode.known, emit, recordPeer, note, PeerStore.upsert]
  simp only [note, MeshNode.surroundings] at hdh heph hpeer
  rw [hdh, heph, hpeer, Std.ExtTreeMap.getElem?_insert, Std.ExtTreeMap.getElem?_insert]
  by_cases hfp : fp = P.sha256 ed.toList
  · subst hfp
    simp [Told.known]
  · have hne : ¬ compare (P.sha256 ed.toList : Fingerprint) fp = .eq := by
      rw [Std.compare_eq_iff_eq]
      exact Ne.symm hfp
    rw [if_neg hne, if_neg hne, if_neg hfp, if_neg hfp]

theorem handleAnnounce_known (s : MeshNode S) (pkt : Packet) (fp : Fingerprint) :
    (s.handleAnnounce pkt).known fp =
      match (announcement pkt).bind fun told => if told.1 = fp then some told.2 else none with
      | some a => a.known
      | none => s.known fp := by
  rcases handleAnnounce_announcement s pkt with ⟨hnone, heq⟩ | ⟨ed, dh, nick, htold, heq⟩
  · rw [hnone, heq]
    rfl
  · rw [htold, heq, (deliverHeld_dmOnly _ _).known, dedupLinks_known, announced_known, Option.bind_some]
    simp only [@eq_comm _ fp]
    split_ifs <;> rfl

/-! ## One call -/

theorem dispatch_known (s : MeshNode S) (link : LinkId) {pkt : Packet} (other : pkt.msgType ≠ .announce) (fp : Fingerprint) :
    (s.dispatch link pkt).known fp = s.known fp := by
  unfold dispatch
  split
  · contradiction
  · rcases handleChannel_update s pkt with heq | ⟨channel, text, verified, -, -, heq⟩
    · rw [heq]
    · rw [heq]
      simp only
      split_ifs <;> simp only [MeshNode.known, emit, PeerStore.put_channel]
  · obtain ⟨os, heq, -⟩ := handleSyncRequest_update s link pkt
    rw [heq]
    rfl
  · exact (handleNoiseHandshake_dmOnly s pkt).known fp
  · exact (handleDirectMessage_dmOnly s pkt).known fp
  · rfl

/-- A call that takes in an announce of the identity files it. -/
theorem exec_processed {fp : Fingerprint} {s : MeshNode S} {c : Call} {a : Told} (h : processed fp s c = some a) :
    (exec s c).known fp = a.known := by
  unfold exec
  cases haction : c.action with
  | transport ev =>
    cases ev with
    | frameReceived link frame =>
      have hframe := onFrame_taken (s.at_ c.now) link frame
      rw [processed, haction] at h
      cases htaken : (s.at_ c.now).taken (.transport (.frameReceived link frame)) with
      | none =>
        rw [htaken] at h
        cases h
      | some pkt =>
        simp only [htaken] at h hframe
        split_ifs at h with hann
        obtain ⟨t, -, heq, -⟩ := hframe
        have hdispatch : t.dispatch link pkt = t.handleAnnounce pkt := by simp only [dispatch, hann]
        simp only [act, onTransportEvent]
        rw [heq, (maybeRelay_bookkept _ link pkt).known, hdispatch, handleAnnounce_known, h]
    | _ => rw [processed, haction] at h; cases h
  | _ => rw [processed, haction] at h; cases h

/-- Any other call leaves what is known of an identity on record, unless it forgets it. -/
theorem exec_unprocessed {fp : Fingerprint} {s : MeshNode S} {c : Call} (keyed : s.Keyed) (h : processed fp s c = none)
    (kept : ¬ c.action.forgets fp) (record : (Store.getPeer s.store fp).isSome) : (exec s c).known fp = s.known fp := by
  obtain ⟨q, hq⟩ := Option.isSome_iff_exists.mp record
  have hupsert : ∀ {s' : MeshNode S} (p : PeerRecord), s'.peerStaticDh = s.peerStaticDh → s'.fpToEph = s.fpToEph →
      Store.getPeer s'.store = Store.getPeer (Store.upsertPeer s.store p) →
      (p.fingerprint = fp → p.lastEph = q.lastEph ∧ p.lastSeenMs = q.lastSeenMs) → s'.known fp = s.known fp := by
    intro s' p hdh heph hstore hsame
    simp only [MeshNode.known, hdh, heph, hstore, PeerStore.upsert, hq]
    split_ifs with hfp
    · obtain ⟨hlast, hseen⟩ := hsame hfp.symm
      simp [hlast, hseen]
    · rfl
  have hold : ∀ fp' : Fingerprint, ((s.at_ c.now).peerOrNew fp').fingerprint = fp →
      ((s.at_ c.now).peerOrNew fp').lastEph = q.lastEph ∧ ((s.at_ c.now).peerOrNew fp').lastSeenMs = q.lastSeenMs := by
    intro fp' hfp
    rw [peerOrNew_fingerprint (s.at_ c.now) keyed] at hfp
    subst hfp
    have hget : Store.getPeer (s.at_ c.now).store fp' = some q := hq
    simp [peerOrNew, hget]
  unfold exec
  cases haction : c.action with
  | transport ev =>
    cases ev with
    | frameReceived link frame =>
      have hframe := onFrame_taken (s.at_ c.now) link frame
      rw [processed, haction] at h
      simp only [act, onTransportEvent]
      cases htaken : (s.at_ c.now).taken (.transport (.frameReceived link frame)) with
      | none =>
        rw [htaken] at hframe
        exact hframe.known fp
      | some pkt =>
        simp only [htaken] at h hframe
        obtain ⟨t, hbook, heq, -⟩ := hframe
        rw [heq, (maybeRelay_bookkept _ link pkt).known]
        by_cases hann : pkt.msgType = .announce
        · rw [if_pos hann] at h
          have hdispatch : t.dispatch link pkt = t.handleAnnounce pkt := by simp only [dispatch, hann]
          rw [hdispatch, handleAnnounce_known, h]
          exact hbook.known fp
        · rw [dispatch_known t link hann]
          exact hbook.known fp
    | linkUp link mtu =>
      obtain ⟨seen, os, heq⟩ := linkUp_update (s.at_ c.now) link mtu
      rw [act, heq]
      rfl
    | linkDown link => rfl
    | mtuChanged link mtu =>
      simp only [act, onTransportEvent]
      split <;> rfl
  | tick =>
    have hretry := (retryStalledHandshakes_dmOnly (s.at_ c.now).swept (s.at_ c.now).clock).known fp
    exact hretry.trans ((swept_bookkept (s.at_ c.now)).known fp)
  | takeEvents => rfl
  | joinChannel name => rfl
  | sendChannelMessage channel text =>
    rw [act, sendChannelMessage_eq]
    simp only [MeshNode.known, flood, PeerStore.put_channel]
    rfl
  | announce =>
    rw [act, announce_eq]
    rfl
  | sendDm fp' text => exact (sendDm_dmOnly _ fp' text).known fp
  | startDmSession fp' => exact (startDmSession_dmOnly _ fp').known fp
  | verifyPeer fp' =>
    refine hupsert { (s.at_ c.now).peerOrNew fp' with verified := true } ?_ ?_ ?_ (hold fp')
    · exact congrArg Surroundings.peerStaticDh (trySendVerifyNotice_dmOnly _ fp').same
    · exact (trySendVerifyNotice_dmOnly _ fp').fpToEph
    · rw [act, verifyPeer, (trySendVerifyNotice_dmOnly _ fp').getPeer]
      exact PeerStore.delete_dms _ _ _
  | unverifyPeer fp' =>
    cases hget : Store.getPeer s.store fp' with
    | none =>
      have hnone : Store.getPeer (s.at_ c.now).store fp' = none := hget
      simp only [act, unverifyPeer, dropPeerSessionState, hnone, MeshNode.known, PeerStore.delete_dms]
      rfl
    | some p =>
      have hsome : Store.getPeer (s.at_ c.now).store fp' = some p := hget
      refine hupsert { p with verified := false } ?_ ?_ ?_ ?_
      · simp only [act, unverifyPeer, dropPeerSessionState, hsome]
        rfl
      · simp only [act, unverifyPeer, dropPeerSessionState, hsome]
        rfl
      · simp only [act, unverifyPeer, dropPeerSessionState, hsome]
        exact PeerStore.delete_dms _ _ _
      · intro hfp
        have hkey : fp' = fp := (keyed fp' p hget).symm.trans hfp
        subst hkey
        cases hget.symm.trans hq
        exact ⟨rfl, rfl⟩
  | forgetPeer fp' =>
    rw [haction] at kept
    have hne : fp' ≠ fp := kept
    have hcmp : ¬ compare fp' fp = .eq := fun h => hne (Std.compare_eq_iff_eq.mp h)
    simp only [act, forgetPeer, dropPeerSessionState, MeshNode.known, PeerStore.delete, PeerStore.delete_dms,
      Std.ExtTreeMap.getElem?_erase, hcmp, if_neg (Ne.symm hne)]
    rfl
  | setPetname fp' name =>
    exact hupsert { (s.at_ c.now).peerOrNew fp' with petname := if name.isEmpty then none else some name } rfl rfl rfl (hold fp')
  | panicWipe =>
    rw [haction] at kept
    exact absurd trivial kept

omit [PeerStore S] in
/-- A call that takes in an announce of the key that is on file raises no alarm. -/
theorem exec_noAlarm {fp : Fingerprint} {s : MeshNode S} {c : Call} {a : Told} (h : processed fp s c = some a)
    (same : (s.known fp).dh = some a.dh) : ¬ s.Alarms fp c := by
  have hadds : Adds NoAlarm (s.at_ c.now) (exec s c) := by
    unfold exec
    cases haction : c.action with
    | transport ev =>
      cases ev with
      | frameReceived link frame =>
        have hframe := onFrame_taken (s.at_ c.now) link frame
        rw [processed, haction] at h
        cases htaken : (s.at_ c.now).taken (.transport (.frameReceived link frame)) with
        | none =>
          rw [htaken] at h
          cases h
        | some pkt =>
          simp only [htaken] at h hframe
          split_ifs at h with hann
          obtain ⟨t, hbook, heq, htrace⟩ := hframe
          have hdispatch : t.dispatch link pkt = t.handleAnnounce pkt := by simp only [dispatch, hann]
          have hstart : Adds NoAlarm (s.at_ c.now) t := .of_trace (by rw [hbook.eq]) (htrace (by simp [hann]))
          simp only [act, onTransportEvent]
          rw [heq, hdispatch]
          refine .trans ?_ (maybeRelay_adds _ link pkt)
          obtain ⟨hnone, -⟩ | ⟨ed, dh, nick, htold, hann⟩ := handleAnnounce_announcement t pkt
          · rw [hnone] at h
            cases h
          · rw [htold, Option.bind_some] at h
            simp only at h
            split_ifs at h with hfp
            cases h
            subst hfp
            have hprev : t.peerStaticDh[(P.sha256 ed.toList : Fingerprint)]? = some dh :=
              (congrArg Known.dh (hbook.known _)).trans same
            rw [hann]
            refine .trans (.trans ?_ (dedupLinks_adds _ fun _ _ => trivial)) ((deliverHeld_wordless _ _).imp noAlarm_of_wordless)
            exact hstart.trans (announced_noAlarm t pkt ed dh nick hprev)
      | _ => rw [processed, haction] at h; cases h
    | _ => rw [processed, haction] at h; cases h
  obtain ⟨-, os, htrace, hos⟩ := hadds
  have htrace' : (exec s c).trace = s.trace ++ os := htrace
  rintro ⟨v, hmem⟩
  rw [htrace', List.drop_left] at hmem
  exact hos _ hmem

/-! ## Runs -/

/-- The announces of an identity that a run takes in, in order. -/
def diary (fp : Fingerprint) (s : MeshNode S) (calls : List Call) : List Told :=
  Runs.outputs exec (fun s c => (processed fp s c).toList) s calls

/-- The announce of the greatest timestamp. -/
def Newest (log : List Told) (a : Told) : Prop := a ∈ log ∧ ∀ b ∈ log, b.stamp ≤ a.stamp

/-- A call takes in an announce that is older than one taken in before. -/
def TakesStale (fp : Fingerprint) (s : MeshNode S) (pre : List Call) (c : Call) (a : Told) : Prop :=
  processed fp (Runs.run exec s pre) c = some a ∧ ∃ b ∈ diary fp s pre, a.stamp < b.stamp

omit [PeerStore S] in
theorem diary_snoc (fp : Fingerprint) (s : MeshNode S) (calls : List Call) (c : Call) :
    diary fp s (calls ++ [c]) = diary fp s calls ++ (processed fp (Runs.run exec s calls) c).toList := by
  rw [diary, Runs.outputs_append]
  simp [diary, Runs.outputs]

/-- What is known at the end of a run is what the last announce told. -/
theorem known_last {fp : Fingerprint} {s : MeshNode S} (keyed : s.Keyed) (calls : List Call)
    (kept : ∀ c ∈ calls, ¬ c.action.forgets fp) {a : Told} (h : (diary fp s calls).getLast? = some a) :
    (Runs.run exec s calls).known fp = a.known := by
  induction calls using List.reverseRecOn with
  | nil => cases h
  | append_singleton calls c ih =>
    have hkeyed := Runs.run_invariant exec Keyed (fun t c ht => (exec_trust ht c).1) s keyed calls
    rw [diary_snoc] at h
    rw [Runs.run_snoc]
    cases hprocessed : processed fp (Runs.run exec s calls) c with
    | some b =>
      rw [hprocessed] at h
      simp at h
      rw [exec_processed hprocessed, h]
    | none =>
      rw [hprocessed] at h
      have hbefore := ih (fun d hd => kept d (List.mem_append_left _ hd)) (by simpa using h)
      have hrecord : (Store.getPeer (Runs.run exec s calls).store fp).isSome := by
        have hseen := congrArg Known.seen hbefore
        simp only [known, Told.known] at hseen
        rw [← Option.isSome_map, hseen]
        rfl
      rw [exec_unprocessed hkeyed hprocessed (kept c (by simp)) hrecord, hbefore]

/-- The order of a run does not matter: it ends with what the newest announce told, and no stale one
changes the key on file or raises the alarm. -/
def RollsForward (fp : Fingerprint) (s : MeshNode S) (calls : List Call) : Prop :=
  (∀ a, Newest (diary fp s calls) a → (Runs.run exec s calls).known fp = a.known) ∧
    ∀ pre c post a, calls = pre ++ c :: post → TakesStale fp s pre c a →
      ((exec (Runs.run exec s pre) c).known fp).dh = ((Runs.run exec s pre).known fp).dh ∧ ¬ (Runs.run exec s pre).Alarms fp c

/-- It does so exactly when the last announce taken in is the newest, and every stale one tells the
key that is on file. -/
theorem rollsForward_iff {fp : Fingerprint} {s : MeshNode S} (keyed : s.Keyed) (calls : List Call)
    (kept : ∀ c ∈ calls, ¬ c.action.forgets fp)
    (distinct : ∀ a ∈ diary fp s calls, ∀ b ∈ diary fp s calls, a.stamp = b.stamp → a = b) :
    RollsForward fp s calls ↔ (∀ a, (diary fp s calls).getLast? = some a → Newest (diary fp s calls) a) ∧
      ∀ pre c post a, calls = pre ++ c :: post → TakesStale fp s pre c a → ((Runs.run exec s pre).known fp).dh = some a.dh := by
  constructor
  · rintro ⟨hnewest, hstale⟩
    constructor
    · intro a hlast
      have hmem := List.mem_of_getLast? hlast
      obtain ⟨m, hm, hmax⟩ := Set.exists_max_image {b | b ∈ diary fp s calls} Told.stamp (List.finite_toSet _) ⟨a, hmem⟩
      have hstamp : m.stamp = a.stamp := by
        have hsame := (hnewest m ⟨hm, hmax⟩).symm.trans (known_last keyed calls kept hlast)
        have hseen := congrArg Known.seen hsame
        simpa [Told.known] using (Prod.mk.inj (Option.some.inj hseen)).2
      exact ⟨hmem, fun b hb => hstamp ▸ hmax b hb⟩
    · intro pre c post a hsplit htakes
      rw [← (hstale pre c post a hsplit htakes).1, exec_processed htakes.1]
      rfl
  · rintro ⟨hlast, hfiled⟩
    constructor
    · intro a hnewest
      obtain ⟨l, hl⟩ := Option.isSome_iff_exists.mp (List.getLast?_isSome.mpr (List.ne_nil_of_mem hnewest.1))
      have hmax := hlast l hl
      have heq := distinct a hnewest.1 l hmax.1 (Nat.le_antisymm (hmax.2 a hnewest.1) (hnewest.2 l hmax.1))
      rw [heq]
      exact known_last keyed calls kept hl
    · intro pre c post a hsplit htakes
      have hbefore := hfiled pre c post a hsplit htakes
      constructor
      · rw [exec_processed htakes.1, hbefore]
        rfl
      · exact exec_noAlarm htakes.1 hbefore

omit [PeerStore S] in
/-- Announces that are taken in by their timestamps are never stale. -/
theorem not_takesStale {fp : Fingerprint} {s : MeshNode S} {calls : List Call}
    (sorted : (diary fp s calls).Pairwise fun a b => a.stamp ≤ b.stamp) (pre : List Call) (c : Call) (post : List Call) (a : Told)
    (hsplit : calls = pre ++ c :: post) : ¬ TakesStale fp s pre c a := by
  rintro ⟨hprocessed, b, hb, hlt⟩
  have hdiary : diary fp s calls = diary fp s pre ++ (a :: diary fp (exec (Runs.run exec s pre) c) post) := by
    rw [hsplit, diary, Runs.outputs_append, Runs.outputs, hprocessed]
    rfl
  rw [hdiary] at sorted
  have hle := (List.pairwise_append.mp sorted).2.2 b hb a List.mem_cons_self
  exact absurd hlt (Nat.not_lt.mpr hle)

end MeshNode
end CockroachChat

namespace CockroachChat.Reference
attribute [local instance] prims

/-- Node 2 with the X25519 key it had before. -/
def formerly : Node := run (MeshNode.new { identity 2 with dhSecret := (9 : UInt8) } {} 0 store "" 0 id) [up 0 0]

/-- Node 2 now. -/
def lately : Node := run (node 2 {}) [up 5 0]

def toldFormerly : Told := ⟨publicOf (Vector.replicate 32 9), Vector.replicate 8 2, 0⟩

def toldLately : Told := ⟨publicOf (Vector.replicate 32 2), Vector.replicate 8 2, 5⟩

/-- Node 1 hears both announces of node 2, the older one first. -/
def inOrder : List Call := up 0 0 :: arriving 6 0 (framesFrom 0 formerly ++ framesFrom 0 lately)

/-- Node 1 hears the older one last. -/
def overtaken : List Call := up 0 0 :: arriving 6 0 (framesFrom 0 lately ++ framesFrom 0 formerly)

theorem node_keyed (k : UInt8) : (node k {}).Keyed := by
  intro fp p hp
  have hnone : Store.getPeer (node k {}).store fp = none := by
    show (∅ : Std.ExtTreeMap Fingerprint PeerRecord)[fp]? = none
    exact Std.ExtTreeMap.getElem?_empty
  exact nomatch hnone.symm.trans hp

theorem inOrder_rollsForward : MeshNode.RollsForward (fpOf 2) (node 1 {}) inOrder := by
  have hdiary : MeshNode.diary (fpOf 2) (node 1 {}) inOrder = [toldFormerly, toldLately] := by decide +kernel
  have hkept : ∀ c ∈ inOrder, ¬ c.action.forgets (fpOf 2) := by decide +kernel
  refine (MeshNode.rollsForward_iff (node_keyed 1) inOrder hkept ?_).mpr ⟨?_, ?_⟩
  · rw [hdiary]
    decide +kernel
  · rw [hdiary]
    rintro a ha
    cases ha
    simp [MeshNode.Newest, toldFormerly, toldLately]
  · intro pre c post a hsplit hstale
    refine absurd hstale (MeshNode.not_takesStale ?_ pre c post a hsplit)
    rw [hdiary]
    simp [toldFormerly, toldLately]

/-- The replay of the older announce puts the key it carries back on file. -/
theorem overtaken_rolls_back : ¬ MeshNode.RollsForward (fpOf 2) (node 1 {}) overtaken := by
  intro h
  have hdiary : MeshNode.diary (fpOf 2) (node 1 {}) overtaken = [toldLately, toldFormerly] := by decide +kernel
  have hnewest : MeshNode.Newest (MeshNode.diary (fpOf 2) (node 1 {}) overtaken) toldLately := by
    rw [hdiary]
    simp [MeshNode.Newest, toldFormerly, toldLately]
  have hkey : (Runs.run MeshNode.exec (node 1 {}) overtaken).known (fpOf 2) ≠ toldLately.known := by decide +kernel
  exact hkey (h.1 _ hnewest)

end CockroachChat.Reference
