import CockroachChat.Sessions.SendOrder

/-! # Control traffic

Every scan of a peer owes it one notice, every notice that arrives is answered by one ack, and acks are
answered by nothing. Between two nodes the control messages are bounded by the scans. -/
namespace CockroachChat
set_option autoImplicit false

variable [P : Prims] {S : Type}

/-- The transfer is a message of this kind, exchanged with `fp`. -/
def Transfer.control (fp : Fingerprint) (kind : UInt8) (t : Transfer) : Bool :=
  decide (t.fp = fp) && decide ((MeshNode.splitKind t.plaintext).1 = kind)

/-- How many messages of a kind were encrypted for `fp`, and decrypted as `fp`'s. -/
def sealedAs (fp : Fingerprint) (kind : UInt8) (os : List Obs) : ℕ := (os.filterMap Obs.sealed).countP (Transfer.control fp kind)

def openedAs (fp : Fingerprint) (kind : UInt8) (os : List Obs) : ℕ := (os.filterMap Obs.opened).countP (Transfer.control fp kind)

section Counts
omit P
variable (fp : Fingerprint) (kind : UInt8)

@[simp] theorem sealedAs_append (l os : List Obs) : sealedAs fp kind (l ++ os) = sealedAs fp kind l + sealedAs fp kind os := by
  rw [sealedAs, List.filterMap_append, List.countP_append, sealedAs, sealedAs]

@[simp] theorem openedAs_append (l os : List Obs) : openedAs fp kind (l ++ os) = openedAs fp kind l + openedAs fp kind os := by
  rw [openedAs, List.filterMap_append, List.countP_append, openedAs, openedAs]

/-- Observations of no transfer. -/
def Unsealed (os : List Obs) : Prop := ∀ o ∈ os, o.sealed = none ∧ o.opened = none

theorem Unsealed.counts {os : List Obs} (h : Unsealed os) : sealedAs fp kind os = 0 ∧ openedAs fp kind os = 0 := by
  have hsealed : os.filterMap Obs.sealed = [] := List.filterMap_eq_nil_iff.mpr fun o ho => (h o ho).1
  have hopened : os.filterMap Obs.opened = [] := List.filterMap_eq_nil_iff.mpr fun o ho => (h o ho).2
  simp [sealedAs, openedAs, hsealed, hopened]

theorem Unsealed.idle {os : List Obs} (h : ∀ o ∈ os, o.Idle) : Unsealed os := by
  intro o ho
  have hq := h o ho
  cases o <;> first | exact ⟨rfl, rfl⟩ | exact hq.elim

theorem Unsealed.carries {t : MsgType} {payload : Bytes} {os : List Obs} (h : ∀ o ∈ os, o.Carries t payload) : Unsealed os := by
  intro o ho
  have hq := h o ho
  cases o <;> first | exact ⟨rfl, rfl⟩ | exact hq.elim

theorem Unsealed.written {fp : Fingerprint} {b : Bool} {os : List Obs} (h : Written fp b os) {verified : Bool}
    {side : Option SessionView} : Unsealed (os ++ [Obs.event (.dmSession fp verified) side]) := by
  intro o ho
  rcases List.mem_append.mp ho with ho | ho
  · rcases h with rfl | ⟨m, rest, rfl, carries⟩
    · cases ho
    · rcases List.mem_cons.mp ho with rfl | ho
      · exact ⟨rfl, rfl⟩
      · exact Unsealed.carries carries o ho
  · rw [List.mem_singleton.mp ho]
    exact ⟨rfl, rfl⟩

end Counts

/-- A pass through a session seals one message at most, and opens none. -/
theorem Seal.counts {d d' : Desk S} {fp : Fingerprint} {pt : Bytes} (h : Seal d fp pt d') (fp' : Fingerprint) (kind : UInt8) :
    openedAs fp' kind d'.trace = openedAs fp' kind d.trace ∧
      sealedAs fp' kind d'.trace ≤ sealedAs fp' kind d.trace + if fp = fp' ∧ (MeshNode.splitKind pt).1 = kind then 1 else 0 := by
  cases h with
  | refused σ held ready e encrypt =>
    have hnone : openedAs fp' kind [.encryptCall fp σ.view pt] = 0 ∧ sealedAs fp' kind [.encryptCall fp σ.view pt] = 0 := ⟨rfl, rfl⟩
    simp only [Desk.note, openedAs_append, sealedAs_append, hnone]
    omega
  | sealed σ σ' held ready ready' view ct encrypt os carries =>
    have hrest := (Unsealed.carries carries).counts fp' kind
    have hsplit : (Obs.encryptCall fp σ.view pt :: .encrypted fp σ.view σ.sendNonce pt :: os) =
        [.encryptCall fp σ.view pt, .encrypted fp σ.view σ.sendNonce pt] ++ os := rfl
    have hopened : openedAs fp' kind [.encryptCall fp σ.view pt, .encrypted fp σ.view σ.sendNonce pt] = 0 := rfl
    have hsealed : sealedAs fp' kind [.encryptCall fp σ.view pt, .encrypted fp σ.view σ.sendNonce pt] =
        if fp = fp' ∧ (MeshNode.splitKind pt).1 = kind then 1 else 0 := by
      have hone : [Obs.encryptCall fp σ.view pt, .encrypted fp σ.view σ.sendNonce pt].filterMap Obs.sealed =
          [⟨fp, σ.view, σ.sendNonce, pt⟩] := rfl
      rw [sealedAs, hone, List.countP_singleton]
      simp [Transfer.control]
    simp only [Desk.note, hsplit, openedAs_append, sealedAs_append, hopened, hsealed, hrest]
    omega

/-- A notice is owed to `fp`. -/
def Desk.owed (d : Desk S) (fp : Fingerprint) : ℕ := if d.noticePending.contains fp then 1 else 0

def Errand.scans (fp : Fingerprint) : Errand → Bool
  | .verify fp' => decide (fp' = fp)
  | _ => false

/-- The books of one peer balance: acks against notices, and notices against scans. -/
structure Tally (fp : Fingerprint) (c c' : Desk S × List Errand) : Prop where
  acks : sealedAs fp dmKindVerifyAck c'.1.trace + openedAs fp dmKindVerifyNotice c.1.trace ≤
    sealedAs fp dmKindVerifyAck c.1.trace + openedAs fp dmKindVerifyNotice c'.1.trace
  notices : sealedAs fp dmKindVerifyNotice c'.1.trace + (c'.1.owed fp + c'.2.countP (Errand.scans fp)) ≤
    sealedAs fp dmKindVerifyNotice c.1.trace + (c.1.owed fp + c.2.countP (Errand.scans fp))

theorem Tally.trans {fp : Fingerprint} {c c₁ c' : Desk S × List Errand} (h : Tally fp c c₁) (h' : Tally fp c₁ c') :
    Tally fp c c' := by
  obtain ⟨hacks, hnotices⟩ := h
  obtain ⟨hacks', hnotices'⟩ := h'
  constructor <;> omega

theorem Tally.unsealed {fp : Fingerprint} {d d' : Desk S} {hand hand' : List Errand} {os : List Obs}
    (trace : d'.trace = d.trace ++ os) (none : Unsealed os)
    (owed : d'.owed fp + hand'.countP (Errand.scans fp) ≤ d.owed fp + hand.countP (Errand.scans fp)) :
    Tally fp (d, hand) (d', hand') := by
  have hcounts := fun kind => none.counts fp kind
  constructor <;> simp only [trace, sealedAs_append, openedAs_append, hcounts]
  · omega
  · omega

/-- A message of another kind passes through a session. -/
theorem Tally.seal {fp fp' : Fingerprint} {d d₁ d' : Desk S} {kind : UInt8} {body : Bytes} (hkind : kind ≤ dmKindVerifyAck)
    (notAck : kind ≠ dmKindVerifyAck) (pass : Seal d₁ fp' (kind :: body) d') (same : d₁.trace = d.trace) {hand hand' : List Errand}
    (owed : (if fp' = fp ∧ kind = dmKindVerifyNotice then 1 else 0) + (d'.owed fp + hand'.countP (Errand.scans fp)) ≤
      d.owed fp + hand.countP (Errand.scans fp)) : Tally fp (d, hand) (d', hand') := by
  have hack := pass.counts fp dmKindVerifyAck
  have hnotice := pass.counts fp dmKindVerifyNotice
  simp only [MeshNode.splitKind_framed hkind] at hack hnotice
  rw [if_neg (fun h => notAck h.2)] at hack
  rw [same] at hack hnotice
  constructor
  · simp only
    omega
  · simp only
    omega

variable [Store S]

omit [Store S] in
theorem Desk.owed_of_notice {d d' : Desk S} (h : d'.noticePending = d.noticePending) (fp : Fingerprint) : d'.owed fp = d.owed fp := by
  rw [Desk.owed, h, Desk.owed]

omit [Store S] in
theorem Desk.owed_erase {d d' : Desk S} {fp₀ : Fingerprint} (h : d'.noticePending = d.noticePending.erase fp₀) (fp : Fingerprint) :
    d'.owed fp ≤ d.owed fp := by
  have hsub : d'.noticePending.contains fp = true → d.noticePending.contains fp = true := by
    rw [h, Std.ExtTreeSet.contains_erase, Bool.and_eq_true]
    exact And.right
  unfold Desk.owed
  split_ifs with hafter hbefore
  · exact le_rfl
  · exact absurd (hsub hafter) hbefore
  · exact Nat.zero_le _
  · exact le_rfl

omit P [Store S] in
theorem countP_texts (fp : Fingerprint) {β : Type} (f : β → Errand) (l : List β) (texts : ∀ b, (f b).scans fp = false) (hand : List Errand) :
    (l.map f ++ hand).countP (Errand.scans fp) = hand.countP (Errand.scans fp) := by
  rw [List.countP_append, List.countP_map, List.countP_eq_zero.mpr (by simp [texts]), Nat.zero_add]

theorem Beat.tally {c c' : Desk S × List Errand} (beat : Beat c c') (fp : Fingerprint) : Tally fp c c' := by
  cases beat with
  | idle d st os hand writes quiet => exact .unsealed rfl (.idle quiet) le_rfl
  | meet d fp₀ eph st os hand writes quiet =>
    refine .unsealed rfl (.idle quiet) ?_
    rw [countP_texts fp _ _ (fun b => rfl)]
    exact le_rfl
  | start d fp₀ σ m os hand shape own carries lost =>
    refine .unsealed rfl ?_ le_rfl
    intro o ho
    rcases List.mem_cons.mp ho with rfl | ho
    · exact ⟨rfl, rfl⟩
    · exact Unsealed.carries carries o ho
  | lose d fp₀ hand => exact .unsealed (List.append_nil _).symm (by simp [Unsealed]) le_rfl
  | complete d fp₀ σ σ' ms os hand held shape ready transcript role written =>
    refine .unsealed rfl (.written written) ?_
    rw [countP_texts fp _ _ (fun b => rfl)]
    exact le_rfl
  | reject d fp₀ initiator os hand written => exact .unsealed rfl (.written written) le_rfl
  | record d fp₀ text hand => exact .unsealed (List.append_nil _).symm (by simp [Unsealed]) le_rfl
  | send d d' fp₀ text hand pass =>
    refine .seal (by decide) (by decide) pass rfl ?_
    rw [if_neg (fun h => absurd h.2 (by decide)), Desk.owed_of_notice pass.side.2.2, List.countP_cons_of_neg (by simp [Errand.scans])]
    exact (Nat.zero_add _).le
  | hold d fp₀ text hand waiting unrouted => exact .unsealed (List.append_nil _).symm (by simp [Unsealed]) (by simp [Errand.scans, Desk.owed])
  | queue d fp₀ eph text hand waiting routed =>
    exact .unsealed (List.append_nil _).symm (by simp [Unsealed]) (by simp [Errand.scans, Desk.owed])
  | notify d d' fp₀ hand owed pass =>
    have hnotice : d'.noticePending = d.noticePending.erase fp₀ := pass.side.2.2
    refine .seal (d := d) (by decide) (by decide) pass rfl ?_
    by_cases hfp : fp₀ = fp
    · subst hfp
      -- the notice that was owed is the one that goes out
      have hpaid : d'.owed fp₀ = 0 := by simp [Desk.owed, hnotice]
      have hdue : d.owed fp₀ = 1 := if_pos owed
      have hout : (if fp₀ = fp₀ ∧ dmKindVerifyNotice = dmKindVerifyNotice then 1 else 0) = 1 := if_pos ⟨rfl, rfl⟩
      rw [hout]
      omega
    · have hless := Desk.owed_erase hnotice fp
      rw [if_neg (fun h => hfp h.1)]
      omega
  | receive d fp₀ σ σ' n pt eph hand held ready ready' view other =>
    have hsealed : ∀ kind, sealedAs fp kind [.decrypted fp₀ σ.view n pt, .event (peerEvent fp₀ eph pt) (some σ'.view)] = 0 :=
      fun kind => rfl
    constructor <;> simp only [Desk.received_trace, sealedAs_append, openedAs_append, hsealed]
    · omega
    · exact le_rfl
  | answer d d' fp₀ σ σ' n pt eph hand held ready ready' view notice pass =>
    have hsealed : ∀ kind, sealedAs fp kind [.decrypted fp₀ σ.view n pt, .event (peerEvent fp₀ eph pt) (some σ'.view)] = 0 :=
      fun kind => rfl
    have hopened : openedAs fp dmKindVerifyNotice [.decrypted fp₀ σ.view n pt, .event (peerEvent fp₀ eph pt) (some σ'.view)] =
        if fp₀ = fp then 1 else 0 := by
      have hone : [Obs.decrypted fp₀ σ.view n pt, .event (peerEvent fp₀ eph pt) (some σ'.view)].filterMap Obs.opened =
          [⟨fp₀, σ.view, n, pt⟩] := rfl
      rw [openedAs, hone, List.countP_singleton]
      simp [Transfer.control, notice]
    have hgrow : openedAs fp dmKindVerifyNotice d'.trace = openedAs fp dmKindVerifyNotice d.trace + if fp₀ = fp then 1 else 0 := by
      rw [(pass.counts fp dmKindVerifyNotice).1]
      simp only [Desk.received_trace, openedAs_append, hopened]
    have hack : sealedAs fp dmKindVerifyAck d'.trace ≤ sealedAs fp dmKindVerifyAck d.trace + if fp₀ = fp then 1 else 0 := by
      have hpass := (pass.counts fp dmKindVerifyAck).2
      simp only [Desk.received_trace, sealedAs_append, hsealed] at hpass
      refine hpass.trans (Nat.add_le_add_left ?_ _)
      by_cases hfp : fp₀ = fp
      · rw [if_pos hfp]
        split_ifs <;> simp
      · rw [if_neg hfp, if_neg (fun h => hfp h.1)]
    have hnotice : sealedAs fp dmKindVerifyNotice d'.trace ≤ sealedAs fp dmKindVerifyNotice d.trace := by
      have hpass := (pass.counts fp dmKindVerifyNotice).2
      simp only [Desk.received_trace, sealedAs_append, hsealed] at hpass
      rwa [if_neg (fun h => absurd h.2 (by decide)), Nat.add_zero] at hpass
    have howed : d'.owed fp = d.owed fp := Desk.owed_of_notice pass.side.2.2 fp
    constructor
    · simp only [hgrow]
      omega
    · simp only [howed]
      omega
  | verify d fp₀ st hand writes =>
    refine .unsealed (List.append_nil _).symm (by simp [Unsealed]) ?_
    have hscan : (Errand.verify fp₀ :: hand).countP (Errand.scans fp) = hand.countP (Errand.scans fp) + if fp₀ = fp then 1 else 0 := by
      simp [List.countP_cons, Errand.scans]
    have howed : ({ d with store := Store.deleteDms st fp₀ true, noticePending := d.noticePending.insert fp₀ } : Desk S).owed fp ≤
        d.owed fp + if fp₀ = fp then 1 else 0 := by
      unfold Desk.owed
      simp only [Std.ExtTreeSet.contains_insert]
      by_cases hfp : fp₀ = fp
      · simp only [hfp, if_true]
        split_ifs <;> omega
      · have hne : (compare fp₀ fp == Ordering.eq) = false := by simpa using hfp
        rw [hne, Bool.false_or, if_neg hfp]
        exact le_rfl
    rw [hscan]
    omega
  | unverify d fp₀ st hand writes =>
    refine .unsealed (List.append_nil _).symm (by simp [Unsealed]) ?_
    rw [List.countP_cons_of_neg (by simp [Errand.scans])]
    exact Nat.add_le_add_right (Desk.owed_erase rfl fp) _
  | forget d fp₀ hand =>
    refine .unsealed (List.append_nil _).symm (by simp [Unsealed]) ?_
    rw [List.countP_cons_of_neg (by simp [Errand.scans])]
    exact Nat.add_le_add_right (Desk.owed_erase rfl fp) _
  | wipe d hand =>
    refine .unsealed (List.append_nil _).symm (by simp [Unsealed]) ?_
    rw [List.countP_cons_of_neg (by simp [Errand.scans])]
    exact Nat.add_le_add_right (by simp [Desk.owed]) _

theorem Beats.tally {c c' : Desk S × List Errand} (beats : Beats c c') (fp : Fingerprint) : Tally fp c c' := by
  induction beats with
  | refl => exact ⟨le_rfl, le_rfl⟩
  | tail _ beat ih => exact ih.trans (beat.tally fp)

namespace MeshNode

/-- A scan of `fp`. -/
def scanned (fp : Fingerprint) (c : Call) : Bool :=
  match c.action with
  | .verifyPeer fp' => decide (fp' = fp)
  | _ => false

omit P [Store S] in
theorem errands_scans (c : Call) (fp : Fingerprint) :
    (errands c.action).countP (Errand.scans fp) = [c].countP (scanned fp) := by
  obtain ⟨now, action⟩ := c
  cases action <;> rfl

/-- The books of a node over a run. -/
theorem run_tally (laws : SnowLaws P) {s₀ : MeshNode S} (hinit : s₀.Initial) (calls : List Call) (fp : Fingerprint) :
    sealedAs fp dmKindVerifyAck (Runs.run exec s₀ calls).trace ≤ openedAs fp dmKindVerifyNotice (Runs.run exec s₀ calls).trace ∧
      sealedAs fp dmKindVerifyNotice (Runs.run exec s₀ calls).trace ≤ calls.countP (scanned fp) := by
  have hrun := Runs.run_history exec (fun past s => s.Shaped ∧
    sealedAs fp dmKindVerifyAck s.trace ≤ openedAs fp dmKindVerifyNotice s.trace ∧
      sealedAs fp dmKindVerifyNotice s.trace + s.desk.owed fp ≤ past.countP (scanned fp)) s₀ ?_ ?_ calls
  · obtain ⟨-, hacks, hnotices⟩ := hrun
    exact ⟨hacks, (Nat.le_add_right _ _).trans hnotices⟩
  · refine ⟨hinit.reachable.shaped laws, ?_⟩
    obtain ⟨identity, cfg, clock, store, nickname, rngSeed, entropy, rfl⟩ := hinit
    exact ⟨le_rfl, le_rfl⟩
  · rintro past s c ⟨shaped, hacks, hnotices⟩
    obtain ⟨hacks', hnotices'⟩ := (exec_beats laws shaped c).tally fp
    refine ⟨exec_shaped laws shaped c, ?_, ?_⟩
    · have hbooks : sealedAs fp dmKindVerifyAck (exec s c).trace + openedAs fp dmKindVerifyNotice s.trace ≤
          sealedAs fp dmKindVerifyAck s.trace + openedAs fp dmKindVerifyNotice (exec s c).trace := hacks'
      omega
    · rw [errands_scans] at hnotices'
      have hbooks : sealedAs fp dmKindVerifyNotice (exec s c).trace + ((exec s c).desk.owed fp + 0) ≤
          sealedAs fp dmKindVerifyNotice s.trace + (s.desk.owed fp + [c].countP (scanned fp)) := hnotices'
      rw [List.countP_append]
      omega

/-- Two nodes that share the air with nobody else: the announces either accepts are signed by one of
the two, under keys of their own, and the primitives are ideal for both. -/
structure Company (a b : MeshNode S) : Prop where
  ideal : IdealPrims a b
  keys : a.identity.dhPublic ≠ b.identity.dhPublic
  /-- What `a` takes for an announce one of the two has signed. -/
  heard : ∀ pkt, .accept pkt ∈ a.trace →
    ∃ q, (.originate q ∈ a.trace ∨ .originate q ∈ b.trace) ∧ q.signedRegion = pkt.signedRegion

/-- Whoever announced `b`'s X25519 key to `a` is `b`. -/
theorem Company.bound (laws : SnowLaws P) {a b : MeshNode S} (ha : a.Reachable) (hb : b.Reachable) (company : Company a b)
    {v : SessionView} {fp : Fingerprint} (h : v.BoundTo a.trace fp) (remote : v.remoteStatic = some b.identity.dhPublic) :
    fp = b.fingerprint := by
  obtain ⟨k, hk, pkt, haccept, htype, ed, nick, vk, hdec, hvk, hver, rfl⟩ := h
  rw [remote, Option.some.injEq] at hk
  subst hk
  obtain ⟨q, hq, hregion⟩ := company.heard pkt haccept
  obtain ⟨hqtype, hpayload⟩ := Packet.signedRegion_inj hregion
  rw [← hpayload] at hdec
  rcases hq with hq | hq
  · -- `a`'s own announce carries `a`'s key
    obtain ⟨nick', hown⟩ := (ha.accounted laws).signs q hq (by rw [hqtype, htype])
    obtain ⟨nick'', hkeys⟩ := decodeAnnounce_encodeAnnounce a.identity.edPublic a.identity.dhPublic nick'
    rw [hown, hkeys, Option.some.injEq, Prod.mk.injEq, Prod.mk.injEq] at hdec
    exact absurd hdec.2.1 company.keys
  · obtain ⟨nick', hown⟩ := (hb.accounted laws).signs q hq (by rw [hqtype, htype])
    obtain ⟨nick'', hkeys⟩ := decodeAnnounce_encodeAnnounce b.identity.edPublic b.identity.dhPublic nick'
    rw [hown, hkeys, Option.some.injEq, Prod.mk.injEq, Prod.mk.injEq] at hdec
    rw [← hdec.1]
    rfl

/-- Every notice that `b` decrypts as `a`'s is one that `a` encrypted for `b`. -/
theorem opened_le_sealed (laws : SnowLaws P) {a b : MeshNode S} (ha : a.Reachable) (hb : b.Reachable) (company : Company a b)
    (kind : UInt8) : openedAs a.fingerprint kind b.trace ≤ sealedAs b.fingerprint kind a.trace := by
  let counted (fp : Fingerprint) (t : Transfer) : Option Unit := if t.control fp kind then some () else none
  have hcount : ∀ (fp : Fingerprint) (l : List Transfer), l.countP (Transfer.control fp kind) = (l.filterMap (counted fp)).length := by
    intro fp l
    rw [List.length_filterMap_eq_countP]
    refine List.countP_congr fun t _ => ?_
    simp only [counted]
    split_ifs with h <;> simp [h]
  rw [openedAs, sealedAs, hcount, hcount]
  have hsplit : (b.trace.filterMap Obs.opened).filterMap (counted a.fingerprint) =
      ((b.trace.filterMap Obs.opened).filter fun t => t.control a.fingerprint kind).filterMap (counted a.fingerprint) := by
    rw [List.filterMap_filter]
    refine List.filterMap_congr fun t _ => ?_
    simp only [counted]
    split_ifs <;> rfl
  rw [hsplit]
  refine (Matching.subperm_of_partners Transfer.slot Transfer.mirror ?_ ?_).length_le
  · exact (hb.windowed laws company.ideal.fresh).distinct.sublist (List.filter_sublist.map _)
  · intro t ht
    obtain ⟨hopened, hcontrol⟩ := List.mem_filter.mp ht
    have hparts := hcontrol
    rw [Transfer.control, Bool.and_eq_true, decide_eq_true_eq, decide_eq_true_eq] at hparts
    have hbound := opened_bound laws hb hopened
    rw [hparts.1] at hbound
    obtain ⟨t', hsealed, htranscript, hrole, hremote, hnonce, hplain⟩ :=
      company.ideal.transport t hopened (boundTo_dhPublic laws ha company.ideal hbound)
    refine ⟨t', hsealed, by simp [Transfer.mirror, Transfer.slot, htranscript, hrole, hnonce], ?_⟩
    have hfp : t'.fp = b.fingerprint := company.bound laws ha hb (sealed_bound laws ha hsealed) hremote
    have hcontrol' : t'.control b.fingerprint kind = true := by
      rw [Transfer.control, Bool.and_eq_true, decide_eq_true_eq, decide_eq_true_eq, hplain]
      exact ⟨hfp, hparts.2⟩
    simp only [counted, hcontrol, hcontrol']

/-- Nothing is built where an ack is decrypted. -/
theorem ack_originates_nothing {s : MeshNode S} {fp : Fingerprint} {ct : Bytes} {σ σ' : NoiseSession} {pt : Bytes}
    (held : s.noiseSessions[fp]? = some σ) (decrypt : σ.decrypt ct = (σ', .ok pt)) (ack : (splitKind pt).1 = dmKindVerifyAck) :
    ∃ os, (s.decryptAndEmit fp ct).trace = s.trace ++ os ∧ ∀ pkt, .originate pkt ∉ os := by
  have hother : (splitKind pt).1 ≠ dmKindVerifyNotice := by
    rw [ack]
    decide
  rw [decryptAndEmit_ok held decrypt, if_neg hother]
  exact ⟨[.decrypted fp σ.view (ofBe (ct.take 8)) pt, _], by simp [received]; rfl, by simp⟩

end MeshNode

namespace Pair
open MeshNode

/-- Scans of `fp` at one side. -/
def scans (side : Side) (fp : Fingerprint) (events : List (Side × Call)) : ℕ := (callsOf side events).countP (scanned fp)

/-- Between two nodes in each other's company the acks are bounded by the notices that arrived, those by
the notices sent, and those by the scans, whatever the network does with the frames; an ack that is
decrypted makes a node build nothing. -/
theorem control_traffic_bounded (laws : SnowLaws P) {p₀ : Pair S} (ha : p₀.a.Initial) (hb : p₀.b.Initial)
    (events : List (Side × Call)) (ab : Company (p₀.run events).a (p₀.run events).b)
    (ba : Company (p₀.run events).b (p₀.run events).a) :
    sealedAs p₀.a.fingerprint dmKindVerifyAck (p₀.run events).b.trace ≤
        openedAs p₀.a.fingerprint dmKindVerifyNotice (p₀.run events).b.trace ∧
      openedAs p₀.a.fingerprint dmKindVerifyNotice (p₀.run events).b.trace ≤
        sealedAs p₀.b.fingerprint dmKindVerifyNotice (p₀.run events).a.trace ∧
      sealedAs p₀.b.fingerprint dmKindVerifyNotice (p₀.run events).a.trace ≤ scans .a p₀.b.fingerprint events ∧
      sealedAs p₀.b.fingerprint dmKindVerifyNotice (p₀.run events).a.trace +
          sealedAs p₀.b.fingerprint dmKindVerifyAck (p₀.run events).a.trace +
          (sealedAs p₀.a.fingerprint dmKindVerifyNotice (p₀.run events).b.trace +
            sealedAs p₀.a.fingerprint dmKindVerifyAck (p₀.run events).b.trace) ≤
        2 * (scans .a p₀.b.fingerprint events + scans .b p₀.a.fingerprint events) ∧
      ∀ (s : MeshNode S) (fp : Fingerprint) (ct : Bytes) (σ σ' : NoiseSession) (pt : Bytes),
        s.noiseSessions[fp]? = some σ → σ.decrypt ct = (σ', .ok pt) → (splitKind pt).1 = dmKindVerifyAck →
          ∃ os, (s.decryptAndEmit fp ct).trace = s.trace ++ os ∧ ∀ pkt, .originate pkt ∉ os := by
  have hreach_a : (p₀.run events).a.Reachable := run_a p₀ events ▸ ha.reachable.run _
  have hreach_b : (p₀.run events).b.Reachable := run_b p₀ events ▸ hb.reachable.run _
  have hfp_a : (p₀.run events).a.fingerprint = p₀.a.fingerprint :=
    congrArg LocalIdentity.fingerprint (run_a p₀ events ▸ run_identity laws ha.reachable _)
  have hfp_b : (p₀.run events).b.fingerprint = p₀.b.fingerprint :=
    congrArg LocalIdentity.fingerprint (run_b p₀ events ▸ run_identity laws hb.reachable _)
  have hbooks_a := run_tally laws ha (callsOf .a events) p₀.b.fingerprint
  have hbooks_b := run_tally laws hb (callsOf .b events) p₀.a.fingerprint
  rw [← run_a] at hbooks_a
  rw [← run_b] at hbooks_b
  have harrived := opened_le_sealed laws hreach_a hreach_b ab dmKindVerifyNotice
  have hreturned := opened_le_sealed laws hreach_b hreach_a ba dmKindVerifyNotice
  rw [hfp_a, hfp_b] at harrived hreturned
  refine ⟨hbooks_b.1, harrived, hbooks_a.2, ?_, fun s fp ct σ σ' pt held decrypt ack => ack_originates_nothing held decrypt ack⟩
  unfold scans
  omega

end Pair
end CockroachChat

namespace CockroachChat.Reference
attribute [local instance] prims

/-- What `Company` asks of two given nodes. -/
def Alone (p : Pair MemoryStore) : Prop :=
  Ideal p ∧ p.a.identity.dhPublic ≠ p.b.identity.dhPublic ∧
    ∀ pkt ∈ p.a.trace.filterMap Obs.accepted,
      ∃ q ∈ p.a.trace.filterMap Obs.built ++ p.b.trace.filterMap Obs.built, q.signedRegion = pkt.signedRegion

instance (p : Pair MemoryStore) : Decidable (Alone p) := inferInstanceAs (Decidable (_ ∧ _ ∧ _))

theorem Alone.company {p : Pair MemoryStore} (h : Alone p) : MeshNode.Company p.a p.b where
  ideal := h.1.prims
  keys := h.2.1
  heard pkt hpkt := by
    obtain ⟨q, hq, hregion⟩ := h.2.2 pkt (List.mem_filterMap.mpr ⟨_, hpkt, rfl⟩)
    refine ⟨q, ?_, hregion⟩
    rcases List.mem_append.mp hq with hq | hq
    · obtain ⟨o, ho, hbuilt⟩ := List.mem_filterMap.mp hq
      cases o <;> cases hbuilt
      exact .inl ho
    · obtain ⟨o, ho, hbuilt⟩ := List.mem_filterMap.mp hq
      cases o <;> cases hbuilt
      exact .inr ho

/-- Node 1 scans node 2 and starts a session; node 2 answers; both hear the rest. -/
def scanning : Node := run (met 1 2) [⟨1, .verifyPeer (fpOf 2)⟩, ⟨1, .startDmSession (fpOf 2)⟩]

def scannedAnswer : Node := run (met 2 1) (arriving 1 0 (framesFrom (met 1 2).trace.length scanning))

def noticing : Node := run scanning (arriving 1 0 (framesFrom (met 2 1).trace.length scannedAnswer))

def noticed : Node := run scannedAnswer (arriving 1 0 (framesFrom scanning.trace.length noticing))

/-- Frames delivered at one side. -/
def feed (side : Side) (now : Millis) (frames : List Bytes) : List (Side × Call) :=
  (arriving now 0 frames).map fun c => (side, c)

def scan : List (Side × Call) :=
  [(.a, up 0 0), (.b, up 0 0)] ++ feed .a 0 (framesFrom 0 (linked 2)) ++ feed .b 0 (framesFrom 0 (linked 1)) ++
    [(.a, ⟨1, .verifyPeer (fpOf 2)⟩), (.a, ⟨1, .startDmSession (fpOf 2)⟩)] ++
    feed .b 1 (framesFrom (met 1 2).trace.length scanning) ++ feed .a 1 (framesFrom (met 2 1).trace.length scannedAnswer) ++
    feed .b 1 (framesFrom scanning.trace.length noticing) ++ feed .a 1 (framesFrom scannedAnswer.trace.length noticed)

/-- One scan, one notice, one ack. -/
theorem scan_bounded :
    sealedAs (fpOf 1) dmKindVerifyAck (apart.run scan).b.trace = 1 ∧
      sealedAs (fpOf 2) dmKindVerifyNotice (apart.run scan).a.trace = 1 ∧
      openedAs apart.a.fingerprint dmKindVerifyNotice (apart.run scan).b.trace ≤
        sealedAs apart.b.fingerprint dmKindVerifyNotice (apart.run scan).a.trace := by
  have hrun : Alone (apart.run scan) ∧ Alone ⟨(apart.run scan).b, (apart.run scan).a⟩ ∧
      sealedAs (fpOf 1) dmKindVerifyAck (apart.run scan).b.trace = 1 ∧
      sealedAs (fpOf 2) dmKindVerifyNotice (apart.run scan).a.trace = 1 := by decide +kernel
  obtain ⟨hab, hba, hack, hnotice⟩ := hrun
  exact ⟨hack, hnotice,
    (Pair.control_traffic_bounded laws (node_initial 1 {}) (node_initial 2 {}) scan hab.company hba.company).2.1⟩

end CockroachChat.Reference
