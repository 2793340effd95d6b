import CockroachChat.Foundations.Grouping
import CockroachChat.Node.ReferenceNodes
import CockroachChat.Sessions.Surroundings

/-! # Which links are closed

A node closes all but the lowest of the links that it takes to reach one peer. It takes the sender
that a sync request names for the peer of the link, without looking at the signature. -/
namespace CockroachChat
set_option autoImplicit false

variable [P : Prims] {S : Type}

namespace MeshNode

/-- The links of a map that `dedupLinks` closes. -/
def redundant (m : Std.ExtTreeMap LinkId LinkState) : List LinkId := Grouping.later LinkState.peerFp compare m.toList

theorem redundantLinks_eq (s : MeshNode S) : s.redundantLinks = redundant s.links := by
  have hgroups : s.linksByFp = Grouping.groups LinkState.peerFp compare s.links.toList := by
    unfold linksByFp Grouping.groups
    congr 1
    funext m e
    cases e.2.peerFp <;> rfl
  rw [redundantLinks, hgroups]
  rfl

theorem dedupLinks_eq (s : MeshNode S) :
    s.dedupLinks = { s with
      links := (redundant s.resolveLinks.links).foldl (fun m id => m.erase id) s.resolveLinks.links
      trace := s.trace ++ (redundant s.resolveLinks.links).map .close } := by
  have hfold : ∀ (l : List LinkId) (t : MeshNode S), l.foldl closeLink t =
      { t with links := l.foldl (fun m id => m.erase id) t.links, trace := t.trace ++ l.map .close } := by
    intro l
    induction l with
    | nil => simp
    | cons id l ih =>
      intro t
      rw [List.foldl_cons, ih]
      simp [closeLink, note]
  rw [← redundantLinks_eq]
  exact hfold s.resolveLinks.redundantLinks s.resolveLinks

omit P in
theorem redundant_smaller {m : Std.ExtTreeMap LinkId LinkState} {id : LinkId} (h : id ∈ redundant m) :
    ∃ (l : LinkState) (fp : Fingerprint) (kept : LinkId) (l' : LinkState), m[id]? = some l ∧ l.peerFp = some fp ∧
      m[kept]? = some l' ∧ l'.peerFp = some fp ∧ kept < id ∧ kept ∉ redundant m := by
  have hascending : (m.toList.map Prod.fst).Pairwise (· < ·) := by
    rw [Std.ExtTreeMap.map_fst_toList_eq_keys]
    exact (Std.ExtTreeMap.ordered_keys (t := m)).imp fun h => Nat.compare_eq_lt.mp h
  obtain ⟨l, fp, kept, l', hl, hfp, hl', hfp', hlt, hkept⟩ := Grouping.later_smaller _ hascending h
  exact ⟨l, fp, kept, l', Std.ExtTreeMap.mem_toList_iff_getElem?_eq_some.mp hl, hfp,
    Std.ExtTreeMap.mem_toList_iff_getElem?_eq_some.mp hl', hfp', hlt, hkept⟩

/-! ## What a call does to the links -/

/-- The sync request that a call completes, with its link. -/
def requested (s : MeshNode S) (c : Call) : Option (LinkId × Packet) :=
  match c.action with
  | .transport (.frameReceived link frame) =>
      ((s.at_ c.now).assembled frame).bind fun pkt => if pkt.msgType = .syncRequest then some (link, pkt) else none
  | _ => none

/-- How a link may have been rewritten: tagged by a request `req` on it, resolved under `keys`. -/
structure Rewritten (req : Option (LinkId × Packet)) (keys : EphId → Option Key32) (id : LinkId) (l l' : LinkState) :
    Prop where
  eph : l'.peerEph = l.peerEph ∨ ∃ pkt, req = some (id, pkt) ∧ l'.peerEph = some pkt.sender
  fp : l'.peerFp = none ∨ l'.peerFp = l.peerFp ∧ l'.peerEph = l.peerEph ∨
    ∃ eph ed, l'.peerEph = some eph ∧ keys eph = some ed ∧ l'.peerFp = some (P.sha256 ed.toList)

/-- Every link of `m'` is a link of `m`, rewritten. -/
def Relinked (req : Option (LinkId × Packet)) (keys : EphId → Option Key32) (m m' : Std.ExtTreeMap LinkId LinkState) : Prop :=
  ∀ (id : LinkId) (l' : LinkState), m'[id]? = some l' → ∃ l, m[id]? = some l ∧ Rewritten req keys id l l'

theorem Rewritten.refl (req : Option (LinkId × Packet)) (keys : EphId → Option Key32) (id : LinkId) (l : LinkState) :
    Rewritten req keys id l l := ⟨.inl rfl, .inr (.inl ⟨rfl, rfl⟩)⟩

/-- Links are resolved under the keys that are known. -/
theorem resolveLinks_relinked (s : MeshNode S) (req : Option (LinkId × Packet)) :
    ∀ (id : LinkId) (l' : LinkState), s.resolveLinks.links[id]? = some l' → ∃ l, s.links[id]? = some l ∧
      l'.peerEph = l.peerEph ∧ Rewritten req (fun eph => s.ephKeys[eph]?) id l l' := by
  intro id l' held
  simp only [resolveLinks, Std.ExtTreeMap.getElem?_map] at held
  obtain ⟨l, hl, rfl⟩ := Option.map_eq_some_iff.mp held
  refine ⟨l, hl, ?_⟩
  split
  · rename_i eph hfp heph
    refine ⟨rfl, .inl rfl, ?_⟩
    cases hkey : s.ephKeys[eph]? with
    | none => exact .inl (by simp [ephToFp, hkey])
    | some ed => exact .inr (.inr ⟨eph, ed, heph, hkey, by simp [ephToFp, hkey]⟩)
  · exact ⟨rfl, .refl _ _ _ _⟩

/-- The links after a frame: rewritten, and then without those that are redundant by their tags. -/
structure Pruned (req : Option (LinkId × Packet)) (keys : EphId → Option Key32) (s s' : MeshNode S) : Prop where
  pruned : ∃ (m : Std.ExtTreeMap LinkId LinkState) (closed : List LinkId) (os : List Obs),
    Relinked req keys s.links m ∧ (∀ id : LinkId, s.links[id]? ≠ none → m[id]? ≠ none) ∧ (∀ id ∈ closed, id ∈ redundant m) ∧ (∀ id : LinkId, s'.links[id]? = if id ∈ closed then none else m[id]?) ∧
      s'.trace = s.trace ++ os ∧ ∀ id, .close id ∈ os → id ∈ closed

/-- A step that keeps every link and closes none. -/
structure Still (s s' : MeshNode S) : Prop where
  links : s'.links = s.links
  adds : Adds (fun _ o => ∀ id, o ≠ .close id) s s'

theorem Still.refl (s : MeshNode S) : Still s s := ⟨rfl, .of_trace rfl rfl⟩

theorem Still.trans {s₁ s₂ s₃ : MeshNode S} (h₁ : Still s₁ s₂) (h₂ : Still s₂ s₃) : Still s₁ s₃ :=
  ⟨h₂.links.trans h₁.links, h₁.adds.trans h₂.adds⟩

theorem Obs.Direct.not_close {id : LocalIdentity} {o : Obs} (h : o.Direct id) : ∀ link, o ≠ .close link := by
  rintro link rfl
  exact h

section Pruned
variable {req : Option (LinkId × Packet)} {keys : EphId → Option Key32} {s t u v : MeshNode S}

theorem Still.pruned (h : Still s t) : Pruned req keys s t := by
  obtain ⟨-, os, htr, hos⟩ := h.adds
  refine ⟨s.links, [], os, fun id l hl => ⟨l, hl, .refl _ _ _ _⟩, fun _ h => h, by simp, fun id => ?_, htr, fun id hmem => ?_⟩
  · rw [h.links, if_neg List.not_mem_nil]
  · exact absurd rfl (hos _ hmem id)

/-- What keeps the links may come before and after. -/
theorem Pruned.around (h₁ : Still s t) (h : Pruned req keys t u) (h₂ : Still u v) : Pruned req keys s v := by
  obtain ⟨m, closed, os, hrelinked, hkept, hredundant, hlinks, htr, hclose⟩ := h.pruned
  obtain ⟨-, os₁, htr₁, hos₁⟩ := h₁.adds
  obtain ⟨-, os₂, htr₂, hos₂⟩ := h₂.adds
  rw [h₁.links] at hrelinked hkept
  refine ⟨m, closed, os₁ ++ os ++ os₂, hrelinked, hkept, hredundant, fun id => ?_, by rw [htr₂, htr, htr₁]; simp,
    fun id hmem => ?_⟩
  · rw [h₂.links]
    exact hlinks id
  · rcases List.mem_append.mp hmem with hmem | hmem
    · rcases List.mem_append.mp hmem with hmem | hmem
      · exact absurd rfl (hos₁ _ hmem id)
      · exact hclose id hmem
    · exact absurd rfl (hos₂ _ hmem id)

/-- Links resolved, and then pruned; a request may have tagged one of them before. -/
theorem dedupLinks_pruned (req : Option (LinkId × Packet)) (trace : t.trace = s.trace)
    (tagged : ∀ (id : LinkId) (l : LinkState), t.links[id]? = some l →
      s.links[id]? = some l ∨ ∃ l₀ pkt, s.links[id]? = some l₀ ∧ req = some (id, pkt) ∧
        l.peerEph = some pkt.sender ∧ l.peerFp = none)
    (kept : ∀ id : LinkId, s.links[id]? ≠ none → t.links[id]? ≠ none) :
    Pruned req (fun eph => t.ephKeys[eph]?) s t.dedupLinks := by
  refine ⟨t.resolveLinks.links, redundant t.resolveLinks.links, (redundant t.resolveLinks.links).map .close,
    fun id l' hl' => ?_, fun id h => ?_, fun _ h => h, fun id => ?_, by rw [dedupLinks_eq, trace], by simp⟩
  · obtain ⟨l, hl, heph, hrewritten⟩ := resolveLinks_relinked t req id l' hl'
    rcases tagged id l hl with hsame | ⟨l₀, pkt, hl₀, hreq, hsender, hnone⟩
    · exact ⟨l, hsame, hrewritten⟩
    · refine ⟨l₀, hl₀, .inr ⟨pkt, hreq, heph.trans hsender⟩, ?_⟩
      rcases hrewritten.fp with h | ⟨h, -⟩ | h
      · exact .inl h
      · exact .inl (h.trans hnone)
      · exact .inr (.inr h)
  · simp only [resolveLinks, Std.ExtTreeMap.getElem?_map]
    exact fun hnone => kept id h (Option.map_eq_none_iff.mp hnone)
  · rw [dedupLinks_eq]
    exact Maps.getElem?_foldl_erase _ _ _

theorem noteLinkIdentity_pruned (s : MeshNode S) (link : LinkId) (pkt : Packet) :
    Pruned (some (link, pkt)) (fun eph => s.ephKeys[eph]?) s (s.noteLinkIdentity link pkt.sender) := by
  have hdedup : Pruned (some (link, pkt)) (fun eph => s.ephKeys[eph]?) s s.dedupLinks :=
    dedupLinks_pruned (t := s) _ rfl (fun _ _ h => .inl h) fun _ h => h
  unfold noteLinkIdentity
  cases hheld : s.links[link]? with
  | none => exact hdedup
  | some l =>
    simp only
    split_ifs
    · refine dedupLinks_pruned (t := { s with links := s.links.insert link { l with peerEph := some pkt.sender, peerFp := none } })
        _ rfl (fun id l' hl' => ?_) fun id hid => ?_
      · rw [Std.ExtTreeMap.getElem?_insert] at hl'
        split_ifs at hl' with hid
        · obtain rfl := Std.compare_eq_iff_eq.mp hid
          cases hl'
          exact .inr ⟨l, pkt, hheld, rfl, rfl, rfl⟩
        · exact .inl hl'
      · rw [Std.ExtTreeMap.getElem?_insert]
        split_ifs
        · exact Option.some_ne_none _
        · exact hid
    · exact hdedup

end Pruned

variable [Store S]

theorem DmOnly.still {s s' : MeshNode S} (h : DmOnly s s') : Still s s' :=
  ⟨h.links, h.adds fun _ _ => Obs.Direct.not_close⟩

/-- What a handler does to the links. -/
theorem dispatch_pruned (s : MeshNode S) (link : LinkId) (pkt : Packet) (req : Option (LinkId × Packet)) :
    Pruned req (fun eph => (s.dispatch link pkt).ephKeys[eph]?) s (s.dispatch link pkt) := by
  by_cases htype : pkt.msgType = .announce
  · have heq : s.dispatch link pkt = s.handleAnnounce pkt := by
      unfold dispatch
      rw [htype]
    rw [heq]
    rcases handleAnnounce_cases s pkt with hdrop | ⟨ed, dh, nick, vk, -, -, -, haccept⟩
    · rw [hdrop]
      exact (Still.refl s).pruned
    · have hannounced : Still s (s.announced pkt ed dh nick) := by
        refine ⟨(noteKeyChange_dmOnly _ _ _ _).links, announced_adds s pkt ed dh nick fun _ _ => Obs.Direct.not_close⟩
      have hdelivered := deliverHeld_dmOnly (s.announced pkt ed dh nick).dedupLinks (P.sha256 ed.toList)
      have hkeys : (s.handleAnnounce pkt).ephKeys = (s.announced pkt ed dh nick).ephKeys := by
        rw [haccept, hdelivered.ephKeys, dedupLinks_eq]
      rw [hkeys, haccept]
      exact .around hannounced (dedupLinks_pruned (t := s.announced pkt ed dh nick) _ rfl
        (fun _ _ h => .inl h) fun _ h => h) hdelivered.still
  · have hdirect : ∀ (id : LocalIdentity) (o : Obs), o.Direct id → ∀ link, o ≠ .close link := fun _ _ => Obs.Direct.not_close
    refine Still.pruned ?_
    unfold dispatch
    split
    · contradiction
    · refine ⟨?_, handleChannel_adds s pkt fun _ _ _ => Obs.noConfusion⟩
      rcases handleChannel_update s pkt with hdrop | ⟨channel, text, verified, -, -, hput⟩
      · rw [hdrop]
      · rw [hput]
        simp only
        split_ifs <;> rfl
    · refine ⟨?_, handleSyncRequest_adds link pkt hdirect⟩
      obtain ⟨os, heq, -⟩ := handleSyncRequest_update s link pkt
      rw [heq]
    · exact (handleNoiseHandshake_dmOnly s pkt).still
    · exact (handleDirectMessage_dmOnly s pkt).still
    · exact .refl s

omit [Store S] in
theorem maybeRelay_still (s : MeshNode S) (link : LinkId) (pkt : Packet) : Still s (s.maybeRelay link pkt) := by
  obtain ⟨rng, scheduler, heq⟩ := maybeRelay_update s link pkt
  exact ⟨by rw [heq], maybeRelay_adds s link pkt⟩

theorem onPacket_pruned (s : MeshNode S) (link : LinkId) (pkt : Packet) :
    Pruned (if pkt.msgType = .syncRequest then some (link, pkt) else none)
      (fun eph => (s.onPacket link pkt).ephKeys[eph]?) s (s.onPacket link pkt) := by
  have hrelayed : ∀ t : MeshNode S, (t.maybeRelay link pkt).ephKeys = t.ephKeys := fun t =>
    (maybeRelay_bookkept t link pkt).ephKeys
  have hcharged : ∀ t : MeshNode S, Still t ((t.observed pkt).charged pkt) := fun _ => ⟨rfl, .of_trace rfl rfl⟩
  have hobserved : ∀ t : MeshNode S, Still t (t.observed pkt) := fun _ => ⟨rfl, .of_trace rfl rfl⟩
  rw [onPacket_phased]
  by_cases htype : pkt.msgType = .syncRequest
  · rw [if_pos htype]
    have htag : Pruned (some (link, pkt)) (fun eph => s.ephKeys[eph]?) s (s.tagged link pkt) := by
      rw [tagged, if_pos htype]
      exact noteLinkIdentity_pruned s link pkt
    have hkeys : (s.tagged link pkt).ephKeys = s.ephKeys := (tagged_bookkept s link pkt).ephKeys
    have hanswered : ∀ t : MeshNode S, Still t (t.dispatch link pkt) ∧ (t.dispatch link pkt).ephKeys = t.ephKeys := by
      intro t
      have heq : t.dispatch link pkt = t.handleSyncRequest link pkt := by
        unfold dispatch
        rw [htype]
      obtain ⟨os, hsync, -⟩ := handleSyncRequest_update t link pkt
      rw [heq]
      exact ⟨⟨by rw [hsync], handleSyncRequest_adds link pkt fun _ _ => Obs.Direct.not_close⟩, by rw [hsync]⟩
    split_ifs
    · rw [hrelayed, (hanswered _).2]
      exact hkeys ▸ htag.around (.refl s) (((hcharged _).trans (hanswered _).1).trans (maybeRelay_still _ link pkt))
    · exact hkeys ▸ htag.around (.refl s) (hcharged _)
    · exact hkeys ▸ htag.around (.refl s) (hobserved _)
  · have htag : s.tagged link pkt = s := if_neg htype
    rw [if_neg htype, htag]
    split_ifs
    · rw [hrelayed]
      exact (dispatch_pruned _ link pkt none).around (hcharged s) (maybeRelay_still _ link pkt)
    · exact (hcharged s).pruned
    · exact (hobserved s).pruned

/-- What a frame does to the links. -/
theorem frame_pruned (s : MeshNode S) (now : Millis) (link : LinkId) (frame : Bytes) :
    let c : Call := ⟨now, .transport (.frameReceived link frame)⟩
    Pruned (s.requested c) (fun eph => (exec s c).ephKeys[eph]?) s (exec s c) := by
  intro c
  have hfed : Still s ((s.at_ now).fed frame) := ⟨rfl, .of_trace rfl rfl⟩
  have hexec : exec s c = (s.at_ now).onFrame link frame := rfl
  have hreq : s.requested c = ((s.at_ now).assembled frame).bind fun pkt =>
      if pkt.msgType = .syncRequest then some (link, pkt) else none := rfl
  rw [hexec, onFrame_eq, hreq]
  cases (s.at_ now).assembled frame with
  | none => exact hfed.pruned
  | some pkt => exact (onPacket_pruned _ link pkt).around hfed (.refl _)

/-- Commands and the timer keep the links. -/
theorem act_links (s : MeshNode S) {a : Action} (h : ∀ ev, a ≠ .transport ev) : (s.act a).links = s.links := by
  cases a with
  | transport ev => exact absurd rfl (h ev)
  | tick =>
    have hretry := (retryStalledHandshakes_dmOnly s.swept s.clock).links
    exact hretry.trans (by rw [swept_eq])
  | takeEvents => rfl
  | joinChannel name => rfl
  | sendChannelMessage channel text =>
    rw [act, sendChannelMessage_eq]
    rfl
  | announce =>
    rw [act, announce_eq]
    rfl
  | sendDm fp text => exact (sendDm_dmOnly s fp text).links
  | startDmSession fp => exact (startDmSession_dmOnly s fp).links
  | verifyPeer fp => exact (trySendVerifyNotice_dmOnly _ fp).links
  | unverifyPeer fp =>
    rw [act, unverifyPeer]
    split <;> rfl
  | forgetPeer fp => rfl
  | setPetname fp name => rfl
  | panicWipe => rfl

theorem exec_mtuChanged (s : MeshNode S) (now : Millis) (link : LinkId) (mtu : ℕ) :
    (exec s ⟨now, .transport (.mtuChanged link mtu)⟩).links =
      (s.links[link]?.map fun l => s.links.insert link { l with mtu := mtu }).getD s.links := by
  rw [exec, act, onTransportEvent]
  have hlinks : (s.at_ now).links = s.links := rfl
  rw [hlinks]
  cases s.links[link]? with
  | none => rfl
  | some l => rfl

theorem exec_relinked (s : MeshNode S) (c : Call) (id : LinkId) (l' : LinkState) (held : (exec s c).links[id]? = some l') :
    (∃ l, s.links[id]? = some l ∧ Rewritten (s.requested c) (fun eph => (exec s c).ephKeys[eph]?) id l l') ∨
      l'.peerEph = none ∧ l'.peerFp = none := by
  have hsame : (exec s c).links = s.links → ∃ l, s.links[id]? = some l ∧
      Rewritten (s.requested c) (fun eph => (exec s c).ephKeys[eph]?) id l l' :=
    fun h => ⟨l', h ▸ held, .refl _ _ _ _⟩
  obtain ⟨now, a⟩ := c
  cases a with
  | transport ev =>
    cases ev with
    | linkUp link mtu =>
      obtain ⟨seen, os, heq⟩ := linkUp_update (s.at_ now) link mtu
      rw [exec, act, heq] at held
      simp only [Std.ExtTreeMap.getElem?_insert] at held
      split_ifs at held
      · cases held
        exact .inr ⟨rfl, rfl⟩
      · exact .inl ⟨l', held, .refl _ _ _ _⟩
    | linkDown link =>
      have herased : (s.links.erase link)[id]? = some l' := held
      rw [Std.ExtTreeMap.getElem?_erase] at herased
      split_ifs at herased
      exact .inl ⟨l', herased, .refl _ _ _ _⟩
    | mtuChanged link mtu =>
      left
      cases hheld : s.links[link]? with
      | none =>
        apply hsame
        rw [exec_mtuChanged, hheld]
        rfl
      | some l =>
        rw [exec_mtuChanged, hheld] at held
        simp only [Option.map_some, Option.getD_some, Std.ExtTreeMap.getElem?_insert] at held
        split_ifs at held with hid
        · cases held
          obtain rfl := Std.compare_eq_iff_eq.mp hid
          exact ⟨l, hheld, .inl rfl, .inr (.inl ⟨rfl, rfl⟩)⟩
        · exact ⟨l', held, .refl _ _ _ _⟩
    | frameReceived link frame =>
      obtain ⟨m, closed, os, hrelinked, -, -, hlinks, -⟩ := (frame_pruned s now link frame).pruned
      rw [hlinks] at held
      split_ifs at held
      exact .inl (hrelinked id l' held)
  | _ => exact .inl (hsame (act_links (s.at_ now) fun ev h => by cases h))

/-! ## Whole runs -/

/-- The run has completed the sync request on the link. -/
def Carried (s₀ : MeshNode S) (calls : List Call) (link : LinkId) (pkt : Packet) : Prop :=
  ∃ pre c, pre ++ [c] <+: calls ∧ (Runs.run exec s₀ pre).requested c = some (link, pkt)

/-- The run has bound the key to the eph. -/
def Knew (s₀ : MeshNode S) (calls : List Call) (eph : EphId) (ed : Key32) : Prop :=
  ∃ pre, pre <+: calls ∧ (Runs.run exec s₀ pre).ephKeys[eph]? = some ed

/-- The link has carried a sync request that verifies under a key bound to its sender, of the peer `fp`. -/
def Proven (s₀ : MeshNode S) (calls : List Call) (link : LinkId) (fp : Fingerprint) : Prop :=
  ∃ pkt ed vk, Carried s₀ calls link pkt ∧ Knew s₀ calls pkt.sender ed ∧ P.vkFromBytes ed = some vk ∧
    pkt.verifyWith vk = .ok () ∧ P.sha256 ed.toList = fp

/-- A frame removes the link, or has it closed. -/
def Drops (s : MeshNode S) (c : Call) (link : LinkId) : Prop :=
  (∃ l f, c.action = .transport (.frameReceived l f)) ∧
    ((s.links[link]? ≠ none ∧ (exec s c).links[link]? = none) ∨ .close link ∈ (exec s c).trace.drop s.trace.length)

/-- Every link that a frame of the run drops is a proven duplicate of a lower one that is kept. -/
def DropsDuplicates (s₀ : MeshNode S) (calls : List Call) : Prop :=
  ∀ pre c link, pre ++ [c] <+: calls → (Runs.run exec s₀ pre).Drops c link →
    ∃ fp kept, kept < link ∧ (Runs.run exec s₀ (pre ++ [c])).links[kept]? ≠ none ∧
      Proven s₀ (pre ++ [c]) link fp ∧ Proven s₀ (pre ++ [c]) kept fp

/-- Every sync request that comes in verifies under any key that is ever bound to its sender. -/
def Genuine (s₀ : MeshNode S) (calls : List Call) : Prop :=
  ∀ link pkt ed, Carried s₀ calls link pkt → Knew s₀ calls pkt.sender ed →
    ∃ vk, P.vkFromBytes ed = some vk ∧ pkt.verifyWith vk = .ok ()

theorem carried_iff (s₀ : MeshNode S) (calls : List Call) (link : LinkId) (pkt : Packet) :
    Carried s₀ calls link pkt ↔ (link, pkt) ∈ Runs.outputs exec (fun s c => (s.requested c).toList) s₀ calls := by
  rw [Runs.mem_outputs]
  simp only [Carried, Option.mem_toList]

section Run
variable {s₀ : MeshNode S}

theorem Carried.mono {calls calls' : List Call} (h : calls <+: calls') {link : LinkId} {pkt : Packet}
    (hc : Carried s₀ calls link pkt) : Carried s₀ calls' link pkt := by
  obtain ⟨pre, c, hpre, hreq⟩ := hc
  exact ⟨pre, c, hpre.trans h, hreq⟩

theorem Knew.mono {calls calls' : List Call} (h : calls <+: calls') {eph : EphId} {ed : Key32}
    (hk : Knew s₀ calls eph ed) : Knew s₀ calls' eph ed := by
  obtain ⟨pre, hpre, hkey⟩ := hk
  exact ⟨pre, hpre.trans h, hkey⟩

/-- What a link is tagged with came over it; what it is resolved to was bound to the tag. -/
structure TaggedBy (s₀ : MeshNode S) (calls : List Call) (id : LinkId) (l : LinkState) : Prop where
  eph : ∀ eph, l.peerEph = some eph → ∃ pkt, Carried s₀ calls id pkt ∧ pkt.sender = eph
  fp : ∀ fp, l.peerFp = some fp → ∃ eph ed, l.peerEph = some eph ∧ Knew s₀ calls eph ed ∧ P.sha256 ed.toList = fp

theorem TaggedBy.rewritten {calls : List Call} {c : Call} {id : LinkId} {l l' : LinkState} (h : TaggedBy s₀ calls id l)
    (hr : Rewritten ((Runs.run exec s₀ calls).requested c) (fun eph => (Runs.run exec s₀ (calls ++ [c])).ephKeys[eph]?) id l l') :
    TaggedBy s₀ (calls ++ [c]) id l' := by
  have hmore : calls <+: calls ++ [c] := List.prefix_append _ _
  constructor
  · intro eph heph
    rcases hr.eph with hsame | ⟨pkt, hreq, hsender⟩
    · obtain ⟨pkt, hcarried, hsender⟩ := h.eph eph (hsame ▸ heph)
      exact ⟨pkt, hcarried.mono hmore, hsender⟩
    · exact ⟨pkt, ⟨calls, c, List.prefix_rfl, hreq⟩, Option.some.inj (hsender ▸ heph)⟩
  · intro fp hfp
    rcases hr.fp with hnone | ⟨hsame, heph⟩ | ⟨eph, ed, heph, hkey, hsha⟩
    · rw [hnone] at hfp
      cases hfp
    · obtain ⟨eph, ed, htag, hknew, hsha⟩ := h.fp fp (hsame ▸ hfp)
      exact ⟨eph, ed, heph.trans htag, hknew.mono hmore, hsha⟩
    · exact ⟨eph, ed, heph, ⟨calls ++ [c], List.prefix_rfl, hkey⟩, Option.some.inj (hsha ▸ hfp)⟩

theorem run_taggedBy (start : s₀.links = ∅) (calls : List Call) (id : LinkId) (l : LinkState)
    (held : (Runs.run exec s₀ calls).links[id]? = some l) : TaggedBy s₀ calls id l := by
  induction calls using List.reverseRecOn generalizing l with
  | nil => simp [start] at held
  | append_singleton calls c ih =>
    rw [Runs.run_snoc] at held
    rcases exec_relinked _ c id l held with ⟨l₀, hl₀, hr⟩ | ⟨heph, hfp⟩
    · rw [← Runs.run_snoc exec] at hr
      exact (ih l₀ hl₀).rewritten hr
    · exact ⟨fun eph h => by simp [heph] at h, fun fp h => by simp [hfp] at h⟩

/-- The key a link is resolved to is one its request verifies under. -/
theorem TaggedBy.proven {calls : List Call} (genuine : Genuine s₀ calls) {id : LinkId} {l : LinkState}
    (h : TaggedBy s₀ calls id l) {fp : Fingerprint} (hfp : l.peerFp = some fp) : Proven s₀ calls id fp := by
  obtain ⟨eph, ed, heph, hknew, hsha⟩ := h.fp fp hfp
  obtain ⟨pkt, hcarried, rfl⟩ := h.eph eph heph
  obtain ⟨vk, hvk, hverify⟩ := genuine id pkt ed hcarried hknew
  exact ⟨pkt, ed, vk, hcarried, hknew, hvk, hverify, hsha⟩

/-- As long as no sync request comes in that a key of its sender does not verify, only proven
duplicates are dropped. -/
theorem genuine_drops_duplicates (initial : s₀.Initial) (calls : List Call) (genuine : Genuine s₀ calls) :
    DropsDuplicates s₀ calls := by
  intro pre c link hpre hdrops
  have hstart : s₀.links = ∅ := by
    obtain ⟨_, _, _, _, _, _, _, rfl⟩ := initial
    rfl
  have hgenuine : Genuine s₀ (pre ++ [c]) := fun id pkt ed hc hk => genuine id pkt ed (hc.mono hpre) (hk.mono hpre)
  obtain ⟨⟨l, f, haction⟩, hdrop⟩ := hdrops
  obtain ⟨now, a⟩ := c
  cases haction
  obtain ⟨m, closed, os, hrelinked, hkept, hredundant, hlinks, htr, hclose⟩ :=
    (frame_pruned (Runs.run exec s₀ pre) now l f).pruned
  rw [htr, List.drop_left] at hdrop
  have hclosed : link ∈ closed := by
    rcases hdrop with ⟨hheld, hgone⟩ | hmem
    · by_contra hopen
      rw [hlinks, if_neg hopen] at hgone
      exact hkept link hheld hgone
    · exact hclose link hmem
  have hnext : ∀ id l', m[id]? = some l' → TaggedBy s₀ (pre ++ [⟨now, .transport (.frameReceived l f)⟩]) id l' := by
    intro id l' hl'
    obtain ⟨l₀, hl₀, hr⟩ := hrelinked id l' hl'
    rw [← Runs.run_snoc exec] at hr
    exact (run_taggedBy hstart pre id l₀ hl₀).rewritten hr
  obtain ⟨l₁, fp, kept, l₂, hl₁, hfp₁, hl₂, hfp₂, hlt, hfirst⟩ := redundant_smaller (hredundant link hclosed)
  refine ⟨fp, kept, hlt, ?_, (hnext link l₁ hl₁).proven hgenuine hfp₁, (hnext kept l₂ hl₂).proven hgenuine hfp₂⟩
  rw [Runs.run_snoc exec, hlinks, if_neg fun h => hfirst (hredundant kept h), hl₂]
  exact Option.some_ne_none _

end Run

end MeshNode
end CockroachChat

namespace CockroachChat.Reference
open MeshNode
attribute [local instance] prims

/-- Node 1 has two links, and knows node 2 by the second. -/
def neighbours : List Call := [up 0 0, up 0 1] ++ arriving 0 1 (framesFrom 0 (linked 2))

/-- The sync request of node 2, which it has put on each of its links. -/
def trueRequest : Packet := lastBuilt (linked 2)

def falseRequest : Packet := Packet.new .syncRequest 1 1 (Vector.replicate 8 2) none []

def requestOn (link : LinkId) (pkt : Packet) : Call := ⟨1, .transport (.frameReceived link (frameOf pkt))⟩

/-- The verdicts on the sync requests of a run under the keys bound to their senders. -/
def verdicts (calls : List Call) : List (LinkId × Bool) :=
  (Runs.outputs exec (fun s c => (s.requested c).toList) (node 1 {}) calls).flatMap fun e =>
    calls.inits.flatMap fun pre => ((run (node 1 {}) pre).ephKeys[e.2.sender]?).toList.map fun ed =>
      (e.1, (e.2.verifyWith ed).isOk)

theorem mem_verdicts {calls : List Call} {link : LinkId} {pkt : Packet} {ed : Key32}
    (hc : Carried (node 1 {}) calls link pkt) (hk : Knew (node 1 {}) calls pkt.sender ed) :
    (link, (pkt.verifyWith ed).isOk) ∈ verdicts calls := by
  obtain ⟨pre, hpre, hkey⟩ := hk
  refine List.mem_flatMap.mpr ⟨_, (carried_iff _ _ _ _).mp hc, List.mem_flatMap.mpr ⟨pre, (List.mem_inits _ _).mpr hpre, ?_⟩⟩
  exact List.mem_map.mpr ⟨ed, Option.mem_toList.mpr hkey, rfl⟩

/-- Node 2 is reached over two links; the second is closed when its request comes over the first. -/
theorem duplicate_dropped : (run (node 1 {}) neighbours).Drops (requestOn 0 trueRequest) 1 ∧
    DropsDuplicates (node 1 {}) (neighbours ++ [requestOn 0 trueRequest]) := by
  have hgenuine : ∀ v ∈ verdicts (neighbours ++ [requestOn 0 trueRequest]), v.2 = true := by decide +kernel
  refine ⟨⟨⟨_, _, rfl⟩, .inr (by decide +kernel)⟩,
    genuine_drops_duplicates (node_initial 1 {}) _ fun link pkt ed hc hk => ⟨ed, rfl, ?_⟩⟩
  cases hver : pkt.verifyWith ed with
  | ok u => rfl
  | error e =>
    have := hgenuine _ (mem_verdicts hc hk)
    rw [hver] at this
    cases this

/-- A forged request on the first link closes the link to node 2. -/
theorem honest_link_dropped : ¬ ∀ s₀ : Node, s₀.Initial → ∀ calls, DropsDuplicates s₀ calls := by
  intro h
  have hdrops : (run (node 1 {}) neighbours).Drops (requestOn 0 falseRequest) 1 := by
    refine ⟨⟨_, _, rfl⟩, .inr ?_⟩
    decide +kernel
  obtain ⟨fp, kept, hlt, -, -, pkt, ed, vk, hc, hk, hvk, hver, -⟩ :=
    h _ (node_initial 1 {}) (neighbours ++ [requestOn 0 falseRequest]) neighbours (requestOn 0 falseRequest) 1
      List.prefix_rfl hdrops
  cases hvk
  obtain rfl : kept = 0 := Nat.lt_one_iff.mp hlt
  have hverdict := mem_verdicts hc hk
  rw [hver] at hverdict
  revert hverdict
  decide +kernel

end CockroachChat.Reference
