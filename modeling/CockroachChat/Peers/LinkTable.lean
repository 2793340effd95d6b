import CockroachChat.Peers.Links

/-! # One link a peer

Links are deduplicated wherever one can be resolved, so after every call there is at most one to each
resolved identity. -/
namespace CockroachChat
set_option autoImplicit false

variable [P : Prims] {S : Type}

namespace MeshNode

omit P in
/-- No two links of the map are resolved to the same identity. -/
def OneEach (m : Std.ExtTreeMap LinkId LinkState) : Prop :=
  ∀ (id id' : LinkId) (l l' : LinkState) (fp : Fingerprint), m[id]? = some l → m[id']? = some l' →
    l.peerFp = some fp → l'.peerFp = some fp → id = id'

omit P in
theorem redundant_nodup (m : Std.ExtTreeMap LinkId LinkState) : (redundant m).Nodup := by
  refine Grouping.later_nodup _ ?_
  rw [Std.ExtTreeMap.map_fst_toList_eq_keys]
  exact m.nodup_keys

omit P in
theorem mem_members_links {m : Std.ExtTreeMap LinkId LinkState} {id : LinkId} {fp : Fingerprint} :
    id ∈ Grouping.members LinkState.peerFp m.toList fp ↔ ∃ l : LinkState, m[id]? = some l ∧ l.peerFp = some fp := by
  simp only [Grouping.mem_members, Std.ExtTreeMap.mem_toList_iff_getElem?_eq_some]

theorem dedupLinks_getElem? (s : MeshNode S) (id : LinkId) :
    s.dedupLinks.links[id]? = if id ∈ redundant s.resolveLinks.links then none else s.resolveLinks.links[id]? := by
  rw [dedupLinks_eq]
  exact Maps.getElem?_foldl_erase _ _ _

theorem dedupLinks_oneEach (s : MeshNode S) : OneEach s.dedupLinks.links := by
  intro id id' l l' fp hl hl' hfp hfp'
  rw [dedupLinks_getElem?] at hl hl'
  split_ifs at hl hl' with hin hin'
  by_contra hne
  have hcovers : id ∈ redundant s.resolveLinks.links ∨ id' ∈ redundant s.resolveLinks.links :=
    Grouping.later_covers LinkState.peerFp (mem_members_links.mpr ⟨l, hl, hfp⟩) (mem_members_links.mpr ⟨l', hl', hfp'⟩) hne
  exact hcovers.elim hin hin'

omit P in
theorem OneEach.insert {m : Std.ExtTreeMap LinkId LinkState} (h : OneEach m) (link : LinkId) (l₀ : LinkState)
    (same : ∀ fp, l₀.peerFp = some fp → ∃ l : LinkState, m[link]? = some l ∧ l.peerFp = some fp) : OneEach (m.insert link l₀) := by
  have hback : ∀ (id : LinkId) (l : LinkState) (fp : Fingerprint), (m.insert link l₀)[id]? = some l → l.peerFp = some fp →
      ∃ l' : LinkState, m[id]? = some l' ∧ l'.peerFp = some fp := by
    intro id l fp hl hfp
    rw [Std.ExtTreeMap.getElem?_insert] at hl
    split_ifs at hl with hid
    · obtain rfl := Std.compare_eq_iff_eq.mp hid
      obtain rfl := Option.some.inj hl
      exact same fp hfp
    · exact ⟨l, hl, hfp⟩
  intro id id' l l' fp hl hl' hfp hfp'
  obtain ⟨k, hk, hkfp⟩ := hback id l fp hl hfp
  obtain ⟨k', hk', hkfp'⟩ := hback id' l' fp hl' hfp'
  exact h id id' k k' fp hk hk' hkfp hkfp'

omit P in
theorem OneEach.erase {m : Std.ExtTreeMap LinkId LinkState} (h : OneEach m) (link : LinkId) : OneEach (m.erase link) := by
  intro id id' l l' fp hl hl' hfp hfp'
  rw [Std.ExtTreeMap.getElem?_erase] at hl hl'
  split_ifs at hl hl'
  exact h id id' l l' fp hl hl' hfp hfp'

/-! ## Every call -/

/-- The links are those of before, or have just been deduplicated. -/
def Linked (s s' : MeshNode S) : Prop := s'.links = s.links ∨ ∃ t : MeshNode S, s'.links = t.dedupLinks.links

section Linked
variable {s t u : MeshNode S}

theorem Linked.refl (s : MeshNode S) : Linked s s := .inl rfl

theorem Linked.then (h : Linked s t) (same : u.links = t.links) : Linked s u := by
  rcases h with h | ⟨v, h⟩
  · exact .inl (same.trans h)
  · exact .inr ⟨v, same.trans h⟩

theorem Linked.trans (h₁ : Linked s t) (h₂ : Linked t u) : Linked s u := by
  rcases h₂ with h | h
  · exact h₁.then h
  · exact .inr h

theorem Linked.oneEach (h : Linked s t) (hs : OneEach s.links) : OneEach t.links := by
  rcases h with h | ⟨v, h⟩
  · rw [h]
    exact hs
  · rw [h]
    exact dedupLinks_oneEach v

variable [Store S]

omit [Store S] in
theorem tagged_linked (s : MeshNode S) (link : LinkId) (pkt : Packet) : Linked s (s.tagged link pkt) := by
  unfold tagged noteLinkIdentity
  split_ifs
  · exact .inr ⟨_, rfl⟩
  · exact .refl s

theorem dispatch_linked (s : MeshNode S) (link : LinkId) (pkt : Packet) : Linked s (s.dispatch link pkt) := by
  by_cases htype : pkt.msgType = .announce
  · have heq : s.dispatch link pkt = s.handleAnnounce pkt := by
      unfold dispatch
      rw [htype]
    rw [heq]
    rcases handleAnnounce_cases s pkt with hdrop | ⟨ed, dh, nick, vk, -, -, -, haccept⟩
    · rw [hdrop]
      exact .refl s
    · exact .inr ⟨s.announced pkt ed dh nick, by rw [haccept]; exact (deliverHeld_dmOnly _ _).links⟩
  · unfold dispatch
    split
    · contradiction
    · rcases handleChannel_update s pkt with hdrop | ⟨channel, text, verified, -, -, hput⟩
      · rw [hdrop]
        exact .refl s
      · rw [hput]
        simp only
        split_ifs <;> exact .inl rfl
    · obtain ⟨os, heq, -⟩ := handleSyncRequest_update s link pkt
      rw [heq]
      exact .inl rfl
    · exact .inl (handleNoiseHandshake_dmOnly s pkt).links
    · exact .inl (handleDirectMessage_dmOnly s pkt).links
    · exact .refl s

theorem onPacket_linked (s : MeshNode S) (link : LinkId) (pkt : Packet) : Linked s (s.onPacket link pkt) := by
  have htag := tagged_linked s link pkt
  have hcharged : Linked s (((s.tagged link pkt).observed pkt).charged pkt) := htag.then rfl
  rw [onPacket_phased]
  split_ifs
  · exact (hcharged.trans (dispatch_linked _ link pkt)).then (maybeRelay_still _ link pkt).links
  · exact hcharged
  · exact htag.then rfl

theorem onFrame_linked (s : MeshNode S) (link : LinkId) (frame : Bytes) : Linked s (s.onFrame link frame) := by
  rw [onFrame_eq]
  cases s.assembled frame with
  | none => exact .inl rfl
  | some pkt => exact onPacket_linked (s.fed frame) link pkt

theorem exec_oneEach (s : MeshNode S) (c : Call) (h : OneEach s.links) : OneEach (exec s c).links := by
  obtain ⟨now, a⟩ := c
  cases a with
  | transport ev =>
    cases ev with
    | linkUp link mtu =>
      obtain ⟨seen, os, heq⟩ := linkUp_update (s.at_ now) link mtu
      rw [exec, act, heq]
      exact h.insert link _ fun fp hfp => by cases hfp
    | linkDown link => exact h.erase link
    | mtuChanged link mtu =>
      rw [exec_mtuChanged]
      cases hheld : s.links[link]? with
      | none => exact h
      | some l => exact h.insert link _ fun fp hfp => ⟨l, hheld, hfp⟩
    | frameReceived link frame => exact (onFrame_linked (s.at_ now) link frame).oneEach h
  | _ => exact Linked.oneEach (s := s) (.inl (act_links (s.at_ now) fun ev h => by cases h)) h

/-! ## What is closed -/

omit [Store S] in
theorem resolveLinks_none_iff (s : MeshNode S) (id : LinkId) : s.resolveLinks.links[id]? = none ↔ s.links[id]? = none := by
  rw [resolveLinks, Std.ExtTreeMap.getElem?_map, Option.map_eq_none_iff]

omit [Store S] in
theorem dedupLinks_closes (s : MeshNode S) :
    ∃ closed : List LinkId, closed.Nodup ∧ s.dedupLinks.trace = s.trace ++ closed.map .close ∧
      ∀ id, id ∈ closed ↔ s.links[id]? ≠ none ∧ s.dedupLinks.links[id]? = none := by
  refine ⟨redundant s.resolveLinks.links, redundant_nodup _, by rw [dedupLinks_eq], fun id => ?_⟩
  rw [dedupLinks_getElem?, Ne, ← resolveLinks_none_iff]
  constructor
  · intro hin
    obtain ⟨l, -, -, -, hl, -⟩ := redundant_smaller hin
    exact ⟨by simp [hl], if_pos hin⟩
  · rintro ⟨hheld, hgone⟩
    split_ifs at hgone with hin
    · exact hin
    · exact absurd hgone hheld

/-- After every call of every run there is at most one link to each resolved identity. Deduplication
closes what it removes, each link once, in favour of a lower one with the same identity, and leaves
alone the links that are unresolved or the only ones of their identity. -/
theorem link_table_oneEach {s : MeshNode S} (h : s.Reachable) :
    (∀ (id id' : LinkId) (l l' : LinkState) (fp : Fingerprint), s.links[id]? = some l → s.links[id']? = some l' →
      l.peerFp = some fp → l'.peerFp = some fp → id = id') ∧
    ∀ t : MeshNode S,
      (∃ closed : List LinkId, closed.Nodup ∧ t.dedupLinks.trace = t.trace ++ closed.map .close ∧
        ∀ id, id ∈ closed ↔ t.links[id]? ≠ none ∧ t.dedupLinks.links[id]? = none) ∧
      (∀ id : LinkId, t.links[id]? ≠ none → t.dedupLinks.links[id]? = none →
        ∃ (l : LinkState) (fp : Fingerprint) (kept : LinkId) (l' : LinkState), t.resolveLinks.links[id]? = some l ∧ l.peerFp = some fp ∧
          kept < id ∧ t.dedupLinks.links[kept]? = some l' ∧ l'.peerFp = some fp) ∧
      ∀ (id : LinkId) (l : LinkState), t.resolveLinks.links[id]? = some l →
        (∀ (id' : LinkId) (l' : LinkState) (fp : Fingerprint), t.resolveLinks.links[id']? = some l' → l.peerFp = some fp →
          l'.peerFp = some fp → id' = id) → t.dedupLinks.links[id]? = some l := by
  refine ⟨Reachable.invariant (fun s => OneEach s.links) ?_ exec_oneEach h, fun t => ⟨dedupLinks_closes t, fun id hheld hgone => ?_,
    fun id l hl alone => ?_⟩⟩
  · rintro s ⟨identity, cfg, clock, store, nickname, rngSeed, entropy, rfl⟩ id id' l l' fp hl
    simp [MeshNode.new] at hl
  · have hin : id ∈ redundant t.resolveLinks.links := by
      rw [dedupLinks_getElem?] at hgone
      split_ifs at hgone with hin
      · exact hin
      · exact absurd ((resolveLinks_none_iff t id).mp hgone) hheld
    obtain ⟨l, fp, kept, l', hl, hfp, hl', hfp', hlt, hkept⟩ := redundant_smaller hin
    refine ⟨l, fp, kept, l', hl, hfp, hlt, ?_, hfp'⟩
    rw [dedupLinks_getElem?, if_neg hkept]
    exact hl'
  · rw [dedupLinks_getElem?, if_neg]
    · exact hl
    · intro hin
      obtain ⟨k, fp, kept, l', hk, hfp, hl', hfp', hlt, -⟩ := redundant_smaller hin
      obtain rfl := Option.some.inj (hk.symm.trans hl)
      exact absurd (alone kept l' fp hl' hfp hfp') (ne_of_lt hlt)

end Linked
end MeshNode
end CockroachChat

namespace CockroachChat.Reference
open MeshNode
attribute [local instance] prims

/-- Node 1 with both its links tagged with node 2, whose key it knows. -/
def bothTagged : Node :=
  let s := run (node 1 {}) neighbours
  { s with links := s.links.map fun _ l => { l with peerEph := some (Vector.replicate 8 2) } }

/-- The higher of the two goes, in favour of the lower. -/
theorem higher_link_closed : bothTagged.links[1]? ≠ none ∧ bothTagged.dedupLinks.links[1]? = none ∧
    ∃ (l : LinkState) (fp : Fingerprint) (kept : LinkId) (l' : LinkState), bothTagged.resolveLinks.links[1]? = some l ∧
      l.peerFp = some fp ∧ kept < 1 ∧ bothTagged.dedupLinks.links[kept]? = some l' ∧ l'.peerFp = some fp := by
  have hheld : bothTagged.links[1]? ≠ none := by decide +kernel
  have hgone : bothTagged.dedupLinks.links[1]? = none := by decide +kernel
  have hreachable := (node_initial 1 {}).reachable.run (neighbours ++ [requestOn 0 trueRequest])
  exact ⟨hheld, hgone, ((link_table_oneEach hreachable).2 bothTagged).2.1 1 hheld hgone⟩

end CockroachChat.Reference
