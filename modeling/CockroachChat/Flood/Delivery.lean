import CockroachChat.Flood.Inventory
import CockroachChat.Node.ReferenceNodes

/-! # Which channel messages are shown

A message is shown when its packet is taken in: fresh for the seen cache and let through by the
limiter. The store is not asked, so what it still holds is shown again once the cache forgot it. -/
namespace CockroachChat
set_option autoImplicit false

/-- A channel message for the UI. -/
def Obs.posted : Obs → Bool
  | .event (.messageReceived _ _ _ _ _) _ => true
  | _ => false

variable [P : Prims] {S : Type} [Store S]

omit [Store S] in
theorem Obs.unposted_of_direct {id : LocalIdentity} {o : Obs} (h : o.Direct id) : o.posted = false := by
  cases o with
  | event e side => cases e <;> first | rfl | exact h.elim
  | _ => rfl

namespace MeshNode

/-- The event that a channel packet is shown by. -/
def showing (s : MeshNode S) (pkt : Packet) : Option MeshEvent :=
  match decodeChannel pkt.payload s.cfg with
  | none => none
  | some (channel, text) =>
      match s.channelVerified pkt with
      | none => none
      | some verified =>
          if s.subscribed.contains channel then
            some (.messageReceived channel pkt.sender text pkt.timestampMs.toNat verified)
          else none

/-- The channel message that a call takes in, with what it shows of it. -/
def displayed (s : MeshNode S) (a : Action) : Option (Packet × MeshEvent) :=
  (s.taken a).bind fun pkt =>
    if pkt.msgType = .channelMessage then (s.showing pkt).map (pkt, ·) else none

/-- What a call shows, each message under the digest of the packet that the call completed. -/
def surfaced (s : MeshNode S) (c : Call) : List Digest :=
  ((exec s c).trace.drop s.trace.length).filterMap fun o =>
    if o.posted then ((s.at_ c.now).heard c.action).map (·.digest) else none

/-- The digests of the channel messages that a call originates. -/
def authored (s : MeshNode S) (c : Call) : List Digest :=
  (s.builtBy (exec s c)).filterMap fun pkt => if pkt.msgType = .channelMessage then some pkt.digest else none

def Holds (s : MeshNode S) (d : Digest) : Prop := (Store.messageByDigest s.store d).isSome = true

instance (s : MeshNode S) (d : Digest) : Decidable (s.Holds d) := inferInstanceAs (Decidable (_ = true))

/-! ## One call -/

theorem handleChannel_shows (s : MeshNode S) (pkt : Packet) :
    (s.handleChannel pkt).trace = s.trace ++ ((s.showing pkt).map (Obs.event · none)).toList := by
  unfold handleChannel showing
  cases decodeChannel pkt.payload s.cfg with
  | none => simp
  | some named =>
    obtain ⟨channel, text⟩ := named
    cases s.channelVerified pkt with
    | none => simp
    | some verified =>
      simp only
      split_ifs
      · rfl
      · simp

/-- Only the channel handler shows messages. -/
theorem dispatch_unposted (s : MeshNode S) (link : LinkId) {pkt : Packet} (other : pkt.msgType ≠ .channelMessage) :
    Adds (fun _ o => o.posted = false) s (s.dispatch link pkt) := by
  have direct : ∀ id (o : Obs), o.Direct id → o.posted = false := fun _ _ => Obs.unposted_of_direct
  unfold dispatch
  split
  · exact handleAnnounce_adds s pkt (fun _ _ => rfl) direct
  · rename_i h
    exact absurd h other
  · exact handleSyncRequest_adds link pkt direct
  · exact (handleNoiseHandshake_dmOnly s pkt).adds direct
  · exact (handleDirectMessage_dmOnly s pkt).adds direct
  · exact .of_trace rfl rfl

/-- What is shown of a trace. -/
def shownIn (os : List Obs) : List Obs := os.filter Obs.posted

omit [Store S] in
theorem Adds.shownIn {s s' : MeshNode S} (h : Adds (fun _ o => o.posted = false) s s') :
    MeshNode.shownIn s'.trace = MeshNode.shownIn s.trace := by
  obtain ⟨-, os, htr, hos⟩ := h
  have hnone : os.filter Obs.posted = [] := List.filter_eq_nil_iff.mpr (by simpa using hos)
  rw [htr, MeshNode.shownIn, MeshNode.shownIn, List.filter_append, hnone, List.append_nil]

theorem onPacket_shown (s : MeshNode S) (link : LinkId) (pkt : Packet) :
    shownIn (s.onPacket link pkt).trace = shownIn s.trace ++
      if s.accepts pkt = true ∧ pkt.msgType = .channelMessage then ((s.showing pkt).map (Obs.event · none)).toList
      else [] := by
  have htag : Adds (fun _ o => o.posted = false) s (s.tagged link pkt) := tagged_adds s link pkt fun _ _ => rfl
  have hobserved : Adds (fun _ o => o.posted = false) s ((s.tagged link pkt).observed pkt) := htag.trans (.of_trace rfl rfl)
  have hcharged : Adds (fun _ o => o.posted = false) s (((s.tagged link pkt).observed pkt).charged pkt) :=
    hobserved.trans (.of_trace rfl rfl)
  have hrelayed : ∀ t : MeshNode S, (t.maybeRelay link pkt).trace = t.trace := by
    intro t
    obtain ⟨rng, scheduler, heq⟩ := maybeRelay_update t link pkt
    rw [heq]
  rw [← tagged_accepts s link, accepts, onPacket_phased]
  by_cases hfresh : (s.tagged link pkt).fresh pkt = true
  · by_cases hadmits : ((s.tagged link pkt).observed pkt).admits pkt = true
    · rw [if_pos hfresh, if_pos hadmits, hfresh, hadmits, hrelayed]
      by_cases htype : pkt.msgType = .channelMessage
      · rw [if_pos ⟨rfl, htype⟩]
        have hdispatch : ∀ t : MeshNode S, t.dispatch link pkt = t.handleChannel pkt := by
          intro t
          unfold dispatch
          rw [htype]
        rw [hdispatch, handleChannel_shows, shownIn, List.filter_append, ← shownIn, hcharged.shownIn]
        have hsame : (((s.tagged link pkt).observed pkt).charged pkt).showing pkt = s.showing pkt := by
          obtain ⟨links, os, heq, -⟩ := tagged_update s link pkt
          rw [heq]
          rfl
        rw [hsame]
        congr 1
        unfold showing
        split
        · rfl
        · split
          · rfl
          · split_ifs <;> rfl
      · rw [if_neg fun h => htype h.2, (hcharged.trans (dispatch_unposted _ link htype)).shownIn, List.append_nil]
    · rw [if_pos hfresh, if_neg hadmits, if_neg (by simp [hadmits]), hcharged.shownIn, List.append_nil]
  · rw [if_neg hfresh, if_neg (by simp [hfresh]), hobserved.shownIn, List.append_nil]

/-- A call shows the message it takes in, and nothing else. -/
theorem exec_shown (s : MeshNode S) (c : Call) :
    shownIn ((exec s c).trace.drop s.trace.length) =
      (((s.at_ c.now).displayed c.action).map fun e => Obs.event e.2 none).toList := by
  obtain ⟨-, os, htr, -⟩ := exec_adds (p := fun _ _ => True) s c (fun _ _ => trivial) (fun _ _ _ => trivial) fun _ _ => trivial
  rw [htr, List.drop_left]
  refine List.append_cancel_left (?_ : shownIn s.trace ++ _ = shownIn s.trace ++ _)
  rw [show shownIn s.trace ++ shownIn os = shownIn (exec s c).trace by rw [htr]; exact (List.filter_append ..).symm]
  by_cases hframe : ∃ link f, c.action = .transport (.frameReceived link f)
  · obtain ⟨link, f, haction⟩ := hframe
    have hexec : exec s c = (s.at_ c.now).onFrame link f := by
      rw [exec, haction]
      rfl
    rw [hexec, onFrame_eq, displayed, taken, haction]
    have hheard : (s.at_ c.now).heard (.transport (.frameReceived link f)) = (s.at_ c.now).assembled f := rfl
    rw [hheard]
    cases (s.at_ c.now).assembled f with
    | none => exact (List.append_nil _).symm
    | some pkt =>
      have hsame : ((s.at_ c.now).fed f).showing pkt = (s.at_ c.now).showing pkt := rfl
      have haccepts : ((s.at_ c.now).fed f).accepts pkt = (s.at_ c.now).accepts pkt := rfl
      simp only
      rw [onPacket_shown, hsame, haccepts]
      congr 1
      by_cases hacc : (s.at_ c.now).accepts pkt = true
      · rw [Option.filter_some, if_pos hacc, Option.bind_some]
        by_cases htype : pkt.msgType = .channelMessage
        · rw [if_pos ⟨hacc, htype⟩, if_pos htype, Option.map_map]
          rfl
        · rw [if_neg fun h => htype h.2, if_neg htype]
          rfl
      · rw [Option.filter_some, if_neg hacc, if_neg fun h => hacc h.1]
        rfl
  · have hstill : (s.at_ c.now).heard c.action = none := by
      unfold heard
      split
      · rename_i link f haction
        exact absurd ⟨link, f, haction⟩ hframe
      · rfl
    have hadds := act_adds (p := fun _ o => o.posted = false) (s.at_ c.now)
      (fun link f h => hframe ⟨link, f, h⟩) fun _ _ => Obs.unposted_of_direct
    rw [displayed, taken, hstill]
    exact hadds.shownIn.trans (List.append_nil _).symm

/-- What a call shows is the message it takes in. -/
theorem surfaced_eq (s : MeshNode S) (c : Call) :
    s.surfaced c = (((s.at_ c.now).displayed c.action).map (·.1.digest)).toList := by
  have hshown := exec_shown s c
  have hfilter : s.surfaced c = (shownIn ((exec s c).trace.drop s.trace.length)).filterMap fun _ =>
      ((s.at_ c.now).heard c.action).map (·.digest) := by
    rw [surfaced, shownIn, List.filterMap_filter]
  rw [hfilter, hshown]
  cases hdisplayed : (s.at_ c.now).displayed c.action with
  | none => rfl
  | some e =>
    obtain ⟨pkt, htaken, hshow⟩ := Option.bind_eq_some_iff.mp hdisplayed
    have hheard := (Option.filter_eq_some_iff.mp htaken).1
    split_ifs at hshow
    obtain ⟨ev, -, rfl⟩ := Option.map_eq_some_iff.mp hshow
    simp [hheard]

theorem surfaced_length (s : MeshNode S) (c : Call) : (s.surfaced c).length ≤ 1 := by
  rw [surfaced_eq]
  cases (s.at_ c.now).displayed c.action <;> simp

omit [Store S] in
/-- The seen cache has no time of its own: a digest counts as new once its entry is gone. -/
theorem fresh_iff (s : MeshNode S) (pkt : Packet) : s.fresh pkt = true ↔ s.seen.map[pkt.digest]? = none := by
  unfold fresh SeenCache.observe
  cases s.seen.map[pkt.digest]? <;> simp

/-! ## Whole runs -/

/-- `c₂` comes after a call that showed or originated the message `d`, which the store holds in every
state in between. -/
structure Revisits (s₀ : MeshNode S) (calls : List Call) (d : Digest) (pre : List Call) (c₁ : Call) (mid : List Call)
    (c₂ : Call) : Prop where
  within : pre ++ c₁ :: (mid ++ [c₂]) <+: calls
  first : d ∈ (Runs.run exec s₀ pre).surfaced c₁ ∨ d ∈ (Runs.run exec s₀ pre).authored c₁
  held : Runs.Throughout exec (fun s => s.Holds d) (Runs.run exec s₀ (pre ++ [c₁])) mid

/-- No message is shown twice, nor one of our own shown, for as long as the store holds it. -/
def ShownOnce (s₀ : MeshNode S) (calls : List Call) : Prop :=
  (∀ pre c, pre ++ [c] <+: calls → ((Runs.run exec s₀ pre).surfaced c).length ≤ 1) ∧
    ∀ d pre c₁ mid c₂, Revisits s₀ calls d pre c₁ mid c₂ → d ∉ (Runs.run exec s₀ (pre ++ c₁ :: mid)).surfaced c₂

/-- A copy of the message `d` that the call completes and that can be shown is refused by the seen
cache, or by the limiter. -/
def Recalls (s : MeshNode S) (c : Call) (d : Digest) : Prop :=
  ∀ pkt, (s.at_ c.now).heard c.action = some pkt → pkt.digest = d → pkt.msgType = .channelMessage →
    ((s.at_ c.now).showing pkt).isSome = true → (s.at_ c.now).accepts pkt = false

theorem not_mem_surfaced_iff (s : MeshNode S) (c : Call) (d : Digest) : d ∉ s.surfaced c ↔ s.Recalls c d := by
  rw [surfaced_eq, displayed, taken]
  constructor
  · intro h pkt hheard hd htype hshow
    by_contra haccepts
    obtain ⟨ev, hev⟩ := Option.isSome_iff_exists.mp hshow
    refine h ?_
    rw [hheard, Option.filter_some, if_pos (by simpa using haccepts), Option.bind_some, if_pos htype, hev]
    simp [hd]
  · intro h hmem
    obtain ⟨e, hdisplayed, rfl⟩ := Option.map_eq_some_iff.mp (Option.mem_toList.mp hmem)
    obtain ⟨pkt, htaken, hshow⟩ := Option.bind_eq_some_iff.mp hdisplayed
    obtain ⟨hheard, haccepts⟩ := Option.filter_eq_some_iff.mp htaken
    split_ifs at hshow with htype
    obtain ⟨ev, hev, rfl⟩ := Option.map_eq_some_iff.mp hshow
    rw [h pkt hheard rfl htype (by rw [hev]; rfl)] at haccepts
    cases haccepts

end MeshNode
end CockroachChat

namespace CockroachChat.Reference
open MeshNode
attribute [local instance] prims

/-- A channel message of node 1. -/
def posted : Node := run (linked 1) [⟨1, .sendChannelMessage defaultChannel "hi"⟩]

/-- It arrives at node 2 and, after a tick past the lifetime of its seen entry, arrives again. -/
def postedFrame : Call := ⟨1, .transport (.frameReceived 0 (frameOf (lastBuilt posted)))⟩

def postedAgain : Call := ⟨300001, .transport (.frameReceived 0 (frameOf (lastBuilt posted)))⟩

end CockroachChat.Reference
