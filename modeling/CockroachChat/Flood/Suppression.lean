import CockroachChat.Flood.Origination
import CockroachChat.Flood.Relaying

/-! # Suppression

A pending rebroadcast is dropped when its digest was overheard often enough. The counter behind that
is part of the seen cache and goes up with every copy; here each copy is kept with the link it came
over, so that what the counter stands for can be read off. -/
namespace CockroachChat
set_option autoImplicit false

/-- What reaches the seen cache: a copy of a packet, over a link or of the node's own making, or the
sweep of the timer. -/
inductive Hearing where
  | copy (digest : Digest) (source : Option LinkId)
  | sweep

/-- A seen cache together with the sources of what it has counted. -/
structure Ear where
  seen : SeenCache
  sources : Digest → List (Option LinkId)

namespace SeenCache

theorem evictOldest_get {c : SeenCache} {d : Digest} {e : SeenEntry} (h : c.evictOldest.map[d]? = some e) : c.map[d]? = some e := by
  unfold evictOldest at h
  split at h
  · rw [Std.ExtTreeMap.getElem?_erase] at h
    split_ifs at h
    exact h
  · exact h

theorem observe_known {cfg : Tunables} {c : SeenCache} {d : Digest} {now : Millis} {e : SeenEntry} (h : c.map[d]? = some e) :
    (c.observe cfg d now).1.map[d]? = some { e with hearCount := min (e.hearCount + 1) (2 ^ 32 - 1) } := by
  unfold observe
  rw [h]
  simp only [Std.ExtTreeMap.getElem?_insert_self]

theorem observe_unknown {cfg : Tunables} {c : SeenCache} {d : Digest} {now : Millis} (h : c.map[d]? = none) :
    (c.observe cfg d now).1.map[d]? = some { firstSeenMs := now, hearCount := 1 } := by
  unfold observe
  rw [h]
  simp only [Std.ExtTreeMap.getElem?_insert_self]

theorem observe_other {cfg : Tunables} {c : SeenCache} {digest d : Digest} {now : Millis} {e : SeenEntry} (hd : digest ≠ d)
    (h : (c.observe cfg digest now).1.map[d]? = some e) : c.map[d]? = some e := by
  unfold observe at h
  split at h
  · simpa only [Std.ExtTreeMap.getElem?_insert, Std.compare_eq_iff_eq, hd, if_false] using h
  · simp only [Std.ExtTreeMap.getElem?_insert, Std.compare_eq_iff_eq, hd, if_false] at h
    split_ifs at h
    · exact evictOldest_get h
    · exact h

theorem evictExpired_get {cfg : Tunables} {c : SeenCache} {now : Millis} {d : Digest} {e : SeenEntry}
    (h : (c.evictExpired cfg now).map[d]? = some e) : c.map[d]? = some e := by
  rw [evictExpired, Std.ExtTreeMap.getElem?_filter'] at h
  exact (Option.mem_filter_iff.mp h).1

end SeenCache

namespace Ear

/-- The cache takes a copy in or is swept; the source of a copy joins those of its digest, or is the
first of them when the cache did not hold the digest. -/
def hear (cfg : Tunables) (now : Millis) (e : Ear) : Hearing → Ear
  | .copy digest source =>
      { seen := (e.seen.observe cfg digest now).1
        sources := Function.update e.sources digest
          (if e.seen.map[digest]? = none then [source] else e.sources digest ++ [source]) }
  | .sweep => { e with seen := e.seen.evictExpired cfg now }

/-- The sources of the copies of a digest since it last entered the cache. -/
def counted (e : Ear) (d : Digest) : List (Option LinkId) := if e.seen.map[d]? = none then [] else e.sources d

/-- The counters are the numbers of sources, as far as 32 bits go. -/
def Exact (e : Ear) : Prop :=
  ∀ d entry, e.seen.map[d]? = some entry → entry.hearCount = min (e.sources d).length (2 ^ 32 - 1)

theorem Exact.hear {cfg : Tunables} {now : Millis} {e : Ear} (h : e.Exact) (a : Hearing) : (e.hear cfg now a).Exact := by
  intro d entry held
  cases a with
  | sweep => exact h d entry (SeenCache.evictExpired_get held)
  | copy digest source =>
    by_cases hd : digest = d
    · subst hd
      simp only [Ear.hear, Function.update_self] at held ⊢
      cases hknown : e.seen.map[digest]? with
      | none =>
        rw [SeenCache.observe_unknown hknown] at held
        cases held
        simp
      | some before =>
        rw [SeenCache.observe_known hknown] at held
        cases held
        have hbefore := h digest before hknown
        simp only [hbefore, reduceCtorEq, if_false, List.length_append, List.length_singleton]
        omega
    · simp only [Ear.hear, Function.update_of_ne (Ne.symm hd)] at held ⊢
      exact h d entry (SeenCache.observe_other hd held)

theorem Exact.hearAll {cfg : Tunables} {now : Millis} {e : Ear} (h : e.Exact) (as : List Hearing) :
    (as.foldl (Ear.hear cfg now) e).Exact := by
  induction as generalizing e with
  | nil => exact h
  | cons a as ih => exact ih (h.hear a)

theorem Exact.hearCount {e : Ear} (h : e.Exact) (d : Digest) : e.seen.hearCount d = min (e.counted d).length (2 ^ 32 - 1) := by
  unfold SeenCache.hearCount counted
  cases hheld : e.seen.map[d]? with
  | none => rfl
  | some entry =>
    simp only [Option.map_some, Option.getD_some, reduceCtorEq, if_false]
    exact h d entry hheld

theorem seen_own (cfg : Tunables) (now : Millis) (e : Ear) (pkts : List Packet) [Prims] :
    ((pkts.map fun p => .copy p.digest none).foldl (Ear.hear cfg now) e).seen = e.seen.marked cfg now pkts := by
  induction pkts generalizing e with
  | nil => rfl
  | cons p pkts ih => exact ih _

end Ear

variable [P : Prims] {S : Type}

namespace MeshNode

/-- The step marks what it builds as seen, and nothing else. -/
structure Marks (s s' : MeshNode S) : Prop where
  cfg : s'.cfg = s.cfg
  clock : s'.clock = s.clock
  built : ∃ os, s'.trace = s.trace ++ os ∧ s'.seen = s.seen.marked s.cfg s.clock (os.filterMap Obs.built)

namespace Marks
variable {s s₁ s₂ : MeshNode S}

theorem quiet (cfg : s₁.cfg = s.cfg) (clock : s₁.clock = s.clock) (seen : s₁.seen = s.seen) {l : List Obs}
    (trace : s₁.trace = s.trace ++ l) (hl : l.filterMap Obs.built = []) : Marks s s₁ := by
  refine ⟨cfg, clock, l, trace, ?_⟩
  rw [hl, seen]
  rfl

theorem still (cfg : s₁.cfg = s.cfg) (clock : s₁.clock = s.clock) (seen : s₁.seen = s.seen) (trace : s₁.trace = s.trace) :
    Marks s s₁ := .quiet cfg clock seen (l := []) (by rw [trace, List.append_nil]) rfl

theorem trans (h₁ : Marks s s₁) (h₂ : Marks s₁ s₂) : Marks s s₂ := by
  obtain ⟨os₁, htrace₁, hseen₁⟩ := h₁.built
  obtain ⟨os₂, htrace₂, hseen₂⟩ := h₂.built
  refine ⟨h₂.cfg.trans h₁.cfg, h₂.clock.trans h₁.clock, os₁ ++ os₂, ?_, ?_⟩
  · rw [htrace₂, htrace₁, List.append_assoc]
  · rw [hseen₂, hseen₁, h₁.cfg, h₁.clock, List.filterMap_append]
    exact (List.foldl_append ..).symm

theorem flood (s : MeshNode S) (pkt : Packet) : Marks s (s.flood pkt) := by
  refine ⟨rfl, rfl, _, rfl, ?_⟩
  rw [List.filterMap_cons_some (show Obs.built (.originate pkt) = some pkt from rfl), filterMap_broadcastObs]
  rfl

theorem seen (h : Marks s s₁) : s₁.seen = s.seen.marked s.cfg s.clock (s.builtBy s₁) := by
  obtain ⟨os, htrace, hseen⟩ := h.built
  rw [hseen, builtBy_of_trace htrace]

end Marks

variable [Store S]

theorem DmOnly.marksBuilt {s s' : MeshNode S} (h : DmOnly s s') : Marks s s' := by
  obtain ⟨os, htrace, hseen, -⟩ := h.marks
  exact ⟨h.cfg, h.clock, os, htrace, hseen⟩

omit [Store S] in
theorem dedupLinks_marks (s : MeshNode S) : Marks s s.dedupLinks := by
  obtain ⟨links, os, heq, hos⟩ := dedupLinks_update s
  rw [heq]
  exact .quiet rfl rfl rfl rfl hos

theorem handleAnnounce_marks (s : MeshNode S) (pkt : Packet) : Marks s (s.handleAnnounce pkt) := by
  rcases handleAnnounce_cases s pkt with heq | ⟨ed, dh, nick, vk, -, -, -, heq⟩
  · rw [heq]
    exact .still rfl rfl rfl rfl
  · rw [heq]
    refine .trans (.trans ?_ (dedupLinks_marks _)) (deliverHeld_dmOnly _ _).marksBuilt
    unfold announced
    simp only
    have haccepted : ∀ (t : MeshNode S) (o : Obs), o.built = none → Marks t (t.note o) :=
      fun t o ho => .quiet (l := [o]) rfl rfl rfl rfl (by rw [List.filterMap_cons_none ho]; rfl)
    have htold : ∀ (t : MeshNode S) (e : MeshEvent), Marks t (t.emit e) :=
      fun t e => .quiet (l := [.event e none]) rfl rfl rfl rfl rfl
    have hrecord : ∀ (t : MeshNode S) (fp : Fingerprint), Marks t (t.recordPeer fp pkt) := fun _ _ => .still rfl rfl rfl rfl
    refine .trans (.trans (.trans ?_ (noteKeyChange_dmOnly _ _ _ _).marksBuilt) (hrecord _ _)) (htold _ _)
    exact .trans (haccepted s (.accept pkt) rfl) (.still rfl rfl rfl rfl)

theorem handleChannel_marks (s : MeshNode S) (pkt : Packet) : Marks s (s.handleChannel pkt) := by
  rcases handleChannel_update s pkt with heq | ⟨channel, text, verified, -, -, heq⟩
  · rw [heq]
    exact .still rfl rfl rfl rfl
  · rw [heq]
    simp only
    split_ifs
    · exact .quiet (l := [.event (.messageReceived channel pkt.sender text pkt.timestampMs.toNat verified) none]) rfl rfl rfl rfl rfl
    · exact .still rfl rfl rfl rfl

theorem dispatch_marks (s : MeshNode S) (link : LinkId) (pkt : Packet) : Marks s (s.dispatch link pkt) := by
  unfold dispatch
  split
  · exact handleAnnounce_marks s pkt
  · exact handleChannel_marks s pkt
  · obtain ⟨os, heq, hos⟩ := handleSyncRequest_update s link pkt
    rw [heq]
    exact .quiet rfl rfl rfl rfl hos
  · exact (handleNoiseHandshake_dmOnly s pkt).marksBuilt
  · exact (handleDirectMessage_dmOnly s pkt).marksBuilt
  · exact .still rfl rfl rfl rfl

/-- A packet that arrives is marked first, then what is built in answer. -/
theorem onPacket_seen (s : MeshNode S) (link : LinkId) (pkt : Packet) :
    ∃ os, (s.onPacket link pkt).trace = s.trace ++ os ∧
      (s.onPacket link pkt).seen = (s.seen.observe s.cfg pkt.digest s.clock).1.marked s.cfg s.clock (os.filterMap Obs.built) ∧
      (s.onPacket link pkt).cfg = s.cfg := by
  obtain ⟨links, os, htag, hos⟩ := tagged_update s link pkt
  let t : MeshNode S := { s with seen := (s.seen.observe s.cfg pkt.digest s.clock).1 }
  have hobserved : Marks t ((s.tagged link pkt).observed pkt) := by
    rw [htag]
    exact .quiet rfl rfl rfl rfl hos
  have hcharged : Marks t (((s.tagged link pkt).observed pkt).charged pkt) := hobserved.trans (.still rfl rfl rfl rfl)
  have hall : Marks t (s.onPacket link pkt) := by
    rw [onPacket_phased]
    split_ifs
    · obtain ⟨rng, scheduler, hrelay⟩ := maybeRelay_update ((((s.tagged link pkt).observed pkt).charged pkt).dispatch link pkt) link pkt
      rw [hrelay]
      exact (hcharged.trans (dispatch_marks _ link pkt)).trans (.still rfl rfl rfl rfl)
    · exact hcharged
    · exact hobserved
  obtain ⟨os, htrace, hseen⟩ := hall.built
  exact ⟨os, htrace, hseen, hall.cfg⟩

/-- Commands, and the transport events that carry nothing. -/
theorem act_marks (s : MeshNode S) {a : Action} (still : ¬ a.moves) (up : ∀ link mtu, a ≠ .transport (.linkUp link mtu)) :
    Marks s (s.act a) := by
  cases a with
  | transport ev =>
    cases ev with
    | linkUp link mtu => exact absurd rfl (up link mtu)
    | linkDown link => exact .quiet (l := [.event (.peerLost link) none]) rfl rfl rfl rfl rfl
    | frameReceived link frame => exact absurd trivial still
    | mtuChanged link mtu =>
      rw [act, onTransportEvent]
      split <;> exact .still rfl rfl rfl rfl
  | tick => exact absurd trivial still
  | takeEvents => exact .still rfl rfl rfl rfl
  | joinChannel name => exact .still rfl rfl rfl rfl
  | sendChannelMessage channel text =>
    rw [act, sendChannelMessage_eq]
    refine .trans ?_ (.flood _ _)
    exact .still rfl rfl rfl rfl
  | announce =>
    rw [act, announce_eq]
    exact .flood s _
  | sendDm fp text => exact (sendDm_dmOnly s fp text).marksBuilt
  | startDmSession fp => exact (startDmSession_dmOnly s fp).marksBuilt
  | verifyPeer fp =>
    refine .trans ?_ (trySendVerifyNotice_dmOnly _ fp).marksBuilt
    exact .still rfl rfl rfl rfl
  | unverifyPeer fp =>
    rw [act, unverifyPeer]
    split <;> exact .still rfl rfl rfl rfl
  | forgetPeer fp => exact .still rfl rfl rfl rfl
  | setPetname fp name => exact .still rfl rfl rfl rfl
  | panicWipe => exact .still rfl rfl rfl rfl

/-- What reaches the seen cache in a call. The sync requests of a link that comes up are not marked. -/
def hearings (s : MeshNode S) (c : Call) : List Hearing :=
  let own := (s.builtBy (exec s c)).map fun p => .copy p.digest none
  match c.action with
  | .transport (.frameReceived link frame) => match (s.at_ c.now).assembled frame with
    | some pkt => .copy pkt.digest (some link) :: own
    | none => own
  | .transport (.linkUp _ _) => own.take 1
  | .tick => .sweep :: own
  | _ => own

theorem hearings_linkUp (s : MeshNode S) (now : Millis) (link : LinkId) (mtu : ℕ) (e : Ear) (heard : e.seen = s.seen) :
    (exec s ⟨now, .transport (.linkUp link mtu)⟩).seen =
      ((s.hearings ⟨now, .transport (.linkUp link mtu)⟩).foldl (Ear.hear s.cfg now) e).seen := by
  let t : MeshNode S := { s.at_ now with links := s.links.insert link { mtu, peerEph := none, peerFp := none } }
  let pkt := t.ownPacket .announce none t.announcePayload
  obtain ⟨os, hsync, -⟩ := sendSyncRequests_update (t.flood pkt) link
  have hexec : exec s ⟨now, .transport (.linkUp link mtu)⟩ = { t.flood pkt with trace := (t.flood pkt).trace ++ os } := by
    rw [← hsync, ← announce_eq]
    rfl
  have hbuilt : s.builtBy (exec s ⟨now, .transport (.linkUp link mtu)⟩) = pkt :: os.filterMap Obs.built := by
    have htrace : (exec s ⟨now, .transport (.linkUp link mtu)⟩).trace =
        s.trace ++ ((.originate pkt :: t.broadcastObs pkt none) ++ os) := by
      rw [hexec, ← List.append_assoc]
      rfl
    rw [builtBy_of_trace htrace, List.filterMap_append,
      List.filterMap_cons_some (show Obs.built (.originate pkt) = some pkt from rfl), filterMap_broadcastObs]
    rfl
  simp only [hearings, hbuilt, List.map_cons, List.take_succ_cons, List.take_zero, List.foldl_cons, List.foldl_nil, Ear.hear]
  rw [hexec, heard]
  rfl

/-- What a call does to the seen cache is what it heard. -/
theorem exec_heard (s : MeshNode S) (c : Call) (e : Ear) (heard : e.seen = s.seen) :
    (exec s c).seen = ((s.hearings c).foldl (Ear.hear s.cfg c.now) e).seen ∧ (exec s c).cfg = s.cfg := by
  obtain ⟨now, a⟩ := c
  by_cases hmoves : a.moves
  · cases a with
    | transport ev =>
      cases ev with
      | frameReceived link frame =>
        have hexec : exec s ⟨now, .transport (.frameReceived link frame)⟩ = (s.at_ now).onFrame link frame := rfl
        simp only [hearings, hexec]
        rw [onFrame_eq]
        cases (s.at_ now).assembled frame with
        | none =>
          have hnone : s.builtBy ((s.at_ now).fed frame) = [] := builtBy_of_trace (List.append_nil s.trace).symm
          simp only [hnone, List.map_nil, List.foldl_nil]
          exact ⟨heard.symm, rfl⟩
        | some pkt =>
          obtain ⟨os, htrace, hseen, hcfg⟩ := onPacket_seen ((s.at_ now).fed frame) link pkt
          have hbuilt : s.builtBy (((s.at_ now).fed frame).onPacket link pkt) = os.filterMap Obs.built := builtBy_of_trace htrace
          simp only [hbuilt, List.foldl_cons, Ear.seen_own, Ear.hear, heard]
          exact ⟨hseen, hcfg⟩
      | linkUp _ _ | linkDown _ | mtuChanged _ _ => exact hmoves.elim
    | tick =>
      have hretry := (retryStalledHandshakes_dmOnly (s.at_ now).swept now).marksBuilt
      have hexec : exec s ⟨now, .tick⟩ = (s.at_ now).swept.retryStalledHandshakes now := rfl
      obtain ⟨os, htrace, hseen⟩ := hretry.built
      rw [swept_eq] at htrace hseen
      have hrelays : ((s.at_ now).relays.flatMap (s.at_ now).forwarded).filterMap Obs.built = [] := by
        rw [List.filterMap_eq_nil_iff]
        intro o ho
        obtain ⟨r, -, hr⟩ := List.mem_flatMap.mp ho
        exact List.filterMap_eq_nil_iff.mp (filterMap_broadcastObs _ _ _) o hr
      have hbuilt : s.builtBy (exec s ⟨now, .tick⟩) = os.filterMap Obs.built := by
        have hadded : (exec s ⟨now, .tick⟩).trace = s.trace ++ ((s.at_ now).relays.flatMap (s.at_ now).forwarded ++ os) := by
          rw [hexec, swept_eq, htrace]
          exact List.append_assoc ..
        rw [builtBy_of_trace hadded, List.filterMap_append, hrelays]
        rfl
      simp only [hearings, hbuilt, List.foldl_cons, Ear.seen_own, Ear.hear, heard]
      refine ⟨?_, ?_⟩
      · rw [hexec, swept_eq]
        exact hseen
      · rw [hexec, hretry.cfg, swept_eq]
        rfl
    | _ => exact hmoves.elim
  · by_cases hup : ∃ link mtu, a = .transport (.linkUp link mtu)
    · obtain ⟨link, mtu, rfl⟩ := hup
      exact ⟨hearings_linkUp s now link mtu e heard, congrArg Flow.cfg (act_flow (s.at_ now) hmoves)⟩
    · have hmarks : Marks (s.at_ now) (exec s ⟨now, a⟩) := act_marks _ hmoves fun link mtu h => hup ⟨link, mtu, h⟩
      have hown : s.hearings ⟨now, a⟩ = (s.builtBy (exec s ⟨now, a⟩)).map fun p => .copy p.digest none := by
        unfold hearings
        split
        · rename_i h
          subst h
          exact absurd trivial hmoves
        · rename_i h
          exact absurd ⟨_, _, h⟩ hup
        · rename_i h
          subst h
          exact absurd trivial hmoves
        · rfl
      rw [hown, Ear.seen_own, heard]
      exact ⟨hmarks.seen, hmarks.cfg⟩

/-! ### Along a run -/

/-- A call of a node that is listened to. -/
def attend (n : MeshNode S × Ear) (c : Call) : MeshNode S × Ear :=
  (exec n.1 c, (n.1.hearings c).foldl (Ear.hear n.1.cfg c.now) n.2)

/-- The sources of the copies of a digest that count after a run: those since the digest last entered
the seen cache. -/
def counted (s₀ : MeshNode S) (calls : List Call) (d : Digest) : List (Option LinkId) :=
  (Runs.run attend (s₀, { seen := s₀.seen, sources := fun _ => [] }) calls).2.counted d

theorem attend_run (s₀ : MeshNode S) (e : Ear) (calls : List Call) :
    (Runs.run attend (s₀, e) calls).1 = Runs.run exec s₀ calls := by
  induction calls generalizing s₀ e with
  | nil => rfl
  | cons c calls ih => exact ih _ _

theorem hearCount_counted {s₀ : MeshNode S} (initial : s₀.Initial) (calls : List Call) (d : Digest) :
    (Runs.run exec s₀ calls).seen.hearCount d = min (counted s₀ calls d).length (2 ^ 32 - 1) := by
  have hrun : (Runs.run attend (s₀, { seen := s₀.seen, sources := fun _ => [] }) calls).2.seen =
      (Runs.run attend (s₀, { seen := s₀.seen, sources := fun _ => [] }) calls).1.seen ∧
      (Runs.run attend (s₀, { seen := s₀.seen, sources := fun _ => [] }) calls).2.Exact := by
    refine Runs.run_invariant attend (fun n => n.2.seen = n.1.seen ∧ n.2.Exact) ?_ _ ?_ calls
    · intro n c h
      exact ⟨(exec_heard n.1 c n.2 h.1).1.symm, h.2.hearAll _⟩
    · refine ⟨rfl, fun d entry held => ?_⟩
      obtain ⟨_, _, _, _, _, _, _, rfl⟩ := initial
      simp [MeshNode.new] at held
  rw [← attend_run, ← hrun.1]
  exact hrun.2.hearCount d

omit P [Store S] in
theorem exists_links {os : List (Option LinkId)} (h : none ∉ os) : ∃ links : List LinkId, os = links.map some := by
  induction os with
  | nil => exact ⟨[], rfl⟩
  | cons o os ih =>
    obtain ⟨links, rfl⟩ := ih fun hmem => h (List.mem_cons_of_mem _ hmem)
    cases o with
    | none => exact absurd List.mem_cons_self h
    | some link => exact ⟨link :: links, rfl⟩

/-- In every reachable state, a pending rebroadcast that falls due is released exactly when fewer copies
of its digest count than the threshold, whatever links they came over. Where no link brought two of
them and the node built none, a suppressed one was heard on as many links as the threshold asks for. -/
theorem released_iff_few_copies {s₀ : MeshNode S} (initial : s₀.Initial) (calls : List Call) (now : Millis) (d : Digest)
    (e : Pending) (pending : (Runs.run exec s₀ calls).scheduler.pending[d]? = some e) (due : e.sendAtMs ≤ now) :
    let s := Runs.run exec s₀ calls
    let released := { packet := e.packet, excludeLink := e.excludeLink } ∈ (s.at_ now).relays
    (released ↔ min (counted s₀ calls d).length (2 ^ 32 - 1) < s.cfg.suppressionThreshold) ∧
      ((counted s₀ calls d).Nodup → none ∉ counted s₀ calls d → ¬ released →
        ∃ links : List LinkId, links.Nodup ∧ s.cfg.suppressionThreshold ≤ links.length ∧
          ∀ link ∈ links, some link ∈ counted s₀ calls d) := by
  intro s released
  have hfiled : s.Filed := by
    refine Runs.run_invariant exec Filed (fun s c h => exec_filed c h) s₀ ?_ calls
    obtain ⟨_, _, _, _, _, _, _, rfl⟩ := initial
    intro d e held
    simp [MeshNode.new] at held
  have hreleased : released ↔ min (counted s₀ calls d).length (2 ^ 32 - 1) < s.cfg.suppressionThreshold := by
    rw [← hearCount_counted initial calls d]
    refine RelayScheduler.mem_due.trans ⟨?_, fun hfew => ⟨d, e, pending, due, hfew, rfl⟩⟩
    rintro ⟨d', e', hheld, -, hfew, heq⟩
    have hpacket : e.packet = e'.packet := congrArg DueRelay.packet heq
    have hd : d' = d := by rw [← hfiled d' e' hheld, ← hpacket, hfiled d e pending]
    rw [← hd]
    exact hfew
  refine ⟨hreleased, fun hnodup hown hsuppressed => ?_⟩
  rw [hreleased, Nat.not_lt] at hsuppressed
  obtain ⟨links, hlinks⟩ := exists_links hown
  rw [hlinks] at hnodup hsuppressed ⊢
  rw [List.length_map] at hsuppressed
  exact ⟨links, hnodup.of_map some, hsuppressed.trans (Nat.min_le_left _ _), fun link => List.mem_map_of_mem⟩

end MeshNode
end CockroachChat

namespace CockroachChat.Reference

attribute [local instance] prims

/-- Node 2 has two links and hears the announce of node 1 `n` times over the first of them. -/
def echoed (n : ℕ) : List Call :=
  [up 0 0, up 0 1] ++ (List.replicate n (arriving 1 0 (framesFrom 0 (linked 1)))).flatten

/-- The digest of that announce. -/
def echo : Digest := #v[240, 150, 1, 1, 1, 1, 1, 1]

/-- Two copies count, and the announce goes on. -/
theorem two_copies_released :
    ∃ e, (run (node 2 {}) (echoed 2)).scheduler.pending[echo]? = some e ∧
      { packet := e.packet, excludeLink := e.excludeLink } ∈ ((run (node 2 {}) (echoed 2)).at_ 500).relays := by
  obtain ⟨e, he⟩ : ∃ e, (run (node 2 {}) (echoed 2)).scheduler.pending[echo]? = some e :=
    Option.isSome_iff_exists.mp (by decide +kernel)
  have hdue : e.sendAtMs ≤ 500 := by
    have hat : ((run (node 2 {}) (echoed 2)).scheduler.pending[echo]?.map Pending.sendAtMs) = some 11 := by decide +kernel
    rw [he, Option.map_some, Option.some.injEq] at hat
    rw [hat]
    decide
  exact ⟨e, he, (MeshNode.released_iff_few_copies (node_initial 2 {}) (echoed 2) 500 echo e he hdue).1.mpr (by decide +kernel)⟩

/-- Three copies over one link, and nothing goes on. -/
theorem one_link_silences :
    ¬ ∀ (calls : List Call) (now : Millis) (d : Digest) (e : Pending) (link : LinkId),
      (run (node 2 {}) calls).scheduler.pending[d]? = some e → e.sendAtMs ≤ now →
      (∀ source ∈ MeshNode.counted (node 2 {}) calls d, source = some link) →
      { packet := e.packet, excludeLink := e.excludeLink } ∈ ((run (node 2 {}) calls).at_ now).relays := by
  intro h
  obtain ⟨e, he⟩ : ∃ e, (run (node 2 {}) (echoed 3)).scheduler.pending[echo]? = some e :=
    Option.isSome_iff_exists.mp (by decide +kernel)
  have hdue : e.sendAtMs ≤ 500 := by
    have hat : ((run (node 2 {}) (echoed 3)).scheduler.pending[echo]?.map Pending.sendAtMs) = some 11 := by decide +kernel
    rw [he, Option.map_some, Option.some.injEq] at hat
    rw [hat]
    decide
  have hnone : ((run (node 2 {}) (echoed 3)).at_ 500).relays = [] := by decide +kernel
  have hout := h (echoed 3) 500 echo e 0 he hdue (by decide +kernel)
  rw [hnone] at hout
  cases hout

end CockroachChat.Reference
