import CockroachChat.Sessions.Surroundings
import CockroachChat.Foundations.Maps
import CockroachChat.Core.PacketCodec
import CockroachChat.Node.ReferenceNodes

/-! # Relaying

A packet that a node hears for the first time may wait in the scheduler with its TTL lowered by one
and leave on a later tick. What leaves is traced back to the copy that arrived. -/
namespace CockroachChat
set_option autoImplicit false

/-! ## The scheduler -/

namespace RelayScheduler

theorem due_pending (cfg : Tunables) (r : RelayScheduler) (now : Millis) (seen : SeenCache) (d : Digest) :
    (r.due cfg now seen).1.pending[d]? = r.pending[d]?.filter fun e => now < e.sendAtMs := by
  have hfold : ∀ (l : List (Digest × Pending)) (m : Std.ExtTreeMap Digest Pending),
      l.foldl (fun m e => m.erase e.1) m = (l.map Prod.fst).foldl (fun m k => m.erase k) m := by
    intro l m
    rw [List.foldl_map]
  unfold due
  simp only [hfold, Maps.getElem?_foldl_erase]
  cases hd : r.pending[d]? with
  | none => simp
  | some e =>
    have hmem : d ∈ (r.pending.toList.filter fun e => e.2.sendAtMs ≤ now).map Prod.fst ↔ e.sendAtMs ≤ now := by
      simp only [List.mem_map, List.mem_filter, decide_eq_true_eq, Prod.exists, exists_and_right, exists_eq_right,
        Std.ExtTreeMap.mem_toList_iff_getElem?_eq_some, hd, Option.some.injEq]
      exact ⟨fun ⟨e', h, hle⟩ => h ▸ hle, fun h => ⟨e, rfl, h⟩⟩
    by_cases hle : e.sendAtMs ≤ now
    · rw [if_pos (hmem.mpr hle), Option.filter_some, if_neg (by simpa using hle)]
    · rw [if_neg (fun h => hle (hmem.mp h)), Option.filter_some, if_pos (by simpa using hle)]

theorem schedule_pending (r : RelayScheduler) (digest d : Digest) (q : Packet) (link : LinkId) (delay now : Millis) :
    (r.schedule digest q link delay now).pending[d]? =
      if digest = d ∧ r.pending[d]? = none then some { packet := q, sendAtMs := now + delay, excludeLink := link }
      else r.pending[d]? := by
  rw [schedule, Std.ExtTreeMap.getElem?_insertIfNew]
  by_cases h : digest = d
  · subst h
    simp only [Std.ExtTreeMap.mem_iff_isSome_getElem?, Option.not_isSome_iff_eq_none, Std.compare_eq_iff_eq]
  · simp [h]

/-- What is released: the entries whose time has come and that were not overheard too often. -/
theorem mem_due {cfg : Tunables} {r : RelayScheduler} {now : Millis} {seen : SeenCache} {out : DueRelay} :
    out ∈ (r.due cfg now seen).2 ↔ ∃ d e, r.pending[d]? = some e ∧ e.sendAtMs ≤ now ∧
      seen.hearCount d < cfg.suppressionThreshold ∧ out = { packet := e.packet, excludeLink := e.excludeLink } := by
  simp only [due, List.mem_map, List.mem_filter, decide_eq_true_eq, Prod.exists,
    Std.ExtTreeMap.mem_toList_iff_getElem?_eq_some, and_assoc, eq_comm (a := out)]

variable [P : Prims]

/-- Where entries are filed under their digests, a released digest is released once and no longer
pending. -/
theorem count_due_le {cfg : Tunables} {r : RelayScheduler} {now : Millis} {seen : SeenCache}
    (filed : ∀ (d : Digest) (e : Pending), r.pending[d]? = some e → e.packet.digest = d) (d : Digest) :
    ((r.due cfg now seen).2.map (·.packet.digest)).count d + ((r.due cfg now seen).1.pending[d]?).toList.length ≤
      (r.pending[d]?).toList.length := by
  let out := (r.pending.toList.filter fun e => e.2.sendAtMs ≤ now).filter fun e => seen.hearCount e.1 < cfg.suppressionThreshold
  have hkeys : (r.due cfg now seen).2.map (·.packet.digest) = out.map Prod.fst := by
    rw [due, List.map_map]
    apply List.map_congr_left
    intro e he
    have hmem := (List.mem_filter.mp (List.mem_filter.mp he).1).1
    exact filed e.1 e.2 (Std.ExtTreeMap.mem_toList_iff_getElem?_eq_some.mp hmem)
  have hnodup : (out.map Prod.fst).Nodup := by
    have hall := r.pending.nodup_keys
    rw [← Std.ExtTreeMap.map_fst_toList_eq_keys] at hall
    exact (hall.sublist ((List.filter_sublist.trans List.filter_sublist).map _))
  rw [hkeys, due_pending]
  by_cases hd : d ∈ out.map Prod.fst
  · obtain ⟨e, he, rfl⟩ := List.mem_map.mp hd
    obtain ⟨hmem, hready⟩ := List.mem_filter.mp (List.mem_filter.mp he).1
    have hheld := Std.ExtTreeMap.mem_toList_iff_getElem?_eq_some.mp hmem
    have hgone : ¬ now < e.2.sendAtMs := Nat.not_lt.mpr (by simpa using hready)
    rw [List.count_eq_one_of_mem hnodup hd, hheld, Option.filter_some, if_neg (by simpa using hgone)]
    rfl
  · rw [List.count_eq_zero_of_not_mem hd]
    cases r.pending[d]? with
    | none => simp
    | some e =>
      rw [Option.filter_some]
      split_ifs <;> simp

end RelayScheduler

variable [P : Prims] {S : Type}

/-! ## What arrives and what leaves -/

/-- The packet bytes that a call completes, with the link they came over. -/
def MeshNode.arrival (s : MeshNode S) : Action → Option (LinkId × Bytes)
  | .transport (.frameReceived link frame) => match (s.reassembler.ingest s.cfg frame s.clock).2 with
    | .ok (some bytes) => some (link, bytes)
    | _ => none
  | _ => none

def Obs.sentOn (link : LinkId) : Obs → Option Bytes
  | .send l frame => if l = link then some frame else none
  | _ => none

namespace MeshNode

/-- The digests a call rebroadcasts. -/
def rebroadcast (s : MeshNode S) (c : Call) : List Digest :=
  match c.action with
  | .tick => (s.at_ c.now).relays.map (·.packet.digest)
  | _ => []

/-- The digests that the seen cache reports as new when a call hears them. -/
def heardNew (s : MeshNode S) (c : Call) : List Digest :=
  match (s.at_ c.now).arrival c.action with
  | some (_, bytes) => match Packet.decode bytes with
    | .ok pkt => if (s.at_ c.now).fresh pkt then [pkt.digest] else []
    | .error _ => []
  | none => []

/-! ### Frames -/

omit P in
theorem filterMap_sentOn_sendObs (link l : LinkId) (bytes : Bytes) (digest : Digest) (mtu : ℕ) :
    (sendObs l bytes digest mtu).filterMap (Obs.sentOn link) =
      if l = link then ((split bytes digest mtu).toOption.getD []) else [] := by
  unfold sendObs
  cases split bytes digest mtu with
  | error e => simp [Except.toOption]
  | ok frames =>
    simp only [List.filterMap_map, Except.toOption, Option.getD_some]
    split_ifs with h
    · subst h
      induction frames with
      | nil => rfl
      | cons f frames ih => simpa [Obs.sentOn] using ih
    · rw [List.filterMap_eq_nil_iff]
      intro f _
      simp [Obs.sentOn, h]

/-- A rebroadcast goes out on every live link but the one it arrived on. -/
theorem filterMap_sentOn_forwarded (s : MeshNode S) (r : DueRelay) (link : LinkId) :
    (s.forwarded r).filterMap (Obs.sentOn link) = match s.links[link]? with
      | some l => if link = r.excludeLink then [] else (split r.packet.encode r.packet.digest l.mtu).toOption.getD []
      | none => [] := by
  let g : LinkId × LinkState → List Bytes := fun e =>
    if some e.1 ≠ some r.excludeLink then
      (sendObs e.1 r.packet.encode r.packet.digest e.2.mtu).filterMap (Obs.sentOn link)
    else []
  have hlist : (s.forwarded r).filterMap (Obs.sentOn link) = s.links.toList.flatMap g := by
    rw [forwarded, broadcastObs, List.filterMap_flatMap]
    induction s.links.toList with
    | nil => rfl
    | cons e l ih =>
      have hg : g e = if some e.1 ≠ some r.excludeLink then
          (sendObs e.1 r.packet.encode r.packet.digest e.2.mtu).filterMap (Obs.sentOn link) else [] := rfl
      rw [List.filter_cons, List.flatMap_cons, hg, ← ih]
      by_cases h : some e.1 ≠ some r.excludeLink
      · rw [if_pos (decide_eq_true h), if_pos h, List.flatMap_cons]
      · rw [if_neg (by simpa using h), if_neg h, List.nil_append]
  have hother : ∀ e, e.1 ≠ link → g e = [] := by
    intro e he
    simp only [g, filterMap_sentOn_sendObs, if_neg he, ite_self]
  rw [hlist, Maps.flatMap_toList g link _ hother]
  cases s.links[link]? with
  | none => rfl
  | some l =>
    by_cases h : link = r.excludeLink
    · simp [g, h]
    · simp [g, h, filterMap_sentOn_sendObs]

variable [Store S]

/-! ### Scheduling -/

omit [Store S] in
theorem maybeRelay_scheduler (s : MeshNode S) (link : LinkId) (pkt : Packet) :
    (s.maybeRelay link pkt).scheduler = s.scheduler ∨ ∃ delay, 2 ≤ pkt.ttl ∧
      (s.maybeRelay link pkt).scheduler = s.scheduler.schedule pkt.digest { pkt with ttl := pkt.ttl - 1 } link delay s.clock := by
  unfold maybeRelay
  split_ifs with httl
  · exact .inl rfl
  · rcases shouldRelay s.links.size s.cfg s.rng with ⟨rng, go⟩
    cases go with
    | false => exact .inl rfl
    | true =>
      refine .inr ⟨(relayDelay s.cfg rng).2, ?_, rfl⟩
      rw [UInt8.le_iff_toNat_le]
      rw [UInt8.le_iff_toNat_le] at httl
      exact Nat.not_le.mp httl

theorem onPacket_scheduler (s : MeshNode S) (link : LinkId) (pkt : Packet) :
    (s.onPacket link pkt).scheduler = s.scheduler ∨ ∃ delay now, 2 ≤ pkt.ttl ∧ s.accepts pkt = true ∧
      (s.onPacket link pkt).scheduler = s.scheduler.schedule pkt.digest { pkt with ttl := pkt.ttl - 1 } link delay now := by
  obtain ⟨links, os, htag, -⟩ := tagged_update s link pkt
  have hkept : (s.tagged link pkt).scheduler = s.scheduler := by rw [htag]
  rw [onPacket_phased, ← tagged_accepts s link, accepts]
  split_ifs with h₁ h₂
  · have hdispatch : ((((s.tagged link pkt).observed pkt).charged pkt).dispatch link pkt).scheduler =
        (s.tagged link pkt).scheduler := congrArg Flow.scheduler (dispatch_flow _ link pkt)
    rcases maybeRelay_scheduler ((((s.tagged link pkt).observed pkt).charged pkt).dispatch link pkt) link pkt with
      heq | ⟨delay, httl, heq⟩
    · exact .inl (heq.trans (hdispatch.trans hkept))
    · refine .inr ⟨delay, ((((s.tagged link pkt).observed pkt).charged pkt).dispatch link pkt).clock, httl, by rw [h₁, h₂]; rfl, ?_⟩
      rw [heq, hdispatch, hkept]
  · exact .inl hkept
  · exact .inl hkept

/-- What a call does to the scheduler: a new packet may enter it, a tick releases what is due. -/
theorem exec_scheduler (s : MeshNode S) (c : Call) :
    (∃ link bytes pkt delay now, (s.at_ c.now).arrival c.action = some (link, bytes) ∧ Packet.decode bytes = .ok pkt ∧
      2 ≤ pkt.ttl ∧ (s.at_ c.now).accepts pkt = true ∧
      (exec s c).scheduler = s.scheduler.schedule pkt.digest { pkt with ttl := pkt.ttl - 1 } link delay now) ∨
    (c.action = .tick ∧ (exec s c).scheduler = (s.scheduler.due s.cfg c.now s.seen).1) ∨
    c.action ≠ .tick ∧ (exec s c).scheduler = s.scheduler := by
  obtain ⟨now, a⟩ := c
  by_cases hmoves : a.moves
  · cases a with
    | transport ev =>
      cases ev with
      | frameReceived link frame =>
        have hexec : exec s ⟨now, .transport (.frameReceived link frame)⟩ = (s.at_ now).onFrame link frame := rfl
        rw [hexec, onFrame_eq, assembled]
        simp only [arrival]
        cases hres : ((s.at_ now).reassembler.ingest (s.at_ now).cfg frame (s.at_ now).clock).2 with
        | error e => exact .inr (.inr ⟨Action.noConfusion, rfl⟩)
        | ok out =>
          cases out with
          | none => exact .inr (.inr ⟨Action.noConfusion, rfl⟩)
          | some bytes =>
            cases hdec : Packet.decode bytes with
            | error e => exact .inr (.inr ⟨Action.noConfusion, by simp only [hdec]; rfl⟩)
            | ok pkt =>
              simp only [hdec, Except.toOption]
              rcases onPacket_scheduler ((s.at_ now).fed frame) link pkt with heq | ⟨delay, now', httl, haccepts, heq⟩
              · exact .inr (.inr ⟨Action.noConfusion, heq⟩)
              · exact .inl ⟨link, bytes, pkt, delay, now', rfl, hdec, httl, haccepts, heq⟩
      | linkUp _ _ | linkDown _ | mtuChanged _ _ => exact hmoves.elim
    | tick =>
      have hretry : (s.at_ now).tick.scheduler = (s.at_ now).swept.scheduler :=
        (retryStalledHandshakes_dmOnly (s.at_ now).swept now).scheduler
      exact .inr (.inl ⟨rfl, hretry.trans (by rw [swept_eq]; rfl)⟩)
    | _ => exact hmoves.elim
  · refine .inr (.inr ⟨?_, congrArg Flow.scheduler (act_flow (s.at_ now) hmoves)⟩)
    rintro rfl
    exact hmoves trivial

/-! ### Where a pending packet comes from -/

/-- In the run, the copy `p` of a packet arrived as `bytes` over `link` when no copy was pending, and
`q` has been pending for it ever since. -/
def Waiting (s₀ : MeshNode S) (calls : List Call) (p : Packet) (bytes : Bytes) (q : Packet) (link : LinkId) : Prop :=
  ∃ pre c mid, calls = pre ++ c :: mid ∧
    ((Runs.run exec s₀ pre).at_ c.now).arrival c.action = some (link, bytes) ∧ Packet.decode bytes = .ok p ∧
    (Runs.run exec s₀ pre).scheduler.pending[p.digest]? = none ∧
    ∀ upto, upto <+: mid → ∃ sendAtMs, (Runs.run exec s₀ (pre ++ c :: upto)).scheduler.pending[p.digest]? =
      some { packet := q, sendAtMs, excludeLink := link }

theorem Waiting.decoded {s₀ : MeshNode S} {calls : List Call} {p q : Packet} {bytes : Bytes} {link : LinkId}
    (h : Waiting s₀ calls p bytes q link) : Packet.decode bytes = .ok p := by
  obtain ⟨_, _, _, -, -, hdecode, -⟩ := h
  exact hdecode

theorem Waiting.lowered {s₀ : MeshNode S} {calls : List Call} {p q : Packet} {bytes : Bytes} {link : LinkId}
    (h : Waiting s₀ calls p bytes q link) : 2 ≤ p.ttl ∧ q = { p with ttl := p.ttl - 1 } := by
  obtain ⟨pre, c, mid, -, harrival, hdecode, habsent, hsince⟩ := h
  obtain ⟨sendAt, hheld⟩ := hsince [] List.nil_prefix
  rw [Runs.run_snoc] at hheld
  rcases exec_scheduler (Runs.run exec s₀ pre) c with
    ⟨link', bytes', pkt, delay, now, harrival', hdecode', httl, -, hsched⟩ | ⟨-, hsched⟩ | ⟨-, hsched⟩
  · rw [harrival] at harrival'
    cases harrival'
    rw [hdecode] at hdecode'
    cases hdecode'
    rw [hsched, RelayScheduler.schedule_pending, if_pos ⟨rfl, habsent⟩] at hheld
    cases hheld
    exact ⟨httl, rfl⟩
  · rw [hsched, RelayScheduler.due_pending, habsent] at hheld
    cases hheld
  · rw [hsched, habsent] at hheld
    cases hheld

theorem Waiting.extend {s₀ : MeshNode S} {calls : List Call} {p q : Packet} {bytes : Bytes} {link : LinkId}
    (h : Waiting s₀ calls p bytes q link) (c : Call) {sendAtMs : Millis}
    (still : (Runs.run exec s₀ (calls ++ [c])).scheduler.pending[p.digest]? =
      some { packet := q, sendAtMs, excludeLink := link }) : Waiting s₀ (calls ++ [c]) p bytes q link := by
  obtain ⟨pre, c', mid, rfl, harrival, hdecode, habsent, hsince⟩ := h
  refine ⟨pre, c', mid ++ [c], by simp, harrival, hdecode, habsent, fun upto hupto => ?_⟩
  rcases List.prefix_concat_iff.mp hupto with rfl | hupto
  · exact ⟨sendAtMs, by simpa using still⟩
  · exact hsince upto hupto

/-- Every pending packet has been waiting since a copy of it arrived. -/
theorem pending_waiting {s₀ : MeshNode S} (start : s₀.scheduler.pending = ∅) (calls : List Call) (d : Digest) (e : Pending)
    (held : (Runs.run exec s₀ calls).scheduler.pending[d]? = some e) :
    ∃ p bytes, p.digest = d ∧ Waiting s₀ calls p bytes e.packet e.excludeLink := by
  induction calls using List.reverseRecOn generalizing e with
  | nil => simp [start] at held
  | append_singleton calls c ih =>
    have hkept : (Runs.run exec s₀ calls).scheduler.pending[d]? = some e →
        ∃ p bytes, p.digest = d ∧ Waiting s₀ (calls ++ [c]) p bytes e.packet e.excludeLink := by
      intro hbefore
      obtain ⟨p, bytes, rfl, hwaiting⟩ := ih e hbefore
      exact ⟨p, bytes, rfl, hwaiting.extend c held⟩
    have hnow := held
    rw [Runs.run_snoc] at hnow
    rcases exec_scheduler (Runs.run exec s₀ calls) c with
      ⟨link, bytes, pkt, delay, now, harrival, hdecode, -, -, hsched⟩ | ⟨-, hsched⟩ | ⟨-, hsched⟩
    · rw [hsched, RelayScheduler.schedule_pending] at hnow
      split_ifs at hnow with hnew
      · obtain ⟨rfl, habsent⟩ := hnew
        cases hnow
        refine ⟨pkt, bytes, rfl, calls, c, [], rfl, harrival, hdecode, habsent, fun upto hupto => ?_⟩
        obtain rfl := List.prefix_nil.mp hupto
        exact ⟨_, held⟩
      · exact hkept hnow
    · rw [hsched, RelayScheduler.due_pending] at hnow
      exact hkept (Option.mem_filter_iff.mp hnow).1
    · rw [hsched] at hnow
      exact hkept hnow

/-! ### How often -/

/-- Pending packets are filed under their digests. -/
def Filed (s : MeshNode S) : Prop := ∀ (d : Digest) (e : Pending), s.scheduler.pending[d]? = some e → e.packet.digest = d

theorem exec_filed {s : MeshNode S} (c : Call) (h : s.Filed) : (exec s c).Filed := by
  intro d e held
  rcases exec_scheduler s c with ⟨link, bytes, pkt, delay, now, -, -, -, -, hsched⟩ | ⟨-, hsched⟩ | ⟨-, hsched⟩
  · rw [hsched, RelayScheduler.schedule_pending] at held
    split_ifs at held with hnew
    · cases held
      exact hnew.1
    · exact h d e held
  · rw [hsched, RelayScheduler.due_pending] at held
    exact h d e (Option.mem_filter_iff.mp held).1
  · rw [hsched] at held
    exact h d e held

/-- One call rebroadcasts a digest no more often than it was pending or is heard new. -/
theorem exec_count {s : MeshNode S} (c : Call) (h : s.Filed) (d : Digest) :
    (s.rebroadcast c).count d + ((exec s c).scheduler.pending[d]?).toList.length ≤
      (s.heardNew c).count d + (s.scheduler.pending[d]?).toList.length := by
  rcases exec_scheduler s c with
    ⟨link, bytes, pkt, delay, now, harrival, hdecode, -, haccepts, hsched⟩ | ⟨htick, hsched⟩ | ⟨hquiet, hsched⟩
  · have hnothing : s.rebroadcast c = [] := by
      unfold rebroadcast
      split
      · rename_i htick
        rw [htick] at harrival
        cases harrival
      · rfl
    have hfresh : (s.at_ c.now).fresh pkt = true := (Bool.and_eq_true_iff.mp haccepts).1
    have hheard : s.heardNew c = [pkt.digest] := by
      simp only [heardNew, harrival, hdecode, hfresh, if_true]
    rw [hnothing, hheard, hsched, RelayScheduler.schedule_pending]
    split_ifs with hnew
    · simp [hnew]
    · simp
  · have hout : s.rebroadcast c = (s.scheduler.due s.cfg c.now s.seen).2.map (·.packet.digest) := by
      simp only [rebroadcast, htick]
      rfl
    rw [hout, hsched]
    exact (RelayScheduler.count_due_le h d).trans (Nat.le_add_left _ _)
  · have hnothing : s.rebroadcast c = [] := by
      unfold rebroadcast
      split
      · contradiction
      · rfl
    rw [hnothing, hsched]
    simp

/-! ### Along a path -/

/-- Some node took in the copy `p` and rebroadcast it as `q`. -/
def Passes (S : Type) [Store S] (p q : Packet) : Prop :=
  ∃ (s₀ : MeshNode S) (calls : List Call) (now : Millis) (bytes : Bytes) (link : LinkId),
    s₀.Initial ∧ Waiting s₀ calls p bytes q link ∧
      { packet := q, excludeLink := link } ∈ ((Runs.run exec s₀ calls).at_ now).relays

/-- A packet passed on by `n` nodes in a row. -/
inductive Travels (S : Type) [Store S] (p : Packet) : ℕ → Packet → Prop
  | start : Travels S p 0 p
  | hop {n : ℕ} {q r : Packet} (before : Travels S p n q) (pass : Passes S q r) : Travels S p (n + 1) r

theorem Travels.ttl {p q : Packet} {n : ℕ} (h : Travels S p n q) :
    q.ttl.toNat + n = p.ttl.toNat ∧ (0 < n → 1 ≤ q.ttl.toNat) := by
  induction h with
  | start => exact ⟨rfl, fun h => absurd h (Nat.lt_irrefl 0)⟩
  | hop before pass ih =>
    obtain ⟨_, _, _, _, _, -, hwaiting, -⟩ := pass
    obtain ⟨httl, rfl⟩ := hwaiting.lowered
    have hle : 2 ≤ _ := UInt8.le_iff_toNat_le.mp httl
    have hsub := UInt8.toNat_sub_of_le _ 1 (UInt8.le_iff_toNat_le.mpr (Nat.le_of_succ_le hle))
    have hone : (1 : UInt8).toNat = 1 := rfl
    rw [hsub, ← ih.1, hone]
    omega

/-! ### The discipline -/

omit P in
/-- A copy with one hop less is the copy with another TTL byte. -/
theorem encode_lowered {p : Packet} {bytes : Bytes} (h : Packet.decode bytes = .ok p) :
    p.ttl = Packet.byteAt bytes 3 ∧
      Packet.encode { p with ttl := p.ttl - 1 } = bytes.set 3 (Packet.byteAt bytes 3 - 1) := by
  obtain ⟨-, hlength, hparsed⟩ := (Packet.decode_eq_ok_iff bytes p).mp h
  have hback : p.encode = bytes := by rw [hparsed, Packet.encode_parsed hlength]
  have httl : p.ttl = Packet.byteAt bytes 3 := by rw [← hback]; rfl
  refine ⟨httl, ?_⟩
  rw [← httl, ← hback]
  rfl

/-- Over every run from the start: what a tick rebroadcasts is a copy that arrived with at least two
hops left, byte for byte but for one hop less; it goes out on every live link but that copy's; a
digest is rebroadcast at most once for each time it was heard new; and a packet of TTL `t` is passed
on at most `t - 1` times along any path. -/
theorem relay_discipline {s₀ : MeshNode S} (initial : s₀.Initial) (calls : List Call) :
    (∀ pre now post, calls = pre ++ ⟨now, .tick⟩ :: post →
      let s := (Runs.run exec s₀ pre).at_ now
      (∀ r ∈ s.relays, ∃ p bytes, Waiting s₀ pre p bytes r.packet r.excludeLink ∧ 2 ≤ Packet.byteAt bytes 3 ∧
        r.packet.encode = bytes.set 3 (Packet.byteAt bytes 3 - 1)) ∧
      s.swept.trace = s.trace ++ s.relays.flatMap s.forwarded ∧ DmOnly s.swept s.tick ∧
      ∀ r ∈ s.relays, ∀ link, (s.forwarded r).filterMap (Obs.sentOn link) = match s.links[link]? with
        | some l => if link = r.excludeLink then [] else (split r.packet.encode r.packet.digest l.mtu).toOption.getD []
        | none => []) ∧
    (∀ d, (Runs.outputs exec rebroadcast s₀ calls).count d ≤ (Runs.outputs exec heardNew s₀ calls).count d) ∧
    ∀ p n q, Travels S p n q → n ≤ p.ttl.toNat - 1 := by
  have hstart : s₀.scheduler.pending = ∅ := by
    obtain ⟨_, _, _, _, _, _, _, rfl⟩ := initial
    rfl
  refine ⟨fun pre now post _ => ?_, fun d => ?_, fun p n q h => ?_⟩
  · refine ⟨fun r hr => ?_, by rw [swept_eq], retryStalledHandshakes_dmOnly _ _, fun r _ link => filterMap_sentOn_forwarded _ r link⟩
    obtain ⟨d, e, hheld, -, -, rfl⟩ := RelayScheduler.mem_due.mp hr
    obtain ⟨p, bytes, -, hwaiting⟩ := pending_waiting hstart pre d e hheld
    obtain ⟨httl, hlowered⟩ := hwaiting.lowered
    obtain ⟨hbyte, hencode⟩ := encode_lowered hwaiting.decoded
    refine ⟨p, bytes, hwaiting, hbyte ▸ httl, ?_⟩
    rw [← hencode, ← hlowered]
  · have hfiled : s₀.Filed := by
      intro d e held
      simp [hstart] at held
    have hcount := Runs.outputs_count_le exec rebroadcast heardNew Filed (fun s c h => exec_filed c h) d
      (fun s => (s.scheduler.pending[d]?).toList.length) (fun s c h => exec_count c h d) s₀ hfiled calls
    simpa [hstart] using hcount
  · obtain ⟨hsum, hpos⟩ := h.ttl
    by_cases hn : 0 < n
    · have := hpos hn
      omega
    · omega

end MeshNode
end CockroachChat

namespace CockroachChat.Reference

attribute [local instance] prims

/-- Node 2 has two links, hears the announce of node 1 on the first, and its timer runs. -/
def passingOn : List Call :=
  [up 0 0, up 0 1] ++ arriving 1 0 (framesFrom 0 (linked 1)) ++ [⟨500, .tick⟩]

/-- One packet goes on, as many as were heard new. -/
theorem announce_passed_on :
    (Runs.outputs MeshNode.exec MeshNode.rebroadcast (node 2 {}) passingOn).length = 1 ∧
      ∀ d, (Runs.outputs MeshNode.exec MeshNode.rebroadcast (node 2 {}) passingOn).count d ≤
        (Runs.outputs MeshNode.exec MeshNode.heardNew (node 2 {}) passingOn).count d :=
  ⟨by decide +kernel, (MeshNode.relay_discipline (node_initial 2 {}) passingOn).2.1⟩

end CockroachChat.Reference
