import CockroachChat.Sessions.Surroundings
import CockroachChat.Foundations.Maps

/-! # What a call puts out, marks and keeps

Whatever a node sends are frames of packets it built, of relays that are due, or of stored messages;
what enters its seen cache and its store is what it built or heard. -/
namespace CockroachChat
set_option autoImplicit false

/-- A store whose channel messages can be read off, with what each operation may add to them. -/
class ArchiveStore (S : Type) [Store S] where
  archived : S → List StoredMessage
  find : ∀ s d m, Store.messageByDigest s d = some m → m ∈ archived s
  put_channel : ∀ s msg m, m ∈ archived (Store.putChannelMessage s msg) → m = msg ∨ m ∈ archived s
  upsert_peer : ∀ s p m, m ∈ archived (Store.upsertPeer s p) → m ∈ archived s
  put_dm : ∀ s dm m, m ∈ archived (Store.putDm s dm) → m ∈ archived s
  queue : ∀ s fp b now m, m ∈ archived (Store.queueEnvelope s fp b now) → m ∈ archived s
  take_held : ∀ s fp m, m ∈ archived (Store.takeEnvelopes s fp).1 → m ∈ archived s
  delete_peer : ∀ s fp m, m ∈ archived (Store.deletePeer s fp) → m ∈ archived s
  delete_dms : ∀ s fp only m, m ∈ archived (Store.deleteDms s fp only) → m ∈ archived s
  wipe : ∀ s m, m ∉ archived (Store.panicWipe s)

namespace MemoryStore

def messages (s : MemoryStore) : List StoredMessage := s.channels.values.flatten

theorem mem_messages {s : MemoryStore} {m : StoredMessage} :
    m ∈ s.messages ↔ ∃ (channel : String) (msgs : List StoredMessage), s.channels[channel]? = some msgs ∧ m ∈ msgs := by
  unfold messages
  rw [Maps.values_eq, List.mem_flatten]
  constructor
  · rintro ⟨msgs, hmem, hm⟩
    obtain ⟨e, he, rfl⟩ := List.mem_map.mp hmem
    exact ⟨e.1, e.2, Std.ExtTreeMap.mem_toList_iff_getElem?_eq_some.mp he, hm⟩
  · rintro ⟨channel, msgs, hheld, hm⟩
    exact ⟨msgs, List.mem_map.mpr ⟨(channel, msgs), Std.ExtTreeMap.mem_toList_iff_getElem?_eq_some.mpr hheld, rfl⟩, hm⟩

theorem dropExcess_sublist (historyMax : ℕ) (msgs : List StoredMessage) (digests : Std.ExtTreeSet Digest) :
    (dropExcess historyMax msgs digests).1.Sublist msgs := by
  induction msgs generalizing digests with
  | nil => exact List.Sublist.refl _
  | cons m msgs ih =>
    rw [dropExcess]
    split_ifs
    · exact (ih _).trans (List.sublist_cons_self m msgs)
    · exact List.Sublist.refl _

theorem pruneChannel_messages (s : MemoryStore) (channel : String) (nowMs : Millis) {m : StoredMessage}
    (h : m ∈ (s.pruneChannel channel nowMs).messages) : m ∈ s.messages := by
  unfold pruneChannel at h
  cases hheld : s.channels[channel]? with
  | none => rwa [hheld] at h
  | some msgs =>
    rw [hheld] at h
    obtain ⟨c, kept, hkept, hm⟩ := mem_messages.mp h
    rw [Std.ExtTreeMap.getElem?_insert] at hkept
    split_ifs at hkept with hc hms
    · cases hkept
      have hsub := (dropExcess_sublist _ _ _).subset hm
      exact mem_messages.mpr ⟨channel, msgs, hheld, List.mem_of_mem_filter hsub⟩
    · cases hkept
      exact mem_messages.mpr ⟨channel, msgs, hheld, (dropExcess_sublist _ _ _).subset hm⟩
    · exact mem_messages.mpr ⟨c, kept, hkept, hm⟩

theorem putChannelMessage_messages (s : MemoryStore) (msg : StoredMessage) {m : StoredMessage}
    (h : m ∈ (s.putChannelMessage msg).messages) : m = msg ∨ m ∈ s.messages := by
  unfold putChannelMessage at h
  split_ifs at h with hknown
  · exact .inr h
  · obtain ⟨channel, msgs, hheld, hm⟩ := mem_messages.mp (pruneChannel_messages _ _ _ h)
    rw [Std.ExtTreeMap.getElem?_insert] at hheld
    split_ifs at hheld with hc
    · cases hheld
      have hsorted := (List.perm_insertionSort _ _).mem_iff.mp hm
      rcases List.mem_append.mp hsorted with hold | hnew
      · cases hprev : s.channels[msg.channel]? with
        | none =>
          rw [hprev] at hold
          cases hold
        | some prev =>
          rw [hprev] at hold
          exact .inr (mem_messages.mpr ⟨_, prev, hprev, hold⟩)
      · exact .inl (List.mem_singleton.mp hnew)
    · exact .inr (mem_messages.mpr ⟨channel, msgs, hheld, hm⟩)

instance : ArchiveStore MemoryStore where
  archived := messages
  find s d m h := by
    have hmem := List.mem_of_find?_eq_some h
    exact hmem
  put_channel s msg m h := putChannelMessage_messages s msg h
  upsert_peer _ _ _ h := h
  put_dm _ _ _ h := h
  queue _ _ _ _ _ h := h
  take_held _ _ _ h := h
  delete_peer _ _ _ h := h
  delete_dms s fp only m h := by
    have hsame : (s.deleteDms fp only).channels = s.channels := by
      unfold deleteDms
      split_ifs
      · split <;> rfl
      · rfl
    show m ∈ s.channels.values.flatten
    rw [← hsame]
    exact h
  wipe s m h := by
    obtain ⟨_, _, hheld, -⟩ := mem_messages.mp h
    simp [Store.panicWipe, panicWipe] at hheld

end MemoryStore
namespace SeenCache

/-- Making room only takes entries out. -/
theorem evictOldest_held {c : SeenCache} {d : Digest} (h : c.evictOldest.map[d]? ≠ none) : c.map[d]? ≠ none := by
  unfold evictOldest at h
  split at h
  · rw [Std.ExtTreeMap.getElem?_erase] at h
    split_ifs at h with hd
    · exact absurd rfl h
    · exact h
  · exact h

theorem observe_held {cfg : Tunables} {c : SeenCache} {digest d : Digest} {now : Millis}
    (h : (c.observe cfg digest now).1.map[d]? ≠ none) : c.map[d]? ≠ none ∨ digest = d := by
  by_cases hd : digest = d
  · exact .inr hd
  · left
    unfold observe at h
    split at h
    · simpa [Std.ExtTreeMap.getElem?_insert, hd] using h
    · simp only [Std.ExtTreeMap.getElem?_insert, Std.compare_eq_iff_eq, hd, if_false] at h
      split_ifs at h
      · exact evictOldest_held h
      · exact h

theorem evictExpired_held {cfg : Tunables} {c : SeenCache} {d : Digest} {now : Millis}
    (h : (c.evictExpired cfg now).map[d]? ≠ none) : c.map[d]? ≠ none := by
  intro hnone
  simp [evictExpired, hnone] at h

theorem marked_held [P : Prims] {cfg : Tunables} {c : SeenCache} {d : Digest} {now : Millis} {pkts : List Packet}
    (h : (c.marked cfg now pkts).map[d]? ≠ none) : c.map[d]? ≠ none ∨ ∃ pkt ∈ pkts, pkt.digest = d := by
  induction pkts generalizing c with
  | nil => exact .inl h
  | cons pkt pkts ih =>
    rcases ih h with h | ⟨q, hq, hd⟩
    · rcases observe_held h with h | hd
      · exact .inl h
      · exact .inr ⟨pkt, List.mem_cons_self, hd⟩
    · exact .inr ⟨q, List.mem_cons_of_mem _ hq, hd⟩

end SeenCache

variable [P : Prims] {S : Type} [Store S] [A : ArchiveStore S]

omit P in
theorem DmWrite.archived {s s' : S} (h : Relation.ReflTransGen DmWrite s s') {m : StoredMessage}
    (hm : m ∈ A.archived s') : m ∈ A.archived s := by
  induction h with
  | refl => exact hm
  | tail _ write ih =>
    apply ih
    cases write with
    | put dm => exact A.put_dm _ dm m hm
    | queue fp b now => exact A.queue _ fp b now m hm
    | take fp => exact A.take_held _ fp m hm

namespace MeshNode

/-- The packet that a call completes. -/
def heard (s : MeshNode S) : Action → Option Packet
  | .transport (.frameReceived _ frame) => s.assembled frame
  | _ => none

/-- The packet that a call hands to its handler: completed, fresh, and let through by the limiter. -/
def taken (s : MeshNode S) (a : Action) : Option Packet := (s.heard a).filter fun pkt => s.accepts pkt

omit A in
/-- A frame is bookkeeping, or its packet is taken in and handled between bookkeeping. -/
theorem onFrame_taken (s : MeshNode S) (link : LinkId) (frame : Bytes) :
    match s.taken (.transport (.frameReceived link frame)) with
    | none => Bookkept s (s.onFrame link frame)
    | some pkt => ∃ t, Bookkept s t ∧ s.onFrame link frame = (t.dispatch link pkt).maybeRelay link pkt ∧
        (pkt.msgType ≠ .syncRequest → t.trace = s.trace) := by
  have hheard : s.heard (.transport (.frameReceived link frame)) = s.assembled frame := rfl
  rw [onFrame_eq, taken, hheard]
  cases s.assembled frame with
  | none => exact ⟨rfl⟩
  | some pkt =>
    have htag := tagged_bookkept (s.fed frame) link pkt
    have hobserved : Bookkept s (((s.fed frame).tagged link pkt).observed pkt) := .trans ⟨rfl⟩ (htag.trans ⟨rfl⟩)
    have hcharged : Bookkept s ((((s.fed frame).tagged link pkt).observed pkt).charged pkt) := hobserved.trans ⟨rfl⟩
    have haccepts : ((s.fed frame).tagged link pkt).accepts pkt = s.accepts pkt := tagged_accepts (s.fed frame) link pkt
    rw [Option.filter_some, ← haccepts, accepts]
    simp only
    rw [onPacket_phased]
    by_cases hfresh : ((s.fed frame).tagged link pkt).fresh pkt = true
    · by_cases hadmits : (((s.fed frame).tagged link pkt).observed pkt).admits pkt = true
      · simp only [hfresh, hadmits, Bool.and_self, if_true]
        refine ⟨_, hcharged, rfl, fun hother => ?_⟩
        simp [charged, observed, tagged, hother, fed]
      · simp only [hfresh, hadmits, Bool.and_false, if_true, Bool.false_eq_true, if_false]
        exact hcharged
    · simp only [hfresh, Bool.false_and, Bool.false_eq_true, if_false]
      exact hobserved

/-- What may come out of a step that may send the packet bytes `known`, hears `heard` and takes in
`taken`: besides, it sends, marks and keeps only what it builds. -/
def Yields (known : Bytes → Prop) (heard taken : Option Packet) (s s' : MeshNode S) : Prop :=
  ∃ os, s'.trace = s.trace ++ os ∧
    (∀ link f, Obs.send link f ∈ os → (∃ pkt ∈ os.filterMap Obs.built, Framed pkt.encode f) ∨ ∃ b, known b ∧ Framed b f) ∧
    (∀ d : Digest, s'.seen.map[d]? ≠ none → s.seen.map[d]? ≠ none ∨ (∃ pkt ∈ os.filterMap Obs.built, pkt.digest = d) ∨
      ∃ pkt ∈ heard, pkt.digest = d) ∧
    ∀ m ∈ A.archived s'.store, m ∈ A.archived s.store ∨ (∃ pkt ∈ os.filterMap Obs.built, m.raw = pkt.encode) ∨
      ∃ pkt ∈ taken, pkt.msgType = .channelMessage ∧ m.raw = pkt.encode

section Yields
variable {known : Bytes → Prop} {heard taken : Option Packet} {s s₁ s₂ : MeshNode S}

theorem Yields.trans (h₁ : Yields known heard taken s s₁) (h₂ : Yields known heard taken s₁ s₂) :
    Yields known heard taken s s₂ := by
  obtain ⟨os₁, htr₁, hsend₁, hseen₁, harch₁⟩ := h₁
  obtain ⟨os₂, htr₂, hsend₂, hseen₂, harch₂⟩ := h₂
  have hleft : ∀ pkt ∈ os₁.filterMap Obs.built, pkt ∈ (os₁ ++ os₂).filterMap Obs.built := by
    intro pkt hpkt
    rw [List.filterMap_append]
    exact List.mem_append_left _ hpkt
  have hright : ∀ pkt ∈ os₂.filterMap Obs.built, pkt ∈ (os₁ ++ os₂).filterMap Obs.built := by
    intro pkt hpkt
    rw [List.filterMap_append]
    exact List.mem_append_right _ hpkt
  refine ⟨os₁ ++ os₂, by rw [htr₂, htr₁, List.append_assoc], ?_, ?_, ?_⟩
  · intro link f hmem
    rcases List.mem_append.mp hmem with hmem | hmem
    · exact (hsend₁ link f hmem).imp (fun ⟨pkt, hpkt, h⟩ => ⟨pkt, hleft pkt hpkt, h⟩) id
    · exact (hsend₂ link f hmem).imp (fun ⟨pkt, hpkt, h⟩ => ⟨pkt, hright pkt hpkt, h⟩) id
  · intro d hd
    rcases hseen₂ d hd with hd | ⟨pkt, hpkt, h⟩ | h
    · exact (hseen₁ d hd).imp id (Or.imp (fun ⟨pkt, hpkt, h⟩ => ⟨pkt, hleft pkt hpkt, h⟩) id)
    · exact .inr (.inl ⟨pkt, hright pkt hpkt, h⟩)
    · exact .inr (.inr h)
  · intro m hm
    rcases harch₂ m hm with hm | ⟨pkt, hpkt, h⟩ | h
    · exact (harch₁ m hm).imp id (Or.imp (fun ⟨pkt, hpkt, h⟩ => ⟨pkt, hleft pkt hpkt, h⟩) id)
    · exact .inr (.inl ⟨pkt, hright pkt hpkt, h⟩)
    · exact .inr (.inr h)

/-- A step that says nothing outwardly, and adds nothing to the cache and the store. -/
theorem Yields.of_quiet (os : List Obs) (trace : s₁.trace = s.trace ++ os) (quiet : ∀ o ∈ os, o.outward = false)
    (seen : ∀ d : Digest, s₁.seen.map[d]? ≠ none → s.seen.map[d]? ≠ none)
    (store : ∀ m ∈ A.archived s₁.store, m ∈ A.archived s.store) : Yields known heard taken s s₁ := by
  refine ⟨os, trace, fun link f hmem => ?_, fun d hd => .inl (seen d hd), fun m hm => .inl (store m hm)⟩
  exact absurd (quiet _ hmem) (by simp [Obs.outward])

theorem Yields.refl : Yields known heard taken s s :=
  .of_quiet [] (List.append_nil _).symm (by simp) (fun _ h => h) fun _ h => h

theorem DmOnly.yields (h : DmOnly s s₁) : Yields known heard taken s s₁ := by
  obtain ⟨os, htr, hseen, hsent, -⟩ := h.marks
  refine ⟨os, htr, fun link f hmem => .inl (hsent link f hmem), fun d hd => ?_, fun m hm => .inl (DmWrite.archived h.store hm)⟩
  rw [hseen] at hd
  exact (SeenCache.marked_held hd).imp id .inl

theorem emit_yields (s : MeshNode S) (e : MeshEvent) : Yields known heard taken s (s.emit e) :=
  .of_quiet [.event e none] rfl (by simp [Obs.outward]) (fun _ h => h) fun _ h => h

/-- A packet of our own goes out. -/
theorem flood_yields (s : MeshNode S) (pkt : Packet) : Yields known heard taken s (s.flood pkt) := by
  have hbuilt : (Obs.originate pkt :: s.broadcastObs pkt none).filterMap Obs.built = [pkt] := by
    rw [List.filterMap_cons_some (show Obs.built (.originate pkt) = some pkt from rfl), filterMap_broadcastObs]
  refine ⟨_, rfl, fun link f hmem => .inl (accounted_flood s pkt none link f hmem), fun d hd => ?_, fun m hm => .inl hm⟩
  rw [hbuilt]
  exact (SeenCache.observe_held hd).imp id fun h => .inl ⟨pkt, List.mem_singleton_self pkt, h⟩

end Yields

/-! ## The handlers -/

section Handlers
variable {known : Bytes → Prop} {heard taken : Option Packet}

theorem Yields.foldl {β : Type} (body : MeshNode S → β → MeshNode S)
    (hbody : ∀ t b, Yields known heard taken t (body t b)) (l : List β) (s : MeshNode S) :
    Yields known heard taken s (l.foldl body s) := by
  induction l generalizing s with
  | nil => exact .refl
  | cons b l ih => exact (hbody s b).trans (ih (body s b))

theorem dedupLinks_yields (s : MeshNode S) : Yields known heard taken s s.dedupLinks := by
  refine .trans ?_ (.foldl closeLink (fun t id => ?_) s.resolveLinks.redundantLinks s.resolveLinks)
  · exact .of_quiet [] (List.append_nil _).symm (by simp) (fun _ h => h) fun _ h => h
  · exact .of_quiet [.close id] rfl (by simp [Obs.outward]) (fun _ h => h) fun _ h => h

theorem sendSyncRequests_yields (s : MeshNode S) (link : LinkId) :
    Yields known heard taken s (s.sendSyncRequests link) := by
  refine .foldl _ (fun t channel => ?_) s.subscribed.toList s
  let pkt := t.syncPacket channel
  have hsend : (t.note (.originate pkt)).sendOnLink link pkt = { t with
      trace := t.trace ++ .originate pkt :: sendObs link pkt.encode pkt.digest (t.linkMtu link) } := by
    rw [sendOnLink, sendBytes_eq]
    simp [note, linkMtu]
  show Yields known heard taken t ((t.note (.originate pkt)).sendOnLink link pkt)
  rw [hsend]
  refine ⟨_, rfl, fun l f hmem => .inl ⟨pkt, ?_, ?_⟩, fun d h => .inl h, fun m h => .inl h⟩
  · rw [List.filterMap_cons_some (show Obs.built (.originate pkt) = some pkt from rfl)]
    exact List.mem_cons_self
  · exact (framed_of_sendObs ((List.mem_cons.mp hmem).resolve_left Obs.noConfusion)).2

theorem tagged_yields (s : MeshNode S) (link : LinkId) (pkt : Packet) : Yields known heard taken s (s.tagged link pkt) := by
  unfold tagged noteLinkIdentity
  split_ifs
  · cases s.links[link]? with
    | none => exact dedupLinks_yields s
    | some l =>
      simp only
      split_ifs
      · refine .trans ?_ (dedupLinks_yields _)
        exact .of_quiet [] (List.append_nil _).symm (by simp) (fun _ h => h) fun _ h => h
      · exact dedupLinks_yields s
  · exact .refl

theorem handleAnnounce_yields (s : MeshNode S) (pkt : Packet) : Yields known heard taken s (s.handleAnnounce pkt) := by
  rcases handleAnnounce_cases s pkt with heq | ⟨ed, dh, nick, vk, -, -, -, heq⟩
  · rw [heq]
    exact .refl
  · rw [heq]
    refine .trans (.trans ?_ (dedupLinks_yields _)) (deliverHeld_dmOnly _ _).yields
    have hrecord : ∀ (t : MeshNode S) (fp : Fingerprint), Yields known heard taken t (t.recordPeer fp pkt) := fun t fp =>
      .of_quiet [] (List.append_nil _).symm (by simp) (fun _ h => h) fun m h => A.upsert_peer _ _ m h
    unfold announced
    simp only
    refine .trans (.trans (.trans ?_ (noteKeyChange_dmOnly _ _ _ _).yields) (hrecord _ _)) (emit_yields _ _)
    exact .of_quiet [.accept pkt] rfl (by simp [Obs.outward]) (fun _ h => h) fun _ h => h

theorem handleChannel_yields (s : MeshNode S) {pkt : Packet} (take : pkt ∈ taken) (kind : pkt.msgType = .channelMessage) :
    Yields known heard taken s (s.handleChannel pkt) := by
  rcases handleChannel_update s pkt with heq | ⟨channel, text, verified, -, -, heq⟩
  · rw [heq]
    exact .refl
  · have hput : Yields known heard taken s
        { s with store := Store.putChannelMessage s.store (storedMessage pkt channel text) } := by
      refine ⟨[], (List.append_nil _).symm, by simp, fun d h => .inl h, fun m hm => ?_⟩
      rcases A.put_channel _ _ m hm with rfl | hm
      · exact .inr (.inr ⟨pkt, take, kind, rfl⟩)
      · exact .inl hm
    rw [heq]
    simp only
    split_ifs
    · exact hput.trans (emit_yields _ _)
    · exact hput

/-- Sync answers are stored messages. -/
theorem handleSyncRequest_yields (s : MeshNode S) (link : LinkId) (pkt : Packet)
    (stored : ∀ m ∈ A.archived s.store, known m.raw) : Yields known heard taken s (s.handleSyncRequest link pkt) := by
  have hone : ∀ (t : MeshNode S) (digest : Digest), t.store = s.store →
      Yields known heard taken t (t.resendStored link digest) ∧ (t.resendStored link digest).store = s.store := by
    intro t digest hstore
    unfold resendStored
    cases hfind : Store.messageByDigest t.store digest with
    | none => exact ⟨.refl, hstore⟩
    | some m =>
      simp only
      split_ifs
      · rw [sendBytes_eq]
        refine ⟨⟨_, rfl, fun l f hmem => .inr ⟨m.raw, stored m ?_, (framed_of_sendObs hmem).2⟩, fun d h => .inl h,
          fun m h => .inl h⟩, hstore⟩
        rw [← hstore]
        exact A.find _ _ _ hfind
      · exact ⟨.refl, hstore⟩
  have hfold : ∀ (l : List Digest) (t : MeshNode S), t.store = s.store →
      Yields known heard taken t (l.foldl (fun t digest => t.resendStored link digest) t) := by
    intro l
    induction l with
    | nil => exact fun t _ => .refl
    | cons digest l ih =>
      intro t hstore
      obtain ⟨hyields, hstore'⟩ := hone t digest hstore
      exact hyields.trans (ih _ hstore')
  unfold handleSyncRequest
  cases decodeSync pkt.payload with
  | none => exact .refl
  | some remote => exact hfold _ s rfl

theorem dispatch_yields (s : MeshNode S) (link : LinkId) {pkt : Packet} (take : pkt ∈ taken)
    (stored : ∀ m ∈ A.archived s.store, known m.raw) : Yields known heard taken s (s.dispatch link pkt) := by
  unfold dispatch
  split
  · exact handleAnnounce_yields s pkt
  · rename_i kind
    exact handleChannel_yields s take kind
  · exact handleSyncRequest_yields s link pkt stored
  · exact (handleNoiseHandshake_dmOnly s pkt).yields
  · exact (handleDirectMessage_dmOnly s pkt).yields
  · exact .refl

theorem onPacket_yields (s : MeshNode S) (link : LinkId) {pkt : Packet} (hear : pkt ∈ heard)
    (take : s.accepts pkt = true → pkt ∈ taken) (stored : ∀ m ∈ A.archived s.store, known m.raw) :
    Yields known heard taken s (s.onPacket link pkt) := by
  have htag : Yields known heard taken s (s.tagged link pkt) := tagged_yields s link pkt
  have hobserved : Yields known heard taken s ((s.tagged link pkt).observed pkt) := by
    refine htag.trans ⟨[], (List.append_nil _).symm, by simp, fun d h => ?_, fun m h => .inl h⟩
    exact (SeenCache.observe_held h).imp id fun hd => .inr ⟨pkt, hear, hd⟩
  have hcharged : Yields known heard taken s (((s.tagged link pkt).observed pkt).charged pkt) :=
    hobserved.trans (.of_quiet [] (List.append_nil _).symm (by simp) (fun _ h => h) fun _ h => h)
  have hstore : (((s.tagged link pkt).observed pkt).charged pkt).store = s.store := by
    obtain ⟨links, os, heq, -⟩ := tagged_update s link pkt
    rw [heq]
    rfl
  rw [onPacket_phased]
  split_ifs with hfresh hadmits
  · have haccepts : s.accepts pkt = true := by
      rw [← tagged_accepts s link, accepts, hfresh, hadmits]
      rfl
    refine .trans (hcharged.trans (dispatch_yields _ link (take haccepts) (by rwa [hstore]))) ?_
    obtain ⟨rng, scheduler, heq⟩ := maybeRelay_update
      ((((s.tagged link pkt).observed pkt).charged pkt).dispatch link pkt) link pkt
    rw [heq]
    exact .of_quiet [] (List.append_nil _).symm (by simp) (fun _ h => h) fun _ h => h
  · exact hcharged
  · exact hobserved

end Handlers

/-! ## Every call -/

/-- The packets that a call may send besides what it builds: relays that are due, and stored
messages. -/
def Passable (s : MeshNode S) (a : Action) (b : Bytes) : Prop :=
  (a = .tick ∧ ∃ r ∈ s.relays, b = r.packet.encode) ∨ ∃ m ∈ A.archived s.store, b = m.raw

theorem act_yields (s : MeshNode S) (a : Action) : Yields (s.Passable a) (s.heard a) (s.taken a) s (s.act a) := by
  have htables : ∀ {known : Bytes → Prop} {heard taken : Option Packet} {t u : MeshNode S}, u.trace = t.trace →
      u.seen = t.seen → (∀ m ∈ A.archived u.store, m ∈ A.archived t.store) → Yields known heard taken t u := by
    intro known heard taken t u htrace hseen hstore
    exact .of_quiet [] (by rw [htrace, List.append_nil]) (by simp) (fun d h => hseen ▸ h) hstore
  cases a with
  | transport ev =>
    cases ev with
    | linkUp link mtu =>
      simp only [act, onTransportEvent]
      rw [announce_eq]
      refine .trans (.trans ?_ (flood_yields _ _)) (sendSyncRequests_yields _ link)
      exact htables rfl rfl fun _ h => h
    | linkDown link =>
      refine .trans ?_ (emit_yields _ _)
      exact htables rfl rfl fun _ h => h
    | mtuChanged link mtu =>
      simp only [act, onTransportEvent]
      split <;> exact htables rfl rfl fun _ h => h
    | frameReceived link frame =>
      have hfed : Yields (s.Passable (.transport (.frameReceived link frame)))
          (s.heard (.transport (.frameReceived link frame))) (s.taken (.transport (.frameReceived link frame))) s
          (s.fed frame) := htables rfl rfl fun _ h => h
      have hact : s.act (.transport (.frameReceived link frame)) = s.onFrame link frame := rfl
      rw [hact, onFrame_eq]
      cases hpkt : s.assembled frame with
      | none => exact hfed
      | some pkt =>
        have hheard : s.heard (.transport (.frameReceived link frame)) = some pkt := hpkt
        refine hfed.trans (onPacket_yields _ link (by rw [hheard]; rfl) (fun haccepts => ?_) fun m hm => .inr ⟨m, hm, rfl⟩)
        have hsame : s.accepts pkt = true := haccepts
        rw [taken, hheard, Option.filter_some, if_pos hsame]
        rfl
  | tick =>
    have hswept : Yields (s.Passable .tick) (s.heard .tick) (s.taken .tick) s s.swept := by
      rw [swept_eq]
      refine ⟨_, rfl, fun link f hmem => ?_, fun d h => .inl (SeenCache.evictExpired_held h), fun m h => .inl h⟩
      obtain ⟨r, hr, hmem⟩ := List.mem_flatMap.mp hmem
      exact .inr ⟨r.packet.encode, .inl ⟨rfl, r, hr, rfl⟩, framed_of_broadcastObs hmem⟩
    exact hswept.trans (retryStalledHandshakes_dmOnly s.swept s.clock).yields
  | takeEvents => exact htables rfl rfl fun _ h => h
  | joinChannel name => exact htables rfl rfl fun _ h => h
  | sendChannelMessage channel text =>
    rw [act, sendChannelMessage_eq]
    have hbuilt : ∀ (t : MeshNode S) (pkt : Packet),
        pkt ∈ (Obs.originate pkt :: t.broadcastObs pkt none).filterMap Obs.built := by
      intro t pkt
      rw [List.filterMap_cons_some (show Obs.built (.originate pkt) = some pkt from rfl)]
      exact List.mem_cons_self
    refine ⟨_, rfl, fun link f hmem => .inl (accounted_flood _ _ none link f hmem), fun d hd => ?_, fun m hm => ?_⟩
    · exact (SeenCache.observe_held hd).imp id fun h => .inl ⟨_, hbuilt _ _, h⟩
    · rcases A.put_channel _ _ m hm with rfl | hm
      · exact .inr (.inl ⟨_, hbuilt _ _, rfl⟩)
      · exact .inl hm
  | announce =>
    rw [act, announce_eq]
    exact flood_yields s _
  | sendDm fp text => exact (sendDm_dmOnly s fp text).yields
  | startDmSession fp => exact (startDmSession_dmOnly s fp).yields
  | verifyPeer fp =>
    refine .trans ?_ (trySendVerifyNotice_dmOnly _ fp).yields
    exact htables rfl rfl fun m h => A.upsert_peer _ _ m (A.delete_dms _ _ _ m h)
  | unverifyPeer fp =>
    rw [act, unverifyPeer]
    cases Store.getPeer s.store fp with
    | none => exact htables rfl rfl fun m h => A.delete_dms _ _ _ m h
    | some peer => exact htables rfl rfl fun m h => A.upsert_peer _ _ m (A.delete_dms _ _ _ m h)
  | forgetPeer fp => exact htables rfl rfl fun m h => A.delete_dms _ _ _ m (A.delete_peer _ _ m h)
  | setPetname fp name => exact htables rfl rfl fun m h => A.upsert_peer _ _ m h
  | panicWipe => exact htables rfl rfl fun m h => absurd h (A.wipe _ m)

end MeshNode
end CockroachChat
