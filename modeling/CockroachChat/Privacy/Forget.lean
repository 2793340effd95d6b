import CockroachChat.Sessions.SendOrder
import CockroachChat.Stores.Tables

/-! # Forgetting a peer

`forgetPeer` clears the peer's record, its thread and its session state. What is left is whatever the
store still holds in its queue for the peer: a later announce takes it up. -/
namespace CockroachChat
set_option autoImplicit false

/-- A store whose threads and queues can be read off, with what each operation may put into them. -/
class Ledger (S : Type) [Store S] where
  rows : S → Fingerprint → List StoredDm
  held : S → Fingerprint → List Bytes
  put_channel : ∀ (s : S) m, rows (Store.putChannelMessage s m) = rows s ∧ held (Store.putChannelMessage s m) = held s
  upsert_peer : ∀ (s : S) p, rows (Store.upsertPeer s p) = rows s ∧ held (Store.upsertPeer s p) = held s
  delete_peer : ∀ (s : S) fp, rows (Store.deletePeer s fp) = rows s ∧ held (Store.deletePeer s fp) = held s
  get_deleted : ∀ (s : S) fp, Store.getPeer (Store.deletePeer s fp) fp = none
  put_dm : ∀ (s : S) dm fp, rows (Store.putDm s dm) fp ⊆ if dm.peer = fp then dm :: rows s fp else rows s fp
  put_dm_held : ∀ (s : S) dm, held (Store.putDm s dm) = held s
  delete_dms : ∀ (s : S) fp only fp', rows (Store.deleteDms s fp only) fp' ⊆ rows s fp'
  delete_thread : ∀ (s : S) fp, rows (Store.deleteDms s fp false) fp = []
  delete_dms_held : ∀ (s : S) fp only, held (Store.deleteDms s fp only) = held s
  queue : ∀ (s : S) fp b now, rows (Store.queueEnvelope s fp b now) = rows s
  queue_held : ∀ (s : S) fp b now fp', fp ≠ fp' → held (Store.queueEnvelope s fp b now) fp' ⊆ held s fp'
  take : ∀ (s : S) fp, rows (Store.takeEnvelopes s fp).1 = rows s
  take_held : ∀ (s : S) fp fp', held (Store.takeEnvelopes s fp).1 fp' ⊆ held s fp'
  taken : ∀ (s : S) fp, (Store.takeEnvelopes s fp).2 ⊆ held s fp
  wipe : ∀ (s : S) fp, rows (Store.panicWipe s) fp = [] ∧ held (Store.panicWipe s) fp = []
  history : ∀ (s : S) fp n, Store.dmHistory s fp n ⊆ rows s fp

namespace MemoryStore

theorem putDm_thread (s : MemoryStore) (dm : StoredDm) (fp : Fingerprint) :
    (s.putDm dm).thread fp ⊆ if dm.peer = fp then dm :: s.thread fp else s.thread fp := by
  unfold thread putDm
  simp only [Std.ExtTreeMap.getElem?_insert, Std.compare_eq_iff_eq]
  split_ifs with h
  · subst h
    intro r hr
    have hsorted := (lastN_sublist _ _).subset hr
    simp only [sortByTime, List.mem_insertionSort, List.mem_append, List.mem_singleton] at hsorted
    exact List.mem_cons.mpr hsorted.symm
  · exact List.Subset.refl _

end MemoryStore

instance : Ledger MemoryStore where
  rows := MemoryStore.thread
  held := MemoryStore.heldFor
  put_channel s m := by
    constructor <;> funext fp
    · simp only [MemoryStore.thread, Store.putChannelMessage, MemoryStore.putChannelMessage_dms]
    · simp only [MemoryStore.heldFor, Store.putChannelMessage, MemoryStore.putChannelMessage_envelopes]
  upsert_peer _ _ := ⟨rfl, rfl⟩
  delete_peer _ _ := ⟨rfl, rfl⟩
  get_deleted s fp := by simp [Store.getPeer, Store.deletePeer, MemoryStore.getPeer, MemoryStore.deletePeer]
  put_dm := MemoryStore.putDm_thread
  put_dm_held := MemoryStore.putDm_heldFor
  delete_dms s fp only fp' := (MemoryStore.thread_deleteDms s fp only fp').1.subset
  delete_thread s fp := by simp [MemoryStore.thread, Store.deleteDms, MemoryStore.deleteDms]
  delete_dms_held := MemoryStore.deleteDms_heldFor
  queue _ _ _ _ := rfl
  queue_held s fp b now fp' h := by
    have hsub := (s.queueEnvelope_heldFor fp b now fp').subset
    rwa [if_neg (Ne.symm h)] at hsub
  take _ _ := rfl
  take_held s fp fp' := by
    have heq := s.takeEnvelopes_heldFor fp fp'
    split_ifs at heq with h
    · exact heq ▸ List.nil_subset _
    · exact heq ▸ List.Subset.refl _
  taken _ _ := List.Subset.refl _
  wipe s fp := by simp [MemoryStore.thread, MemoryStore.heldFor, Store.panicWipe, MemoryStore.panicWipe]
  history s fp n := by
    intro r hr
    have hsorted := (MemoryStore.lastN_sublist _ _).subset hr
    simpa [MemoryStore.thread, MemoryStore.sortByTime, List.mem_insertionSort] using hsorted

namespace SqliteStore

def thread (s : SqliteStore) (fp : Fingerprint) : List StoredDm := (s.dms.filter fun r => r.dm.peer = fp).map (·.dm)

def heldFor (s : SqliteStore) (fp : Fingerprint) : List Bytes := (s.envelopes.filter fun e => e.recipient = fp).map (·.packet)

theorem mem_thread {s : SqliteStore} {fp : Fingerprint} {dm : StoredDm} :
    dm ∈ s.thread fp ↔ ∃ r ∈ s.dms, r.dm.peer = fp ∧ r.dm = dm := by
  simp only [thread, List.mem_map, List.mem_filter, decide_eq_true_eq, and_assoc]

theorem mem_heldFor {s : SqliteStore} {fp : Fingerprint} {b : Bytes} :
    b ∈ s.heldFor fp ↔ ∃ e ∈ s.envelopes, e.recipient = fp ∧ e.packet = b := by
  simp only [heldFor, List.mem_map, List.mem_filter, decide_eq_true_eq, and_assoc]

theorem putDm_thread (s : SqliteStore) (dm : StoredDm) (fp : Fingerprint) :
    (s.putDm dm).thread fp ⊆ if dm.peer = fp then dm :: s.thread fp else s.thread fp := by
  intro dm' h
  obtain ⟨r, hr, hpeer, rfl⟩ := mem_thread.mp h
  have hrow := (List.mem_filter.mp hr).1
  rcases List.mem_append.mp hrow with hold | hnew
  · have hkeep : r.dm ∈ s.thread fp := mem_thread.mpr ⟨r, hold, hpeer, rfl⟩
    split_ifs
    · exact List.mem_cons_of_mem _ hkeep
    · exact hkeep
  · obtain rfl := List.mem_singleton.mp hnew
    rw [if_pos hpeer]
    exact List.mem_cons_self

theorem deleteDms_thread (s : SqliteStore) (fp : Fingerprint) (only : Bool) (fp' : Fingerprint) :
    (s.deleteDms fp only).thread fp' ⊆ s.thread fp' := by
  intro dm h
  obtain ⟨r, hr, hpeer, rfl⟩ := mem_thread.mp h
  refine mem_thread.mpr ⟨r, ?_, hpeer, rfl⟩
  unfold deleteDms at hr
  split_ifs at hr <;> exact (List.mem_filter.mp hr).1

theorem queueEnvelope_heldFor (s : SqliteStore) (fp : Fingerprint) (b : Bytes) (now : Millis) (fp' : Fingerprint) (h : fp ≠ fp') :
    (s.queueEnvelope fp b now).heldFor fp' ⊆ s.heldFor fp' := by
  intro b' hb
  obtain ⟨e, he, hrecipient, rfl⟩ := mem_heldFor.mp hb
  refine mem_heldFor.mpr ⟨e, ?_, hrecipient, rfl⟩
  rcases List.mem_append.mp (List.mem_filter.mp he).1 with hold | hnew
  · split_ifs at hold
    · exact (List.mem_filter.mp hold).1
    · exact hold
  · obtain rfl := List.mem_singleton.mp hnew
    exact absurd hrecipient h

end SqliteStore

instance [Engine] : Ledger SqliteStore where
  rows := SqliteStore.thread
  held := SqliteStore.heldFor
  put_channel s m := by
    have hparts : (s.putChannelMessage m).dms = s.dms ∧ (s.putChannelMessage m).envelopes = s.envelopes := by
      unfold SqliteStore.putChannelMessage SqliteStore.pruneChannel
      split_ifs <;> exact ⟨rfl, rfl⟩
    constructor <;> funext fp
    · simp only [SqliteStore.thread, Store.putChannelMessage, hparts.1]
    · simp only [SqliteStore.heldFor, Store.putChannelMessage, hparts.2]
  upsert_peer _ _ := ⟨rfl, rfl⟩
  delete_peer _ _ := ⟨rfl, rfl⟩
  get_deleted s fp := by simp [Store.getPeer, Store.deletePeer, SqliteStore.getPeer, SqliteStore.deletePeer]
  put_dm := SqliteStore.putDm_thread
  put_dm_held _ _ := rfl
  delete_dms := SqliteStore.deleteDms_thread
  delete_thread s fp := by simp [SqliteStore.thread, Store.deleteDms, SqliteStore.deleteDms]
  delete_dms_held s fp only := by
    simp only [Store.deleteDms, SqliteStore.deleteDms]
    split_ifs <;> rfl
  queue _ _ _ _ := rfl
  queue_held := SqliteStore.queueEnvelope_heldFor
  take _ _ := rfl
  take_held s fp fp' := by
    intro b hb
    obtain ⟨e, he, hrecipient, rfl⟩ := SqliteStore.mem_heldFor.mp hb
    exact SqliteStore.mem_heldFor.mpr ⟨e, (List.mem_filter.mp he).1, hrecipient, rfl⟩
  taken s fp := by
    intro b hb
    obtain ⟨e, he, rfl⟩ := List.mem_map.mp hb
    rw [List.mem_insertionSort, List.mem_filter] at he
    exact SqliteStore.mem_heldFor.mpr ⟨e, he.1, by simpa using he.2, rfl⟩
  wipe s fp := by simp [SqliteStore.thread, SqliteStore.heldFor, Store.panicWipe, SqliteStore.panicWipe]
  history s fp n := by
    intro dm h
    obtain ⟨r, hr, rfl⟩ := List.mem_map.mp h
    rw [List.mem_insertionSort] at hr
    have hrow := List.mem_of_mem_take hr
    rw [List.mem_insertionSort, List.mem_filter] at hrow
    exact SqliteStore.mem_thread.mpr ⟨r, hrow.1, by simpa using hrow.2, rfl⟩

variable [P : Prims] {S : Type} [Store S] [L : Ledger S]

def Errand.concerns (fp : Fingerprint) : Errand → Prop
  | .text fp' _ | .verify fp' | .unverify fp' | .forget fp' => fp' = fp
  | .wipe => False

/-- The user's commands for one peer. -/
def Action.concerns (fp : Fingerprint) : Action → Prop
  | .sendDm fp' _ | .startDmSession fp' | .verifyPeer fp' | .unverifyPeer fp' | .forgetPeer fp' | .setPetname fp' _ => fp' = fp
  | _ => False

/-- Nothing is on its way to `fp`, and of the user's own words the thread holds only acks. -/
structure Silent (fp : Fingerprint) (d : Desk S) (hand : List Errand) : Prop where
  hand : ∀ e ∈ hand, ¬ e.concerns fp
  waiting : d.waiting fp = []
  held : L.held d.store fp = []
  notice : d.noticePending.contains fp = false
  rows : ∀ dm ∈ L.rows d.store fp, dm.mine = true → dm.body = [dmKindVerifyAck]

/-- Operations that keep what a store holds for `fp`, but for rows that are not of the user's words. -/
def Spares (fp : Fingerprint) (st st' : S) : Prop :=
  L.held st' fp ⊆ L.held st fp ∧ ∀ dm ∈ L.rows st' fp, dm ∈ L.rows st fp ∨ dm.mine = false ∨ dm.body = [dmKindVerifyAck]

section Spares
omit P
variable {fp : Fingerprint} {st st₁ st' : S}

theorem Spares.refl : Spares fp st st := ⟨List.Subset.refl _, fun _ h => .inl h⟩

theorem Spares.trans (h : Spares fp st st₁) (h' : Spares fp st₁ st') : Spares fp st st' :=
  ⟨List.Subset.trans h'.1 h.1, fun dm hdm => (h'.2 dm hdm).elim (h.2 dm) .inr⟩

theorem Spares.of_eq (h : L.rows st' = L.rows st ∧ L.held st' = L.held st) : Spares fp st st' := by
  refine ⟨by rw [h.2]; exact List.Subset.refl _, fun dm hdm => ?_⟩
  rw [h.1] at hdm
  exact .inl hdm

theorem Spares.put (st : S) (dm : StoredDm) (foreign : dm.peer = fp → dm.mine = false ∨ dm.body = [dmKindVerifyAck]) :
    Spares fp st (Store.putDm st dm) := by
  refine ⟨by rw [L.put_dm_held]; exact List.Subset.refl _, fun r hr => ?_⟩
  have hrow := L.put_dm st dm fp hr
  split_ifs at hrow with hpeer
  · rcases List.mem_cons.mp hrow with rfl | hrow
    · exact .inr (foreign hpeer)
    · exact .inl hrow
  · exact .inl hrow

theorem Spares.delete (st : S) (fp' : Fingerprint) (only : Bool) : Spares fp st (Store.deleteDms st fp' only) :=
  ⟨by rw [L.delete_dms_held]; exact List.Subset.refl _, fun dm hdm => .inl (L.delete_dms st fp' only fp hdm)⟩

theorem SideWrites.spares (h : SideWrites st st') : Spares fp st st' := by
  induction h with
  | refl => exact .refl
  | tail _ write ih =>
    refine ih.trans ?_
    cases write with
    | channel m => exact .of_eq (L.put_channel _ m)
    | peer p => exact .of_eq (L.upsert_peer _ p)
    | marker fp' now => exact .put _ _ fun _ => .inl rfl

end Spares

theorem Silent.keeps {fp : Fingerprint} {d d' : Desk S} {hand hand' : List Errand} (h : Silent fp d hand)
    (rest : ∀ e ∈ hand', ¬ e.concerns fp) (waiting : d'.waiting fp = []) (store : Spares fp d.store d'.store)
    (notice : d'.noticePending.contains fp = false) : Silent fp d' hand' := by
  refine ⟨rest, waiting, List.subset_nil.mp (h.held ▸ store.1), notice, fun dm hdm mine => ?_⟩
  rcases store.2 dm hdm with hold | hforeign | hack
  · exact h.rows dm hold mine
  · rw [mine] at hforeign
    cases hforeign
  · exact hack

/-- No beat says anything for `fp`, and none prepares to. -/
theorem Beat.silent {d d' : Desk S} {hand hand' : List Errand} {fp : Fingerprint} (beat : Beat (d, hand) (d', hand'))
    (h : Silent fp d hand) : Silent fp d' hand' ∧ d'.sent fp = d.sent fp := by
  have hrest : ∀ e, hand = e :: hand' → ∀ e' ∈ hand', ¬ e'.concerns fp := by
    rintro e rfl e' he'
    exact h.hand e' (List.mem_cons_of_mem _ he')
  have hother : ∀ e, hand = e :: hand' → ¬ e.concerns fp := by
    rintro e rfl
    exact h.hand e List.mem_cons_self
  have herased : ∀ fp₀ (m : Std.ExtTreeMap Fingerprint (List String)), m[fp]?.getD [] = [] → (m.erase fp₀)[fp]?.getD [] = [] := by
    intro fp₀ m hm
    rcases Desk.erased m fp₀ fp with heq | heq
    · rw [heq, hm]
    · rw [heq]
      rfl
  have hunnoticed : ∀ fp₀, (d.noticePending.erase fp₀).contains fp = false := by
    intro fp₀
    rw [Std.ExtTreeSet.contains_erase, h.notice, Bool.and_false]
  cases beat with
  | idle _ st os _ writes quiet =>
    exact ⟨h.keeps h.hand h.waiting writes.spares h.notice, Desk.sent_quiet _ (fun o ho => (quiet o ho).sentText) fp⟩
  | meet _ fp₀ eph st os _ writes quiet =>
    have hstore : Spares fp d.store (Store.takeEnvelopes st fp₀).1 := by
      refine writes.spares.trans ⟨L.take_held st fp₀ fp, fun dm hdm => .inl ?_⟩
      rwa [L.take] at hdm
    refine ⟨h.keeps ?_ h.waiting hstore h.notice, Desk.sent_quiet _ (fun o ho => (quiet o ho).sentText) fp⟩
    intro e he
    rcases List.mem_append.mp he with he | he
    · obtain ⟨b, hb, rfl⟩ := List.mem_map.mp he
      rintro rfl
      -- nothing was held for the forgotten peer
      have hheld := writes.spares.1 (L.taken st fp₀ hb)
      rw [h.held] at hheld
      cases hheld
    · exact h.hand e he
  | start _ fp₀ σ m os _ shape own carries lost =>
    have hwritten : Written fp₀ σ.initiator (.wrote fp₀ σ.initiator m :: os) := .inr ⟨m, os, rfl, carries⟩
    exact ⟨h.keeps h.hand h.waiting .refl h.notice, Desk.sent_quiet _ hwritten.sentText fp⟩
  | lose _ fp₀ _ => exact ⟨h.keeps h.hand h.waiting .refl h.notice, rfl⟩
  | complete _ fp₀ σ σ' ms os _ held shape ready transcript role written =>
    refine ⟨h.keeps ?_ (herased fp₀ _ h.waiting) .refl h.notice, Desk.sent_quiet _ written.completed fp⟩
    intro e he
    rcases List.mem_append.mp he with he | he
    · obtain ⟨text, htext, rfl⟩ := List.mem_map.mp he
      rintro rfl
      have hwaiting : d.pendingDms[fp₀]?.getD [] = [] := h.waiting
      rw [hwaiting] at htext
      cases htext
    · exact h.hand e he
  | reject _ fp₀ initiator os _ written =>
    refine ⟨h.keeps h.hand (herased fp₀ _ h.waiting) .refl h.notice, Desk.sent_quiet _ written.completed fp⟩
  | record _ fp₀ text _ =>
    exact ⟨h.keeps h.hand h.waiting (.put _ _ fun hpeer => absurd hpeer (h.hand _ List.mem_cons_self)) h.notice, rfl⟩
  | send _ _ fp₀ text _ pass =>
    obtain ⟨hstore, hpending, hnotice⟩ := pass.side
    refine ⟨h.keeps (hrest _ rfl) (by rw [Desk.waiting, hpending]; exact h.waiting) (by rw [hstore]; exact .refl)
      (by rw [hnotice]; exact h.notice), pass.sent_other (hother _ rfl)⟩
  | hold _ fp₀ text _ waiting unrouted =>
    refine ⟨h.keeps (hrest _ rfl) h.waiting ⟨L.queue_held _ _ _ _ _ (hother _ rfl), fun dm hdm => .inl ?_⟩ h.notice, rfl⟩
    rwa [L.queue] at hdm
  | queue _ fp₀ eph text _ waiting routed =>
    refine ⟨h.keeps (hrest _ rfl) ?_ .refl h.notice, rfl⟩
    rw [Desk.waiting, Maps.getElem?_insert_ne _ _ (hother _ rfl)]
    exact h.waiting
  | notify _ _ fp₀ _ owed pass =>
    obtain ⟨hstore, hpending, hnotice⟩ := pass.side
    have hne : fp₀ ≠ fp := by
      rintro rfl
      rw [h.notice] at owed
      cases owed
    refine ⟨h.keeps h.hand (by rw [Desk.waiting, hpending]; exact h.waiting) (by rw [hstore]; exact .put _ _ fun hpeer => absurd hpeer hne)
      (by rw [hnotice]; exact hunnoticed fp₀), pass.control (by decide) (by decide) fp⟩
  | receive _ fp₀ σ σ' n pt eph _ held ready ready' view other =>
    exact ⟨h.keeps h.hand h.waiting (.put _ _ fun _ => .inl rfl) h.notice,
      Desk.sent_quiet _ (by simp [Obs.sentText, Obs.sealed]) fp⟩
  | answer _ _ fp₀ σ σ' n pt eph _ held ready ready' view notice pass =>
    obtain ⟨hstore, hpending, hnotice⟩ := pass.side
    have hput : Spares fp d.store (Store.putDm (d.received fp₀ σ σ' n pt eph).store (ownRow fp₀ d.clock [dmKindVerifyAck])) :=
      .trans (.put _ (peerRow fp₀ d.clock pt) fun _ => .inl rfl) (.put _ _ fun _ => .inr rfl)
    have hreceived : (d.received fp₀ σ σ' n pt eph).sent fp = d.sent fp :=
      Desk.sent_quiet _ (by simp [Obs.sentText, Obs.sealed]) fp
    refine ⟨h.keeps h.hand (by rw [Desk.waiting, hpending]; exact h.waiting) (by rw [hstore]; exact hput)
      (by rw [hnotice]; exact h.notice), (pass.control (by decide) (by decide) fp).trans hreceived⟩
  | verify _ fp₀ st _ writes =>
    refine ⟨h.keeps (hrest _ rfl) h.waiting (writes.spares.trans (.delete _ _ _)) ?_, rfl⟩
    have hne : fp₀ ≠ fp := hother _ rfl
    rw [Std.ExtTreeSet.contains_insert, h.notice, Bool.or_false, beq_eq_false_iff_ne, ne_eq, Std.compare_eq_iff_eq]
    exact hne
  | unverify _ fp₀ st _ writes =>
    exact ⟨h.keeps (hrest _ rfl) (herased fp₀ _ h.waiting) (writes.spares.trans (.delete _ _ _)) (hunnoticed fp₀), rfl⟩
  | forget _ fp₀ _ =>
    exact ⟨h.keeps (hrest _ rfl) (herased fp₀ _ h.waiting) (.trans (.delete _ _ _) (.of_eq (L.delete_peer _ _))) (hunnoticed fp₀), rfl⟩
  | wipe _ _ =>
    refine ⟨⟨hrest _ rfl, by simp [Desk.waiting], (L.wipe _ fp).2, by simp, fun dm hdm => ?_⟩, rfl⟩
    rw [(L.wipe _ fp).1] at hdm
    cases hdm

theorem Beats.silent {c c' : Desk S × List Errand} {fp : Fingerprint} (beats : Beats c c') (h : Silent fp c.1 c.2) :
    Silent fp c'.1 c'.2 ∧ c'.1.sent fp = c.1.sent fp := by
  induction beats with
  | refl => exact ⟨h, rfl⟩
  | tail _ beat ih =>
    obtain ⟨hsilent, hsent⟩ := beat.silent ih.1
    exact ⟨hsilent, hsent.trans ih.2⟩

namespace MeshNode

/-- What is stored of `fp`, what is shown of it and what is encrypted for it: no text of the user's. -/
structure Mute (s s' : MeshNode S) (fp : Fingerprint) : Prop where
  held : L.held s'.store fp = []
  pending : s'.pendingDms[fp]?.getD [] = []
  stored : ∀ dm ∈ L.rows s'.store fp, dm.mine = true → dm.body = [dmKindVerifyAck]
  shown : ∀ n, ∀ dm ∈ Store.dmHistory s'.store fp n, dm.mine = true → dm.body = [dmKindVerifyAck]
  /-- The texts of events were decrypted, not typed here. -/
  surfaced : s'.trace.filterMap Obs.receivedText = (s'.trace.filterMap Obs.opened).filterMap Transfer.text
  encrypted : s'.desk.sent fp = s.desk.sent fp

/-- A forgotten peer is gone from the store, and nothing said to it before comes back. -/
structure LeavesNoTrace (s : MeshNode S) (fp : Fingerprint) : Prop where
  peer : Store.getPeer s.store fp = none
  rows : L.rows s.store fp = []
  held : L.held s.store fp = []
  later : ∀ calls : List Call, (∀ c ∈ calls, ¬ c.action.concerns fp) → s.Mute (Runs.run exec s calls) fp

omit P [Store S] L in
theorem errands_concern {a : Action} {fp : Fingerprint} (h : ¬ a.concerns fp) : ∀ e ∈ errands a, ¬ e.concerns fp := by
  intro e he
  cases a <;> simp only [errands, List.mem_singleton, List.not_mem_nil] at he
  all_goals
    subst he
    exact h

theorem exec_silent (laws : SnowLaws P) {s : MeshNode S} (shaped : s.Shaped) {fp : Fingerprint} {c : Call}
    (other : ¬ c.action.concerns fp) (h : Silent fp s.desk []) :
    Silent fp (exec s c).desk [] ∧ (exec s c).desk.sent fp = s.desk.sent fp :=
  (exec_beats laws shaped c).silent ⟨errands_concern other, h.waiting, h.held, h.notice, h.rows⟩

theorem run_mute (laws : SnowLaws P) {s : MeshNode S} (hs : s.Reachable) {fp : Fingerprint} (h : Silent fp s.desk [])
    (calls : List Call) (others : ∀ c ∈ calls, ¬ c.action.concerns fp) : s.Mute (Runs.run exec s calls) fp := by
  have hrun := Runs.run_guarded exec (fun t => t.Shaped ∧ Silent fp t.desk [] ∧ t.desk.sent fp = s.desk.sent fp)
    (fun _ c => ¬ c.action.concerns fp) ?_ s ⟨hs.shaped laws, h, rfl⟩ calls ?_
  · obtain ⟨-, hsilent, hsent⟩ := hrun
    exact ⟨hsilent.held, hsilent.waiting, hsilent.rows, fun n dm hdm => hsilent.rows dm (L.history _ fp n hdm),
      ((hs.run calls).accounted laws).texts, hsent⟩
  · rintro t c ⟨shaped, hsilent, hsent⟩ other
    obtain ⟨hsilent', hsent'⟩ := exec_silent laws shaped other hsilent
    exact ⟨exec_shaped laws shaped c, hsilent', hsent'.trans hsent⟩
  · rintro pre c post rfl
    exact others c (by simp)

/-- Forgetting a peer leaves no trace of it just when the store holds nothing for it. -/
theorem forget_leaves_no_trace_iff (laws : SnowLaws P) {s : MeshNode S} (hs : s.Reachable) (now : Millis) (fp : Fingerprint) :
    (exec s ⟨now, .forgetPeer fp⟩).LeavesNoTrace fp ↔ L.held s.store fp = [] := by
  have hheld : L.held (exec s ⟨now, .forgetPeer fp⟩).store fp = L.held s.store fp := by
    have hstore : (exec s ⟨now, .forgetPeer fp⟩).store = Store.deletePeer (Store.deleteDms s.store fp false) fp := rfl
    rw [hstore, (L.delete_peer _ fp).2, L.delete_dms_held]
  have hrows : L.rows (exec s ⟨now, .forgetPeer fp⟩).store fp = [] := by
    have hstore : (exec s ⟨now, .forgetPeer fp⟩).store = Store.deletePeer (Store.deleteDms s.store fp false) fp := rfl
    rw [hstore, (L.delete_peer _ fp).1, L.delete_thread]
  constructor
  · exact fun h => hheld.symm.trans h.held
  · intro hempty
    have hreach : (exec s ⟨now, .forgetPeer fp⟩).Reachable := hs.run [⟨now, .forgetPeer fp⟩]
    have hsilent : Silent fp (exec s ⟨now, .forgetPeer fp⟩).desk [] := by
      refine ⟨by simp, ?_, hheld.trans hempty, ?_, fun dm hdm => ?_⟩
      · simp [Desk.waiting, desk, exec, act, forgetPeer, dropPeerSessionState]
      · simp [desk, exec, act, forgetPeer, dropPeerSessionState]
      · have hgone : L.rows (exec s ⟨now, .forgetPeer fp⟩).desk.store fp = [] := hrows
        rw [hgone] at hdm
        cases hdm
    exact ⟨L.get_deleted _ fp, hrows, hheld.trans hempty, run_mute laws hreach hsilent⟩

end MeshNode
end CockroachChat

namespace CockroachChat.Reference
attribute [local instance] prims

/-- Node 1 has a text for node 2, which it has not met. -/
def holding : Node := run (linked 1) [⟨0, .sendDm (fpOf 2) "first"⟩]

theorem holding_reachable : holding.Reachable := run_reachable (run_reachable (node_initial 1 {}).reachable _) _

def forgotten : Node := MeshNode.exec holding ⟨0, .forgetPeer (fpOf 2)⟩

/-- Node 2 announces itself and answers the handshake message it gets for it. -/
def rehearing : List Call :=
  let announced := arriving 0 0 (framesFrom 0 (linked 2))
  announced ++ arriving 1 0 (framesFrom (met 2 1).trace.length
    (run (met 2 1) (arriving 1 0 (framesFrom (linked 1).trace.length (run forgotten announced)))))

theorem forgotten_text_sent :
    holding.Reachable ∧ Ledger.held holding.store (fpOf 2) = [asBytes "first"] ∧
      ¬ (MeshNode.exec holding ⟨0, .forgetPeer (fpOf 2)⟩).LeavesNoTrace (fpOf 2) ∧
      (∀ c ∈ rehearing, ¬ c.action.concerns (fpOf 2)) ∧
      forgotten.desk.sent (fpOf 2) = [] ∧ (run forgotten rehearing).desk.sent (fpOf 2) = ["first"] := by
  have hcalls : ∀ c ∈ rehearing, ¬ c.action.concerns (fpOf 2) := by
    simp only [rehearing, arriving, List.mem_append, List.mem_map]
    rintro c (⟨f, -, rfl⟩ | ⟨f, -, rfl⟩) <;> exact id
  have hbefore : forgotten.desk.sent (fpOf 2) = [] := by decide +kernel
  have hafter : (run forgotten rehearing).desk.sent (fpOf 2) = ["first"] := by decide +kernel
  refine ⟨holding_reachable, by decide +kernel, fun h => ?_, hcalls, hbefore, hafter⟩
  have hmute := (h.later rehearing hcalls).encrypted
  have hsame : (run forgotten rehearing).desk.sent (fpOf 2) = forgotten.desk.sent (fpOf 2) := hmute
  rw [hbefore, hafter] at hsame
  cases hsame

/-- Node 2 and its text are gone from node 1 once that has been sent. -/
theorem sent_text_forgotten :
    (MeshNode.exec (connected 1 2 "hi") ⟨2, .forgetPeer (fpOf 2)⟩).LeavesNoTrace (fpOf 2) :=
  (MeshNode.forget_leaves_no_trace_iff laws (run_reachable (run_reachable (met_reachable 1 2) _) _) 2 (fpOf 2)).mpr
    (by decide +kernel)

end CockroachChat.Reference
