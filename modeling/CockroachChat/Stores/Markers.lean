import CockroachChat.Node.ReferenceNodes
import CockroachChat.Stores.Requests
import CockroachChat.Stores.Retention
import CockroachChat.Stores.Rows

/-! # How long a row stays in its thread

A thread keeps the newest rows by timestamp, those of equal time in the order they came. So a row
stays, unless its thread is deleted, exactly as long as fewer rows than the limit come behind it. -/
namespace CockroachChat
set_option autoImplicit false
open Sorting

/-- The operations that may change a peer's thread. -/
def StoreOp.Touches (fp : Fingerprint) : StoreOp → Prop
  | putDm dm => dm.peer = fp
  | deleteDms fp' _ => fp' = fp
  | panicWipe => True
  | _ => False

/-- A store whose threads are cut to the newest rows. -/
class ThreadStore (S : Type) [Store S] where
  Sound : S → Prop
  limit : S → ℕ
  /-- How timestamps are compared. -/
  rank : Millis → ℤ
  thread : S → Fingerprint → List StoredDm
  sorted : ∀ {s : S}, Sound s → ∀ fp, (thread s fp).Pairwise fun a b => rank a.timestampMs ≤ rank b.timestampMs
  room : ∀ {s : S}, Sound s → ∀ fp, (thread s fp).length ≤ limit s
  keeps : ∀ {s : S}, Sound s → ∀ op : StoreOp, Sound (op.apply s)
  limit_apply : ∀ (s : S) (op : StoreOp), limit (op.apply s) = limit s
  put : ∀ {s : S}, Sound s → ∀ dm, thread (Store.putDm s dm) dm.peer =
    ((thread s dm.peer ++ [dm]).insertionSort fun a b => rank a.timestampMs ≤ rank b.timestampMs).drop
      ((thread s dm.peer).length + 1 - limit s)
  apart : ∀ {s : S}, Sound s → ∀ (op : StoreOp) (fp), ¬ op.Touches fp → thread (op.apply s) fp = thread s fp
  history : ∀ {s : S}, Sound s → ∀ fp, Store.dmHistory s fp (limit s) = thread s fp

/-! ## In memory -/

namespace MemoryStore

structure Sound (s : MemoryStore) : Prop where
  sorted : ∀ fp, (s.thread fp).Pairwise fun a b => a.timestampMs ≤ b.timestampMs
  room : ∀ fp, (s.thread fp).length ≤ s.historyMax

theorem sound_new (historyMax : ℕ) (historyMs envelopeTtlMs : Millis) (envelopeMaxPerPeer : ℕ) :
    (new historyMax historyMs envelopeTtlMs envelopeMaxPerPeer).Sound :=
  ⟨fun fp => by simp [thread, new], fun fp => by simp [thread, new]⟩

/-- An operation only takes rows out of a thread, unless it puts one there. -/
theorem thread_apply (s : MemoryStore) (op : StoreOp) (fp : Fingerprint) :
    ((op.apply s).thread fp).Sublist (s.thread fp) ∨ ∃ dm, op = .putDm dm ∧ dm.peer = fp := by
  cases op with
  | putChannelMessage msg =>
    have hdms := putChannelMessage_dms s msg
    left
    show (thread (s.putChannelMessage msg) fp).Sublist _
    unfold thread
    rw [hdms]
  | putDm dm =>
    by_cases hfp : dm.peer = fp
    · exact .inr ⟨dm, rfl, hfp⟩
    · left
      show ((s.putDm dm).thread fp).Sublist _
      rw [thread_putDm, if_neg hfp]
  | deleteDms fp' only => exact .inl (thread_deleteDms s fp' only fp).1
  | panicWipe =>
    left
    show (thread s.panicWipe fp).Sublist _
    simp [thread, panicWipe]
  | _ => exact .inl (.refl _)

theorem limit_apply (s : MemoryStore) (op : StoreOp) : (op.apply s).historyMax = s.historyMax := by
  cases op with
  | putChannelMessage msg => exact (put_limits s msg).1
  | deleteDms fp only =>
    show (s.deleteDms fp only).historyMax = _
    unfold deleteDms
    split_ifs
    · split <;> rfl
    · rfl
  | _ => rfl

theorem Sound.apply {s : MemoryStore} (h : s.Sound) (op : StoreOp) : (op.apply s).Sound := by
  have hputs : ∀ (dm : StoredDm), (s.putDm dm).thread dm.peer =
      lastN s.historyMax (sortByTime (·.timestampMs) (s.thread dm.peer ++ [dm])) := by
    intro dm
    rw [thread_putDm, if_pos rfl]
  constructor
  · intro fp
    rcases thread_apply s op fp with hsub | ⟨dm, rfl, rfl⟩
    · exact (h.sorted fp).sublist hsub
    · show ((s.putDm dm).thread dm.peer).Pairwise _
      rw [hputs]
      exact (sorted_sort StoredDm.timestampMs _).sublist (lastN_sublist _ _)
  · intro fp
    rw [limit_apply]
    rcases thread_apply s op fp with hsub | ⟨dm, rfl, rfl⟩
    · exact hsub.length_le.trans (h.room fp)
    · show ((s.putDm dm).thread dm.peer).length ≤ _
      rw [hputs]
      exact lastN_length_le _ _

theorem sortByTime_rank (l : List StoredDm) :
    sortByTime (·.timestampMs) l = l.insertionSort fun a b => (a.timestampMs : ℤ) ≤ b.timestampMs := by
  have h := sort_map (fun a b : StoredDm => a.timestampMs ≤ b.timestampMs) (fun a b => (a.timestampMs : ℤ) ≤ b.timestampMs) id l
    (List.pairwise_of_forall fun a b => Nat.cast_le.symm)
  rwa [List.map_id, List.map_id] at h

instance : ThreadStore MemoryStore where
  Sound := Sound
  limit := historyMax
  rank n := n
  thread := thread
  sorted h fp := (h.sorted fp).imp Nat.cast_le.mpr
  room h := h.room
  keeps h op := h.apply op
  limit_apply := limit_apply
  put {s} _ dm := by
    show (s.putDm dm).thread dm.peer = _
    rw [thread_putDm, if_pos rfl, sortByTime_rank, lastN, List.length_insertionSort, List.length_append, List.length_singleton]
  apart {s} _ op fp hop := by
    cases op with
    | putChannelMessage msg =>
      show thread (s.putChannelMessage msg) fp = _
      unfold thread
      rw [putChannelMessage_dms]
    | putDm dm =>
      show (s.putDm dm).thread fp = _
      rw [thread_putDm]
      exact if_neg hop
    | deleteDms fp' only => exact (thread_deleteDms s fp' only fp).2 hop
    | panicWipe => exact absurd trivial hop
    | _ => rfl
  history {s} h fp := by
    show lastN s.historyMax (sortByTime (·.timestampMs) (s.thread fp)) = _
    rw [sortByTime, (h.sorted fp).insertionSort_eq, lastN_all (h.room fp)]

end MemoryStore

/-! ## In tables -/

namespace SqliteStore

def rank (r : DmRow) : ℤ := asI64 r.dm.timestampMs

structure Sound (s : SqliteStore) : Prop where
  ids : (s.dms.map (·.id)).Pairwise (· < ·)
  seq : ∀ r ∈ s.dms, r.id ≤ s.dmSeq
  room : ∀ fp, (threadRows s.dms fp).length ≤ s.historyMax

theorem sound_new (historyMax : ℕ) (historyMs envelopeTtlMs : Millis) (envelopeMaxPerPeer : ℕ) :
    (new historyMax historyMs envelopeTtlMs envelopeMaxPerPeer).Sound :=
  ⟨by simp [new], by simp [new], fun fp => by simp [new, threadRows]⟩

theorem dmKey_rank (a b : DmRow) : dmKey a ≤ dmKey b ↔ rank a < rank b ∨ rank a = rank b ∧ a.id ≤ b.id := by
  unfold dmKey rank
  rw [Prod.Lex.toLex_le_toLex]

theorem rank_le {a b : DmRow} (h : dmKey a ≤ dmKey b) : rank a ≤ rank b := by
  rcases (dmKey_rank a b).mp h with hlt | ⟨heq, -⟩
  · exact hlt.le
  · exact heq.le

/-- The rows with one more of the next id. -/
def added (s : SqliteStore) (dm : StoredDm) : List DmRow := s.dms ++ [{ id := s.dmSeq + 1, dm }]

theorem added_ids {s : SqliteStore} (h : s.Sound) (dm : StoredDm) : ((s.added dm).map (·.id)).Pairwise (· < ·) := by
  rw [added, List.map_append, List.pairwise_append]
  refine ⟨h.ids, List.pairwise_singleton .., ?_⟩
  intro i hi j hj
  obtain ⟨r, hr, rfl⟩ := List.mem_map.mp hi
  rw [List.mem_singleton.mp hj]
  exact Nat.lt_succ_of_le (h.seq r hr)

theorem threadRows_added {s : SqliteStore} (h : s.Sound) (dm : StoredDm) :
    (threadRows (s.added dm) dm.peer).map (·.dm) =
      ((threadRows s.dms dm.peer).map (·.dm) ++ [dm]).insertionSort fun a b => asI64 a.timestampMs ≤ asI64 b.timestampMs := by
  have hlist : (threadRows s.dms dm.peer).map (·.dm) ++ [dm] =
      (threadRows s.dms dm.peer ++ [DmRow.mk (s.dmSeq + 1) dm]).map (·.dm) := by
    rw [List.map_append, List.map_singleton]
  rw [hlist, sort_map (fun a b : StoredDm => asI64 a.timestampMs ≤ asI64 b.timestampMs) fun a b => dmKey a ≤ dmKey b]
  · congr 1
    have hrows : ∀ r ∈ threadRows s.dms dm.peer ++ [DmRow.mk (s.dmSeq + 1) dm], r ∈ s.added dm := by
      intro r hr
      exact List.mem_append.mpr ((List.mem_append.mp hr).imp (fun h => (mem_threadRows.mp h).1) id)
    apply eq_sort dmKey
    · refine (List.perm_insertionSort _ _).trans ?_
      rw [added, List.filter_append, List.filter_cons_of_pos (by simp), List.filter_nil]
      exact (List.perm_insertionSort _ _).symm.append_right _
    · exact sorted_sort dmKey _
    · intro a ha b hb
      exact dmKey_inj (added_ids h dm) a (hrows a ha) b (hrows b hb)
  · rw [List.pairwise_append]
    refine ⟨?_, List.pairwise_singleton .., ?_⟩
    · exact (sorted_sort dmKey _).imp fun hab => iff_of_true (rank_le hab) hab
    · intro a ha b hb
      rw [List.mem_singleton] at hb
      subst hb
      have hid : a.id ≤ s.dmSeq + 1 := Nat.le_succ_of_le (h.seq a (mem_threadRows.mp ha).1)
      rw [dmKey_rank, and_iff_left hid, ← le_iff_lt_or_eq]
      rfl

/-- Of the rows with the new one, the newest of its thread are left. -/
theorem threadRows_putDm {s : SqliteStore} (h : s.Sound) (dm : StoredDm) (fp : Fingerprint) :
    threadRows (s.putDm dm).dms fp =
      if dm.peer = fp then MemoryStore.lastN s.historyMax (threadRows (s.added dm) fp) else threadRows s.dms fp := by
  have hids := added_ids h dm
  show threadRows ((s.added dm).filter fun r => ¬ (r.dm.peer = dm.peer ∧ r.id ∉ (newestDms (s.added dm) dm.peer s.historyMax).map (·.id))) fp = _
  rw [threadRows_filter hids]
  by_cases hfp : dm.peer = fp
  · subst hfp
    rw [if_pos rfl, newestDms_eq hids]
    have hkept := filter_ids_sublist DmRow.id (threadRows_nodup hids dm.peer)
      (MemoryStore.lastN_sublist s.historyMax (threadRows (s.added dm) dm.peer))
    refine .trans (List.filter_congr fun r hr => ?_) hkept
    simp [(mem_threadRows.mp hr).2]
  · rw [if_neg hfp]
    have hsame : threadRows (s.added dm) fp = threadRows s.dms fp := by
      simp [threadRows, added, hfp]
    rw [hsame, List.filter_eq_self]
    intro r hr
    simp [(mem_threadRows.mp hr).2, Ne.symm hfp]

/-- What an operation does to the rows: it puts one there, or takes some out. -/
theorem rows_apply [Engine] (s : SqliteStore) (op : StoreOp) :
    (∃ dm, op = .putDm dm) ∨ (op.apply s).dmSeq = s.dmSeq ∧
      ∃ p : DmRow → Bool, (op.apply s).dms = s.dms.filter p ∧ ∀ fp, ¬ op.Touches fp → ∀ r ∈ s.dms, r.dm.peer = fp → p r = true := by
  have hsame : (op.apply s).dmSeq = s.dmSeq → (op.apply s).dms = s.dms → (op.apply s).dmSeq = s.dmSeq ∧
      ∃ p : DmRow → Bool, (op.apply s).dms = s.dms.filter p ∧ ∀ fp, ¬ op.Touches fp → ∀ r ∈ s.dms, r.dm.peer = fp → p r = true :=
    fun hseq hdms => ⟨hseq, fun _ => true, by rw [hdms, List.filter_true], fun _ _ _ _ _ => rfl⟩
  cases op with
  | putDm dm => exact .inl ⟨dm, rfl⟩
  | putChannelMessage msg =>
    refine .inr (hsame ?_ ?_)
    · show (s.putChannelMessage msg).dmSeq = _
      unfold putChannelMessage pruneChannel
      split_ifs <;> rfl
    · show (s.putChannelMessage msg).dms = _
      unfold putChannelMessage pruneChannel
      split_ifs <;> rfl
  | deleteDms fp only =>
    right
    show (s.deleteDms fp only).dmSeq = _ ∧ ∃ p : DmRow → Bool, (s.deleteDms fp only).dms = _ ∧ _
    unfold deleteDms
    split_ifs
    · refine ⟨rfl, _, rfl, fun fp' hfp r hr hpeer => ?_⟩
      have hne : ¬ r.dm.peer = fp := fun h => hfp (h.symm.trans hpeer)
      simp [hne]
    · refine ⟨rfl, _, rfl, fun fp' hfp r hr hpeer => ?_⟩
      have hne : ¬ r.dm.peer = fp := fun h => hfp (h.symm.trans hpeer)
      simp [hne]
  | panicWipe => exact .inr ⟨rfl, fun _ => false, by simp; rfl, fun _ h => absurd trivial h⟩
  | _ => exact .inr (hsame rfl rfl)

theorem historyMax_apply [Engine] (s : SqliteStore) (op : StoreOp) : (op.apply s).historyMax = s.historyMax := by
  cases op with
  | putChannelMessage msg =>
    show (s.putChannelMessage msg).historyMax = _
    unfold putChannelMessage pruneChannel
    split_ifs <;> rfl
  | deleteDms fp only =>
    show (s.deleteDms fp only).historyMax = _
    unfold deleteDms
    split_ifs <;> rfl
  | _ => rfl

theorem Sound.putDm {s : SqliteStore} (h : s.Sound) (dm : StoredDm) : (s.putDm dm).Sound := by
  have hrows : (s.putDm dm).dms.Sublist (s.added dm) := List.filter_sublist
  refine ⟨(added_ids h dm).sublist (hrows.map _), fun r hr => ?_, fun fp => ?_⟩
  · rcases List.mem_append.mp (hrows.subset hr) with hold | hnew
    · exact (h.seq r hold).trans (Nat.le_succ _)
    · rw [List.mem_singleton.mp hnew]
      exact le_refl _
  · rw [threadRows_putDm h]
    split_ifs
    · exact MemoryStore.lastN_length_le _ _
    · exact h.room fp

theorem Sound.apply [Engine] {s : SqliteStore} (h : s.Sound) (op : StoreOp) : (op.apply s).Sound := by
  rcases rows_apply s op with ⟨dm, rfl⟩ | ⟨hseq, p, hrows, -⟩
  · exact h.putDm dm
  · refine ⟨?_, fun r hr => ?_, fun fp => ?_⟩
    · rw [hrows]
      exact h.ids.sublist (List.filter_sublist.map _)
    · rw [hrows] at hr
      rw [hseq]
      exact h.seq r (List.mem_of_mem_filter hr)
    · rw [hrows, threadRows_filter h.ids, historyMax_apply]
      exact (List.length_filter_le _ _).trans (h.room fp)

instance [Engine] : ThreadStore SqliteStore where
  Sound := Sound
  limit := historyMax
  rank := asI64
  thread s fp := (threadRows s.dms fp).map (·.dm)
  sorted h fp := by
    rw [List.pairwise_map]
    exact (sorted_sort dmKey _).imp rank_le
  room h fp := by
    rw [List.length_map]
    exact h.room fp
  keeps h op := h.apply op
  limit_apply := historyMax_apply
  put {s} h dm := by
    show (threadRows (s.putDm dm).dms dm.peer).map (·.dm) = _
    have hlen : (threadRows (s.added dm) dm.peer).length = (threadRows s.dms dm.peer).length + 1 := by
      have hmap := congrArg List.length (threadRows_added h dm)
      rwa [List.length_map, List.length_insertionSort, List.length_append, List.length_map] at hmap
    rw [threadRows_putDm h, if_pos rfl, MemoryStore.lastN, List.map_drop, threadRows_added h, hlen, List.length_map]
  apart {s} h op fp hop := by
    rcases rows_apply s op with ⟨dm, rfl⟩ | ⟨-, p, hrows, hkept⟩
    · show (threadRows (s.putDm dm).dms fp).map (·.dm) = _
      rw [threadRows_putDm h]
      exact congrArg _ (if_neg hop)
    · rw [hrows, threadRows_filter h.ids, List.filter_eq_self.mpr]
      exact fun r hr => hkept fp hop r (mem_threadRows.mp hr).1 (mem_threadRows.mp hr).2
  history {s} h fp := by
    show ((newestDms s.dms fp s.historyMax).insertionSort fun a b => dmKey a ≤ dmKey b).map (·.dm) = _
    rw [newestDms_eq h.ids, MemoryStore.lastN_all (h.room fp)]
    congr 1
    symm
    apply eq_sort dmKey (List.reverse_perm _).symm (sorted_sort dmKey _)
    intro a ha b hb
    exact dmKey_inj h.ids a (mem_threadRows.mp (List.mem_reverse.mp ha)).1 b (mem_threadRows.mp (List.mem_reverse.mp hb)).1

end SqliteStore

/-! ## A sequence of operations -/

section Threads
variable {S : Type} [Store S] [T : ThreadStore S]

theorem ThreadStore.foldl {s : S} (h : T.Sound s) (ops : List StoreOp) :
    T.Sound (ops.foldl StoreOp.apply s) ∧ T.limit (ops.foldl StoreOp.apply s) = T.limit s := by
  induction ops generalizing s with
  | nil => exact ⟨h, rfl⟩
  | cons op ops ih =>
    obtain ⟨hsound, hlimit⟩ := ih (T.keeps h op)
    exact ⟨hsound, hlimit.trans (T.limit_apply s op)⟩

/-- The rows that operations hand over for one thread. -/
def rowsFor (fp : Fingerprint) (rows : List StoredDm) : List StoredDm := rows.filter (·.peer = fp)

/-- As long as nothing is deleted, a thread is the newest of what was there and what came. -/
theorem ThreadStore.thread_foldl {s : S} (h : T.Sound s) (fp : Fingerprint) (ops : List StoreOp)
    (kept : ∀ op ∈ ops, op.Touches fp → ∃ dm, op = .putDm dm) :
    T.thread (ops.foldl StoreOp.apply s) fp =
      ((T.thread s fp ++ rowsFor fp (ops.filterMap StoreOp.row)).insertionSort fun a b => T.rank a.timestampMs ≤ T.rank b.timestampMs).drop
        ((T.thread s fp ++ rowsFor fp (ops.filterMap StoreOp.row)).length - T.limit s) := by
  rw [← newest_foldl_from (fun dm : StoredDm => T.rank dm.timestampMs) (T.limit s) _ _ (T.sorted h fp) (T.room h fp)]
  induction ops generalizing s with
  | nil => rfl
  | cons op ops ih =>
    have hrest := ih (T.keeps h op) fun op' hop' => kept op' (List.mem_cons_of_mem op hop')
    rw [List.foldl_cons, hrest, T.limit_apply]
    by_cases htouch : op.Touches fp
    · obtain ⟨dm, rfl⟩ := kept op List.mem_cons_self htouch
      have hpeer : dm.peer = fp := htouch
      subst hpeer
      have hrow : rowsFor dm.peer ((StoreOp.putDm dm :: ops).filterMap StoreOp.row) = dm :: rowsFor dm.peer (ops.filterMap StoreOp.row) := by
        simp [rowsFor, StoreOp.row]
      rw [hrow, List.foldl_cons, ← T.put h]
      rfl
    · have hrow : rowsFor fp ((op :: ops).filterMap StoreOp.row) = rowsFor fp (ops.filterMap StoreOp.row) := by
        cases op with
        | putDm dm =>
          have hpeer : ¬ dm.peer = fp := htouch
          simp [rowsFor, StoreOp.row, hpeer]
        | _ => rfl
      rw [hrow, T.apart h op fp htouch]

end Threads

/-! ## A run -/

/-- The calls that delete a peer's rows. -/
def Action.Clears (fp : Fingerprint) : Action → Prop
  | .verifyPeer fp' | .unverifyPeer fp' | .forgetPeer fp' => fp' = fp
  | .panicWipe => True
  | _ => False

variable [P : Prims] {S : Type} [Store S]

namespace Journal
variable {start : S}

omit P in
theorem foldl_log (j : Journal start) (ops : List StoreOp) : (ops.foldl StoreOp.apply j).log = j.log ++ ops := by
  induction ops generalizing j with
  | nil => exact (List.append_nil _).symm
  | cons op ops ih =>
    have hop : (op.apply j).log = j.log ++ [op] := by
      cases op <;> rfl
    rw [List.foldl_cons, ih, hop, List.append_assoc, List.singleton_append]

end Journal

namespace MeshNode

omit [Store S] in
theorem Grants.touches {s : MeshNode S} {a : Action} {op : StoreOp} (h : s.Grants a op) {fp : Fingerprint} (hkept : ¬ a.Clears fp)
    (htouch : op.Touches fp) : ∃ dm, op = .putDm dm := by
  cases op with
  | putDm dm => exact ⟨dm, rfl⟩
  | deleteDms fp' only =>
    have hfp : fp' = fp := htouch
    rcases h with rfl | rfl | rfl <;> exact absurd hfp hkept
  | panicWipe =>
    have hwipe : a = .panicWipe := h
    rw [hwipe] at hkept
    exact absurd trivial hkept
  | _ => exact htouch.elim

/-- In a run without calls that delete a peer's rows, rows only come. -/
theorem run_log (s : MeshNode S) (fp : Fingerprint) (calls : List Call) (kept : ∀ c ∈ calls, ¬ c.action.Clears fp) :
    ∀ op ∈ (Runs.run exec s.journaled calls).store.log, op.Touches fp → ∃ dm, op = .putDm dm := by
  induction calls using List.reverseRecOn with
  | nil => exact fun op hop => by cases hop
  | append_singleton calls c ih =>
    have hrest := ih fun d hd => kept d (List.mem_append_left _ hd)
    rw [Runs.run_snoc]
    generalize Runs.run exec s.journaled calls = t at hrest ⊢
    obtain ⟨ops, hops, hgranted⟩ := act_asks (t.at_ c.now) c.action
    have hlog : (exec t c).store.log = t.store.log ++ ops := (congrArg Journal.log hops).trans (Journal.foldl_log _ ops)
    intro op hop htouch
    rw [hlog] at hop
    rcases List.mem_append.mp hop with hop | hop
    · exact hrest op hop htouch
    · exact Grants.touches (hgranted op hop) (kept c (List.mem_append_right _ (List.mem_singleton_self c))) htouch

theorem run_store (s : MeshNode S) (calls : List Call) :
    (Runs.run exec s calls).store = (Runs.run exec s.journaled calls).store.log.foldl StoreOp.apply s.store :=
  congrArg store (run_replayed s.journaled calls).symm

variable [T : ThreadStore S]

theorem run_sound (s : MeshNode S) (sound : T.Sound s.store) (calls : List Call) :
    T.Sound (Runs.run exec s calls).store ∧ T.limit (Runs.run exec s calls).store = T.limit s.store := by
  rw [run_store]
  exact T.foldl sound _

/-- How many rows come behind a row in its peer's thread: of those there, and of those handed over by
the calls. -/
def crowd (s : MeshNode S) (calls : List Call) (m : StoredDm) : ℕ :=
  behind (fun dm : StoredDm => T.rank dm.timestampMs) m (T.thread s.store m.peer ++ rowsFor m.peer (s.rowsPut calls))

theorem row_stays_iff (s : MeshNode S) (sound : T.Sound s.store) (m : StoredDm) (calls : List Call)
    (kept : ∀ c ∈ calls, ¬ c.action.Clears m.peer) (written : m ∈ s.rowsPut calls) :
    m ∈ Store.dmHistory (Runs.run exec s calls).store m.peer (T.limit s.store) ↔ s.crowd calls m < T.limit s.store := by
  obtain ⟨hsound, hlimit⟩ := run_sound s sound calls
  rw [← hlimit, T.history hsound, hlimit, run_store, T.thread_foldl sound m.peer _ (run_log s m.peer calls kept)]
  refine mem_newest_iff _ (List.mem_append_right _ ?_)
  exact List.mem_filter.mpr ⟨written, by simp⟩

/-- The marker of a changed key. -/
def markerRow (fp : Fingerprint) (now : Millis) : StoredDm := (Source.changed fp).row now

omit T in
theorem marker_written [Shelf S] (s : MeshNode S) (c : Call) (calls : List Call) (fp : Fingerprint)
    (marked : ∃ view, Obs.event (.peerKeyChanged fp) view ∈ (exec s c).trace.drop s.trace.length) :
    markerRow fp c.now ∈ s.rowsPut (c :: calls) := by
  obtain ⟨view, hevent⟩ := marked
  rw [(rowsPut_perm s (c :: calls)).mem_iff, Runs.outputs]
  refine List.mem_append_left _ (List.mem_map.mpr ⟨.changed fp, List.mem_append_right _ ?_, rfl⟩)
  exact List.mem_filterMap.mpr ⟨_, hevent, rfl⟩

/-- Once a frame has brought a changed key, the marker is in the peer's history, until one of the calls
that clear it, exactly as long as fewer rows than the history shows come behind it. -/
theorem marker_stays_iff [Shelf S] (s₀ : MeshNode S) (sound : T.Sound s₀.store) (before : List Call) (now : Millis)
    (link : LinkId) (frame : Bytes) (after : List Call) (fp : Fingerprint)
    (marked : ∃ view, Obs.event (.peerKeyChanged fp) view ∈
      (exec (Runs.run exec s₀ before) ⟨now, .transport (.frameReceived link frame)⟩).trace.drop (Runs.run exec s₀ before).trace.length)
    (kept : ∀ c ∈ after, ¬ c.action.Clears fp) :
    markerRow fp now ∈ Store.dmHistory
        (Runs.run exec s₀ (before ++ ⟨now, .transport (.frameReceived link frame)⟩ :: after)).store fp (T.limit s₀.store) ↔
      (Runs.run exec s₀ before).crowd (⟨now, .transport (.frameReceived link frame)⟩ :: after) (markerRow fp now) <
        T.limit s₀.store := by
  obtain ⟨hsound, hlimit⟩ := run_sound s₀ sound before
  have hwritten := marker_written (Runs.run exec s₀ before) _ after fp marked
  have hkept : ∀ c ∈ (⟨now, .transport (.frameReceived link frame)⟩ : Call) :: after, ¬ c.action.Clears fp := by
    intro c hc
    rcases List.mem_cons.mp hc with rfl | hc
    · exact id
    · exact kept c hc
  have hstays := row_stays_iff (Runs.run exec s₀ before) hsound (markerRow fp now) _ hkept hwritten
  rwa [hlimit, ← Runs.run_append] at hstays

end MeshNode
end CockroachChat

namespace CockroachChat.Reference
open MeshNode
attribute [local instance] prims

/-- Node 2 after it lost its X25519 key. -/
def rekeyed : Node := run (MeshNode.new { identity 2 with dhSecret := (identity 9).dhSecret } {} 0 store "" 0 fun n => n) [up 0 0]

/-- Node 1 with room for `n` rows in a thread. -/
def roomFor (n : ℕ) : Node :=
  MeshNode.new (identity 1) {} 0 (MemoryStore.new n 21600000 86400000 100) "" 0 fun k => k + 1000

/-- It meets node 2, -/
def meeting : List Call := up 0 0 :: arriving 0 0 (framesFrom 0 (linked 2))

/-- which later announces another key. -/
def otherKey : Bytes := (framesFrom 0 rekeyed).headD []

def reply : Call := ⟨6, .sendDm (fpOf 2) "hi"⟩

/-- With room for two rows, the marker is there after one message. -/
theorem marker_stays : markerRow (fpOf 2) 5 ∈
    Store.dmHistory (run (roomFor 2) (meeting ++ ⟨5, .transport (.frameReceived 0 otherKey)⟩ :: [reply])).store (fpOf 2) 2 :=
  (marker_stays_iff (roomFor 2) (MemoryStore.sound_new 2 _ _ _) meeting 5 0 otherKey [reply] (fpOf 2) ⟨none, by decide +kernel⟩
    (by simp [reply, Action.Clears])).mpr (by decide +kernel)

/-- With room for one, it is gone. -/
theorem marker_crowded_out : ¬ ∀ (n : ℕ) (before : List Call) (now : Millis) (link : LinkId) (frame : Bytes) (after : List Call)
    (fp : Fingerprint),
    Obs.event (.peerKeyChanged fp) none ∈ (exec (run (roomFor n) before) ⟨now, .transport (.frameReceived link frame)⟩).trace.drop
      (run (roomFor n) before).trace.length →
    (∀ c ∈ after, ¬ c.action.Clears fp) →
    markerRow fp now ∈ Store.dmHistory
      (run (roomFor n) (before ++ ⟨now, .transport (.frameReceived link frame)⟩ :: after)).store fp n := by
  intro h
  have hgone := h 1 meeting 5 0 otherKey [reply] (fpOf 2) (by decide +kernel) (by simp [reply, Action.Clears])
  revert hgone
  decide +kernel

end CockroachChat.Reference
