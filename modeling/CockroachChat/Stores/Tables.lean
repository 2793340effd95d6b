import CockroachChat.Core.Sqlite
import CockroachChat.Foundations.Maps
import CockroachChat.Foundations.Sorting

/-! # The tables of the two stores

What a table of `MemoryStore` and one of `SqliteStore` have in common, operation by operation. -/
namespace CockroachChat
set_option autoImplicit false
open Sorting

theorem asI64_small {n : ℕ} (h : n < 2 ^ 63) : asI64 n = n := by
  unfold asI64
  apply Int.bmod_eq_of_le <;> omega

namespace MemoryStore

/-- What each table holds under a key. -/
def rows (s : MemoryStore) (channel : String) : List StoredMessage := s.channels[channel]?.getD []
def thread (s : MemoryStore) (fp : Fingerprint) : List StoredDm := s.dms[fp]?.getD []
def queue (s : MemoryStore) (fp : Fingerprint) : List Envelope := s.envelopes[fp]?.getD []

theorem putChannelMessage_dms (s : MemoryStore) (m : StoredMessage) : (s.putChannelMessage m).dms = s.dms := by
  unfold putChannelMessage
  split_ifs
  · rfl
  · rw [pruneChannel]
    split <;> rfl

theorem thread_deleteDms (s : MemoryStore) (fp : Fingerprint) (onlyControl : Bool) (fp' : Fingerprint) :
    ((s.deleteDms fp onlyControl).thread fp').Sublist (s.thread fp') ∧
      (fp ≠ fp' → (s.deleteDms fp onlyControl).thread fp' = s.thread fp') := by
  unfold deleteDms
  by_cases honly : onlyControl = true
  · rw [if_pos honly]
    cases hheld : s.dms[fp]? with
    | none => exact ⟨.refl _, fun _ => rfl⟩
    | some rows =>
      unfold thread
      simp only [Std.ExtTreeMap.getElem?_insert, Std.compare_eq_iff_eq]
      by_cases hfp : fp = fp'
      · subst hfp
        simp [hheld]
      · simp [hfp]
  · rw [if_neg honly]
    unfold thread
    simp only [Std.ExtTreeMap.getElem?_erase, Std.compare_eq_iff_eq]
    by_cases hfp : fp = fp'
    · subst hfp
      simp
    · simp [hfp]

theorem lastN_map {α β : Type} (f : α → β) (n : ℕ) (l : List α) : (lastN n l).map f = lastN n (l.map f) := by
  unfold lastN
  rw [List.map_drop, List.length_map]

theorem lastN_all {α : Type} {n : ℕ} {l : List α} (h : l.length ≤ n) : lastN n l = l := by
  unfold lastN
  rw [Nat.sub_eq_zero_of_le h, List.drop_zero]

theorem lastN_sublist {α : Type} (n : ℕ) (l : List α) : (lastN n l).Sublist l := List.drop_sublist ..

theorem lastN_length_le {α : Type} (n : ℕ) (l : List α) : (lastN n l).length ≤ n := by
  unfold lastN
  rw [List.length_drop]
  omega

/-- A filter that spares the last `n` leaves them the last `n`. -/
theorem lastN_filter {α : Type} (n : ℕ) (p : α → Bool) (l : List α) (h : ∀ a ∈ lastN n l, p a = true) :
    lastN n (l.filter p) = lastN n l := by
  have hsplit : l.filter p = (l.take (l.length - n)).filter p ++ lastN n l := by
    conv_lhs => rw [← List.take_append_drop (l.length - n) l, List.filter_append]
    congr 1
    exact List.filter_eq_self.mpr h
  by_cases hn : n ≤ l.length
  · have hlen : (lastN n l).length = n := by
      unfold lastN
      rw [List.length_drop]
      omega
    rw [hsplit]
    generalize lastN n l = last at hlen ⊢
    unfold lastN
    rw [List.length_append, hlen, Nat.add_sub_cancel, List.drop_left]
  · have hall : lastN n l = l := lastN_all (by omega)
    rw [hall] at h
    rw [List.filter_eq_self.mpr h]

theorem lastN_snoc {α : Type} (n : ℕ) (l : List α) (a : α) : lastN (n + 1) (l ++ [a]) = lastN n l ++ [a] := by
  unfold lastN
  rw [List.length_append, List.length_singleton, Nat.add_sub_add_right, List.drop_append_of_le_length (Nat.sub_le ..)]

theorem dropExcess_eq (historyMax : ℕ) (l : List StoredMessage) (digests : Std.ExtTreeSet Digest) :
    dropExcess historyMax l digests =
      (lastN historyMax l, (l.take (l.length - historyMax)).foldl (fun ds m => ds.erase m.digest) digests) := by
  induction l generalizing digests with
  | nil =>
    unfold dropExcess lastN
    rw [List.drop_nil, List.take_nil, List.foldl_nil]
  | cons m l ih =>
    unfold dropExcess
    by_cases h : (m :: l).length > historyMax
    · have hsub : (m :: l).length - historyMax = l.length - historyMax + 1 := by
        rw [List.length_cons] at h ⊢
        omega
      rw [if_pos h, ih]
      unfold lastN
      rw [hsub, List.drop_succ_cons, List.take_succ_cons, List.foldl_cons]
    · have hsub : (m :: l).length - historyMax = 0 := by omega
      rw [if_neg h]
      unfold lastN
      rw [hsub, List.drop_zero, List.take_zero, List.foldl_nil]

end MemoryStore

/-! ## Peers -/

structure SamePeers (peers : Std.ExtTreeMap Fingerprint PeerRecord) (rows : List PeerRecord) : Prop where
  held : ∀ r : PeerRecord, peers[r.fingerprint]? = some r ↔ r ∈ rows
  keys : ∀ (fp : Fingerprint) (r : PeerRecord), peers[fp]? = some r → r.fingerprint = fp

namespace SamePeers
variable {peers : Std.ExtTreeMap Fingerprint PeerRecord} {rows : List PeerRecord}

theorem empty : SamePeers ∅ [] := ⟨by simp, by simp⟩

theorem find (h : SamePeers peers rows) (fp : Fingerprint) : rows.find? (·.fingerprint = fp) = peers[fp]? := by
  cases hfind : rows.find? (·.fingerprint = fp) with
  | some r =>
    have hfp : r.fingerprint = fp := by simpa using List.find?_some hfind
    have hheld := (h.held r).mpr (List.mem_of_find?_eq_some hfind)
    rw [hfp] at hheld
    exact hheld.symm
  | none =>
    cases hpeer : peers[fp]? with
    | none => rfl
    | some r =>
      have hfp := h.keys fp r hpeer
      subst hfp
      have hnone := List.find?_eq_none.mp hfind r ((h.held r).mp hpeer)
      simp at hnone

theorem mem_values (h : SamePeers peers rows) (r : PeerRecord) : r ∈ peers.values ↔ r ∈ rows := by
  rw [Maps.values_eq, List.mem_map]
  constructor
  · rintro ⟨⟨fp, r⟩, he, rfl⟩
    have hpeer := Std.ExtTreeMap.mem_toList_iff_getElem?_eq_some.mp he
    have hfp := h.keys fp r hpeer
    subst hfp
    exact (h.held r).mp hpeer
  · intro hr
    exact ⟨(r.fingerprint, r), Std.ExtTreeMap.mem_toList_iff_getElem?_eq_some.mpr ((h.held r).mpr hr), rfl⟩

theorem upsert (h : SamePeers peers rows) (peer : PeerRecord) :
    SamePeers (peers.insert peer.fingerprint peer) ((rows.filter fun p => p.fingerprint ≠ peer.fingerprint) ++ [peer]) where
  held r := by
    rw [Std.ExtTreeMap.getElem?_insert]
    by_cases hr : peer.fingerprint = r.fingerprint
    · simp [hr, eq_comm]
    · have hne : r ≠ peer := by
        rintro rfl
        exact hr rfl
      simp [hr, hne, Ne.symm hr, h.held r]
  keys fp r hpeer := by
    rw [Std.ExtTreeMap.getElem?_insert] at hpeer
    by_cases hfp : peer.fingerprint = fp
    · simp only [hfp, Std.ReflCmp.compare_self, if_true, Option.some.injEq] at hpeer
      rw [← hpeer, hfp]
    · rw [if_neg (by simpa using hfp)] at hpeer
      exact h.keys fp r hpeer

theorem delete (h : SamePeers peers rows) (fp : Fingerprint) :
    SamePeers (peers.erase fp) (rows.filter fun p => ¬ p.fingerprint = fp) where
  held r := by
    rw [Std.ExtTreeMap.getElem?_erase]
    by_cases hr : fp = r.fingerprint
    · simp [hr]
    · simp [hr, Ne.symm hr, h.held r]
  keys fp' r hpeer := by
    rw [Std.ExtTreeMap.getElem?_erase] at hpeer
    split at hpeer
    · cases hpeer
    · exact h.keys fp' r hpeer

end SamePeers

/-! ## Direct messages -/

open MemoryStore SqliteStore

/-- One peer's rows by timestamp and id. -/
def threadRows (rows : List DmRow) (fp : Fingerprint) : List DmRow :=
  (rows.filter fun r => r.dm.peer = fp).insertionSort fun a b => dmKey a ≤ dmKey b

theorem mem_threadRows {rows : List DmRow} {fp : Fingerprint} {r : DmRow} :
    r ∈ threadRows rows fp ↔ r ∈ rows ∧ r.dm.peer = fp := by
  simp [threadRows, List.mem_insertionSort]

theorem dmKey_le {a b : DmRow} (ha : a.dm.timestampMs < 2 ^ 63) (hb : b.dm.timestampMs < 2 ^ 63) :
    dmKey a ≤ dmKey b ↔ a.dm.timestampMs < b.dm.timestampMs ∨ a.dm.timestampMs = b.dm.timestampMs ∧ a.id ≤ b.id := by
  unfold dmKey
  rw [Prod.Lex.toLex_le_toLex, asI64_small ha, asI64_small hb]
  dsimp only
  rw [Nat.cast_lt, Nat.cast_inj]

theorem time_le {a b : DmRow} (ha : a.dm.timestampMs < 2 ^ 63) (hb : b.dm.timestampMs < 2 ^ 63) (h : dmKey a ≤ dmKey b) :
    a.dm.timestampMs ≤ b.dm.timestampMs := by
  rw [dmKey_le ha hb] at h
  rcases h with hlt | ⟨heq, -⟩
  · exact hlt.le
  · exact heq.le

structure SameThreads (dms : Std.ExtTreeMap Fingerprint (List StoredDm)) (rows : List DmRow) (seq : ℕ) : Prop where
  thread : ∀ fp : Fingerprint, dms[fp]?.getD [] = (threadRows rows fp).map (·.dm)
  ids : (rows.map (·.id)).Pairwise (· < ·)
  seq : ∀ r ∈ rows, r.id ≤ seq
  stamps : ∀ r ∈ rows, r.dm.timestampMs < 2 ^ 63

theorem distinct {α : Type} {id : α → ℕ} {rows : List α} (ids : (rows.map id).Pairwise (· < ·)) : (rows.map id).Nodup :=
  ids.imp fun h => h.ne

theorem threadRows_nodup {rows : List DmRow} (ids : (rows.map (·.id)).Pairwise (· < ·)) (fp : Fingerprint) :
    ((threadRows rows fp).map (·.id)).Nodup := by
  have hperm := (List.perm_insertionSort (fun a b => dmKey a ≤ dmKey b) (rows.filter fun r => r.dm.peer = fp)).map (·.id)
  rw [threadRows, hperm.nodup_iff]
  exact (distinct ids).sublist (List.filter_sublist.map _)

theorem dmKey_inj {rows : List DmRow} (ids : (rows.map (·.id)).Pairwise (· < ·)) (a : DmRow) (ha : a ∈ rows) (b : DmRow)
    (hb : b ∈ rows) (h : dmKey a = dmKey b) : a = b := by
  have hid : a.id = b.id := congrArg (fun k => (ofLex k).2) h
  exact List.inj_on_of_nodup_map (distinct ids) ha hb hid

theorem threadRows_filter {rows : List DmRow} (ids : (rows.map (·.id)).Pairwise (· < ·)) (p : DmRow → Bool) (fp : Fingerprint) :
    threadRows (rows.filter p) fp = (threadRows rows fp).filter p := by
  unfold threadRows
  rw [← sort_filter]
  · rw [List.filter_filter, List.filter_filter]
    simp only [Bool.and_comm]
  · intro a ha b hb
    exact dmKey_inj ids a (List.mem_of_mem_filter ha) b (List.mem_of_mem_filter hb)

theorem newestDms_eq {rows : List DmRow} (ids : (rows.map (·.id)).Pairwise (· < ·)) (fp : Fingerprint) (n : ℕ) :
    newestDms rows fp n = (lastN n (threadRows rows fp)).reverse := by
  unfold newestDms threadRows lastN
  rw [sort_down, List.take_reverse]
  intro a ha b hb
  exact dmKey_inj ids a (List.mem_of_mem_filter ha) b (List.mem_of_mem_filter hb)

namespace SameThreads
variable {dms : Std.ExtTreeMap Fingerprint (List StoredDm)} {rows : List DmRow} {seq : ℕ}

theorem empty (seq : ℕ) : SameThreads ∅ [] seq := ⟨by simp [threadRows], by simp, by simp, by simp⟩

/-- Rows go. -/
theorem filter (h : SameThreads dms rows seq) (p : DmRow → Bool) {dms' : Std.ExtTreeMap Fingerprint (List StoredDm)}
    (hdms : ∀ fp : Fingerprint, dms'[fp]?.getD [] = ((threadRows rows fp).filter p).map (·.dm)) :
    SameThreads dms' (rows.filter p) seq where
  thread fp := by rw [hdms fp, threadRows_filter h.ids]
  ids := h.ids.sublist (List.filter_sublist.map _)
  seq r hr := h.seq r (List.mem_of_mem_filter hr)
  stamps r hr := h.stamps r (List.mem_of_mem_filter hr)

/-- A stored thread is in time order. -/
theorem sorted (h : SameThreads dms rows seq) (fp : Fingerprint) :
    (dms[fp]?.getD []).Pairwise fun a b => a.timestampMs ≤ b.timestampMs := by
  rw [h.thread fp, List.pairwise_map]
  refine (sorted_sort dmKey _).imp_of_mem ?_
  intro a b ha hb hab
  exact time_le (h.stamps a (mem_threadRows.mp ha).1) (h.stamps b (mem_threadRows.mp hb).1) hab

theorem ids_snoc (h : SameThreads dms rows seq) (dm : StoredDm) :
    ((rows ++ [DmRow.mk (seq + 1) dm]).map DmRow.id).Pairwise (· < ·) := by
  rw [List.map_append, List.pairwise_append]
  refine ⟨h.ids, List.pairwise_singleton .., ?_⟩
  intro i hi j hj
  obtain ⟨r, hr, rfl⟩ := List.mem_map.mp hi
  rw [List.mem_singleton.mp hj]
  exact Nat.lt_succ_of_le (h.seq r hr)

/-- A row of the next id is the last of those of its time. -/
theorem snoc (h : SameThreads dms rows seq) (dm : StoredDm) (hdm : dm.timestampMs < 2 ^ 63) :
    sortByTime (·.timestampMs) (dms[dm.peer]?.getD [] ++ [dm]) =
      (threadRows (rows ++ [DmRow.mk (seq + 1) dm]) dm.peer).map DmRow.dm := by
  have hstamps : ∀ r ∈ threadRows rows dm.peer, r.dm.timestampMs < 2 ^ 63 := fun r hr => h.stamps r (mem_threadRows.mp hr).1
  have hlist : dms[dm.peer]?.getD [] ++ [dm] = (threadRows rows dm.peer ++ [DmRow.mk (seq + 1) dm]).map DmRow.dm := by
    rw [h.thread, List.map_append, List.map_singleton]
  rw [hlist, sortByTime, sort_map (fun a b : StoredDm => a.timestampMs ≤ b.timestampMs) fun a b => dmKey a ≤ dmKey b]
  · congr 1
    unfold threadRows
    apply eq_sort
    · rw [List.filter_append]
      refine (List.perm_insertionSort _ _).trans ((List.perm_insertionSort _ _).append ?_)
      simp
    · exact sorted_sort dmKey _
    · intro a ha b hb
      exact dmKey_inj (h.ids_snoc dm) a (List.mem_of_mem_filter ha) b (List.mem_of_mem_filter hb)
  · rw [List.pairwise_append]
    refine ⟨?_, List.pairwise_singleton .., ?_⟩
    · refine (sorted_sort dmKey _).imp_of_mem ?_
      intro a b ha hb hab
      exact iff_of_true (time_le (hstamps a ha) (hstamps b hb) hab) hab
    · intro a ha b hb
      rw [List.mem_singleton] at hb
      subst hb
      have hid := h.seq a (mem_threadRows.mp ha).1
      rw [dmKey_le (hstamps a ha) hdm, le_iff_lt_or_eq]
      exact or_congr_right (and_iff_left (Nat.le_succ_of_le hid)).symm

theorem add (h : SameThreads dms rows seq) (dm : StoredDm) (hdm : dm.timestampMs < 2 ^ 63) :
    SameThreads (dms.insert dm.peer (sortByTime (·.timestampMs) (dms[dm.peer]?.getD [] ++ [dm])))
      (rows ++ [DmRow.mk (seq + 1) dm]) (seq + 1) where
  thread fp := by
    rw [Std.ExtTreeMap.getElem?_insert]
    by_cases hfp : dm.peer = fp
    · subst hfp
      simp [h.snoc dm hdm]
    · rw [if_neg (by simpa using hfp), h.thread fp]
      simp [threadRows, hfp]
  ids := h.ids_snoc dm
  seq r hr := by
    rcases List.mem_append.mp hr with hr | hr
    · exact (h.seq r hr).trans (Nat.le_succ seq)
    · rw [List.mem_singleton.mp hr]
  stamps r hr := by
    rcases List.mem_append.mp hr with hr | hr
    · exact h.stamps r hr
    · rw [List.mem_singleton.mp hr]
      exact hdm

/-- The newest `n` of one thread stay. -/
theorem cut (h : SameThreads dms rows seq) (fp : Fingerprint) (n : ℕ) :
    SameThreads (dms.insert fp (lastN n (dms[fp]?.getD [])))
      (rows.filter fun r => ¬ (r.dm.peer = fp ∧ r.id ∉ (newestDms rows fp n).map (·.id))) seq := by
  apply h.filter
  intro fp'
  rw [Std.ExtTreeMap.getElem?_insert]
  by_cases hfp : fp = fp'
  · subst hfp
    simp only [Std.ReflCmp.compare_self, if_true, Option.getD_some]
    rw [h.thread, ← lastN_map, newestDms_eq h.ids]
    congr 1
    have hkept := filter_ids_sublist DmRow.id (threadRows_nodup h.ids fp) (lastN_sublist n (threadRows rows fp))
    refine hkept.symm.trans (List.filter_congr fun r hr => ?_)
    simp [(mem_threadRows.mp hr).2]
  · rw [if_neg (by simpa using hfp), h.thread]
    congr 1
    symm
    rw [List.filter_eq_self]
    intro r hr
    simp [(mem_threadRows.mp hr).2, Ne.symm hfp]

theorem put (h : SameThreads dms rows seq) (dm : StoredDm) (hdm : dm.timestampMs < 2 ^ 63) (n : ℕ) :
    SameThreads (dms.insert dm.peer (lastN n (sortByTime (·.timestampMs) (dms[dm.peer]?.getD [] ++ [dm]))))
      ((rows ++ [DmRow.mk (seq + 1) dm]).filter fun r => ¬ (r.dm.peer = dm.peer ∧
        r.id ∉ (newestDms (rows ++ [DmRow.mk (seq + 1) dm]) dm.peer n).map (·.id))) (seq + 1) := by
  have h' := (h.add dm hdm).cut dm.peer n
  simpa using h'

theorem erase (h : SameThreads dms rows seq) (fp : Fingerprint) :
    SameThreads (dms.erase fp) (rows.filter fun r => ¬ r.dm.peer = fp) seq := by
  apply h.filter
  intro fp'
  rw [Std.ExtTreeMap.getElem?_erase]
  by_cases hfp : fp = fp'
  · subst hfp
    have hnone : (threadRows rows fp).filter (fun r => ¬ r.dm.peer = fp) = [] := by
      rw [List.filter_eq_nil_iff]
      intro r hr
      simp [(mem_threadRows.mp hr).2]
    rw [hnone]
    simp
  · rw [if_neg (by simpa using hfp), h.thread]
    congr 1
    symm
    rw [List.filter_eq_self]
    intro r hr
    simp [(mem_threadRows.mp hr).2, Ne.symm hfp]

/-- A control row is one byte of the three kinds. -/
theorem isControlDm_iff (body : Bytes) :
    isControlDm body = true ↔ body.length = 1 ∧ (body = [0x01] ∨ body = [0x02] ∨ body = [0x03]) := by
  match body with
  | [] => simp [isControlDm]
  | [b] =>
    simp only [isControlDm, List.length_singleton, true_and, List.cons.injEq, and_true, Bool.and_eq_true, decide_eq_true_eq,
      UInt8.le_iff_toNat_le, ← UInt8.toNat_inj]
    change 1 ≤ b.toNat ∧ b.toNat ≤ 3 ↔ b.toNat = 1 ∨ b.toNat = 2 ∨ b.toNat = 3
    omega
  | _ :: _ :: _ => simp [isControlDm]

theorem eraseControl (h : SameThreads dms rows seq) (fp : Fingerprint) {dms' : Std.ExtTreeMap Fingerprint (List StoredDm)}
    (hdms : ∀ fp' : Fingerprint, dms'[fp']?.getD [] =
      if fp = fp' then (dms[fp]?.getD []).filter fun d => !isControlDm d.body else dms[fp']?.getD []) :
    SameThreads dms' (rows.filter fun r => ¬ (r.dm.peer = fp ∧ r.dm.body.length = 1 ∧
      (r.dm.body = [0x01] ∨ r.dm.body = [0x02] ∨ r.dm.body = [0x03]))) seq := by
  apply h.filter
  intro fp'
  rw [hdms fp']
  by_cases hfp : fp = fp'
  · subst hfp
    rw [if_pos rfl, h.thread, List.filter_map]
    congr 1
    apply List.filter_congr
    intro r hr
    simp only [Function.comp_apply, (mem_threadRows.mp hr).2, true_and, ← isControlDm_iff]
    simp
  · rw [if_neg hfp, h.thread]
    congr 1
    symm
    rw [List.filter_eq_self]
    intro r hr
    simp [(mem_threadRows.mp hr).2, Ne.symm hfp]

/-- `dm_history` of the two. -/
theorem history (h : SameThreads dms rows seq) (fp : Fingerprint) (limit : ℕ) :
    lastN limit (sortByTime (·.timestampMs) (dms[fp]?.getD [])) =
      ((newestDms rows fp limit).insertionSort fun a b => dmKey a ≤ dmKey b).map (·.dm) := by
  have hkept : (lastN limit (threadRows rows fp)).Pairwise fun a b => dmKey a ≤ dmKey b :=
    (sorted_sort dmKey _).sublist (lastN_sublist limit (threadRows rows fp))
  have hsort : (newestDms rows fp limit).insertionSort (fun a b => dmKey a ≤ dmKey b) = lastN limit (threadRows rows fp) := by
    rw [newestDms_eq h.ids]
    symm
    apply eq_sort dmKey (List.reverse_perm _).symm hkept
    intro a ha b hb
    have hmem : ∀ r ∈ (lastN limit (threadRows rows fp)).reverse, r ∈ rows := by
      intro r hr
      exact (mem_threadRows.mp ((lastN_sublist limit _).subset (List.mem_reverse.mp hr))).1
    exact dmKey_inj h.ids a (hmem a ha) b (hmem b hb)
  rw [hsort, lastN_map, ← h.thread, sortByTime, (h.sorted fp).insertionSort_eq]

end SameThreads

/-! ## Envelopes -/

def EnvelopeRow.envelope (r : EnvelopeRow) : Envelope := { packetBytes := r.packet, queuedMs := r.queuedMs }

/-- The envelope outlasts the time pruning of `SqliteStore`. -/
def Envelope.outlasts (ttlMs nowMs : Millis) (e : Envelope) : Prop := ttlMs = 0 ∨ (nowMs : ℤ) - e.queuedMs < asI64 ttlMs

instance (ttlMs nowMs : Millis) (e : Envelope) : Decidable (e.outlasts ttlMs nowMs) := inferInstanceAs (Decidable (_ ∨ _))

structure SameQueues (envelopes : Std.ExtTreeMap Fingerprint (List Envelope)) (rows : List EnvelopeRow) (seq : ℕ) : Prop where
  queue : ∀ fp : Fingerprint, envelopes[fp]?.getD [] = (rows.filter fun r => r.recipient = fp).map (·.envelope)
  ids : (rows.map (·.id)).Pairwise (· < ·)
  seq : ∀ r ∈ rows, r.id ≤ seq
  stamps : ∀ r ∈ rows, r.queuedMs < 2 ^ 63

namespace SameQueues
variable {envelopes : Std.ExtTreeMap Fingerprint (List Envelope)} {rows : List EnvelopeRow} {seq : ℕ}

theorem empty (seq : ℕ) : SameQueues ∅ [] seq := ⟨by simp, by simp, by simp, by simp⟩

/-- Rows go, all of one recipient. -/
theorem filter (h : SameQueues envelopes rows seq) (fp : Fingerprint) (p : EnvelopeRow → Bool)
    (hp : ∀ r ∈ rows, r.recipient ≠ fp → p r = true) {q : List Envelope}
    (hq : q = ((rows.filter fun r => r.recipient = fp).filter p).map (·.envelope)) :
    SameQueues (envelopes.insert fp q) (rows.filter p) seq where
  queue fp' := by
    rw [Std.ExtTreeMap.getElem?_insert, List.filter_filter]
    by_cases hfp : fp = fp'
    · subst hfp
      rw [List.filter_filter] at hq
      simp [hq, Bool.and_comm]
    · rw [if_neg (by simpa using hfp), h.queue]
      congr 1
      apply List.filter_congr
      intro r hr
      by_cases hr' : r.recipient = fp'
      · simp [hr', hp r hr (by rw [hr']; exact Ne.symm hfp)]
      · simp [hr']
  ids := h.ids.sublist (List.filter_sublist.map _)
  seq r hr := h.seq r (List.mem_of_mem_filter hr)
  stamps r hr := h.stamps r (List.mem_of_mem_filter hr)

theorem expire (h : SameQueues envelopes rows seq) (fp : Fingerprint) (ttlMs nowMs : Millis) (hnow : nowMs < 2 ^ 63) :
    SameQueues (envelopes.insert fp ((envelopes[fp]?.getD []).filter fun e => e.outlasts ttlMs nowMs))
      (if ttlMs > 0 then rows.filter fun e => ¬ (e.recipient = fp ∧ asI64 nowMs - asI64 e.queuedMs ≥ asI64 ttlMs) else rows)
      seq := by
  have hrows : (if ttlMs > 0 then rows.filter fun e => ¬ (e.recipient = fp ∧ asI64 nowMs - asI64 e.queuedMs ≥ asI64 ttlMs)
      else rows) = rows.filter fun r => r.recipient ≠ fp ∨ r.envelope.outlasts ttlMs nowMs := by
    by_cases httl : ttlMs > 0
    · rw [if_pos httl]
      apply List.filter_congr
      intro r hr
      have hzero : ttlMs ≠ 0 := httl.ne'
      rw [asI64_small hnow, asI64_small (h.stamps r hr)]
      simp only [Envelope.outlasts, EnvelopeRow.envelope, hzero, false_or, not_and_or, not_le, ge_iff_le, ne_eq]
    · rw [if_neg httl]
      symm
      rw [List.filter_eq_self]
      intro r hr
      have hzero : ttlMs = 0 := Nat.eq_zero_of_not_pos httl
      simp [Envelope.outlasts, hzero]
  rw [hrows]
  apply h.filter fp
  · intro r _ hr
    simp [hr]
  · rw [h.queue, List.filter_map]
    congr 1
    apply List.filter_congr
    intro r hr
    have hfp : r.recipient = fp := by simpa using List.of_mem_filter hr
    simp [hfp]

theorem add (h : SameQueues envelopes rows seq) (fp : Fingerprint) (packet : Bytes) (nowMs : Millis) (hnow : nowMs < 2 ^ 63) :
    SameQueues (envelopes.insert fp (envelopes[fp]?.getD [] ++ [{ packetBytes := packet, queuedMs := nowMs }]))
      (rows ++ [{ id := seq + 1, recipient := fp, packet, queuedMs := nowMs }]) (seq + 1) where
  queue fp' := by
    rw [Std.ExtTreeMap.getElem?_insert]
    by_cases hfp : fp = fp'
    · subst hfp
      simp [h.queue, EnvelopeRow.envelope]
    · rw [if_neg (by simpa using hfp), h.queue]
      simp [hfp]
  ids := by
    rw [List.map_append, List.pairwise_append]
    refine ⟨h.ids, List.pairwise_singleton .., ?_⟩
    intro i hi j hj
    obtain ⟨r, hr, rfl⟩ := List.mem_map.mp hi
    rw [List.mem_singleton.mp hj]
    exact Nat.lt_succ_of_le (h.seq r hr)
  seq r hr := by
    rcases List.mem_append.mp hr with hr | hr
    · exact (h.seq r hr).trans (Nat.le_succ seq)
    · rw [List.mem_singleton.mp hr]
  stamps r hr := by
    rcases List.mem_append.mp hr with hr | hr
    · exact h.stamps r hr
    · rw [List.mem_singleton.mp hr]
      exact hnow

/-- The newest `n` for one recipient stay. -/
theorem cut (h : SameQueues envelopes rows seq) (fp : Fingerprint) (n : ℕ) :
    SameQueues (envelopes.insert fp (lastN n (envelopes[fp]?.getD [])))
      (rows.filter fun e => ¬ (e.recipient = fp ∧ e.id ∉
        (((rows.filter fun e => e.recipient = fp).insertionSort fun a b => b.id ≤ a.id).take n).map (·.id))) seq := by
  have hmem : ∀ r ∈ rows.filter (fun e => e.recipient = fp), r ∈ rows := fun r hr => List.mem_of_mem_filter hr
  have hsorted : (rows.filter fun e => e.recipient = fp).Pairwise fun a b => a.id ≤ b.id :=
    (List.pairwise_map.mp h.ids).filter _ |>.imp fun hab => hab.le
  have hids : ((rows.filter fun e => e.recipient = fp).map (·.id)).Nodup :=
    (distinct h.ids).sublist (List.filter_sublist.map _)
  have hdown : (rows.filter fun e => e.recipient = fp).insertionSort (fun a b => b.id ≤ a.id) =
      (rows.filter fun e => e.recipient = fp).reverse := by
    rw [sort_down EnvelopeRow.id, hsorted.insertionSort_eq]
    intro a ha b hb
    exact List.inj_on_of_nodup_map hids ha hb
  apply h.filter fp
  · intro r _ hr
    simp [hr]
  · rw [h.queue, ← lastN_map, hdown, List.take_reverse]
    congr 1
    refine (filter_ids_sublist EnvelopeRow.id hids (lastN_sublist n _)).symm.trans (List.filter_congr fun r hr => ?_)
    have hfp : r.recipient = fp := by simpa using List.of_mem_filter hr
    simp [hfp, lastN]

theorem erase (h : SameQueues envelopes rows seq) (fp : Fingerprint) :
    SameQueues (envelopes.erase fp) (rows.filter fun e => ¬ e.recipient = fp) seq where
  queue fp' := by
    rw [Std.ExtTreeMap.getElem?_erase, List.filter_filter]
    by_cases hfp : fp = fp'
    · subst hfp
      simp
    · rw [if_neg (by simpa using hfp), h.queue]
      congr 1
      apply List.filter_congr
      intro r _
      by_cases hr : r.recipient = fp'
      · simp [hr, Ne.symm hfp]
      · simp [hr]
  ids := h.ids.sublist (List.filter_sublist.map _)
  seq r hr := h.seq r (List.mem_of_mem_filter hr)
  stamps r hr := h.stamps r (List.mem_of_mem_filter hr)

/-- `take_envelopes` of the two. -/
theorem take (h : SameQueues envelopes rows seq) (fp : Fingerprint) :
    (envelopes[fp]?.getD []).map (·.packetBytes) =
      ((rows.filter fun e => e.recipient = fp).insertionSort fun a b => a.id ≤ b.id).map (·.packet) := by
  have hsorted : (rows.filter fun e => e.recipient = fp).Pairwise fun a b => a.id ≤ b.id :=
    (List.pairwise_map.mp h.ids).filter _ |>.imp fun hab => hab.le
  rw [h.queue, hsorted.insertionSort_eq, List.map_map]
  rfl

end SameQueues

/-! ## Channel messages -/

structure SameChannels (channels : Std.ExtTreeMap String (List StoredMessage)) (digests : Std.ExtTreeSet Digest)
    (rows : List StoredMessage) : Prop where
  perm : ∀ channel : String, (rows.filter fun m => m.channel = channel).Perm (channels[channel]?.getD [])
  sorted : ∀ channel : String, (channels[channel]?.getD []).Pairwise fun a b => a.timestampMs ≤ b.timestampMs
  nodup : (rows.map (·.digest)).Nodup
  digests : ∀ d : Digest, digests.contains d = true ↔ d ∈ rows.map (·.digest)
  stamps : ∀ r ∈ rows, r.timestampMs < 2 ^ 63

/-- `DELETE FROM messages WHERE channel = ?1 AND digest NOT IN (…)`. -/
def cutRows [E : Engine] (rows : List StoredMessage) (channel : String) (n : ℕ) : List StoredMessage :=
  rows.filter fun m => ¬ (m.channel = channel ∧
    m.digest ∉ ((newestFirst (E.messages .prune (rows.filter fun m => m.channel = channel))).take n).map (·.digest))

theorem contains_foldl_erase (l : List StoredMessage) (digests : Std.ExtTreeSet Digest) (d : Digest) :
    (l.foldl (fun ds m => ds.erase m.digest) digests).contains d = true ↔
      digests.contains d = true ∧ d ∉ l.map (·.digest) := by
  induction l generalizing digests with
  | nil => simp
  | cons m l ih =>
    rw [List.foldl_cons, ih, Std.ExtTreeSet.contains_erase]
    by_cases hd : m.digest = d
    · simp [hd]
    · simp [hd, Ne.symm hd]

namespace SameChannels
variable {channels : Std.ExtTreeMap String (List StoredMessage)} {digests : Std.ExtTreeSet Digest} {rows : List StoredMessage}

theorem empty : SameChannels ∅ ∅ [] := ⟨by simp, by simp, by simp, by simp, by simp⟩

theorem mem_held (h : SameChannels channels digests rows) (channel : String) (r : StoredMessage) :
    r ∈ channels[channel]?.getD [] ↔ r ∈ rows ∧ r.channel = channel := by
  rw [← (h.perm channel).mem_iff]
  simp

theorem held_nodup (h : SameChannels channels digests rows) (channel : String) :
    ((channels[channel]?.getD []).map (·.digest)).Nodup :=
  ((h.perm channel).map _).nodup_iff.mp (h.nodup.sublist (List.filter_sublist.map _))

/-- The newest `n` rows of a channel, in whatever order rows of equal time come. -/
theorem newest [E : Engine] (h : SameChannels channels digests rows) (st : Statement) (channel : String) (n : ℕ)
    (huncut : Uncut StoredMessage.timestampMs n (channels[channel]?.getD [])) :
    ((newestFirst (E.messages st (rows.filter fun m => m.channel = channel))).take n).Perm
      (lastN n (channels[channel]?.getD [])) := by
  set top := newestFirst (E.messages st (rows.filter fun m => m.channel = channel)) with htop
  have hrows : top.Perm (rows.filter fun m => m.channel = channel) :=
    (List.perm_insertionSort _ _).trans (E.messages_perm st _)
  have hperm := hrows.trans (h.perm channel)
  have hdown : top.Pairwise fun a b => b.timestampMs ≤ a.timestampMs := by
    refine (sorted_sort_down (fun m : StoredMessage => asI64 m.timestampMs) _).imp_of_mem ?_
    intro a b ha hb hab
    have hmem : ∀ r ∈ top, r.timestampMs < 2 ^ 63 := by
      intro r hr
      exact h.stamps r (List.mem_of_mem_filter (hrows.mem_iff.mp hr))
    rw [asI64_small (hmem a ha), asI64_small (hmem b hb)] at hab
    exact Int.ofNat_le.mp hab
  have hup : top.reverse.Pairwise fun a b => a.timestampMs ≤ b.timestampMs := List.pairwise_reverse.mpr hdown
  have htake : top.take n = (lastN n top.reverse).reverse := by
    conv_lhs => rw [← List.reverse_reverse top, List.take_reverse]
    rfl
  rw [htake]
  refine (List.reverse_perm _).trans (newest_perm StoredMessage.timestampMs hup (h.sorted channel) ?_ ?_)
  · exact (List.reverse_perm top).trans hperm
  · exact huncut.perm _ (((List.reverse_perm top).trans hperm).symm)

theorem add (h : SameChannels channels digests rows) (msg : StoredMessage) (hmsg : msg.timestampMs < 2 ^ 63)
    (hnew : digests.contains msg.digest = false) :
    SameChannels (channels.insert msg.channel (sortByTime (·.timestampMs) (channels[msg.channel]?.getD [] ++ [msg])))
      (digests.insert msg.digest) (rows ++ [msg]) where
  perm channel := by
    rw [Std.ExtTreeMap.getElem?_insert, List.filter_append]
    by_cases hc : msg.channel = channel
    · subst hc
      simp only [Std.ReflCmp.compare_self, if_true, Option.getD_some]
      refine .trans ?_ (List.perm_insertionSort _ _).symm
      exact (h.perm msg.channel).append (by simp)
    · rw [if_neg (by simpa using hc)]
      simp [hc, h.perm channel]
  sorted channel := by
    rw [Std.ExtTreeMap.getElem?_insert]
    by_cases hc : msg.channel = channel
    · subst hc
      simp only [Std.ReflCmp.compare_self, if_true, Option.getD_some]
      exact sorted_sort StoredMessage.timestampMs _
    · rw [if_neg (by simpa using hc)]
      exact h.sorted channel
  nodup := by
    have hfresh : msg.digest ∉ rows.map (·.digest) := by
      rw [← h.digests, hnew]
      exact Bool.false_ne_true
    rw [List.map_append, List.nodup_append]
    refine ⟨h.nodup, List.nodup_singleton _, ?_⟩
    intro d hd d' hd' heq
    rw [List.mem_map] at hd'
    obtain ⟨m, hm, rfl⟩ := hd'
    rw [List.mem_singleton.mp hm] at heq
    exact hfresh (heq ▸ hd)
  digests d := by
    rw [Std.ExtTreeSet.contains_insert, Bool.or_eq_true, beq_iff_eq, Std.compare_eq_iff_eq, h.digests, List.map_append,
      List.mem_append, List.map_singleton, List.mem_singleton]
    exact or_comm.trans (or_congr_right eq_comm)
  stamps r hr := by
    rcases List.mem_append.mp hr with hr | hr
    · exact h.stamps r hr
    · rw [List.mem_singleton.mp hr]
      exact hmsg

theorem mem_cutRows [E : Engine] (h : SameChannels channels digests rows) (channel : String) (n : ℕ)
    (huncut : Uncut StoredMessage.timestampMs n (channels[channel]?.getD [])) (r : StoredMessage) :
    r ∈ cutRows rows channel n ↔ r ∈ rows ∧ (r.channel = channel → r ∈ lastN n (channels[channel]?.getD [])) := by
  have hnewest := h.newest .prune channel n huncut
  unfold cutRows
  rw [List.mem_filter]
  refine and_congr_right fun hr => ?_
  simp only [decide_eq_true_eq, not_and, not_not]
  refine imp_congr_right fun hc => ?_
  rw [List.mem_map]
  constructor
  · rintro ⟨r', hr', heq⟩
    have hkept := hnewest.mem_iff.mp hr'
    have hheld := (h.mem_held channel r').mp ((lastN_sublist n _).subset hkept)
    rwa [← List.inj_on_of_nodup_map h.nodup hheld.1 hr heq]
  · intro hkept
    exact ⟨r, hnewest.mem_iff.mpr hkept, rfl⟩

/-- The count pruning of the two. -/
theorem cut [E : Engine] (h : SameChannels channels digests rows) (channel : String) (n : ℕ)
    (huncut : Uncut StoredMessage.timestampMs n (channels[channel]?.getD [])) :
    SameChannels (channels.insert channel (dropExcess n (channels[channel]?.getD []) digests).1)
      (dropExcess n (channels[channel]?.getD []) digests).2 (cutRows rows channel n) := by
  have hmem := h.mem_cutRows channel n huncut
  have hnodup := h.held_nodup channel
  have hheld := h.mem_held channel
  generalize hlist : channels[channel]?.getD [] = held at hmem hnodup hheld huncut ⊢
  rw [dropExcess_eq]
  have hrows : (cutRows rows channel n).Nodup := (List.Nodup.of_map _ h.nodup).filter _
  refine ⟨?_, ?_, h.nodup.sublist (List.filter_sublist.map _), ?_, fun r hr => h.stamps r (List.mem_of_mem_filter hr)⟩
  · intro channel'
    rw [Std.ExtTreeMap.getElem?_insert]
    by_cases hc : channel = channel'
    · subst hc
      simp only [Std.ReflCmp.compare_self, if_true, Option.getD_some]
      rw [List.perm_ext_iff_of_nodup (hrows.filter _) ((List.Nodup.of_map _ hnodup).sublist (lastN_sublist n held))]
      intro r
      rw [List.mem_filter, hmem, decide_eq_true_eq]
      constructor
      · rintro ⟨⟨-, hkept⟩, hr⟩
        exact hkept hr
      · intro hkept
        obtain ⟨hr, hc⟩ := (hheld r).mp ((lastN_sublist n held).subset hkept)
        exact ⟨⟨hr, fun _ => hkept⟩, hc⟩
    · rw [if_neg (by simpa using hc)]
      refine .trans (.of_eq ?_) (h.perm channel')
      unfold cutRows
      rw [List.filter_filter]
      apply List.filter_congr
      intro r _
      by_cases hr : r.channel = channel'
      · simp [hr, Ne.symm hc]
      · simp [hr]
  · intro channel'
    rw [Std.ExtTreeMap.getElem?_insert]
    by_cases hc : channel = channel'
    · subst hc
      simp only [Std.ReflCmp.compare_self, if_true, Option.getD_some]
      exact (hlist ▸ h.sorted channel).sublist (lastN_sublist n held)
    · rw [if_neg (by simpa using hc)]
      exact h.sorted channel'
  · intro d
    have hsplit := List.take_append_drop (held.length - n) held
    have hapart : ∀ r ∈ held.take (held.length - n), ∀ r' ∈ lastN n held, r.digest ≠ r'.digest := by
      rw [← hsplit, List.map_append, List.nodup_append] at hnodup
      intro r hr r' hr'
      exact hnodup.2.2 _ (List.mem_map_of_mem hr) _ (List.mem_map_of_mem hr')
    rw [contains_foldl_erase, h.digests, List.mem_map, List.mem_map, List.mem_map]
    constructor
    · rintro ⟨⟨r, hr, rfl⟩, hdropped⟩
      refine ⟨r, (hmem r).mpr ⟨hr, fun hc => ?_⟩, rfl⟩
      have hmem' := (hheld r).mpr ⟨hr, hc⟩
      rw [← hsplit, List.mem_append] at hmem'
      exact hmem'.resolve_left fun htake => hdropped ⟨r, htake, rfl⟩
    · rintro ⟨r, hr, rfl⟩
      obtain ⟨hr, hkept⟩ := (hmem r).mp hr
      refine ⟨⟨r, hr, rfl⟩, ?_⟩
      rintro ⟨r', hr', heq⟩
      have hin := (hheld r').mp (List.mem_of_mem_take hr')
      have hsame := List.inj_on_of_nodup_map h.nodup hin.1 hr heq
      subst hsame
      exact hapart r' hr' r' (hkept hin.2) rfl

/-- Time pruning that finds nothing old makes no difference, nor does any when none may stay. -/
theorem expired_cut [Engine] (h : SameChannels channels digests rows) (channel : String) {historyMs nowMs : Millis} {n : ℕ}
    (hnow : nowMs < 2 ^ 63) (hfresh : historyMs = 0 ∨ ((historyMs < 2 ^ 63 ∨ n = 0) ∧
      ∀ r ∈ rows, r.channel = channel → nowMs - r.timestampMs < historyMs)) :
    cutRows (if historyMs > 0 then rows.filter fun m => ¬ (m.channel = channel ∧
      asI64 nowMs - asI64 m.timestampMs ≥ asI64 historyMs) else rows) channel n = cutRows rows channel n := by
  rcases Nat.eq_zero_or_pos historyMs with hzero | hpos
  · rw [if_neg (by simp [hzero])]
  obtain ⟨hsmall | hnone, hyoung⟩ := hfresh.resolve_left hpos.ne'
  · rw [if_pos hpos]
    congr 1
    rw [List.filter_eq_self]
    intro r hr
    rw [decide_eq_true_eq]
    rintro ⟨hc, hold⟩
    have hr' := hyoung r hr hc
    rw [asI64_small hnow, asI64_small (h.stamps r hr), asI64_small hsmall] at hold
    change (historyMs : ℤ) ≤ (nowMs : ℤ) - (r.timestampMs : ℤ) at hold
    have : ((nowMs : ℕ) : ℤ) - ((r.timestampMs : ℕ) : ℤ) ≤ ((nowMs - r.timestampMs : ℕ) : ℤ) := by omega
    exact absurd (hold.trans this) (not_le.mpr (Int.ofNat_lt.mpr hr'))
  · subst hnone
    rw [if_pos hpos]
    unfold cutRows
    rw [List.filter_filter]
    apply List.filter_congr
    intro r _
    by_cases hc : r.channel = channel
    · simp [hc]
    · simp [hc]

/-- Rows that are few enough are not cut. -/
theorem cut_none [Engine] (h : SameChannels channels digests rows) (channel : String) {n : ℕ}
    (hroom : (channels[channel]?.getD []).length ≤ n) : cutRows rows channel n = rows := by
  have hmem := h.mem_cutRows channel n (.inl hroom)
  unfold cutRows at hmem ⊢
  rw [List.filter_eq_self]
  intro r hr
  refine (List.mem_filter.mp ((hmem r).mpr ⟨hr, fun hc => ?_⟩)).2
  rw [lastN_all hroom]
  exact (h.mem_held channel r).mpr ⟨hr, hc⟩

theorem mem_values (h : SameChannels channels digests rows) (r : StoredMessage) :
    r ∈ channels.values.flatten ↔ r ∈ rows := by
  rw [List.mem_flatten]
  constructor
  · rintro ⟨l, hl, hr⟩
    rw [Maps.values_eq, List.mem_map] at hl
    obtain ⟨⟨channel, l⟩, he, rfl⟩ := hl
    have hheld := Std.ExtTreeMap.mem_toList_iff_getElem?_eq_some.mp he
    refine ((h.mem_held channel r).mp ?_).1
    rw [hheld]
    exact hr
  · intro hr
    have hmem := (h.mem_held r.channel r).mpr ⟨hr, rfl⟩
    cases hheld : channels[r.channel]? with
    | none =>
      rw [hheld] at hmem
      cases hmem
    | some l =>
      rw [hheld] at hmem
      refine ⟨l, ?_, hmem⟩
      rw [Maps.values_eq, List.mem_map]
      exact ⟨(r.channel, l), Std.ExtTreeMap.mem_toList_iff_getElem?_eq_some.mpr hheld, rfl⟩

/-- `channel_history` of the two. -/
theorem history [E : Engine] (h : SameChannels channels digests rows) (channel : String) (limit : ℕ)
    (huncut : Uncut StoredMessage.timestampMs limit (channels[channel]?.getD [])) :
    (lastN limit (sortByTime (·.timestampMs) (channels[channel]?.getD []))).Perm
      (oldestFirst (E.messages .oldestFirst
        ((newestFirst (E.messages .newest (rows.filter fun m => m.channel = channel))).take limit))) := by
  rw [sortByTime, (h.sorted channel).insertionSort_eq]
  refine (h.newest .newest channel limit huncut).symm.trans ?_
  exact (E.messages_perm .oldestFirst _).symm.trans (List.perm_insertionSort _ _).symm

end SameChannels
end CockroachChat
