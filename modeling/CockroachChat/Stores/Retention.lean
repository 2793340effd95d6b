import CockroachChat.Stores.Interchange
import CockroachChat.Core.Payloads

/-! # What a `MemoryStore` keeps

A channel and a thread are cut to the newest rows at each insertion. By count alone this keeps the
newest of everything that ever came in; pruning by age forgets more, and leaves digests behind. -/
namespace CockroachChat
set_option autoImplicit false
open Sorting

namespace MemoryStore

theorem lastN_lastN {α : Type} (n k : ℕ) (l : List α) : lastN n (lastN k l) = lastN (min n k) l := by
  unfold lastN
  rw [List.drop_drop, List.length_drop]
  congr 1
  omega

theorem take_lastN {α : Type} (n : ℕ) (l : List α) : l.take (l.length - n) ++ lastN n l = l := List.take_append_drop _ _

/-! ## Threads -/

theorem thread_putDm (s : MemoryStore) (dm : StoredDm) (fp : Fingerprint) :
    (s.putDm dm).thread fp =
      if dm.peer = fp then lastN s.historyMax (sortByTime (·.timestampMs) (s.thread fp ++ [dm])) else s.thread fp := by
  unfold thread putDm
  rw [Std.ExtTreeMap.getElem?_insert]
  by_cases h : dm.peer = fp
  · subst h
    simp
  · rw [if_neg (by simpa using h), if_neg h]

theorem thread_putAll (dms : List StoredDm) (s : MemoryStore) (fp : Fingerprint) :
    (dms.foldl putDm s).thread fp = (dms.filter (·.peer = fp)).foldl
      (fun held dm => lastN s.historyMax (sortByTime (·.timestampMs) (held ++ [dm]))) (s.thread fp) := by
  induction dms generalizing s with
  | nil => rfl
  | cons dm dms ih =>
    rw [List.foldl_cons, ih, thread_putDm]
    by_cases h : dm.peer = fp
    · rw [if_pos h, List.filter_cons_of_pos (by simpa using h)]
      rfl
    · rw [if_neg h, List.filter_cons_of_neg (by simpa using h)]
      rfl

/-! ## Channels -/

/-- What pruning by age leaves of a channel. -/
def recent (s : MemoryStore) (now : Millis) (l : List StoredMessage) : List StoredMessage :=
  if s.historyMs > 0 then l.filter fun m => now - m.timestampMs < s.historyMs else l

theorem mem_recent {s : MemoryStore} {now : Millis} {l : List StoredMessage} {m : StoredMessage} :
    m ∈ s.recent now l ↔ m ∈ l ∧ (s.historyMs = 0 ∨ now - m.timestampMs < s.historyMs) := by
  unfold recent
  by_cases h : s.historyMs > 0
  · rw [if_pos h, List.mem_filter, decide_eq_true_eq, or_iff_right h.ne']
  · have hzero : s.historyMs = 0 := Nat.eq_zero_of_not_pos h
    rw [if_neg h, and_iff_left (Or.inl hzero)]

theorem recent_sublist (s : MemoryStore) (now : Millis) (l : List StoredMessage) : (s.recent now l).Sublist l := by
  unfold recent
  split_ifs
  · exact List.filter_sublist
  · exact .refl l

theorem recent_all {s : MemoryStore} {now : Millis} {l : List StoredMessage}
    (h : s.historyMs = 0 ∨ ∀ m ∈ l, now - m.timestampMs < s.historyMs) : s.recent now l = l := by
  unfold recent
  by_cases hpos : s.historyMs > 0
  · rw [if_pos hpos, List.filter_eq_self]
    intro m hm
    exact decide_eq_true (h.resolve_left hpos.ne' m hm)
  · rw [if_neg hpos]

/-- The channel with a new message in its place, before the count limit. -/
def grown (s : MemoryStore) (msg : StoredMessage) : List StoredMessage :=
  s.recent msg.timestampMs (sortByTime (·.timestampMs) (s.rows msg.channel ++ [msg]))

theorem grown_subperm (s : MemoryStore) (msg : StoredMessage) : (s.grown msg).Subperm (s.rows msg.channel ++ [msg]) :=
  (recent_sublist _ _ _).subperm.trans (List.perm_insertionSort _ _).subperm

theorem mem_grown {s : MemoryStore} {msg m : StoredMessage} :
    m ∈ s.grown msg ↔ (m ∈ s.rows msg.channel ∨ m = msg) ∧ (s.historyMs = 0 ∨ msg.timestampMs - m.timestampMs < s.historyMs) := by
  rw [grown, mem_recent, sortByTime, List.mem_insertionSort, List.mem_append, List.mem_singleton]

theorem grown_sorted (s : MemoryStore) (msg : StoredMessage) :
    (s.grown msg).Pairwise fun a b => a.timestampMs ≤ b.timestampMs :=
  (sorted_sort StoredMessage.timestampMs _).sublist (recent_sublist _ _ _)

theorem putChannelMessage_known {s : MemoryStore} {msg : StoredMessage} (h : s.hasMessage msg.digest = true) :
    s.putChannelMessage msg = s := if_pos h

theorem putChannelMessage_new {s : MemoryStore} {msg : StoredMessage} (h : s.hasMessage msg.digest = false) :
    s.putChannelMessage msg = { s with
      channels := s.channels.insert msg.channel (lastN s.historyMax (s.grown msg))
      digests := ((s.grown msg).take ((s.grown msg).length - s.historyMax)).foldl (fun ds m => ds.erase m.digest)
        (s.digests.insert msg.digest) } := by
  have hunknown : s.digests.contains msg.digest = false := h
  unfold putChannelMessage pruneChannel
  simp only [hunknown, Bool.false_eq_true, if_false, Std.ExtTreeMap.getElem?_insert_self, dropExcess_eq, Maps.insert_insert]
  rfl

theorem rows_put {s : MemoryStore} {msg : StoredMessage} (h : s.hasMessage msg.digest = false) (channel : String) :
    (s.putChannelMessage msg).rows channel =
      if msg.channel = channel then lastN s.historyMax (s.grown msg) else s.rows channel := by
  rw [putChannelMessage_new h, rows, rows]
  dsimp only
  rw [Std.ExtTreeMap.getElem?_insert]
  by_cases hc : msg.channel = channel
  · simp [hc]
  · rw [if_neg (by simpa using hc), if_neg hc]

theorem mem_eraseAll (l : List StoredMessage) (ds : Std.ExtTreeSet Digest) (d : Digest) :
    d ∈ l.foldl (fun ds m => ds.erase m.digest) ds ↔ d ∈ ds ∧ d ∉ l.map (·.digest) := by
  induction l generalizing ds with
  | nil => simp
  | cons m l ih =>
    rw [List.foldl_cons, ih, Std.ExtTreeSet.mem_erase, List.map_cons, List.mem_cons, not_or]
    have hne : compare m.digest d ≠ .eq ↔ ¬ d = m.digest := by
      rw [ne_eq, Std.compare_eq_iff_eq, eq_comm]
    rw [hne]
    tauto

theorem has_put {s : MemoryStore} {msg : StoredMessage} (h : s.hasMessage msg.digest = false) (d : Digest) :
    (s.putChannelMessage msg).hasMessage d = true ↔ (d = msg.digest ∨ s.hasMessage d = true) ∧
      d ∉ ((s.grown msg).take ((s.grown msg).length - s.historyMax)).map (·.digest) := by
  rw [putChannelMessage_new h, hasMessage, hasMessage]
  dsimp only
  rw [← Std.ExtTreeSet.mem_iff_contains, ← Std.ExtTreeSet.mem_iff_contains, mem_eraseAll, Std.ExtTreeSet.mem_insert,
    Std.compare_eq_iff_eq, eq_comm]

/-- A message brings no digest but its own. -/
theorem has_put_le {s : MemoryStore} {msg : StoredMessage} {d : Digest} (hd : (s.putChannelMessage msg).hasMessage d = true) :
    d = msg.digest ∨ s.hasMessage d = true := by
  cases h : s.hasMessage msg.digest with
  | true =>
    rw [putChannelMessage_known h] at hd
    exact .inr hd
  | false => exact ((has_put h d).mp hd).1

theorem put_limits (s : MemoryStore) (msg : StoredMessage) :
    (s.putChannelMessage msg).historyMax = s.historyMax ∧ (s.putChannelMessage msg).historyMs = s.historyMs := by
  cases h : s.hasMessage msg.digest with
  | true => rw [putChannelMessage_known h]; exact ⟨rfl, rfl⟩
  | false => rw [putChannelMessage_new h]; exact ⟨rfl, rfl⟩

theorem foldl_limits (msgs : List StoredMessage) (s : MemoryStore) :
    (msgs.foldl putChannelMessage s).historyMax = s.historyMax ∧ (msgs.foldl putChannelMessage s).historyMs = s.historyMs := by
  induction msgs generalizing s with
  | nil => exact ⟨rfl, rfl⟩
  | cons msg msgs ih =>
    obtain ⟨hmax, hms⟩ := ih (s.putChannelMessage msg)
    exact ⟨hmax.trans (s.put_limits msg).1, hms.trans (s.put_limits msg).2⟩

/-- The messages are new to the store and to each other. -/
def AllNew (s : MemoryStore) (msgs : List StoredMessage) : Prop :=
  (msgs.map (·.digest)).Nodup ∧ ∀ m ∈ msgs, s.hasMessage m.digest = false

theorem AllNew.rest {s : MemoryStore} {msg : StoredMessage} {msgs : List StoredMessage} (h : s.AllNew (msg :: msgs)) :
    (s.putChannelMessage msg).AllNew msgs := by
  obtain ⟨hfresh, hrest⟩ := List.nodup_cons.mp h.1
  refine ⟨hrest, fun m hm => ?_⟩
  rw [Bool.eq_false_iff]
  intro hhas
  rcases has_put_le hhas with heq | hold
  · exact hfresh (List.mem_map.mpr ⟨m, hm, heq⟩)
  · rw [h.2 m (List.mem_cons_of_mem msg hm)] at hold
    cases hold

theorem AllNew.after {s : MemoryStore} {order msgs : List StoredMessage} (h : s.AllNew (order ++ msgs)) :
    (order.foldl putChannelMessage s).AllNew msgs := by
  induction order generalizing s with
  | nil => exact h
  | cons msg order ih => exact ih h.rest

theorem allNew_new (historyMax envelopeMaxPerPeer : ℕ) (historyMs envelopeTtlMs : Millis) {msgs : List StoredMessage}
    (h : (msgs.map (·.digest)).Nodup) : (new historyMax historyMs envelopeTtlMs envelopeMaxPerPeer).AllNew msgs :=
  ⟨h, fun m _ => by simp [hasMessage, new]⟩

theorem rows_putAll (msgs : List StoredMessage) (s : MemoryStore) (hnew : s.AllNew msgs) (hageless : s.historyMs = 0)
    (channel : String) :
    (msgs.foldl putChannelMessage s).rows channel = (msgs.filter (·.channel = channel)).foldl
      (fun held m => lastN s.historyMax (sortByTime (·.timestampMs) (held ++ [m]))) (s.rows channel) := by
  induction msgs generalizing s with
  | nil => rfl
  | cons msg msgs ih =>
    obtain ⟨hmax, hms⟩ := s.put_limits msg
    have hmsg := hnew.2 msg List.mem_cons_self
    rw [List.foldl_cons, ih _ hnew.rest (hms.trans hageless), rows_put hmsg, hmax]
    by_cases h : msg.channel = channel
    · rw [if_pos h, List.filter_cons_of_pos (by simpa using h), List.foldl_cons, ← h, grown, recent_all (.inl hageless)]
    · rw [if_neg h, List.filter_cons_of_neg (by simpa using h)]

/-! ## The newest of all -/

theorem newest_of_all {α : Type} (time : α → Millis) (k n : ℕ) (l : List α) :
    lastN n (sortByTime time (l.foldl (fun held a => lastN k (sortByTime time (held ++ [a]))) [])) =
      lastN (min n k) (sortByTime time l) := by
  have hfold : l.foldl (fun held a => lastN k (sortByTime time (held ++ [a]))) [] = lastN k (sortByTime time l) := by
    have h := newest_foldl time k l
    simp only [lastN, sortByTime, List.length_insertionSort, List.length_append, List.length_singleton]
    exact h
  have hsorted : (lastN k (sortByTime time l)).Pairwise fun a b => time a ≤ time b :=
    (sorted_sort time l).sublist (lastN_sublist _ _)
  rw [hfold, sortByTime, hsorted.insertionSort_eq, lastN_lastN]

/-- Cutting at every insertion keeps what cutting once at the end would keep, for threads, and for
channels that forget nothing by age. -/
theorem history_is_newest (historyMax envelopeMaxPerPeer : ℕ) (historyMs envelopeTtlMs : Millis) :
    (∀ (dms : List StoredDm) (fp : Fingerprint) (n : ℕ),
      (dms.foldl putDm (new historyMax historyMs envelopeTtlMs envelopeMaxPerPeer)).dmHistory fp n =
        lastN (min n historyMax) (sortByTime (·.timestampMs) (dms.filter (·.peer = fp)))) ∧
    ∀ msgs : List StoredMessage, (msgs.map (·.digest)).Nodup → ∀ (channel : String) (n : ℕ),
      (msgs.foldl putChannelMessage (new historyMax 0 envelopeTtlMs envelopeMaxPerPeer)).channelHistory channel n =
        lastN (min n historyMax) (sortByTime (·.timestampMs) (msgs.filter (·.channel = channel))) := by
  refine ⟨fun dms fp n => ?_, fun msgs hdistinct channel n => ?_⟩
  · have hrows := thread_putAll dms (new historyMax historyMs envelopeTtlMs envelopeMaxPerPeer) fp
    have hstart : (new historyMax historyMs envelopeTtlMs envelopeMaxPerPeer).thread fp = [] := by simp [thread, new]
    rw [hstart] at hrows
    have hnewest := newest_of_all StoredDm.timestampMs historyMax n (dms.filter (·.peer = fp))
    rw [dmHistory, ← thread, hrows]
    exact hnewest
  · have hrows := rows_putAll msgs _ (allNew_new historyMax envelopeMaxPerPeer 0 envelopeTtlMs hdistinct) rfl channel
    have hstart : (new historyMax 0 envelopeTtlMs envelopeMaxPerPeer).rows channel = [] := by simp [rows, new]
    rw [hstart] at hrows
    have hnewest := newest_of_all StoredMessage.timestampMs historyMax n (msgs.filter (·.channel = channel))
    rw [channelHistory, ← rows, hrows]
    exact hnewest

/-! ## The digest index -/

theorem mem_digests {s : MemoryStore} {channel : String} {d : Digest} :
    d ∈ s.channelDigests channel ↔ ∃ m ∈ s.rows channel, m.digest = d := List.mem_map

/-- The digests of what the channels hold, each once, in channels that are sorted and not too long. -/
structure Indexed (s : MemoryStore) : Prop where
  index : ∀ d : Digest, s.hasMessage d = true ↔ ∃ channel, d ∈ s.channelDigests channel
  once : ∀ channel : String, (s.channelDigests channel).Nodup
  apart : ∀ (channel channel' : String) (d : Digest), d ∈ s.channelDigests channel → d ∈ s.channelDigests channel' →
    channel = channel'
  sorted : ∀ channel : String, (s.rows channel).Pairwise fun a b => a.timestampMs ≤ b.timestampMs
  room : ∀ channel : String, (s.rows channel).length ≤ s.historyMax

/-- Every digest that a channel holds is in the index, and held once. The index may have more. -/
structure Filed (s : MemoryStore) : Prop where
  known : ∀ (channel : String) (d : Digest), d ∈ s.channelDigests channel → s.hasMessage d = true
  once : ∀ channel : String, (s.channelDigests channel).Nodup
  apart : ∀ (channel channel' : String) (d : Digest), d ∈ s.channelDigests channel → d ∈ s.channelDigests channel' →
    channel = channel'

theorem Indexed.filed {s : MemoryStore} (h : Indexed s) : Filed s where
  known channel d hd := (h.index d).mpr ⟨channel, hd⟩
  once := h.once
  apart := h.apart

/-- The index is exact, and with it whatever reads one side of it: a digest that is asked for is
found, and a message that is not held can be stored. -/
structure IndexExact (s : MemoryStore) : Prop extends Indexed s where
  found : ∀ d : Digest, (s.messageByDigest d).isSome = s.hasMessage d
  stored : ∀ msg : StoredMessage, (∀ channel, msg.digest ∉ s.channelDigests channel) →
    ∀ channel : String, (s.putChannelMessage msg).rows channel =
      if msg.channel = channel then lastN s.historyMax (s.grown msg) else s.rows channel

theorem mem_values {s : MemoryStore} {m : StoredMessage} : m ∈ s.channels.values.flatten ↔ ∃ channel, m ∈ s.rows channel := by
  rw [List.mem_flatten, Maps.values_eq]
  constructor
  · rintro ⟨l, hl, hm⟩
    obtain ⟨⟨channel, l⟩, he, rfl⟩ := List.mem_map.mp hl
    have hheld := Std.ExtTreeMap.mem_toList_iff_getElem?_eq_some.mp he
    exact ⟨channel, by rw [rows, hheld]; exact hm⟩
  · rintro ⟨channel, hm⟩
    cases hheld : s.channels[channel]? with
    | none => simp [rows, hheld] at hm
    | some l =>
      rw [rows, hheld] at hm
      exact ⟨l, List.mem_map.mpr ⟨(channel, l), Std.ExtTreeMap.mem_toList_iff_getElem?_eq_some.mpr hheld, rfl⟩, hm⟩

theorem Indexed.exact {s : MemoryStore} (h : Indexed s) : IndexExact s where
  toIndexed := h
  found d := by
    rw [Bool.eq_iff_iff, h.index d, messageByDigest, List.find?_isSome]
    constructor
    · rintro ⟨m, hm, hd⟩
      obtain ⟨channel, hrow⟩ := mem_values.mp hm
      exact ⟨channel, mem_digests.mpr ⟨m, hrow, by simpa using hd⟩⟩
    · rintro ⟨channel, hd⟩
      obtain ⟨m, hrow, hd⟩ := mem_digests.mp hd
      exact ⟨m, mem_values.mpr ⟨channel, hrow⟩, by simpa using hd⟩
  stored msg hmsg := by
    apply rows_put
    rw [Bool.eq_false_iff]
    intro hhas
    obtain ⟨channel, hd⟩ := (h.index msg.digest).mp hhas
    exact hmsg channel hd

theorem Indexed.congr {s t : MemoryStore} (h : Indexed s) (channels : t.channels = s.channels) (digests : t.digests = s.digests)
    (historyMax : t.historyMax = s.historyMax) : Indexed t where
  index d := by
    have h := h.index d
    unfold hasMessage channelDigests at h ⊢
    rwa [channels, digests]
  once channel := by
    have h := h.once channel
    unfold channelDigests at h ⊢
    rwa [channels]
  apart channel channel' d := by
    have h := h.apart channel channel' d
    unfold channelDigests at h ⊢
    rwa [channels]
  sorted channel := by
    have h := h.sorted channel
    unfold rows at h ⊢
    rwa [channels]
  room channel := by
    have h := h.room channel
    unfold rows at h ⊢
    rwa [channels, historyMax]

/-- No message in a channel is too old for the new one. -/
def NoneAged (s : MemoryStore) (msg : StoredMessage) : Prop :=
  s.historyMs = 0 ∨ ∀ m ∈ s.rows msg.channel, msg.timestampMs - m.timestampMs < s.historyMs

section Put
variable {s : MemoryStore} {msg : StoredMessage}

theorem NoneAged.grown (h : s.NoneAged msg) : s.grown msg = sortByTime (·.timestampMs) (s.rows msg.channel ++ [msg]) := by
  apply recent_all
  rcases Nat.eq_zero_or_pos s.historyMs with hzero | hpos
  · exact .inl hzero
  · refine .inr fun m hm => ?_
    rw [sortByTime, List.mem_insertionSort, List.mem_append, List.mem_singleton] at hm
    rcases hm with hm | rfl
    · exact h.resolve_left hpos.ne' m hm
    · rwa [Nat.sub_self]

theorem Filed.grown_nodup (h : Filed s) (hnew : s.hasMessage msg.digest = false) : ((s.grown msg).map (·.digest)).Nodup := by
  have hrows : ((s.rows msg.channel ++ [msg]).map (·.digest)).Nodup := by
    rw [List.map_append, List.nodup_append]
    refine ⟨h.once msg.channel, List.nodup_singleton _, ?_⟩
    intro d hd d' hd'
    rw [List.map_singleton, List.mem_singleton] at hd'
    rintro rfl
    have hhas := h.known msg.channel d hd
    rw [hd', hnew] at hhas
    cases hhas
  have hsort := List.perm_insertionSort (fun a b => StoredMessage.timestampMs a ≤ StoredMessage.timestampMs b)
    (s.rows msg.channel ++ [msg])
  exact ((hsort.map (·.digest)).nodup_iff.mpr hrows).sublist ((recent_sublist _ _ _).map _)

/-- What the count limit cuts off and what it leaves have no digest in common. -/
theorem Filed.cut_apart (h : Filed s) (hnew : s.hasMessage msg.digest = false) (d : Digest) :
    d ∈ (lastN s.historyMax (s.grown msg)).map (·.digest) ↔
      d ∈ (s.grown msg).map (·.digest) ∧ d ∉ ((s.grown msg).take ((s.grown msg).length - s.historyMax)).map (·.digest) := by
  have hnodup := h.grown_nodup hnew
  rw [← take_lastN s.historyMax (s.grown msg), List.map_append, List.nodup_append] at hnodup
  obtain ⟨-, -, hapart⟩ := hnodup
  constructor
  · intro hd
    refine ⟨?_, fun hcut => hapart d hcut d hd rfl⟩
    exact ((lastN_sublist _ _).map _).subset hd
  · rintro ⟨hd, hcut⟩
    rw [← take_lastN s.historyMax (s.grown msg), List.map_append, List.mem_append] at hd
    exact hd.resolve_left hcut

theorem digests_put (hnew : s.hasMessage msg.digest = false) (channel : String) :
    (s.putChannelMessage msg).channelDigests channel =
      if msg.channel = channel then (lastN s.historyMax (s.grown msg)).map (·.digest) else s.channelDigests channel := by
  have h := rows_put hnew channel
  unfold rows at h
  unfold channelDigests
  rw [h]
  split_ifs <;> rfl

theorem mem_digests_grown {d : Digest} (h : d ∈ (s.grown msg).map (·.digest)) :
    d = msg.digest ∨ d ∈ s.channelDigests msg.channel := by
  obtain ⟨m, hm, rfl⟩ := List.mem_map.mp h
  rcases (mem_grown.mp hm).1 with hrow | rfl
  · exact .inr (mem_digests.mpr ⟨m, hrow, rfl⟩)
  · exact .inl rfl

/-- A new message changes nothing about the digests of another channel. -/
theorem Filed.grown_apart (h : Filed s) (hnew : s.hasMessage msg.digest = false) {channel : String} {d : Digest}
    (hne : msg.channel ≠ channel) (hd : d ∈ s.channelDigests channel) : d ∉ (s.grown msg).map (·.digest) := by
  intro hmem
  rcases mem_digests_grown hmem with rfl | hd'
  · have hhas := h.known channel _ hd
    rw [hnew] at hhas
    cases hhas
  · exact hne (h.apart _ _ d hd' hd)

theorem Filed.put (h : Filed s) (hnew : s.hasMessage msg.digest = false) : Filed (s.putChannelMessage msg) := by
  refine ⟨fun channel d hd => ?_, fun channel => ?_, fun channel channel' d hd hd' => ?_⟩
  · rw [digests_put hnew] at hd
    rw [has_put hnew]
    split_ifs at hd with hc
    · obtain ⟨hmem, hcut⟩ := (h.cut_apart hnew d).mp hd
      exact ⟨(mem_digests_grown hmem).imp_right (h.known msg.channel d), hcut⟩
    · refine ⟨.inr (h.known channel d hd), fun hcut => h.grown_apart hnew hc hd ?_⟩
      exact ((List.take_sublist _ _).map _).subset hcut
  · rw [digests_put hnew]
    split_ifs
    · exact (h.grown_nodup hnew).sublist ((lastN_sublist _ _).map _)
    · exact h.once channel
  · rw [digests_put hnew] at hd hd'
    split_ifs at hd hd' with hc hc' hc'
    · exact hc.symm.trans hc'
    · exact absurd ((h.cut_apart hnew d).mp hd).1 (h.grown_apart hnew hc' hd')
    · exact absurd ((h.cut_apart hnew d).mp hd').1 (h.grown_apart hnew hc hd)
    · exact h.apart channel channel' d hd hd'

theorem Indexed.put (h : Indexed s) (hnew : s.hasMessage msg.digest = false) (hyoung : s.NoneAged msg) :
    Indexed (s.putChannelMessage msg) := by
  have hfiled := h.filed.put hnew
  have hheld : ∀ d, d = msg.digest ∨ d ∈ s.channelDigests msg.channel → d ∈ (s.grown msg).map (·.digest) := by
    intro d hd
    have hsort := List.perm_insertionSort (fun a b => StoredMessage.timestampMs a ≤ StoredMessage.timestampMs b)
      (s.rows msg.channel ++ [msg])
    rw [hyoung.grown, sortByTime, (hsort.map _).mem_iff, List.map_append, List.mem_append, List.map_singleton,
      List.mem_singleton]
    exact hd.symm
  refine ⟨fun d => ⟨?_, fun ⟨channel, hd⟩ => hfiled.known channel d hd⟩, hfiled.once, hfiled.apart, fun channel => ?_,
    fun channel => ?_⟩
  · rw [has_put hnew]
    rintro ⟨hd, hcut⟩
    by_cases hmem : d = msg.digest ∨ d ∈ s.channelDigests msg.channel
    · exact ⟨msg.channel, by rw [digests_put hnew, if_pos rfl, h.filed.cut_apart hnew]; exact ⟨hheld d hmem, hcut⟩⟩
    · rw [not_or] at hmem
      obtain ⟨channel, hother⟩ := (h.index d).mp (hd.resolve_left hmem.1)
      have hne : msg.channel ≠ channel := by
        rintro rfl
        exact hmem.2 hother
      exact ⟨channel, by rw [digests_put hnew, if_neg hne]; exact hother⟩
  · rw [rows_put hnew]
    split_ifs
    · exact (s.grown_sorted msg).sublist (lastN_sublist _ _)
    · exact h.sorted channel
  · rw [rows_put hnew, (s.put_limits msg).1]
    split_ifs
    · exact lastN_length_le _ _
    · exact h.room channel

/-- A message that age pushes out leaves its digest behind. -/
theorem Indexed.none_aged (h : Indexed s) (hnew : s.hasMessage msg.digest = false) (hput : Indexed (s.putChannelMessage msg)) :
    s.NoneAged msg := by
  rcases Nat.eq_zero_or_pos s.historyMs with hzero | hpos
  · exact .inl hzero
  · refine .inr fun m hm => ?_
    by_contra hold
    have hheld : m.digest ∈ s.channelDigests msg.channel := mem_digests.mpr ⟨m, hm, rfl⟩
    have hhas := (h.index m.digest).mpr ⟨msg.channel, hheld⟩
    have hgone : m.digest ∉ (s.grown msg).map (·.digest) := by
      intro hmem
      obtain ⟨m', hm', heq⟩ := List.mem_map.mp hmem
      obtain ⟨hrow | rfl, hyoung⟩ := mem_grown.mp hm'
      · obtain rfl := List.inj_on_of_nodup_map (h.once msg.channel) hrow hm heq
        exact hold (hyoung.resolve_left hpos.ne')
      · rw [← heq, hnew] at hhas
        cases hhas
    have hkept : (s.putChannelMessage msg).hasMessage m.digest = true := by
      rw [has_put hnew]
      exact ⟨.inr hhas, fun hcut => hgone (((List.take_sublist _ _).map _).subset hcut)⟩
    obtain ⟨channel, hd⟩ := (hput.index m.digest).mp hkept
    rw [digests_put hnew] at hd
    split_ifs at hd with hc
    · exact hgone (((lastN_sublist _ _).map _).subset hd)
    · exact hc (h.apart _ _ _ hheld hd)

end Put
end MemoryStore

namespace StoreOp

/-- The operation prunes nothing by age. -/
def Ageless (s : MemoryStore) : StoreOp → Prop
  | putChannelMessage msg => s.hasMessage msg.digest = true ∨ s.NoneAged msg
  | _ => True

theorem apply_indexed {s : MemoryStore} (h : s.Indexed) (op : StoreOp) : (op.apply s).Indexed ↔ op.Ageless s := by
  cases op with
  | putChannelMessage msg =>
    have happly : apply s (.putChannelMessage msg) = s.putChannelMessage msg := rfl
    rw [happly]
    cases hmsg : s.hasMessage msg.digest with
    | true =>
      rw [MemoryStore.putChannelMessage_known hmsg]
      exact iff_of_true h (.inl hmsg)
    | false =>
      constructor
      · exact fun hput => .inr (h.none_aged hmsg hput)
      · intro hyoung
        refine h.put hmsg (hyoung.resolve_left ?_)
        rw [hmsg]
        exact Bool.false_ne_true
  | deleteDms fp onlyControl =>
    refine iff_of_true ?_ trivial
    have happly : apply s (.deleteDms fp onlyControl) = s.deleteDms fp onlyControl := rfl
    rw [happly, MemoryStore.deleteDms]
    split_ifs
    · cases s.dms[fp]? <;> exact h.congr rfl rfl rfl
    · exact h.congr rfl rfl rfl
  | panicWipe =>
    refine iff_of_true ?_ trivial
    have hrows : ∀ channel, MemoryStore.rows (apply s .panicWipe) channel = [] := by
      intro channel
      simp [apply, Store.panicWipe, MemoryStore.panicWipe, MemoryStore.rows]
    constructor
    · intro d
      simp [apply, Store.panicWipe, MemoryStore.panicWipe, MemoryStore.hasMessage, MemoryStore.channelDigests]
    · intro channel
      simp [apply, Store.panicWipe, MemoryStore.panicWipe, MemoryStore.channelDigests]
    · intro channel channel' d hd
      simp [apply, Store.panicWipe, MemoryStore.panicWipe, MemoryStore.channelDigests] at hd
    · intro channel
      rw [hrows]
      exact .nil
    · intro channel
      rw [hrows]
      exact Nat.zero_le _
  | upsertPeer | putDm | queueEnvelope | takeEnvelopes | deletePeer => exact iff_of_true (h.congr rfl rfl rfl) trivial

/-- The digest index stays exact as long as age prunes nothing, and no longer. -/
theorem index_exact_iff (historyMax envelopeMaxPerPeer : ℕ) (historyMs envelopeTtlMs : Millis) (ops : List StoreOp) :
    Runs.Throughout apply MemoryStore.IndexExact (MemoryStore.new historyMax historyMs envelopeTtlMs envelopeMaxPerPeer) ops ↔
      ∀ pre op post, ops = pre ++ op :: post →
        op.Ageless (Runs.run apply (MemoryStore.new historyMax historyMs envelopeTtlMs envelopeMaxPerPeer) pre) := by
  apply Runs.throughout_iff
  · intro s op h
    rw [← apply_indexed h.toIndexed op]
    exact ⟨fun h' => h'.toIndexed, fun h' => h'.exact⟩
  · apply MemoryStore.Indexed.exact
    constructor <;> simp [MemoryStore.hasMessage, MemoryStore.channelDigests, MemoryStore.rows, MemoryStore.new]

end StoreOp
/-! ## Orders of arrival -/

namespace MemoryStore

/-- Two stores hold the same of a channel, and neither has anything for the other. -/
structure SameHistory (s t : MemoryStore) (channel : String) : Prop where
  rows : s.rows channel = t.rows channel
  quiet : (SyncFilter.new channel (s.channelDigests channel)).missingFrom (SyncFilter.new channel (t.channelDigests channel)) = []
  quiet' : (SyncFilter.new channel (t.channelDigests channel)).missingFrom (SyncFilter.new channel (s.channelDigests channel)) = []

theorem SameHistory.of_rows {s t : MemoryStore} {channel : String} (h : s.rows channel = t.rows channel) :
    SameHistory s t channel := by
  have hdigests : s.channelDigests channel = t.channelDigests channel := congrArg (List.map StoredMessage.digest) h
  have hnone : ∀ f : SyncFilter, f.missingFrom f = [] := by
    intro f
    rw [SyncFilter.missingFrom, List.filter_eq_nil_iff]
    intro d hd
    simpa using hd
  refine ⟨h, ?_, ?_⟩ <;> rw [hdigests] <;> exact hnone _

/-- The channel after some messages: no more than came in and no more than fits, and what counts among
the newest in the end is there as soon as it has come in. -/
structure KeptOf (s : MemoryStore) (channel : String) (newest came : List StoredMessage) : Prop where
  sorted : (s.rows channel).Pairwise fun a b => a.timestampMs ≤ b.timestampMs
  subperm : (s.rows channel).Subperm came
  room : (s.rows channel).length ≤ s.historyMax
  newest : ∀ m ∈ newest, m ∈ came → m ∈ s.rows channel

theorem KeptOf.put {s : MemoryStore} {channel : String} {newest came : List StoredMessage} (h : KeptOf s channel newest came)
    {msg : StoredMessage} (hnew : s.hasMessage msg.digest = false) (hchannel : msg.channel = channel)
    (hage : ∀ m ∈ newest, m ∈ came → s.historyMs = 0 ∨ msg.timestampMs - m.timestampMs < s.historyMs)
    (hfew : ∀ m ∈ newest, ((came ++ [msg]).filter fun x => m.timestampMs ≤ x.timestampMs).length ≤ s.historyMax) :
    KeptOf (s.putChannelMessage msg) channel newest (came ++ [msg]) := by
  have hrows := rows_put hnew channel
  rw [if_pos hchannel] at hrows
  have hgrown : (s.grown msg).Subperm (came ++ [msg]) := by
    refine (s.grown_subperm msg).trans ?_
    rw [hchannel]
    exact h.subperm.append (.refl _)
  constructor
  · rw [hrows]
    exact (s.grown_sorted msg).sublist (lastN_sublist _ _)
  · rw [hrows]
    exact (lastN_sublist _ _).subperm.trans hgrown
  · rw [hrows, (s.put_limits msg).1]
    exact lastN_length_le _ _
  · intro m hm hcame
    have hmem : m ∈ s.grown msg := by
      rw [mem_grown, hchannel]
      rw [List.mem_append, List.mem_singleton] at hcame
      rcases hcame with hold | rfl
      · exact ⟨.inl (h.newest m hm hold), hage m hm hold⟩
      · exact ⟨.inr rfl, by rw [Nat.sub_self]; exact Nat.eq_zero_or_pos _⟩
    have hcount : ((s.grown msg).filter fun x => m.timestampMs ≤ x.timestampMs).length ≤ s.historyMax :=
      (hgrown.filter _).length_le.trans (hfew m hm)
    rw [hrows]
    exact mem_newest StoredMessage.timestampMs (s.grown_sorted msg) hmem hcount

theorem KeptOf.foldl {channel : String} {newest : List StoredMessage} (order : List StoredMessage) {s : MemoryStore}
    {came : List StoredMessage} (h : KeptOf s channel newest came) (hnew : s.AllNew order)
    (hchannel : ∀ m ∈ order, m.channel = channel)
    (hage : ∀ pre msg post, order = pre ++ msg :: post → ∀ m ∈ newest, m ∈ came ++ pre →
      s.historyMs = 0 ∨ msg.timestampMs - m.timestampMs < s.historyMs)
    (hfew : ∀ m ∈ newest, ((came ++ order).filter fun x => m.timestampMs ≤ x.timestampMs).length ≤ s.historyMax) :
    KeptOf (order.foldl putChannelMessage s) channel newest (came ++ order) := by
  induction order generalizing s came with
  | nil => rwa [List.append_nil]
  | cons msg order ih =>
    obtain ⟨hmax, hms⟩ := s.put_limits msg
    have hput := h.put (hnew.2 msg List.mem_cons_self) (hchannel msg List.mem_cons_self)
      (fun m hm hcame => hage [] msg order rfl m hm (by rwa [List.append_nil]))
      (fun m hm => by
        refine le_trans (List.Sublist.length_le (List.Sublist.filter _ ?_)) (hfew m hm)
        exact (List.Sublist.refl came).append (List.singleton_sublist.mpr List.mem_cons_self))
    have hsplit : came ++ msg :: order = came ++ [msg] ++ order := by simp
    rw [List.foldl_cons, hsplit]
    apply ih hput hnew.rest fun m hm => hchannel m (List.mem_cons_of_mem msg hm)
    · intro pre m' post hpost m hm hcame
      rw [hms]
      apply hage (msg :: pre) m' post (by rw [hpost, List.cons_append]) m hm
      simpa using hcame
    · intro m hm
      rw [hmax, ← hsplit]
      exact hfew m hm

section Order
variable {historyMax envelopeMaxPerPeer : ℕ} {historyMs envelopeTtlMs : Millis} {channel : String} {msgs : List StoredMessage}

/-- Where nothing that belongs to the newest is too old for a later arrival, just the newest are kept. -/
theorem rows_of_order (hchannel : ∀ m ∈ msgs, m.channel = channel) (hdigests : (msgs.map (·.digest)).Nodup)
    (htimes : (msgs.map (·.timestampMs)).Nodup) {order : List StoredMessage} (hperm : order.Perm msgs)
    (hage : ∀ pre msg post, order = pre ++ msg :: post → ∀ m ∈ lastN historyMax (sortByTime (·.timestampMs) msgs), m ∈ pre →
      historyMs = 0 ∨ msg.timestampMs - m.timestampMs < historyMs) :
    (order.foldl putChannelMessage (new historyMax historyMs envelopeTtlMs envelopeMaxPerPeer)).rows channel =
      lastN historyMax (sortByTime (·.timestampMs) msgs) := by
  have hsort := List.perm_insertionSort (fun a b => StoredMessage.timestampMs a ≤ StoredMessage.timestampMs b) msgs
  have hsorted : (sortByTime (·.timestampMs) msgs).Pairwise fun a b => a.timestampMs ≤ b.timestampMs := sorted_sort StoredMessage.timestampMs msgs
  have hkeys : ((sortByTime (·.timestampMs) msgs).map (·.timestampMs)).Nodup := (hsort.map _).nodup_iff.mpr htimes
  let newest := lastN historyMax (sortByTime (·.timestampMs) msgs)
  have hstart : KeptOf (new historyMax historyMs envelopeTtlMs envelopeMaxPerPeer) channel newest [] :=
    ⟨by simp [rows, new], by simp [rows, new], by simp [rows, new], by simp⟩
  have hkept := hstart.foldl order
    (allNew_new historyMax envelopeMaxPerPeer historyMs envelopeTtlMs ((hperm.map _).nodup_iff.mpr hdigests))
    (fun m hm => hchannel m (hperm.mem_iff.mp hm)) hage (fun m hm => by
      rw [List.nil_append, ((hperm.trans hsort.symm).filter _).length_eq]
      exact newest_few StoredMessage.timestampMs hsorted hkeys hm)
  rw [List.nil_append] at hkept
  have hnodup : newest.Nodup := (List.Nodup.of_map _ hkeys).sublist (lastN_sublist _ _)
  have hsub : newest.Subperm ((order.foldl putChannelMessage (new historyMax historyMs envelopeTtlMs envelopeMaxPerPeer)).rows channel) := by
    refine hnodup.subperm fun m hm => hkept.newest m hm ?_
    exact (hperm.trans hsort.symm).mem_iff.mpr ((lastN_sublist _ _).subset hm)
  have hmax : (order.foldl putChannelMessage (new historyMax historyMs envelopeTtlMs envelopeMaxPerPeer)).historyMax = historyMax :=
    (foldl_limits _ _).1
  have hlen : newest.length = min historyMax msgs.length := by
    have hall : (sortByTime (·.timestampMs) msgs).length = msgs.length := List.length_insertionSort _ _
    simp only [newest, lastN, List.length_drop, hall]
    omega
  have hroom := hkept.room
  have hfit := hkept.subperm.length_le
  rw [hmax] at hroom
  rw [hperm.length_eq] at hfit
  have hsame := (hsub.perm_of_length_le (by omega)).symm
  have hinj : ∀ a ∈ newest, ∀ b ∈ newest, a.timestampMs = b.timestampMs → a = b := by
    intro a ha b hb
    exact List.inj_on_of_nodup_map hkeys ((lastN_sublist _ _).subset ha) ((lastN_sublist _ _).subset hb)
  exact (eq_sort StoredMessage.timestampMs hsame hkept.sorted hinj).trans
    (eq_sort StoredMessage.timestampMs (.refl newest) (hsorted.sublist (lastN_sublist _ _)) hinj).symm

/-- The last arrival leaves nothing in its channel that is too old for it. -/
theorem last_prunes {order : List StoredMessage} {last m : StoredMessage} (hdigests : ((order ++ [last]).map (·.digest)).Nodup)
    (hpos : 0 < historyMs)
    (hm : m ∈ ((order ++ [last]).foldl putChannelMessage (new historyMax historyMs envelopeTtlMs envelopeMaxPerPeer)).rows last.channel) :
    last.timestampMs - m.timestampMs < historyMs := by
  have hnew : (order.foldl putChannelMessage (new historyMax historyMs envelopeTtlMs envelopeMaxPerPeer)).AllNew [last] := by
    have hall := allNew_new historyMax envelopeMaxPerPeer historyMs envelopeTtlMs hdigests
    exact hall.after
  have hms : (order.foldl putChannelMessage (new historyMax historyMs envelopeTtlMs envelopeMaxPerPeer)).historyMs = historyMs :=
    (foldl_limits _ _).2
  rw [List.foldl_append, List.foldl_cons, List.foldl_nil, rows_put (hnew.2 last List.mem_cons_self), if_pos rfl] at hm
  have hage := (mem_grown.mp ((lastN_sublist _ _).subset hm)).2
  rw [hms] at hage
  exact hage.resolve_left hpos.ne'

/-- The order of arrival plays no part exactly when the newest are all young enough for the newest. -/
theorem order_free_iff (hchannel : ∀ m ∈ msgs, m.channel = channel) (hdigests : (msgs.map (·.digest)).Nodup)
    (htimes : (msgs.map (·.timestampMs)).Nodup) :
    (∀ order order' : List StoredMessage, order.Perm msgs → order'.Perm msgs →
      SameHistory (order.foldl putChannelMessage (new historyMax historyMs envelopeTtlMs envelopeMaxPerPeer))
        (order'.foldl putChannelMessage (new historyMax historyMs envelopeTtlMs envelopeMaxPerPeer)) channel) ↔
      historyMs = 0 ∨ ∀ m ∈ lastN historyMax (sortByTime (·.timestampMs) msgs), ∀ late ∈ msgs,
        late.timestampMs - m.timestampMs < historyMs := by
  have hreverse : (sortByTime (·.timestampMs) msgs).reverse.Perm msgs :=
    (List.reverse_perm _).trans (List.perm_insertionSort _ msgs)
  constructor
  · intro hsame
    rcases Nat.eq_zero_or_pos historyMs with hzero | hpos
    · exact .inl hzero
    · refine .inr fun m hm late hlate => ?_
      -- newest first keeps all of the newest; with the late one last nothing is left that is too old for it
      have hdown : ((sortByTime (·.timestampMs) msgs).reverse.foldl putChannelMessage
          (new historyMax historyMs envelopeTtlMs envelopeMaxPerPeer)).rows channel =
            lastN historyMax (sortByTime (·.timestampMs) msgs) := by
        apply rows_of_order hchannel hdigests htimes hreverse
        intro pre msg post hsplit m _ hpre
        right
        have hpairs := List.pairwise_reverse.mpr (sorted_sort StoredMessage.timestampMs msgs)
        rw [← sortByTime, hsplit, List.pairwise_append] at hpairs
        have hle := hpairs.2.2 m hpre msg List.mem_cons_self
        rw [Nat.sub_eq_zero_of_le hle]
        exact hpos
      obtain ⟨before, after, hsplit⟩ := List.append_of_mem hlate
      have hlast : (before ++ after ++ [late]).Perm msgs := by
        rw [hsplit, List.append_assoc]
        exact (List.perm_append_singleton late after).append_left before
      have hrows := (hsame _ _ hlast hreverse).rows
      rw [hdown] at hrows
      rw [← hrows, ← hchannel late hlate] at hm
      exact last_prunes ((hlast.map _).nodup_iff.mpr hdigests) hpos hm
  · intro hyoung order order' hperm hperm'
    have hrows : ∀ l : List StoredMessage, l.Perm msgs →
        (l.foldl putChannelMessage (new historyMax historyMs envelopeTtlMs envelopeMaxPerPeer)).rows channel =
          lastN historyMax (sortByTime (·.timestampMs) msgs) := by
      intro l hl
      apply rows_of_order hchannel hdigests htimes hl
      intro pre msg post hsplit m hm _
      have hmsg : msg ∈ msgs := hl.mem_iff.mp (by rw [hsplit]; simp)
      exact hyoung.imp_right fun h => h m hm msg hmsg
    exact .of_rows ((hrows order hperm).trans (hrows order' hperm').symm)

end Order
/-! ## A message against the clock -/

theorem aged_iff {t a window : ℕ} (hpos : 0 < window) : window ≤ t - a ↔ a + window ≤ t := by omega

theorem later_of_younger {t a b window : ℕ} (haged : window ≤ t - a) (hyoung : t - b < window) : a ≤ b := by omega

/-- The message is still in its channel, or as many that are no older fill it up. -/
def Retained (s s' : MemoryStore) (channel : String) (m : StoredMessage) : Prop :=
  m ∈ s'.rows channel ∨ s.historyMax ≤ (s'.rows channel).countP fun r => m.timestampMs ≤ r.timestampMs

/-- Younger than the window, by the clock. -/
def Young (s : MemoryStore) (now : Millis) (m : StoredMessage) : Prop :=
  m.timestampMs ≤ now ∧ now - m.timestampMs < s.historyMs

instance (s s' : MemoryStore) (channel : String) (m : StoredMessage) : Decidable (s.Retained s' channel m) := inferInstanceAs (Decidable (_ ∨ _))

instance (s : MemoryStore) (now : Millis) (m : StoredMessage) : Decidable (s.Young now m) := inferInstanceAs (Decidable (_ ∧ _))

/-- What the timestamp of a new message leaves of its channel, itself included. -/
def unaged (s : MemoryStore) (msg : StoredMessage) : ℕ :=
  (s.rows msg.channel ++ [msg]).countP fun r => msg.timestampMs - r.timestampMs < s.historyMs

theorem grown_length (s : MemoryStore) (msg : StoredMessage) (hpos : 0 < s.historyMs) : (s.grown msg).length = s.unaged msg := by
  have hperm := List.perm_insertionSort (fun a b => StoredMessage.timestampMs a ≤ StoredMessage.timestampMs b)
    (s.rows msg.channel ++ [msg])
  rw [grown, recent, if_pos hpos, ← List.countP_eq_length_filter, sortByTime, hperm.countP_eq, unaged]

/-- A message that is not aged out goes only with as many that are no older behind it. -/
theorem retained_of_grown {s : MemoryStore} {msg m : StoredMessage} (hnew : s.hasMessage msg.digest = false)
    (hm : m ∈ s.grown msg) : Retained s (s.putChannelMessage msg) msg.channel m := by
  rw [Retained, rows_put hnew, if_pos rfl]
  by_cases hkept : m ∈ lastN s.historyMax (s.grown msg)
  · exact .inl hkept
  · right
    have hsplit := take_lastN s.historyMax (s.grown msg)
    have hsorted := s.grown_sorted msg
    rw [← hsplit] at hm
    have hcut := (List.mem_append.mp hm).resolve_right hkept
    have hlong : s.historyMax ≤ (s.grown msg).length := by
      by_contra hshort
      rw [Nat.sub_eq_zero_of_le (by omega), List.take_zero] at hcut
      cases hcut
    have hlen : (lastN s.historyMax (s.grown msg)).length = s.historyMax := by
      rw [lastN, List.length_drop]
      omega
    have hall : ∀ r ∈ lastN s.historyMax (s.grown msg), m.timestampMs ≤ r.timestampMs := by
      intro r hr
      rw [← hsplit, List.pairwise_append] at hsorted
      exact hsorted.2.2 m hcut r hr
    rw [List.countP_eq_length.mpr fun r hr => decide_eq_true (hall r hr), hlen]

/-- A message that is aged out goes unless the channel stays full. -/
theorem retained_aged {s : MemoryStore} {msg m : StoredMessage} (hnew : s.hasMessage msg.digest = false)
    (hpos : 0 < s.historyMs) (haged : s.historyMs ≤ msg.timestampMs - m.timestampMs) :
    Retained s (s.putChannelMessage msg) msg.channel m ↔ s.historyMax ≤ s.unaged msg := by
  have hgone : m ∉ s.grown msg := by
    intro hm
    rcases (mem_grown.mp hm).2 with hzero | hyoung
    · exact hpos.ne' hzero
    · exact (Nat.not_lt.mpr haged) hyoung
  have hgone' : m ∉ lastN s.historyMax (s.grown msg) := fun h => hgone ((lastN_sublist _ _).subset h)
  have hlater : ∀ r ∈ lastN s.historyMax (s.grown msg), m.timestampMs ≤ r.timestampMs := by
    intro r hr
    rcases (mem_grown.mp ((lastN_sublist _ _).subset hr)).2 with hzero | hyoung
    · exact absurd hzero hpos.ne'
    · exact later_of_younger haged hyoung
  rw [Retained, rows_put hnew, if_pos rfl, or_iff_right hgone',
    List.countP_eq_length.mpr fun r hr => decide_eq_true (hlater r hr), lastN, List.length_drop, ← s.grown_length msg hpos]
  omega

/-- A message from the network leaves what is young by the clock alone exactly as long as it is known,
is not a whole window later than any of it, or the channel is full of later messages anyway. -/
theorem young_retained_iff (s : MemoryStore) (now : Millis) (msg : StoredMessage) :
    (∀ m ∈ s.rows msg.channel, s.Young now m → Retained s (s.putChannelMessage msg) msg.channel m) ↔
      s.hasMessage msg.digest = true ∨ s.historyMax ≤ s.unaged msg ∨
        ∀ m ∈ s.rows msg.channel, s.Young now m → msg.timestampMs < m.timestampMs + s.historyMs := by
  cases hknown : s.hasMessage msg.digest with
  | true =>
    refine iff_of_true (fun m hm _ => .inl ?_) (.inl rfl)
    rwa [putChannelMessage_known hknown]
  | false =>
    rw [or_iff_right Bool.false_ne_true]
    constructor
    · intro h
      by_contra hcond
      push Not at hcond
      obtain ⟨hfew, m, hm, hyoung, hlate⟩ := hcond
      have hpos : 0 < s.historyMs := lt_of_le_of_lt (Nat.zero_le _) hyoung.2
      have hfull := (retained_aged hknown hpos ((aged_iff hpos).mpr hlate)).mp (h m hm hyoung)
      exact (Nat.not_lt.mpr hfull) hfew
    · intro h m hm hyoung
      have hpos : 0 < s.historyMs := lt_of_le_of_lt (Nat.zero_le _) hyoung.2
      by_cases haged : s.historyMs ≤ msg.timestampMs - m.timestampMs
      · refine (retained_aged hknown hpos haged).mpr (h.resolve_right fun hall => ?_)
        exact (Nat.not_lt.mpr ((aged_iff hpos).mp haged)) (hall m hm hyoung)
      · exact retained_of_grown hknown (mem_grown.mpr ⟨.inl hm, .inr (Nat.lt_of_not_le haged)⟩)

end MemoryStore
end CockroachChat

namespace CockroachChat.Reference
open MemoryStore

def bulletin (n : UInt8) (timestampMs : Millis) : StoredMessage :=
  { digest := Vector.replicate 8 n, channel := "#news", sender := Vector.replicate 8 3, timestampMs, body := [7], raw := [8] }

/-- The late bulletin is older than both that are kept. -/
theorem late_bulletin_dropped :
    (([bulletin 2 200, bulletin 3 300, bulletin 1 100].foldl putChannelMessage (new 2 0 0 100)).channelHistory "#news" 5 =
      lastN 2 (sortByTime (·.timestampMs) [bulletin 2 200, bulletin 3 300, bulletin 1 100])) :=
  (history_is_newest 2 100 0 0).2 [bulletin 2 200, bulletin 3 300, bulletin 1 100] (by decide) "#news" 5

/-- The second message pushes the first out by age, and its digest stays in the index. -/
theorem aged_digest_stays : ¬ IndexExact (Runs.run StoreOp.apply (new 10 2000 3000 4) [notice 1 1000, notice 2 5000]) := by
  intro h
  have hfound := h.found (Vector.replicate 8 1)
  revert hfound
  decide +kernel

theorem bulletins_in_any_order :
    SameHistory ([bulletin 1 1000, bulletin 2 2500].foldl putChannelMessage (new 10 2000 3000 4))
      ([bulletin 2 2500, bulletin 1 1000].foldl putChannelMessage (new 10 2000 3000 4)) "#news" :=
  (order_free_iff (by decide) (by decide) (by decide)).mpr (.inr (by decide +kernel))
    _ _ (.refl _) (.swap _ _ _)

/-- The older message last is kept, and first is forgotten. -/
theorem arrival_order_shows :
    ([bulletin 1 1000, bulletin 2 5000].map (·.digest)).Nodup ∧ ([bulletin 1 1000, bulletin 2 5000].map (·.timestampMs)).Nodup ∧
      [bulletin 2 5000, bulletin 1 1000].Perm [bulletin 1 1000, bulletin 2 5000] ∧
      ¬ SameHistory ([bulletin 1 1000, bulletin 2 5000].foldl putChannelMessage (new 10 2000 3000 4))
        ([bulletin 2 5000, bulletin 1 1000].foldl putChannelMessage (new 10 2000 3000 4)) "#news" := by
  refine ⟨by decide, by decide, .swap _ _ _, fun h => ?_⟩
  have hquiet := h.quiet'
  revert hquiet
  decide +kernel

/-- One from the year 2100 takes all. -/
theorem bulletins_wiped : ¬ ∀ (s : MemoryStore) (now : Millis) (msg m : StoredMessage), m ∈ s.rows msg.channel →
    s.Young now m → Retained s (s.putChannelMessage msg) msg.channel m := by
  intro h
  have hkept := h (Runs.run putChannelMessage (new 10 2000 3000 4) [bulletin 1 1000]) 1500 (bulletin 2 4102444800000)
    (bulletin 1 1000) (by decide +kernel) (by decide +kernel)
  revert hkept
  decide +kernel

end CockroachChat.Reference
