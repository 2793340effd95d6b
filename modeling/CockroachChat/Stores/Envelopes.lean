import CockroachChat.Stores.Retention

/-! # What waits for a peer

Both stores drop what is too old when an envelope is queued, and nothing when the queue is taken.
What a take returns is right as long as nothing has expired since the last envelope came in. -/
namespace CockroachChat
set_option autoImplicit false
open MemoryStore (lastN lastN_all lastN_filter lastN_lastN lastN_length_le lastN_map lastN_snoc lastN_sublist)

/-- A call of `queue_envelope` or of `take_envelopes`. -/
inductive EnvelopeCall where
  | queue (recipient : Fingerprint) (packetBytes : Bytes) (nowMs : Millis)
  | take (recipient : Fingerprint) (nowMs : Millis)

namespace EnvelopeCall

def time : EnvelopeCall → Millis
  | queue _ _ nowMs => nowMs
  | take _ nowMs => nowMs

def apply {S : Type} [Store S] (s : S) : EnvelopeCall → S
  | queue recipient packetBytes nowMs => Store.queueEnvelope s recipient packetBytes nowMs
  | take recipient _ => (Store.takeEnvelopes s recipient).1

/-- What one call adds to what was queued for `r` since it was last taken. -/
def queued (r : Fingerprint) (l : List Envelope) : EnvelopeCall → List Envelope
  | queue recipient packetBytes nowMs => if recipient = r then l ++ [{ packetBytes, queuedMs := nowMs }] else l
  | take recipient _ => if recipient = r then [] else l

def sinceTake (r : Fingerprint) (calls : List EnvelopeCall) : List Envelope := calls.foldl (queued r) []

/-- What one call makes of the queue of `r` in a store that drops at `nowMs` what is not `alive`. -/
def served (alive : Millis → Millis → Bool) (cap : ℕ) (r : Fingerprint) (q : List Envelope) : EnvelopeCall → List Envelope
  | queue recipient packetBytes nowMs =>
      if recipient = r then lastN cap (q.filter (fun e => alive nowMs e.queuedMs) ++ [{ packetBytes, queuedMs := nowMs }]) else q
  | take recipient _ => if recipient = r then [] else q

/-- What is left of a queue by the last envelope that came in. -/
def kept (alive : Millis → Millis → Bool) (cap : ℕ) (l : List Envelope) : List Envelope :=
  match l.getLast? with
  | none => []
  | some last => lastN cap (l.dropLast.filter (fun e => alive last.queuedMs e.queuedMs) ++ [last])

theorem kept_snoc (alive : Millis → Millis → Bool) (cap : ℕ) (l : List Envelope) (e : Envelope) :
    kept alive cap (l ++ [e]) = lastN cap (l.filter (fun e' => alive e.queuedMs e'.queuedMs) ++ [e]) := by
  simp [kept]

theorem sinceTake_snoc (r : Fingerprint) (calls : List EnvelopeCall) (c : EnvelopeCall) :
    sinceTake r (calls ++ [c]) = queued r (sinceTake r calls) c := List.foldl_append ..

theorem sinceTake_times (r : Fingerprint) (calls : List EnvelopeCall) :
    ((sinceTake r calls).map (·.queuedMs)).Sublist (calls.map time) := by
  induction calls using List.reverseRecOn with
  | nil => exact .slnil
  | append_singleton calls c ih =>
    rw [sinceTake_snoc, List.map_append]
    have hlonger : ((sinceTake r calls).map (·.queuedMs)).Sublist (calls.map time ++ [c].map time) :=
      ih.trans (List.sublist_append_left _ _)
    cases c with
    | queue recipient packetBytes nowMs =>
      simp only [queued]
      split_ifs
      · rw [List.map_append]
        exact ih.append (.refl _)
      · exact hlonger
    | take recipient nowMs =>
      simp only [queued]
      split_ifs
      · exact List.nil_sublist _
      · exact hlonger

end EnvelopeCall

/-- Where later rows pass whenever earlier ones do, the last of those that pass are the last rows that pass. -/
theorem filter_lastN {α : Type} (n : ℕ) (p : α → Bool) (l : List α) (h : l.Pairwise fun a b => p a = true → p b = true) :
    (lastN n l).filter p = lastN n (l.filter p) := by
  induction l with
  | nil => simp [lastN]
  | cons a l ih =>
    obtain ⟨hhead, htail⟩ := List.pairwise_cons.mp h
    by_cases hn : (a :: l).length ≤ n
    · have hfew := (List.length_filter_le p (a :: l)).trans hn
      rw [lastN_all hn, lastN_all hfew]
    · have hdrop : lastN n (a :: l) = lastN n l := by
        have hsub : (a :: l).length - n = l.length - n + 1 := by
          rw [List.length_cons] at hn ⊢
          omega
        unfold lastN
        rw [hsub, List.drop_succ_cons]
      by_cases ha : p a = true
      · have hall : ∀ b ∈ a :: l, p b = true := by
          intro b hb
          rcases List.mem_cons.mp hb with rfl | hb
          · exact ha
          · exact hhead b hb ha
        rw [List.filter_eq_self.mpr hall, List.filter_eq_self]
        exact fun b hb => hall b ((lastN_sublist _ _).subset hb)
      · rw [hdrop, List.filter_cons_of_neg ha, ih htail]

theorem age_younger {now queued queued' ttl : ℕ} (h : queued ≤ queued') (hage : now - queued < ttl) : now - queued' < ttl := by
  omega

theorem age_earlier {now now' queued ttl : ℕ} (h : now ≤ now') (hage : now' - queued < ttl) : now - queued < ttl := by omega

/-- An age test that the young pass for longer. -/
structure AgeTest (alive : Millis → Millis → Bool) : Prop where
  younger : ∀ now queued queued', queued ≤ queued' → alive now queued = true → alive now queued' = true
  earlier : ∀ now now' queued, now ≤ now' → alive now' queued = true → alive now queued = true

namespace EnvelopeCall
variable {alive : Millis → Millis → Bool} (ages : AgeTest alive) (cap : ℕ) (r : Fingerprint)
include ages

/-- Cutting and expiring at every insertion is cutting and expiring at the last. -/
theorem kept_insert (l : List Envelope) (e : Envelope) (hsorted : ((l ++ [e]).map (·.queuedMs)).Pairwise (· ≤ ·)) :
    lastN cap ((kept alive cap l).filter (fun e' => alive e.queuedMs e'.queuedMs) ++ [e]) = kept alive cap (l ++ [e]) := by
  rw [kept_snoc]
  cases cap with
  | zero => simp [lastN]
  | succ n =>
    rw [lastN_snoc, lastN_snoc]
    congr 1
    induction l using List.reverseRecOn with
    | nil => rfl
    | append_singleton l last _ =>
      rw [List.pairwise_map, List.pairwise_append, List.pairwise_append] at hsorted
      obtain ⟨⟨hl, -, hlast⟩, -, he⟩ := hsorted
      have hlate : last.queuedMs ≤ e.queuedMs := he last (by simp) e List.mem_cons_self
      let row := l.filter (fun e' => alive last.queuedMs e'.queuedMs) ++ [last]
      have hrow : row.Pairwise fun a b => alive e.queuedMs a.queuedMs = true → alive e.queuedMs b.queuedMs = true := by
        have htimes : row.Pairwise fun a b => a.queuedMs ≤ b.queuedMs := by
          rw [List.pairwise_append]
          exact ⟨hl.filter _, List.pairwise_singleton _ _, fun a ha => hlast a (List.mem_of_mem_filter ha)⟩
        exact htimes.imp fun hab => ages.younger _ _ _ hab
      -- what passes now has passed before
      have hsame : row.filter (fun e' => alive e.queuedMs e'.queuedMs) = (l ++ [last]).filter fun e' => alive e.queuedMs e'.queuedMs := by
        rw [List.filter_append, List.filter_append, List.filter_filter]
        congr 1
        apply List.filter_congr
        intro e' _
        rw [Bool.and_eq_left_iff_imp]
        exact ages.earlier _ _ _ hlate
      rw [kept_snoc, filter_lastN (n + 1) _ row hrow, hsame, lastN_lastN]
      congr 1
      omega

theorem served_run (calls : List EnvelopeCall) (hsorted : (calls.map time).Pairwise (· ≤ ·)) :
    calls.foldl (served alive cap r) [] = kept alive cap (sinceTake r calls) := by
  induction calls using List.reverseRecOn with
  | nil => rfl
  | append_singleton calls c ih =>
    have hbefore : (calls.map time).Pairwise (· ≤ ·) := hsorted.sublist ((List.sublist_append_left _ _).map _)
    have htimes := sinceTake_times r (calls ++ [c])
    rw [List.foldl_append, List.foldl_cons, List.foldl_nil, ih hbefore]
    rw [sinceTake_snoc] at htimes ⊢
    cases c with
    | queue recipient packetBytes nowMs =>
      simp only [served, queued] at htimes ⊢
      split_ifs at htimes ⊢
      · exact kept_insert ages cap _ _ (hsorted.sublist htimes)
      · rfl
    | take recipient nowMs =>
      simp only [served, queued]
      split_ifs <;> rfl

end EnvelopeCall

/-! ## What is due -/

/-- The newest of those that are young enough at the time of the take. -/
def due (ttlMs : Millis) (cap : ℕ) (nowMs : Millis) (l : List Envelope) : List Bytes :=
  (lastN cap (l.filter fun e => nowMs - e.queuedMs < ttlMs)).map (·.packetBytes)

/-- None of the newest has expired since the last envelope was queued. -/
def InTime (ttlMs : Millis) (cap : ℕ) (nowMs : Millis) (l : List Envelope) : Prop :=
  ∀ last ∈ l.getLast?, ∀ e ∈ lastN cap l, nowMs - e.queuedMs < ttlMs ∨ 0 < ttlMs ∧ ttlMs ≤ last.queuedMs - e.queuedMs

instance (ttlMs : Millis) (cap : ℕ) (nowMs : Millis) (l : List Envelope) : Decidable (InTime ttlMs cap nowMs l) :=
  inferInstanceAs (Decidable (∀ last ∈ l.getLast?, ∀ e ∈ lastN cap l, _))

theorem lastN_snoc_nil {α : Type} {n : ℕ} {l : List α} {a : α} : lastN n (l ++ [a]) = [] ↔ n = 0 := by
  cases n with
  | zero => simp [lastN]
  | succ n => simp [lastN_snoc]

theorem map_filter_eq_iff {α β : Type} (f : α → β) (p q : α → Bool) (l : List α) (h : ∀ a ∈ l, q a = true → p a = true) :
    (l.filter p).map f = (l.filter q).map f ↔ ∀ a ∈ l, p a = true → q a = true := by
  have hboth : l.filter q = (l.filter p).filter q := by
    rw [List.filter_filter]
    apply List.filter_congr
    intro a ha
    rw [eq_comm, Bool.and_eq_left_iff_imp]
    exact h a ha
  constructor
  · intro heq a ha hp
    have hlen : ((l.filter p).filter q).length = (l.filter p).length := by
      rw [← hboth]
      simpa using (congrArg List.length heq).symm
    exact List.length_filter_eq_length_iff.mp hlen a (List.mem_filter.mpr ⟨ha, hp⟩)
  · intro himp
    have hall : (l.filter p).filter q = l.filter p := by
      rw [List.filter_eq_self]
      intro a ha
      exact himp a (List.mem_filter.mp ha).1 (List.mem_filter.mp ha).2
    rw [hboth, hall]

section Due
variable {alive : Millis → Millis → Bool} {ttlMs nowMs : Millis} {cap : ℕ} {l : List Envelope}

/-- An age limit that both clocks read alike. -/
theorem kept_due_of_young (hpos : 0 < ttlMs) (halive : ∀ now queued, alive now queued = decide (now - queued < ttlMs))
    (hsorted : (l.map (·.queuedMs)).Pairwise (· ≤ ·)) (hnow : ∀ e ∈ l, e.queuedMs ≤ nowMs) :
    (EnvelopeCall.kept alive cap l).map (·.packetBytes) = due ttlMs cap nowMs l ↔ InTime ttlMs cap nowMs l := by
  have htimes : l.Pairwise fun a b => a.queuedMs ≤ b.queuedMs := List.pairwise_map.mp hsorted
  have hyoung : ∀ now : Millis, l.Pairwise fun a b =>
      decide (now - a.queuedMs < ttlMs) = true → decide (now - b.queuedMs < ttlMs) = true := by
    intro now
    refine htimes.imp fun {a b} hab hage => ?_
    rw [decide_eq_true_eq] at hage ⊢
    exact age_younger hab hage
  rcases List.eq_nil_or_concat l with rfl | ⟨l, last, rfl⟩
  · simp [EnvelopeCall.kept, due, InTime, lastN]
  · rw [List.concat_eq_append] at *
    have hlast : ∀ e ∈ l ++ [last], e.queuedMs ≤ last.queuedMs := by
      intro e he
      rw [List.mem_append, List.mem_singleton] at he
      rcases he with he | rfl
      · exact (List.pairwise_append.mp htimes).2.2 e he last List.mem_cons_self
      · exact le_rfl
    have hkept : EnvelopeCall.kept alive cap (l ++ [last]) =
        (lastN cap (l ++ [last])).filter fun e => decide (last.queuedMs - e.queuedMs < ttlMs) := by
      rw [filter_lastN cap _ _ (hyoung last.queuedMs), List.filter_append, EnvelopeCall.kept_snoc]
      simp only [halive]
      congr 2
      simp [hpos]
    rw [hkept, due, ← filter_lastN cap _ _ (hyoung nowMs), map_filter_eq_iff]
    · constructor
      · intro himp last' hlast' e he
        obtain rfl : last = last' := by simpa using hlast'
        have h := himp e he
        simp only [decide_eq_true_eq] at h
        by_cases hage : last.queuedMs - e.queuedMs < ttlMs
        · exact .inl (h hage)
        · exact .inr ⟨hpos, Nat.le_of_not_lt hage⟩
      · intro hin e he hage
        rw [decide_eq_true_eq] at hage ⊢
        rcases hin last (by simp) e he with hyoung | ⟨-, hold⟩
        · exact hyoung
        · exact absurd hold (Nat.not_le.mpr hage)
    · intro e he hage
      rw [decide_eq_true_eq] at hage ⊢
      exact age_earlier (hnow last (by simp)) hage

/-- With no retention time nothing is due. -/
theorem kept_due_of_zero : (EnvelopeCall.kept alive cap l).map (·.packetBytes) = due 0 cap nowMs l ↔ InTime 0 cap nowMs l := by
  have hdue : due 0 cap nowMs l = [] := by simp [due, lastN]
  rw [hdue, List.map_eq_nil_iff]
  rcases List.eq_nil_or_concat l with rfl | ⟨l, last, rfl⟩
  · simp [EnvelopeCall.kept, InTime]
  · rw [List.concat_eq_append, EnvelopeCall.kept_snoc, lastN_snoc_nil]
    constructor
    · rintro rfl last' _ e he
      simp [lastN] at he
    · intro hin
      rw [← lastN_snoc_nil (l := l) (a := last), List.eq_nil_iff_forall_not_mem]
      intro e he
      rcases hin last (by simp) e he with h | h
      · exact Nat.not_lt_zero _ h
      · exact Nat.lt_irrefl _ h.1

/-- A store that keeps nothing but the last envelope. -/
theorem kept_due_of_none (halive : ∀ now queued, queued ≤ now → alive now queued = false) (hnow : nowMs < ttlMs)
    (hsorted : (l.map (·.queuedMs)).Pairwise (· ≤ ·)) :
    (EnvelopeCall.kept alive cap l).map (·.packetBytes) = due ttlMs cap nowMs l ↔ (lastN cap l).length ≤ 1 := by
  have hall : (l.filter fun e => decide (nowMs - e.queuedMs < ttlMs)) = l := by
    rw [List.filter_eq_self]
    intro e _
    rw [decide_eq_true_eq]
    exact (Nat.sub_le _ _).trans_lt hnow
  rw [due, hall]
  rcases List.eq_nil_or_concat l with rfl | ⟨l, last, rfl⟩
  · simp [EnvelopeCall.kept, lastN]
  · rw [List.concat_eq_append] at *
    have hnone : l.filter (fun e => alive last.queuedMs e.queuedMs) = [] := by
      rw [List.filter_eq_nil_iff]
      intro e he
      have hle := (List.pairwise_append.mp (List.pairwise_map.mp hsorted)).2.2 e he last List.mem_cons_self
      rw [halive _ _ hle]
      exact Bool.false_ne_true
    rw [EnvelopeCall.kept_snoc, hnone, List.nil_append]
    cases cap with
    | zero => simp [lastN]
    | succ n =>
      have hone : lastN (n + 1) [last] = [last] := lastN_all (by simp)
      rw [hone, lastN_snoc, List.map_append, List.length_append, List.length_singleton]
      constructor
      · intro heq
        have hlen := congrArg List.length heq
        simp at hlen ⊢
        exact hlen
      · intro hfew
        have hnil : lastN n l = [] := List.length_eq_zero_iff.mp (by omega)
        rw [hnil]
        rfl

end Due
/-! ## The two stores -/

/-- A take returns just what is due, and touches no other queue. -/
def TakesDue {S : Type} [Store S] (s : S) (r : Fingerprint) (expected : List Bytes) : Prop :=
  (Store.takeEnvelopes s r).2 = expected ∧
    ∀ r', r' ≠ r → (Store.takeEnvelopes (Store.takeEnvelopes s r).1 r').2 = (Store.takeEnvelopes s r').2

def MemoryStore.alive (ttlMs : Millis) (now queued : Millis) : Bool := now - queued < ttlMs

def SqliteStore.alive (ttlMs : Millis) (now queued : Millis) : Bool := ttlMs = 0 ∨ (now : ℤ) - queued < asI64 ttlMs

theorem MemoryStore.alive_ages (ttlMs : Millis) : AgeTest (MemoryStore.alive ttlMs) where
  younger now queued queued' h hage := by
    unfold MemoryStore.alive at hage ⊢
    rw [decide_eq_true_eq] at hage ⊢
    exact age_younger h hage
  earlier now now' queued h hage := by
    unfold MemoryStore.alive at hage ⊢
    rw [decide_eq_true_eq] at hage ⊢
    exact age_earlier h hage

theorem SqliteStore.alive_ages (ttlMs : Millis) : AgeTest (SqliteStore.alive ttlMs) where
  younger now queued queued' h hage := by
    unfold SqliteStore.alive at hage ⊢
    rw [decide_eq_true_eq] at hage ⊢
    have hcast : (queued : ℤ) ≤ queued' := Int.ofNat_le.mpr h
    exact hage.imp_right fun hage => by omega
  earlier now now' queued h hage := by
    unfold SqliteStore.alive at hage ⊢
    rw [decide_eq_true_eq] at hage ⊢
    have hcast : (now : ℤ) ≤ now' := Int.ofNat_le.mpr h
    exact hage.imp_right fun hage => by omega

theorem asI64_large {n : ℕ} (h : 2 ^ 63 ≤ n) (h' : n < 2 ^ 64) : asI64 n ≤ 0 := by
  unfold asI64
  rw [Int.bmod_def]
  have hmod : (n : ℤ) % (2 ^ 64 : ℕ) = n := Int.emod_eq_of_lt (by omega) (by omega)
  rw [hmod]
  split_ifs <;> omega

namespace EnvelopeCall

theorem memory_apply (s : MemoryStore) (c : EnvelopeCall) (r : Fingerprint) :
    (c.apply s).queue r = served (MemoryStore.alive s.envelopeTtlMs) s.envelopeMaxPerPeer r (s.queue r) c ∧
      (c.apply s).envelopeTtlMs = s.envelopeTtlMs ∧ (c.apply s).envelopeMaxPerPeer = s.envelopeMaxPerPeer := by
  cases c with
  | queue recipient packetBytes nowMs =>
    refine ⟨?_, rfl, rfl⟩
    have happly : apply s (.queue recipient packetBytes nowMs) = s.queueEnvelope recipient packetBytes nowMs := rfl
    rw [happly, MemoryStore.queue, MemoryStore.queueEnvelope, served]
    simp only [Std.ExtTreeMap.getElem?_insert, Std.compare_eq_iff_eq]
    split_ifs with h
    · subst h
      rfl
    · rfl
  | take recipient nowMs =>
    refine ⟨?_, rfl, rfl⟩
    have happly : apply s (.take recipient nowMs) = (s.takeEnvelopes recipient).1 := rfl
    rw [happly, MemoryStore.queue, MemoryStore.takeEnvelopes, served]
    simp only [Std.ExtTreeMap.getElem?_erase, Std.compare_eq_iff_eq]
    split_ifs <;> rfl

theorem memory_run (calls : List EnvelopeCall) (s : MemoryStore) (r : Fingerprint) :
    (Runs.run apply s calls).queue r =
      calls.foldl (served (MemoryStore.alive s.envelopeTtlMs) s.envelopeMaxPerPeer r) (s.queue r) := by
  induction calls generalizing s with
  | nil => rfl
  | cons c calls ih =>
    obtain ⟨hqueue, httl, hcap⟩ := memory_apply s c r
    rw [Runs.run_cons, ih, httl, hcap, hqueue, List.foldl_cons]

/-- The rows of a `SqliteStore`, read as queues. -/
structure Mirrors (queues : Std.ExtTreeMap Fingerprint (List Envelope)) (s t : SqliteStore) : Prop where
  rows : SameQueues queues t.envelopes t.envelopeSeq
  ttl : t.envelopeTtlMs = s.envelopeTtlMs
  cap : t.envelopeMaxPerPeer = s.envelopeMaxPerPeer

theorem sqlite_apply [Engine] {queues : Std.ExtTreeMap Fingerprint (List Envelope)} {s t : SqliteStore}
    (h : Mirrors queues s t) (c : EnvelopeCall) (hc : c.time < 2 ^ 63) :
    ∃ queues', Mirrors queues' s (c.apply t) ∧ ∀ r : Fingerprint, queues'[r]?.getD [] =
      served (SqliteStore.alive s.envelopeTtlMs) s.envelopeMaxPerPeer r (queues[r]?.getD []) c := by
  cases c with
  | queue recipient packetBytes nowMs =>
    have hrows := ((h.rows.expire recipient t.envelopeTtlMs nowMs hc).add recipient packetBytes nowMs hc).cut recipient
      t.envelopeMaxPerPeer
    simp only [Maps.insert_insert, Std.ExtTreeMap.getElem?_insert_self, Option.getD_some] at hrows
    refine ⟨_, ⟨hrows, h.ttl, h.cap⟩, fun r => ?_⟩
    simp only [Std.ExtTreeMap.getElem?_insert, Std.compare_eq_iff_eq, served]
    split_ifs with hr
    · subst hr
      rw [h.ttl, h.cap]
      rfl
    · rfl
  | take recipient nowMs =>
    refine ⟨_, ⟨h.rows.erase recipient, h.ttl, h.cap⟩, fun r => ?_⟩
    simp only [Std.ExtTreeMap.getElem?_erase, Std.compare_eq_iff_eq, served]
    split_ifs <;> rfl

theorem sqlite_run [Engine] (calls : List EnvelopeCall) (s : SqliteStore) (hempty : s.envelopes = [])
    (htimes : ∀ c ∈ calls, c.time < 2 ^ 63) :
    ∃ queues, Mirrors queues s (Runs.run apply s calls) ∧ ∀ r : Fingerprint, queues[r]?.getD [] =
      calls.foldl (served (SqliteStore.alive s.envelopeTtlMs) s.envelopeMaxPerPeer r) [] := by
  induction calls using List.reverseRecOn with
  | nil => exact ⟨∅, ⟨by rw [Runs.run_nil, hempty]; exact .empty _, rfl, rfl⟩, by simp⟩
  | append_singleton calls c ih =>
    obtain ⟨queues, hmirror, hqueues⟩ := ih fun c hc => htimes c (List.mem_append_left _ hc)
    obtain ⟨queues', hmirror', hqueues'⟩ := sqlite_apply hmirror c (htimes c (by simp))
    refine ⟨queues', by rwa [Runs.run_snoc], fun r => ?_⟩
    rw [hqueues', hqueues, List.foldl_append, List.foldl_cons, List.foldl_nil]

end EnvelopeCall

theorem MemoryStore.takesDue_iff (s : MemoryStore) (r : Fingerprint) (expected : List Bytes) :
    TakesDue s r expected ↔ (s.queue r).map (·.packetBytes) = expected := by
  constructor
  · exact fun h => h.1
  · intro h
    refine ⟨h, fun r' hr => ?_⟩
    have hother : (s.envelopes.erase r)[r']? = s.envelopes[r']? := Maps.getElem?_erase_ne _ hr.symm
    exact congrArg (fun q : Option (List Envelope) => (q.getD []).map (·.packetBytes)) hother

theorem SqliteStore.takesDue_iff [Engine] (s : SqliteStore) (r : Fingerprint) (expected : List Bytes) :
    TakesDue s r expected ↔ (s.takeEnvelopes r).2 = expected := by
  constructor
  · exact fun h => h.1
  · intro h
    refine ⟨h, fun r' hr => ?_⟩
    have hother : ((s.envelopes.filter fun e => ¬ e.recipient = r).filter fun e => e.recipient = r') =
        s.envelopes.filter fun e => e.recipient = r' := by
      rw [List.filter_filter]
      apply List.filter_congr
      intro e _
      by_cases he : e.recipient = r'
      · simp [he, hr]
      · simp [he]
    exact congrArg (fun rows : List EnvelopeRow => (rows.insertionSort fun a b => a.id ≤ b.id).map (·.packet)) hother

/-- Over any calls, a take returns what is due exactly when nothing has expired unseen. -/
theorem takes_due_iff [Engine] (historyMax envelopeMaxPerPeer : ℕ) (historyMs envelopeTtlMs : Millis)
    (calls : List EnvelopeCall) (r : Fingerprint) (nowMs : Millis)
    (clock : (calls.map EnvelopeCall.time ++ [nowMs]).Pairwise (· ≤ ·)) :
    (TakesDue (Runs.run EnvelopeCall.apply (MemoryStore.new historyMax historyMs envelopeTtlMs envelopeMaxPerPeer) calls) r
        (due envelopeTtlMs envelopeMaxPerPeer nowMs (EnvelopeCall.sinceTake r calls)) ↔
      InTime envelopeTtlMs envelopeMaxPerPeer nowMs (EnvelopeCall.sinceTake r calls)) ∧
    (nowMs < 2 ^ 63 → envelopeTtlMs < 2 ^ 64 →
      (TakesDue (Runs.run EnvelopeCall.apply (SqliteStore.new historyMax historyMs envelopeTtlMs envelopeMaxPerPeer) calls) r
          (due envelopeTtlMs envelopeMaxPerPeer nowMs (EnvelopeCall.sinceTake r calls)) ↔
        InTime envelopeTtlMs envelopeMaxPerPeer nowMs (EnvelopeCall.sinceTake r calls) ∧
          (envelopeTtlMs < 2 ^ 63 ∨ (lastN envelopeMaxPerPeer (EnvelopeCall.sinceTake r calls)).length ≤ 1))) := by
  obtain ⟨hsorted, -, hnow⟩ := List.pairwise_append.mp clock
  have htimes := EnvelopeCall.sinceTake_times r calls
  have hqueued : ((EnvelopeCall.sinceTake r calls).map (·.queuedMs)).Pairwise (· ≤ ·) := hsorted.sublist htimes
  have hpast : ∀ e ∈ EnvelopeCall.sinceTake r calls, e.queuedMs ≤ nowMs := by
    intro e he
    exact hnow _ (htimes.subset (List.mem_map_of_mem he)) nowMs List.mem_cons_self
  constructor
  · have hrun := EnvelopeCall.memory_run calls (MemoryStore.new historyMax historyMs envelopeTtlMs envelopeMaxPerPeer) r
    have hstart : (MemoryStore.new historyMax historyMs envelopeTtlMs envelopeMaxPerPeer).queue r = [] := by
      simp [MemoryStore.queue, MemoryStore.new]
    rw [hstart] at hrun
    have hkept := hrun.trans (EnvelopeCall.served_run (MemoryStore.alive_ages envelopeTtlMs) envelopeMaxPerPeer r calls hsorted)
    rw [MemoryStore.takesDue_iff, hkept]
    rcases Nat.eq_zero_or_pos envelopeTtlMs with rfl | hpos
    · exact kept_due_of_zero
    · exact kept_due_of_young hpos (fun _ _ => rfl) hqueued hpast
  · intro hsmall httl
    have hsmall' : ∀ c ∈ calls, c.time < 2 ^ 63 := by
      intro c hc
      exact (hnow _ (List.mem_map_of_mem hc) nowMs List.mem_cons_self).trans_lt hsmall
    obtain ⟨queues, hmirror, hqueues⟩ := EnvelopeCall.sqlite_run calls
      (SqliteStore.new historyMax historyMs envelopeTtlMs envelopeMaxPerPeer) rfl hsmall'
    have hkept := (hqueues r).trans
      (EnvelopeCall.served_run (SqliteStore.alive_ages envelopeTtlMs) envelopeMaxPerPeer r calls hsorted)
    have hanswer := hmirror.rows.take r
    rw [hkept] at hanswer
    rw [SqliteStore.takesDue_iff, SqliteStore.takeEnvelopes, ← hanswer]
    rcases Nat.eq_zero_or_pos envelopeTtlMs with rfl | hpos
    · rw [and_iff_left (Or.inl (by decide))]
      exact kept_due_of_zero
    · by_cases hlow : envelopeTtlMs < 2 ^ 63
      · rw [and_iff_left (Or.inl hlow)]
        refine kept_due_of_young hpos (fun now queued => ?_) hqueued hpast
        rw [SqliteStore.alive, decide_eq_decide, or_iff_right hpos.ne', asI64_small hlow]
        exact age_lt hpos
      · have hyoung : InTime envelopeTtlMs envelopeMaxPerPeer nowMs (EnvelopeCall.sinceTake r calls) := by
          intro last _ e _
          exact .inl (((Nat.sub_le _ _).trans_lt hsmall).trans_le (Nat.le_of_not_lt hlow))
        rw [and_iff_right hyoung, or_iff_right hlow]
        refine kept_due_of_none (fun now queued hle => ?_) (hsmall.trans_le (Nat.le_of_not_lt hlow)) hqueued
        have hneg : asI64 envelopeTtlMs ≤ 0 := asI64_large (Nat.le_of_not_lt hlow) httl
        have hcast : (queued : ℤ) ≤ now := Int.ofNat_le.mpr hle
        rw [SqliteStore.alive, decide_eq_false_iff_not, or_iff_right hpos.ne']
        omega

end CockroachChat

namespace CockroachChat.Reference

attribute [local instance] engine

/-- Two envelopes for one peer and one for another. -/
def parcels : List EnvelopeCall :=
  [.queue (Vector.replicate 32 9) [1] 0, .queue (Vector.replicate 32 8) [2] 300, .queue (Vector.replicate 32 9) [3] 500]

theorem parcels_taken_in_time :
    TakesDue (Runs.run EnvelopeCall.apply (MemoryStore.new 10 0 1000 4) parcels) (Vector.replicate 32 9) [[1], [3]] ∧
      TakesDue (Runs.run EnvelopeCall.apply (SqliteStore.new 10 0 1000 4) parcels) (Vector.replicate 32 9) [[1], [3]] := by
  have hdue : due 1000 4 900 (EnvelopeCall.sinceTake (Vector.replicate 32 9) parcels) = [[1], [3]] := by decide +kernel
  have hin : InTime 1000 4 900 (EnvelopeCall.sinceTake (Vector.replicate 32 9) parcels) := by decide +kernel
  obtain ⟨hmemory, hsqlite⟩ := takes_due_iff 10 4 0 1000 parcels (Vector.replicate 32 9) 900 (by decide)
  rw [← hdue]
  exact ⟨hmemory.mpr hin, (hsqlite (by decide) (by decide)).mpr ⟨hin, .inl (by decide)⟩⟩

/-- Nothing looks at the age of an envelope when it is taken. -/
theorem expired_parcels_taken :
    due 1000 4 5000 (EnvelopeCall.sinceTake (Vector.replicate 32 9) parcels) = [] ∧
      ¬ TakesDue (Runs.run EnvelopeCall.apply (MemoryStore.new 10 0 1000 4) parcels) (Vector.replicate 32 9) [] ∧
      ¬ TakesDue (Runs.run EnvelopeCall.apply (SqliteStore.new 10 0 1000 4) parcels) (Vector.replicate 32 9) [] := by
  refine ⟨by decide +kernel, fun h => ?_, fun h => ?_⟩
  · have htaken := h.1
    revert htaken
    decide +kernel
  · have htaken := h.1
    revert htaken
    decide +kernel

end CockroachChat.Reference
