import CockroachChat.Core.Relay
import CockroachChat.Foundations.Eviction
import CockroachChat.Foundations.Runs

/-! # The seen cache

How long a digest is remembered: until a sweep finds it old, or until the cache has filled up with
digests heard no earlier. -/
namespace CockroachChat.SeenCache
set_option autoImplicit false

/-- A digest is heard, or the timer sweeps out old entries. -/
inductive Op
  | observe (digest : Digest) (now : Millis)
  | evictExpired (now : Millis)

def Op.time : Op → Millis
  | .observe _ now => now
  | .evictExpired now => now

def act (cfg : Tunables) (c : SeenCache) : Op → SeenCache
  | .observe digest now => (c.observe cfg digest now).1
  | .evictExpired now => c.evictExpired cfg now

def after (cfg : Tunables) (ops : List Op) : SeenCache := Runs.run (act cfg) {} ops

def Ordered (ops : List Op) : Prop := ops.Pairwise fun a b => a.time ≤ b.time

instance (ops : List Op) : Decidable (Ordered ops) := inferInstanceAs (Decidable (List.Pairwise _ _))

/-- The digest is reported new at that time. -/
def ReportedNew (cfg : Tunables) (ops : List Op) (d : Digest) (t : Millis) : Prop :=
  ∃ pre post, ops = pre ++ .observe d t :: post ∧ ((after cfg pre).observe cfg d t).2.isNew = true

def Op.hears (d : Digest) : Op → Bool
  | .observe digest _ => decide (digest = d)
  | .evictExpired _ => false

/-- How often a digest was heard. -/
def observations (d : Digest) (ops : List Op) : ℕ := ops.countP (Op.hears d)

/-- The counter of the source, a saturating u32. -/
def saturated (n : ℕ) : ℕ := min n (2 ^ 32 - 1)

variable {cfg : Tunables} {c : SeenCache} {d x : Digest} {t u : Millis} {ops mid : List Op}

theorem evictOldest_eq (c : SeenCache) : c.evictOldest = { c with map := Eviction.dropOldest SeenEntry.firstSeenMs c.map } := by
  unfold evictOldest Eviction.dropOldest
  cases c.map.toList.argmin (fun e => e.2.firstSeenMs) <;> rfl

/-- The cache with room for one more. -/
def room (cfg : Tunables) (c : SeenCache) : SeenCache := if c.map.size ≥ cfg.seenCacheCapacity then c.evictOldest else c

theorem observe_new (h : c.map[d]? = none) (now : Millis) : c.observe cfg d now =
    ({ map := (c.room cfg).map.insert d { firstSeenMs := now, hearCount := 1 } }, { isNew := true, hearCount := 1 }) := by
  unfold observe
  rw [h]
  rfl

theorem observe_old {e : SeenEntry} (h : c.map[d]? = some e) (now : Millis) : c.observe cfg d now =
    ({ map := c.map.insert d { e with hearCount := saturated (e.hearCount + 1) } },
      { isNew := false, hearCount := saturated (e.hearCount + 1) }) := by
  unfold observe
  rw [h]
  rfl

theorem isNew_iff (now : Millis) : (c.observe cfg d now).2.isNew = true ↔ c.map[d]? = none := by
  cases h : c.map[d]? with
  | none => simp [observe_new h]
  | some e => simp [observe_old h]

theorem room_held {e : SeenEntry} (h : (c.room cfg).map[d]? = some e) : c.map[d]? = some e := by
  unfold room at h
  split_ifs at h
  · rw [evictOldest_eq] at h
    exact Eviction.dropOldest_held _ h
  · exact h

theorem act_other {digest : Digest} {e : SeenEntry} {now : Millis} (hx : digest ≠ d)
    (h : (c.act cfg (.observe digest now)).map[d]? = some e) : c.map[d]? = some e := by
  rw [act] at h
  cases hheld : c.map[digest]? with
  | none =>
    rw [observe_new hheld] at h
    simp only [Std.ExtTreeMap.getElem?_insert, Std.compare_eq_iff_eq, hx, if_false] at h
    exact room_held h
  | some e' =>
    rw [observe_old hheld] at h
    simpa only [Std.ExtTreeMap.getElem?_insert, Std.compare_eq_iff_eq, hx, if_false] using h

theorem after_snoc (ops : List Op) (o : Op) : after cfg (ops ++ [o]) = (after cfg ops).act cfg o := Runs.run_snoc ..

theorem ReportedNew.append (h : ReportedNew cfg ops d t) (more : List Op) : ReportedNew cfg (ops ++ more) d t := by
  obtain ⟨pre, post, rfl, hnew⟩ := h
  exact ⟨pre, post ++ more, by simp, hnew⟩

theorem ReportedNew.mem (h : ReportedNew cfg ops d t) : Op.observe d t ∈ ops := by
  obtain ⟨pre, post, rfl, -⟩ := h
  simp

theorem ordered_snoc {o : Op} : Ordered (ops ++ [o]) ↔ Ordered ops ∧ ∀ a ∈ ops, a.time ≤ o.time := by
  unfold Ordered
  simp [List.pairwise_append]

/-! ## What the cache holds -/

theorem after_size (hcap : 1 ≤ cfg.seenCacheCapacity) (ops : List Op) : (after cfg ops).map.size ≤ cfg.seenCacheCapacity := by
  refine Runs.run_invariant (act cfg) (fun c => c.map.size ≤ cfg.seenCacheCapacity) (fun c o h => ?_) {} (Nat.zero_le _) ops
  cases o with
  | observe digest now =>
    cases hheld : c.map[digest]? with
    | none =>
      rw [act, observe_new hheld]
      refine Std.ExtTreeMap.size_insert_le.trans (Nat.succ_le_of_lt ?_)
      have hroom := Eviction.size_room SeenEntry.firstSeenMs hcap h
      unfold room
      split_ifs at hroom ⊢ with hfull
      · rwa [evictOldest_eq]
      · exact hroom
    | some e =>
      rw [act, observe_old hheld]
      have hmem : digest ∈ c.map := Std.ExtTreeMap.mem_iff_isSome_getElem?.mpr (by rw [hheld]; rfl)
      simpa [Std.ExtTreeMap.size_insert, Std.ExtTreeMap.mem_iff_contains.mp hmem] using h
  | evictExpired now => exact Std.ExtTreeMap.size_filter_le_size.trans h

/-- Every entry stands since its digest was last reported new. -/
theorem after_since (ops : List Op) (x : Digest) (e : SeenEntry) (h : (after cfg ops).map[x]? = some e) :
    ReportedNew cfg ops x e.firstSeenMs := by
  induction ops using List.reverseRecOn generalizing e with
  | nil => simp [after] at h
  | append_singleton ops o ih =>
    rw [after_snoc] at h
    cases o with
    | observe digest now =>
      by_cases hx : digest = x
      · subst hx
        rw [act] at h
        cases hheld : (after cfg ops).map[digest]? with
        | none =>
          rw [observe_new hheld, Std.ExtTreeMap.getElem?_insert_self] at h
          obtain rfl := Option.some.inj h
          exact ⟨ops, [], rfl, (isNew_iff now).mpr hheld⟩
        | some e' =>
          rw [observe_old hheld, Std.ExtTreeMap.getElem?_insert_self] at h
          obtain rfl := Option.some.inj h
          exact (ih e' hheld).append _
      · exact (ih e (act_other hx h)).append _
    | evictExpired now =>
      rw [act, evictExpired, Std.ExtTreeMap.getElem?_filter'] at h
      exact (ih e (Option.mem_filter_iff.mp h).1).append _

/-! ## How an entry is lost -/

/-- A sweep came when the entry was old. -/
def Lapsed (cfg : Tunables) (t : Millis) (mid : List Op) : Prop := ∃ u, .evictExpired u ∈ mid ∧ cfg.seenCacheTtlMs ≤ u - t

/-- As many others as the cache can hold were reported new no earlier. -/
def Crowded (cfg : Tunables) (d : Digest) (t : Millis) (ops : List Op) : Prop :=
  ∃ others : Finset Digest, cfg.seenCacheCapacity ≤ others.card ∧ d ∉ others ∧ ∀ x ∈ others, ∃ t', ReportedNew cfg ops x t' ∧ t ≤ t'

/-- One digest heard: an entry that goes was the oldest of a full cache. -/
theorem observe_keeps_or_crowds {e : SeenEntry} (held : c.map[d]? = some e) (digest : Digest) (now : Millis) :
    (∃ n, (c.observe cfg digest now).1.map[d]? = some { e with hearCount := n }) ∨
      c.map[digest]? = none ∧ cfg.seenCacheCapacity ≤ c.map.size ∧ ∀ (x : Digest) (e' : SeenEntry), c.map[x]? = some e' → e.firstSeenMs ≤ e'.firstSeenMs := by
  cases hheld : c.map[digest]? with
  | some e' =>
    rw [observe_old hheld]
    by_cases hx : digest = d
    · subst hx
      cases hheld.symm.trans held
      exact .inl ⟨_, Std.ExtTreeMap.getElem?_insert_self⟩
    · exact .inl ⟨e.hearCount, by simpa [Std.ExtTreeMap.getElem?_insert, hx] using held⟩
  | none =>
    have hx : digest ≠ d := by
      rintro rfl
      cases hheld.symm.trans held
    rw [observe_new hheld]
    by_cases hkept : (c.room cfg).map[d]? = some e
    · exact .inl ⟨e.hearCount, by simpa [Std.ExtTreeMap.getElem?_insert, hx] using hkept⟩
    · right
      unfold room at hkept
      split_ifs at hkept with hfull
      · rw [evictOldest_eq] at hkept
        exact ⟨rfl, hfull, Eviction.dropOldest_dropped _ held hkept⟩
      · exact absurd held hkept

/-- The rest of the full cache and the newcomer crowd out the oldest entry. -/
theorem crowded_out {e : SeenEntry} {digest : Digest} {now : Millis} (held : (after cfg ops).map[d]? = some e)
    (hfresh : (after cfg ops).map[digest]? = none) (hfull : cfg.seenCacheCapacity ≤ (after cfg ops).map.size) (hnow : e.firstSeenMs ≤ now)
    (hleast : ∀ (x : Digest) (e' : SeenEntry), (after cfg ops).map[x]? = some e' → e.firstSeenMs ≤ e'.firstSeenMs) :
    Crowded cfg d e.firstSeenMs (ops ++ [.observe digest now]) := by
  have hx : digest ≠ d := by
    rintro rfl
    cases hfresh.symm.trans held
  have hnotin : digest ∉ ((after cfg ops).map.erase d).keys.toFinset := by
    rw [Eviction.mem_others, hfresh]
    simp
  refine ⟨insert digest ((after cfg ops).map.erase d).keys.toFinset, ?_, ?_, fun x hmem => ?_⟩
  · rw [Finset.card_insert_of_notMem hnotin, Eviction.others_card held]
    exact hfull
  · rw [Finset.mem_insert, not_or, Eviction.mem_others]
    exact ⟨hx.symm, fun h => h.1 rfl⟩
  · rcases Finset.mem_insert.mp hmem with rfl | hmem
    · exact ⟨now, ⟨ops, [], rfl, (isNew_iff now).mpr hfresh⟩, hnow⟩
    · obtain ⟨-, e', he'⟩ := Eviction.mem_others.mp hmem
      exact ⟨e'.firstSeenMs, (after_since _ x e' he').append _, hleast x e' he'⟩

/-- From the time it is reported new a digest is remembered, unless it lapsed or was crowded out. -/
theorem held_or_lost {pre : List Op} (hnew : ((after cfg pre).observe cfg d t).2.isNew = true) (mid : List Op)
    (later : ∀ o ∈ mid, t ≤ o.time) : (∃ n, (after cfg (pre ++ .observe d t :: mid)).map[d]? = some { firstSeenMs := t, hearCount := n }) ∨
      Lapsed cfg t mid ∨ Crowded cfg d t (pre ++ .observe d t :: mid) := by
  induction mid using List.reverseRecOn with
  | nil =>
    rw [after_snoc, act, observe_new ((isNew_iff t).mp hnew)]
    exact .inl ⟨1, Std.ExtTreeMap.getElem?_insert_self⟩
  | append_singleton mid o ih =>
    have hsplit : pre ++ .observe d t :: (mid ++ [o]) = (pre ++ .observe d t :: mid) ++ [o] := by simp
    rw [hsplit, after_snoc]
    rcases ih fun o ho => later o (by simp [ho]) with ⟨n, held⟩ | ⟨u, hu, hold⟩ | ⟨others, hcard, hd, hothers⟩
    · cases o with
      | observe digest now =>
        rcases observe_keeps_or_crowds held digest now with ⟨n', hkept⟩ | ⟨hfresh, hfull, hleast⟩
        · exact .inl ⟨n', hkept⟩
        · exact .inr (.inr (crowded_out held hfresh hfull (later (.observe digest now) (by simp)) hleast))
      | evictExpired now =>
        by_cases hold : cfg.seenCacheTtlMs ≤ now - t
        · exact .inr (.inl ⟨now, by simp, hold⟩)
        · refine .inl ⟨n, ?_⟩
          rw [act, evictExpired, Std.ExtTreeMap.getElem?_filter', held]
          simp [not_le.mp hold]
    · exact .inr (.inl ⟨u, by simp [hu], hold⟩)
    · exact .inr (.inr ⟨others, hcard, hd, fun x hx => (hothers x hx).imp fun t' h => ⟨h.1.append _, h.2⟩⟩)

/-! ## What the counter counts -/

theorem saturated_succ (n : ℕ) : saturated (saturated n + 1) = saturated (n + 1) := by
  unfold saturated
  omega

theorem count_exact {pre : List Op} (hnew : ((after cfg pre).observe cfg d t).2.isNew = true) (mid : List Op)
    (quiet : ∀ m₁ u m₂, mid = m₁ ++ .observe d u :: m₂ → ((after cfg (pre ++ .observe d t :: m₁)).observe cfg d u).2.isNew = false)
    {e : SeenEntry} (held : (after cfg (pre ++ .observe d t :: mid)).map[d]? = some e) :
    e.hearCount = saturated (observations d mid + 1) := by
  induction mid using List.reverseRecOn generalizing e with
  | nil =>
    rw [after_snoc, act, observe_new ((isNew_iff t).mp hnew), Std.ExtTreeMap.getElem?_insert_self] at held
    cases held
    rfl
  | append_singleton mid o ih =>
    have hsplit : pre ++ .observe d t :: (mid ++ [o]) = (pre ++ .observe d t :: mid) ++ [o] := by simp
    have hbefore := fun e => ih (e := e) fun m₁ u m₂ h => quiet m₁ u (m₂ ++ [o]) (by rw [h]; simp)
    rw [hsplit, after_snoc] at held
    have hcount : observations d (mid ++ [o]) = observations d mid + if o.hears d = true then 1 else 0 := by
      rw [observations, List.countP_append, List.countP_singleton]
      rfl
    cases o with
    | observe digest now =>
      by_cases hx : digest = d
      · subst hx
        rw [hcount, if_pos (by simp [Op.hears])]
        cases hheld : (after cfg (pre ++ .observe digest t :: mid)).map[digest]? with
        | none =>
          have hnot := quiet mid now [] rfl
          rw [(isNew_iff now).mpr hheld] at hnot
          cases hnot
        | some e' =>
          rw [act, observe_old hheld, Std.ExtTreeMap.getElem?_insert_self] at held
          cases held
          rw [hbefore e' hheld]
          exact saturated_succ _
      · rw [hcount, if_neg (by simp [Op.hears, hx])]
        exact hbefore e (act_other hx held)
    | evictExpired now =>
      rw [hcount, if_neg (by simp [Op.hears])]
      rw [act, evictExpired, Std.ExtTreeMap.getElem?_filter'] at held
      exact hbefore e (Option.mem_filter_iff.mp held).1

/-- The cache stays within its capacity. A digest reported new twice lapsed in between or was crowded
out by digests reported new in between, and until it is, its counter counts its observations. -/
theorem seen_window (cfg : Tunables) (hcap : 1 ≤ cfg.seenCacheCapacity) (ops : List Op) (hordered : Ordered ops) :
    (after cfg ops).map.size ≤ cfg.seenCacheCapacity ∧
    ∀ pre d t mid t' post, ops = pre ++ .observe d t :: (mid ++ .observe d t' :: post) →
      ((after cfg pre).observe cfg d t).2.isNew = true →
        (((after cfg (pre ++ .observe d t :: mid)).observe cfg d t').2.isNew = true →
          (∃ u, .evictExpired u ∈ mid ∧ cfg.seenCacheTtlMs ≤ u - t) ∨
          ∃ others : Finset Digest, cfg.seenCacheCapacity ≤ others.card ∧ d ∉ others ∧
            ∀ x ∈ others, ∃ t'', ReportedNew cfg ops x t'' ∧ t ≤ t'' ∧ t'' ≤ t') ∧
        ((∀ m₁ u m₂, mid = m₁ ++ .observe d u :: m₂ → ((after cfg (pre ++ .observe d t :: m₁)).observe cfg d u).2.isNew = false) →
          ((after cfg (pre ++ .observe d t :: mid)).observe cfg d t').2.isNew = false →
            ((after cfg (pre ++ .observe d t :: mid)).observe cfg d t').2.hearCount = saturated (observations d mid + 2)) := by
  refine ⟨after_size hcap ops, ?_⟩
  rintro pre d t mid t' post rfl hnew
  have hfirst : Ordered ((pre ++ .observe d t :: mid) ++ [.observe d t']) := by
    refine List.Pairwise.sublist ?_ hordered
    simp
  obtain ⟨hbefore, hlast⟩ := ordered_snoc.mp hfirst
  have hlater : ∀ o ∈ mid, t ≤ o.time := fun o ho =>
    (List.pairwise_cons.mp (List.pairwise_append.mp hbefore).2.1).1 o ho
  constructor
  · intro hagain
    rcases held_or_lost hnew mid hlater with ⟨n, held⟩ | hlapsed | ⟨others, hcard, hd, hothers⟩
    · rw [(isNew_iff t').mp hagain] at held
      cases held
    · exact .inl hlapsed
    · refine .inr ⟨others, hcard, hd, fun x hx => ?_⟩
      obtain ⟨t'', hreported, ht⟩ := hothers x hx
      refine ⟨t'', ?_, ht, hlast _ hreported.mem⟩
      rw [show pre ++ .observe d t :: (mid ++ .observe d t' :: post) = (pre ++ .observe d t :: mid) ++ .observe d t' :: post by simp]
      exact hreported.append _
  · intro quiet hold
    cases hheld : (after cfg (pre ++ .observe d t :: mid)).map[d]? with
    | none =>
      rw [(isNew_iff t').mpr hheld] at hold
      cases hold
    | some e =>
      rw [observe_old hheld, count_exact hnew mid quiet hheld]
      exact saturated_succ _

/-- With room for one digest, another one crowds it out. -/
theorem crowded_window :
    let cfg : Tunables := { seenCacheCapacity := 1 }
    let d : Digest := Vector.replicate 8 1
    let x : Digest := Vector.replicate 8 2
    let ops : List Op := [.observe d 0, .observe x 5, .observe d 9]
    (after cfg ops).map.size ≤ 1 ∧ ((∃ u, .evictExpired u ∈ [Op.observe x 5] ∧ cfg.seenCacheTtlMs ≤ u - 0) ∨
      ∃ others : Finset Digest, 1 ≤ others.card ∧ d ∉ others ∧ ∀ y ∈ others, ∃ t'', ReportedNew cfg ops y t'' ∧ 0 ≤ t'' ∧ t'' ≤ 9) := by
  intro cfg d x ops
  have hwindow := seen_window cfg le_rfl ops (by decide)
  exact ⟨hwindow.1, (hwindow.2 [] d 0 [.observe x 5] 9 [] rfl (by decide +kernel)).1 (by decide +kernel)⟩

end CockroachChat.SeenCache
