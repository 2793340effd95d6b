import CockroachChat.Core.Relay
import CockroachChat.Foundations.Runs
import CockroachChat.Foundations.TokenBucket

/-! # The rate limiter

One bucket a sender, each judged by itself. A refusal shuts the bucket for the greylist period. -/
namespace CockroachChat.RateLimiter
set_option autoImplicit false

variable {cfg : Tunables} {r : RateLimiter} {sender : EphId} {now t : Millis}

/-- What a sender is judged by. -/
def bucket (cfg : Tunables) (r : RateLimiter) (sender : EphId) (now : Millis) : Bucket :=
  r.buckets[sender]?.getD { tokens := cfg.rateBurst, lastMs := now, greylistUntil := 0 }

/-- What the bucket holds after the time since its last packet. -/
def level (cfg : Tunables) (b : Bucket) (now : Millis) : ℚ :=
  TokenBucket.refilled (cfg.rateBurst : ℚ) (refillRatePerMs cfg) b.tokens (now - b.lastMs)

def admits (cfg : Tunables) (b : Bucket) (now : Millis) : Bool := decide (b.greylistUntil ≤ now ∧ 1 ≤ level cfg b now)

/-- The bucket of a sender after one of its packets. -/
def after (cfg : Tunables) (b : Bucket) (now : Millis) : Bucket :=
  if now < b.greylistUntil then b
  else if level cfg b now ≥ 1 then { b with tokens := level cfg b now - 1, lastMs := now }
  else { tokens := level cfg b now, lastMs := now, greylistUntil := now + cfg.greylistMs }

theorem allow_eq (cfg : Tunables) (r : RateLimiter) (sender : EphId) (now : Millis) :
    r.allow cfg sender now = ({ r with buckets := r.buckets.insert sender (after cfg (r.bucket cfg sender now) now) },
      admits cfg (r.bucket cfg sender now) now) := by
  have hallow : r.allow cfg sender now =
      let b := r.bucket cfg sender now
      if now < b.greylistUntil then ({ r with buckets := r.buckets.insert sender b }, false)
      else if level cfg b now ≥ 1 then
        ({ r with buckets := r.buckets.insert sender { b with tokens := level cfg b now - 1, lastMs := now } }, true)
      else
        let refused := { tokens := level cfg b now, lastMs := now, greylistUntil := now + cfg.greylistMs }
        ({ r with buckets := r.buckets.insert sender refused }, false) := rfl
  rw [hallow]
  generalize r.bucket cfg sender now = b
  unfold after admits
  by_cases hgrey : now < b.greylistUntil
  · simp [hgrey]
  · by_cases hlevel : level cfg b now ≥ 1
    · simp [hgrey, hlevel, not_lt.mp hgrey]
    · simp [hgrey, hlevel]

theorem bucket_insert (b : Bucket) (other : EphId) :
    bucket cfg { r with buckets := r.buckets.insert sender b } other now = if sender = other then b else r.bucket cfg other now := by
  unfold bucket
  by_cases h : sender = other
  · subst h
    simp
  · simp [h, Std.ExtTreeMap.getElem?_insert]

/-! ## Sequences of packets -/

/-- A packet comes in under a sender's name at a time. -/
abbrev Ask := EphId × Millis

def ask (cfg : Tunables) (r : RateLimiter) (a : Ask) : RateLimiter := (r.allow cfg a.1 a.2).1

/-- Each packet with the decision on it. -/
def decisions (cfg : Tunables) : RateLimiter → List Ask → List (Ask × Bool)
  | _, [] => []
  | r, a :: asks => (a, (r.allow cfg a.1 a.2).2) :: decisions cfg (r.ask cfg a) asks

def Ordered (asks : List Ask) : Prop := asks.Pairwise fun a b => a.2 ≤ b.2

instance (asks : List Ask) : Decidable (Ordered asks) := inferInstanceAs (Decidable (List.Pairwise _ _))

theorem ask_bucket (a : Ask) (other : EphId) :
    (r.ask cfg a).bucket cfg other now = if a.1 = other then after cfg (r.bucket cfg a.1 a.2) a.2 else r.bucket cfg other now := by
  rw [ask, allow_eq, bucket_insert]

theorem decisions_append (r : RateLimiter) (asks more : List Ask) :
    decisions cfg r (asks ++ more) = decisions cfg r asks ++ decisions cfg (Runs.run (ask cfg) r asks) more := by
  induction asks generalizing r with
  | nil => rfl
  | cons a asks ih => simp only [List.cons_append, decisions, Runs.run_cons, ih]

theorem ordered_snoc {asks : List Ask} {a : Ask} : Ordered (asks ++ [a]) ↔ Ordered asks ∧ ∀ b ∈ asks, b.2 ≤ a.2 := by
  unfold Ordered
  simp [List.pairwise_append]

/-- The decisions on a sender's packets depend on its bucket alone. -/
theorem decisions_alone {r' : RateLimiter} (same : r'.buckets[sender]? = r.buckets[sender]?) (asks : List Ask) :
    (decisions cfg r asks).filter (fun d => d.1.1 = sender) = decisions cfg r' (asks.filter fun a => a.1 = sender) := by
  induction asks generalizing r r' with
  | nil => rfl
  | cons a asks ih =>
    by_cases ha : a.1 = sender
    · have hbucket : r'.bucket cfg a.1 a.2 = r.bucket cfg a.1 a.2 := by
        rw [bucket, bucket, ha, same]
      have hnext : (r'.ask cfg a).buckets[sender]? = (r.ask cfg a).buckets[sender]? := by
        rw [ask, ask, allow_eq, allow_eq, hbucket]
        simp [ha]
      rw [decisions, List.filter_cons_of_pos (by simpa using ha), List.filter_cons_of_pos (by simpa using ha), decisions,
        ih hnext, allow_eq, allow_eq, hbucket]
    · have hnext : r'.buckets[sender]? = (r.ask cfg a).buckets[sender]? := by
        rw [ask, allow_eq, same]
        simp [Std.ExtTreeMap.getElem?_insert, ha]
      rw [decisions, List.filter_cons_of_neg (by simpa using ha), List.filter_cons_of_neg (by simpa using ha), ih hnext]

/-! ## The bound -/

theorem refillRate_nonneg (cfg : Tunables) : 0 ≤ refillRatePerMs cfg := div_nonneg (Nat.cast_nonneg _) (by norm_num)

/-- The packets of a sender admitted between two times. -/
def admittedIn (sender : EphId) (start stop : Millis) (ds : List (Ask × Bool)) : ℕ :=
  ds.countP fun d => d.1.1 = sender ∧ d.2 = true ∧ start ≤ d.1.2 ∧ d.1.2 ≤ stop

/-- What has been admitted of a sender in a window, against its bucket. -/
def Charged (cfg : Tunables) (start stop n : ℕ) (b : Bucket) : Prop :=
  TokenBucket.Spent (cfg.rateBurst : ℚ) (refillRatePerMs cfg) start stop n b.tokens b.lastMs

variable {start stop n : ℕ} {b : Bucket}

theorem Charged.after (h : Charged cfg start stop n b) (hlast : b.lastMs ≤ t) :
    Charged cfg start stop (n + if admits cfg b t = true ∧ start ≤ t ∧ t ≤ stop then 1 else 0) (RateLimiter.after cfg b t) := by
  have hrefill := TokenBucket.Spent.refill (refillRate_nonneg cfg) h hlast
  unfold admits RateLimiter.after
  by_cases hgrey : t < b.greylistUntil
  · rw [if_pos hgrey, if_neg (by simp [not_le.mpr hgrey])]
    exact h
  · rw [if_neg hgrey]
    by_cases hlevel : level cfg b t ≥ 1
    · rw [if_pos hlevel]
      have hadmits : b.greylistUntil ≤ t ∧ 1 ≤ level cfg b t := ⟨not_lt.mp hgrey, hlevel⟩
      simp only [hadmits, and_self, decide_true, true_and]
      exact hrefill.take (refillRate_nonneg cfg) hlevel
    · rw [if_neg hlevel, if_neg (by simp [hlevel])]
      exact hrefill

theorem after_lastMs_le (hlast : b.lastMs ≤ t) : (after cfg b t).lastMs ≤ t := by
  unfold after
  split_ifs
  · exact hlast
  · exact le_rfl
  · exact le_rfl

/-- Every bucket is charged for what was admitted of its sender, at whatever later time it is read. -/
theorem run_charged (cfg : Tunables) (sender : EphId) (start stop : Millis) (asks : List Ask) (hordered : Ordered asks) (now : Millis)
    (hnow : ∀ a ∈ asks, a.2 ≤ now) :
    let b := (Runs.run (ask cfg) {} asks).bucket cfg sender now
    Charged cfg start stop (admittedIn sender start stop (decisions cfg {} asks)) b ∧ b.lastMs ≤ now := by
  induction asks using List.reverseRecOn generalizing now with
  | nil => exact ⟨TokenBucket.spent_full (refillRate_nonneg cfg) (Nat.cast_nonneg _), le_rfl⟩
  | append_singleton asks a ih =>
    obtain ⟨hbefore, hlater⟩ := ordered_snoc.mp hordered
    have ha : a.2 ≤ now := hnow a (by simp)
    have hcount : admittedIn sender start stop (decisions cfg {} (asks ++ [a])) =
        admittedIn sender start stop (decisions cfg {} asks) +
          if a.1 = sender ∧ admits cfg ((Runs.run (ask cfg) {} asks).bucket cfg a.1 a.2) a.2 = true ∧ start ≤ a.2 ∧ a.2 ≤ stop then 1 else 0 := by
      rw [decisions_append, admittedIn, List.countP_append, decisions, decisions, List.countP_singleton, allow_eq]
      simp [admittedIn]
    rw [hcount, Runs.run_snoc, ask_bucket]
    by_cases hs : a.1 = sender
    · obtain ⟨hcharged, hlast⟩ := ih hbefore a.2 hlater
      simp only [hs, true_and, if_true]
      exact ⟨hcharged.after hlast, (after_lastMs_le hlast).trans ha⟩
    · rw [if_neg hs, if_neg (fun h => hs h.1), Nat.add_zero]
      exact ih hbefore now fun b hb => hnow b (by simp [hb])

/-- A refused sender stays shut for the greylist period, whatever comes in meanwhile. -/
theorem shut_run (cfg : Tunables) (asks : List Ask) (held : r.buckets[sender]? = some b) (hbefore : ∀ a ∈ asks, a.2 < b.greylistUntil) : (Runs.run (ask cfg) r asks).buckets[sender]? = some b := by
  induction asks generalizing r with
  | nil => exact held
  | cons a asks ih =>
    refine ih ?_ fun c hc => hbefore c (List.mem_cons_of_mem a hc)
    have ha := hbefore a List.mem_cons_self
    rw [ask, allow_eq]
    by_cases hs : a.1 = sender
    · have hbucket : r.bucket cfg a.1 a.2 = b := by
        rw [bucket, hs, held]
        rfl
      rw [hbucket, after, if_pos ha]
      simp [hs]
    · simp [Std.ExtTreeMap.getElem?_insert, hs, held]

/-- A refusal outside the greylist shuts the bucket from then on. -/
theorem refused_until (hgrey : r.isGreylisted sender t = false) (hrefused : (r.allow cfg sender t).2 = false) :
    ∃ b, (r.ask cfg (sender, t)).buckets[sender]? = some b ∧ b.greylistUntil = t + cfg.greylistMs := by
  have hopen : ¬ t < (r.bucket cfg sender t).greylistUntil := by
    unfold bucket
    unfold isGreylisted at hgrey
    cases h : r.buckets[sender]? with
    | none => simp
    | some b => simpa [h] using hgrey
  rw [allow_eq] at hrefused
  have hlevel : ¬ level cfg (r.bucket cfg sender t) t ≥ 1 := by
    intro hlevel
    simp [admits, not_lt.mp hopen, hlevel] at hrefused
  refine ⟨after cfg (r.bucket cfg sender t) t, ?_, ?_⟩
  · rw [ask, allow_eq]
    simp
  · rw [after, if_neg hopen, if_neg hlevel]

end CockroachChat.RateLimiter
