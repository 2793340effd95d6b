import CockroachChat.Flood.Limits
import CockroachChat.Stores.ChannelNames

/-! # What the app sends, against its budget

The app limits the messages of each channel; a receiver limits the packets of each sender. The two
agree on the schedules that fit the receiver's bucket. -/
namespace CockroachChat
set_option autoImplicit false

/-! ## The limits of the app -/

namespace BleController
variable [P : Prims]

def announceChannel : String := "#announce"
def announceCooldownS : ℕ := 60
def channelBurst : ℕ := 2
def channelWindowMs : Millis := 10000

/-- What the app goes by when it sends. -/
structure Gates where
  /-- Counts the rounds of the ticker. -/
  i : ℕ := 0
  lastAnnounceMs : Millis := 0
  announceCooldown : ℕ := 0
  channelSendTimes : Std.ExtTreeMap String (List Millis) := ∅

def isBlank (text : String) : Bool := text.toList.all isWhitespace

/-- The send times that are still in the window. -/
def inWindow (t : Millis) (times : List Millis) : List Millis := times.dropWhile fun first => t - first ≥ channelWindowMs

def sendAnnounce (g : Gates) (now : Millis) (text : String) : Gates × Bool :=
  if isBlank text || g.announceCooldown > 0 then (g, false) else
  ({ g with lastAnnounceMs := now, announceCooldown := announceCooldownS }, true)

def updateCooldown (g : Gates) (t : Millis) : Gates :=
  let g := if g.lastAnnounceMs ≠ 0 then
      { g with announceCooldown := (announceCooldownS - ((t : ℤ) - g.lastAnnounceMs).tdiv 1000).toNat }
    else g
  { g with channelSendTimes := g.channelSendTimes.map fun _ times => inWindow t times }

def sendChannel (g : Gates) (t : Millis) (rawName text : String) : Gates × Bool :=
  if isBlank text then (g, false) else
  let name := normalizeChannel rawName
  let times := inWindow t (g.channelSendTimes[name]?.getD [])
  if times.length ≥ channelBurst then ({ g with channelSendTimes := g.channelSendTimes.insert name times }, false) else
  ({ g with channelSendTimes := g.channelSendTimes.insert name (times ++ [t]) }, true)

/-- One round of the ticker: the node announces itself every 25th time. -/
def ticker (g : Gates) (t : Millis) : Gates × Bool :=
  let g := updateCooldown g t
  ({ g with i := g.i + 1 }, g.i % 25 == 0)

inductive Press where
  | ticker
  | sendAnnounce (text : String)
  | sendChannel (rawName text : String)

/-- What happens at a time, and whether a packet goes out. -/
def press (g : Gates) (e : Millis × Press) : Gates × Bool :=
  match e.2 with
  | .ticker => ticker g e.1
  | .sendAnnounce text => sendAnnounce g e.1 text
  | .sendChannel rawName text => sendChannel g e.1 rawName text

def pressed (g : Gates) (e : Millis × Press) : Gates := (press g e).1

/-- The times at which the app sends a packet. -/
def emissions (schedule : List (Millis × Press)) : List Millis :=
  Runs.outputs pressed (fun g e => if (press g e).2 then [e.1] else []) {} schedule

theorem outputs_sublist (g : Gates) (schedule : List (Millis × Press)) :
    (Runs.outputs pressed (fun g e => if (press g e).2 then [e.1] else []) g schedule).Sublist (schedule.map (·.1)) := by
  induction schedule generalizing g with
  | nil => exact .slnil
  | cons e schedule ih =>
    rw [Runs.outputs, List.map_cons]
    split_ifs
    · exact (ih _).cons_cons e.1
    · exact (ih _).cons e.1

theorem emissions_sublist (schedule : List (Millis × Press)) : (emissions schedule).Sublist (schedule.map (·.1)) :=
  outputs_sublist {} schedule

end BleController

/-! ## The budget of the receiver -/

namespace RateLimiter
variable {cfg : Tunables} {r : RateLimiter} {eph : EphId}

/-- The packets of one sender at these times are all let through. -/
def AllAdmitted (cfg : Tunables) (r : RateLimiter) (eph : EphId) (ts : List Millis) : Prop :=
  ∀ d ∈ decisions cfg r (ts.map fun t => (eph, t)), d.2 = true

instance (cfg : Tunables) (r : RateLimiter) (eph : EphId) (ts : List Millis) : Decidable (AllAdmitted cfg r eph ts) :=
  inferInstanceAs (Decidable (∀ d ∈ (_ : List (Ask × Bool)), _))

/-- The sender has a full bucket: it was never heard, or what it spent has flowed back and it is not greylisted. -/
def Full (cfg : Tunables) (r : RateLimiter) (eph : EphId) (now : Millis) : Prop :=
  ∀ b ∈ r.buckets[eph]?, b.tokens = cfg.rateBurst ∧ b.lastMs ≤ now ∧ b.greylistUntil ≤ now

theorem allAdmitted_cons {t : Millis} {ts : List Millis} : AllAdmitted cfg r eph (t :: ts) ↔
    admits cfg (r.bucket cfg eph t) t = true ∧ AllAdmitted cfg (r.ask cfg (eph, t)) eph ts := by
  unfold AllAdmitted
  rw [List.map_cons, decisions, List.forall_mem_cons, allow_eq]

theorem ask_held (t : Millis) : (r.ask cfg (eph, t)).buckets[eph]? = some (after cfg (r.bucket cfg eph t) t) := by
  rw [ask, allow_eq]
  exact Std.ExtTreeMap.getElem?_insert_self

theorem after_admitted {b : Bucket} {t : Millis} (h : admits cfg b t = true) :
    after cfg b t = { b with tokens := level cfg b t - 1, lastMs := t } := by
  obtain ⟨hclear, hlevel⟩ := of_decide_eq_true h
  rw [after, if_neg (Nat.not_lt.mpr hclear), if_pos hlevel]

/-- The first packet finds a token, and the others what it leaves. -/
theorem allAdmitted_step {b : Bucket} {t : Millis} {ts : List Millis} (hbucket : r.bucket cfg eph t = b)
    (clear : b.greylistUntil ≤ t)
    (rest : ∀ b', (r.ask cfg (eph, t)).buckets[eph]? = some b' → b'.greylistUntil = b.greylistUntil →
      (AllAdmitted cfg (r.ask cfg (eph, t)) eph ts ↔
        TokenBucket.Admits (cfg.rateBurst : ℚ) (refillRatePerMs cfg) b'.tokens b'.lastMs ts)) :
    AllAdmitted cfg r eph (t :: ts) ↔ TokenBucket.Admits (cfg.rateBurst : ℚ) (refillRatePerMs cfg) b.tokens b.lastMs (t :: ts) := by
  have hadmits : admits cfg b t = true ↔ 1 ≤ level cfg b t := by
    rw [admits, decide_eq_true_iff]
    exact and_iff_right clear
  rw [allAdmitted_cons, hbucket, hadmits, TokenBucket.Admits]
  refine and_congr_right fun hlevel => ?_
  have hheld : (r.ask cfg (eph, t)).buckets[eph]? = some _ := ask_held t
  rw [hbucket, after_admitted (hadmits.mpr hlevel)] at hheld
  exact rest _ hheld rfl

theorem allAdmitted_iff {b : Bucket} (held : r.buckets[eph]? = some b) {ts : List Millis} (clear : ∀ t ∈ ts, b.greylistUntil ≤ t) :
    AllAdmitted cfg r eph ts ↔ TokenBucket.Admits (cfg.rateBurst : ℚ) (refillRatePerMs cfg) b.tokens b.lastMs ts := by
  induction ts generalizing r b with
  | nil => exact iff_of_true (by simp [AllAdmitted, decisions]) trivial
  | cons t ts ih =>
    have hbucket : r.bucket cfg eph t = b := by
      rw [bucket, held]
      rfl
    apply allAdmitted_step hbucket (clear t List.mem_cons_self)
    intro b' hheld hgrey
    apply ih hheld
    intro u hu
    rw [hgrey]
    exact clear u (List.mem_cons_of_mem t hu)

/-- From a full bucket, what is let through as a whole are the schedules that fit it. -/
theorem allAdmitted_full_iff {ts : List Millis} (sorted : ts.Pairwise (· ≤ ·)) (full : ∀ t ∈ ts, Full cfg r eph t) :
    AllAdmitted cfg r eph ts ↔ TokenBucket.Conforms (cfg.rateBurst : ℚ) (refillRatePerMs cfg) ts := by
  cases ts with
  | nil => exact iff_of_true (by simp [AllAdmitted, decisions]) trivial
  | cons t ts =>
    have hfull : ∀ u ∈ t :: ts, (r.bucket cfg eph t).tokens = cfg.rateBurst ∧ (r.bucket cfg eph t).lastMs ≤ u ∧
        (r.bucket cfg eph t).greylistUntil ≤ u := by
      intro u hu
      have hle : t ≤ u := by
        rcases List.mem_cons.mp hu with rfl | hrest
        · exact le_rfl
        · exact (List.pairwise_cons.mp sorted).1 u hrest
      unfold bucket
      cases hheld : r.buckets[eph]? with
      | none => exact ⟨rfl, hle, Nat.zero_le u⟩
      | some b => exact full u hu b hheld
    have hadmitted : AllAdmitted cfg r eph (t :: ts) ↔ TokenBucket.Admits (cfg.rateBurst : ℚ) (refillRatePerMs cfg)
        (r.bucket cfg eph t).tokens (r.bucket cfg eph t).lastMs (t :: ts) := by
      apply allAdmitted_step rfl (hfull t List.mem_cons_self).2.2
      intro b' hheld hgrey
      apply allAdmitted_iff hheld
      intro u hu
      rw [hgrey]
      exact (hfull u (List.mem_cons_of_mem t hu)).2.2
    rw [hadmitted, (hfull t List.mem_cons_self).1]
    exact TokenBucket.admits_full_iff (refillRate_nonneg cfg) (fun u hu => (hfull u hu).2.1) sorted

end RateLimiter

/-! ## The app at the receiver -/

end CockroachChat

namespace CockroachChat.Reference
open BleController
attribute [local instance] prims

/-- The ticker runs, and the user writes twice to each of some channels. -/
def writingTo (channels : List String) : List (Millis × Press) :=
  (0, .ticker) :: channels.flatMap fun name => [(10, .sendChannel name "hi"), (10, .sendChannel name "yo")]

end CockroachChat.Reference
