import CockroachChat.Flood.Inventory
import CockroachChat.Flood.Limits
import CockroachChat.Node.ReferenceNodes

/-! # The budget of a sender

The limiter keeps a bucket for every sender field it sees. It is charged for each fresh packet that
comes in under that field, before anything is known about who signed it. -/
namespace CockroachChat
set_option autoImplicit false

namespace RateLimiter
variable {cfg : Tunables} {r : RateLimiter} {sender eph : EphId} {now : Millis}

theorem allow_bucket (cfg : Tunables) (r : RateLimiter) (sender eph : EphId) (now : Millis) :
    (r.allow cfg sender now).1.buckets[eph]? =
      if sender = eph then some (after cfg (r.bucket cfg eph now) now) else r.buckets[eph]? := by
  rw [allow_eq]
  simp only [Std.ExtTreeMap.getElem?_insert, Std.compare_eq_iff_eq]
  split_ifs with h
  · rw [h]
  · rfl

/-- The sender's packets change nothing now: it is greylisted, or was refused at this very time. -/
def Shut (cfg : Tunables) (b : Bucket) (now : Millis) : Prop :=
  now < b.greylistUntil ∨ b.lastMs = now ∧ b.tokens < 1 ∧ b.tokens ≤ cfg.rateBurst ∧ b.greylistUntil = now + cfg.greylistMs

instance (cfg : Tunables) (b : Bucket) (now : Millis) : Decidable (Shut cfg b now) := inferInstanceAs (Decidable (_ ∨ _))

theorem level_now (b : Bucket) : level cfg b b.lastMs = min b.tokens cfg.rateBurst := by
  simp [level, TokenBucket.refilled]

theorem after_eq_iff (b : Bucket) : after cfg b now = b ↔ Shut cfg b now := by
  unfold after Shut
  by_cases hgrey : now < b.greylistUntil
  · simp [hgrey]
  · rw [if_neg hgrey, or_iff_right hgrey]
    constructor
    · intro h
      split_ifs at h with hlevel
      · -- a token is taken: the bucket cannot be as before
        have hlast : b.lastMs = now := (congrArg Bucket.lastMs h).symm
        have htokens := congrArg Bucket.tokens h
        simp only at htokens
        rw [← hlast, level_now] at htokens
        have := min_le_left b.tokens (cfg.rateBurst : ℚ)
        linarith
      · have hlast : b.lastMs = now := (congrArg Bucket.lastMs h).symm
        have htokens := congrArg Bucket.tokens h
        simp only at htokens
        refine ⟨hlast, ?_, ?_, (congrArg Bucket.greylistUntil h).symm⟩
        · rw [← htokens]
          exact not_le.mp hlevel
        · rw [← htokens, ← hlast, level_now]
          exact min_le_right _ _
    · rintro ⟨hlast, hfew, hburst, huntil⟩
      have hlevel : level cfg b now = b.tokens := by
        rw [← hlast, level_now, min_eq_left hburst]
      rw [hlevel, if_neg (not_le.mpr hfew), ← huntil, ← hlast]

/-- A packet leaves a sender's bucket as it is when it comes under another name, or to a shut bucket. -/
theorem allow_keeps_iff : (r.allow cfg sender now).1.buckets[eph]? = r.buckets[eph]? ↔
    (sender = eph → ∃ b, r.buckets[eph]? = some b ∧ Shut cfg b now) := by
  rw [allow_bucket]
  by_cases hs : sender = eph
  · rw [if_pos hs, forall_prop_of_true hs]
    cases hheld : r.buckets[eph]? with
    | none => simp
    | some b =>
      have hbucket : r.bucket cfg eph now = b := by
        rw [bucket, hheld]
        rfl
      rw [hbucket, Option.some.injEq, after_eq_iff]
      simp
  · rw [if_neg hs]
    exact iff_of_true rfl fun h => absurd h hs

end RateLimiter

variable [P : Prims] {S : Type} [Store S] {eph : EphId}

namespace MeshNode

/-- The packet that a call charges its sender for. -/
def charging (s : MeshNode S) (c : Call) : Option Packet := ((s.at_ c.now).heard c.action).filter (s.at_ c.now).fresh

theorem onPacket_rate (s : MeshNode S) (link : LinkId) (pkt : Packet) : (s.onPacket link pkt).cfg = s.cfg ∧
    (s.onPacket link pkt).rate = if s.fresh pkt then (s.rate.allow s.cfg pkt.sender s.clock).1 else s.rate := by
  obtain ⟨links, os, htag, -⟩ := tagged_update s link pkt
  have hfresh : (s.tagged link pkt).fresh pkt = s.fresh pkt := by
    rw [htag]
    rfl
  rw [onPacket_phased, hfresh, htag]
  cases s.fresh pkt
  · exact ⟨rfl, rfl⟩
  · simp only [if_true]
    split_ifs
    · set t : MeshNode S := (observed { s with links := links, trace := s.trace ++ os } pkt).charged pkt with ht
      obtain ⟨rng, scheduler, hrelay⟩ := maybeRelay_update (t.dispatch link pkt) link pkt
      have hflow := dispatch_flow t link pkt
      rw [hrelay]
      exact ⟨congrArg Flow.cfg hflow, congrArg Flow.rate hflow⟩
    · exact ⟨rfl, rfl⟩

/-- A call changes the limiter only by the packet it counts. -/
theorem exec_rate (s : MeshNode S) (c : Call) : (exec s c).cfg = s.cfg ∧ (exec s c).rate =
    match s.charging c with
    | some pkt => (s.rate.allow s.cfg pkt.sender c.now).1
    | none => s.rate := by
  obtain ⟨now, a⟩ := c
  by_cases hmoves : a.moves
  · cases a with
    | transport ev =>
      cases ev with
      | frameReceived link frame =>
        have hexec : exec s ⟨now, .transport (.frameReceived link frame)⟩ = (s.at_ now).onFrame link frame := rfl
        have hheard : (s.at_ now).heard (.transport (.frameReceived link frame)) = (s.at_ now).assembled frame := rfl
        rw [hexec, onFrame_eq, charging, hheard]
        cases (s.at_ now).assembled frame with
        | none => exact ⟨rfl, rfl⟩
        | some pkt =>
          obtain ⟨hcfg, hrate⟩ := onPacket_rate ((s.at_ now).fed frame) link pkt
          have hfresh : ((s.at_ now).fed frame).fresh pkt = (s.at_ now).fresh pkt := rfl
          refine ⟨hcfg, hrate.trans ?_⟩
          rw [hfresh, Option.filter_some]
          cases (s.at_ now).fresh pkt <;> rfl
      | linkUp _ _ | linkDown _ | mtuChanged _ _ => exact hmoves.elim
    | tick =>
      have hretry := (retryStalledHandshakes_dmOnly (s.at_ now).swept now).flow
      have hflow : (exec s ⟨now, .tick⟩).flow = (s.at_ now).swept.flow := hretry
      rw [swept_eq] at hflow
      exact ⟨congrArg Flow.cfg hflow, congrArg Flow.rate hflow⟩
    | _ => exact hmoves.elim
  · have hflow : (exec s ⟨now, a⟩).flow = s.flow := act_flow (s.at_ now) hmoves
    have hnone : s.charging ⟨now, a⟩ = none := by
      cases a with
      | transport ev =>
        cases ev with
        | frameReceived link frame => exact absurd trivial hmoves
        | linkUp _ _ | linkDown _ | mtuChanged _ _ => rfl
      | _ => rfl
    rw [hnone]
    exact ⟨congrArg Flow.cfg hflow, congrArg Flow.rate hflow⟩

/-- A packet under this name that counts comes to a shut bucket. -/
def Spares (eph : EphId) (s : MeshNode S) (c : Call) : Prop :=
  ∀ pkt ∈ s.charging c, pkt.sender = eph → ∃ b ∈ s.rate.buckets[eph]?, RateLimiter.Shut s.cfg b c.now

/-- The sender's bucket is as in another state, and its next packet is judged alike. -/
structure SameBudget (eph : EphId) (s t : MeshNode S) : Prop where
  bucket : t.rate.buckets[eph]? = s.rate.buckets[eph]?
  next : ∀ now, (t.rate.allow s.cfg eph now).2 = (s.rate.allow s.cfg eph now).2

omit [Store S] in
theorem sameBudget_iff {s t : MeshNode S} : SameBudget eph s t ↔ t.rate.buckets[eph]? = s.rate.buckets[eph]? := by
  refine ⟨SameBudget.bucket, fun h => ⟨h, fun now => ?_⟩⟩
  rw [RateLimiter.allow_eq, RateLimiter.allow_eq, RateLimiter.bucket, RateLimiter.bucket, h]

theorem exec_keeps_bucket (s : MeshNode S) (c : Call) :
    (exec s c).rate.buckets[eph]? = s.rate.buckets[eph]? ↔ s.Spares eph c := by
  rw [(exec_rate s c).2, Spares]
  cases s.charging c with
  | none => simp
  | some pkt => simp [RateLimiter.allow_keeps_iff]

/-- Whoever signed the packets: a sender's budget stays as it is in a run exactly if every packet in its name that
counts comes to a shut bucket. -/
theorem budget_untouched_iff (s : MeshNode S) (eph : EphId) (calls : List Call) :
    Runs.Throughout exec (SameBudget eph s) s calls ↔
      ∀ pre c post, calls = pre ++ c :: post → (Runs.run exec s pre).Spares eph c := by
  apply Runs.throughout_iff
  · intro t c ht
    rw [sameBudget_iff] at ht ⊢
    rw [← ht]
    exact exec_keeps_bucket t c
  · exact sameBudget_iff.mpr rfl

/-- The packet that a call completes, if any, is not signed with the key known for this name. -/
def Forging (eph : EphId) (s : MeshNode S) (c : Call) : Prop :=
  ∀ pkt ∈ (s.at_ c.now).heard c.action, (s.ephKeys[eph]?.bind P.vkFromBytes).map (fun vk => (pkt.verifyWith vk).isOk) = some false

instance (eph : EphId) (s : MeshNode S) (c : Call) : Decidable (Forging eph s c) :=
  inferInstanceAs (Decidable (∀ pkt ∈ (_ : Option Packet), _))

end MeshNode
end CockroachChat

namespace CockroachChat.Reference
open MeshNode
attribute [local instance] prims

/-- A packet in the name of node `j`, with a made-up signature. -/
def inNameOf (j n : UInt8) : Packet :=
  { Packet.new .channelMessage 5 1 (Vector.replicate 8 j) none [] with signature := Vector.replicate 64 n }

def inNameOfTwo : List Call := arriving 1 0 ((List.range 12).map fun n => frameOf (inNameOf 2 (UInt8.ofNat n)))

/-- Node 1 knows the key of node 2; packets in its name that it never signed get it greylisted. -/
theorem flood_in_name_of_two : (met 1 2).Reachable ∧ Runs.Guarded exec (Forging (Vector.replicate 8 2)) (met 1 2) inNameOfTwo ∧
    ¬ SameBudget (Vector.replicate 8 2) (met 1 2) (run (met 1 2) inNameOfTwo) ∧
    (run (met 1 2) inNameOfTwo).rate.isGreylisted (Vector.replicate 8 2) 60000 = true := by
  refine ⟨met_reachable 1 2, by decide +kernel, fun h => ?_, by decide +kernel⟩
  have hnext := h.next 1
  revert hnext
  decide +kernel

end CockroachChat.Reference
