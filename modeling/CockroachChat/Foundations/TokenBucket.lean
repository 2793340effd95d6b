import Mathlib

/-! # Token buckets

A bucket fills at a rate, up to its burst, and every admission takes one token. A sequence of
requests is admitted as a whole exactly when, from each of them on, what follows stays within the
burst and what flows in meanwhile. -/
namespace CockroachChat.TokenBucket
set_option autoImplicit false

variable {K : Type} [Field K] [LinearOrder K] [IsStrictOrderedRing K] (burst rate : K)

/-- What the bucket holds a while later. -/
def refilled (level : K) (elapsed : ℕ) : K := min (level + elapsed * rate) burst

/-- Every request finds a token. -/
def Admits (level : K) (last : ℕ) : List ℕ → Prop
  | [] => True
  | t :: ts => 1 ≤ refilled burst rate level (t - last) ∧ Admits (refilled burst rate level (t - last) - 1) t ts

/-- The first requests, however many, stay within a level at some time and the inflow since. -/
def Within (level : K) (start : ℕ) (ts : List ℕ) : Prop := ∀ (j : ℕ) (h : j < ts.length), (j + 1 : K) ≤ level + (ts[j] - start : ℕ) * rate

/-- From each request on, what follows stays within the burst and the inflow since that request. -/
def Conforms : List ℕ → Prop
  | [] => True
  | t :: ts => Within rate burst t (t :: ts) ∧ Conforms ts

instance decidableWithin (level : K) (start : ℕ) (ts : List ℕ) : Decidable (Within rate level start ts) :=
  inferInstanceAs (Decidable (∀ (j : ℕ) (_ : j < ts.length), _))

instance decidableConforms : (ts : List ℕ) → Decidable (Conforms burst rate ts)
  | [] => inferInstanceAs (Decidable True)
  | t :: ts =>
    have := decidableConforms ts
    inferInstanceAs (Decidable (Within rate burst t (t :: ts) ∧ Conforms burst rate ts))

variable {burst rate}

omit [IsStrictOrderedRing K] in
theorem le_refilled {x level : K} {elapsed : ℕ} : x ≤ refilled burst rate level elapsed ↔ x ≤ level + elapsed * rate ∧ x ≤ burst :=
  le_min_iff

omit [LinearOrder K] [IsStrictOrderedRing K] in
theorem flow_add {level : K} {start t u : ℕ} (h₁ : start ≤ t) (h₂ : t ≤ u) :
    level + (t - start : ℕ) * rate + (u - t : ℕ) * rate = level + (u - start : ℕ) * rate := by
  rw [add_assoc, ← add_mul, ← Nat.cast_add]
  congr 3
  omega

omit [IsStrictOrderedRing K] in
/-- Within a level: the first request, and the others within what it leaves. -/
theorem within_cons {level : K} {start t : ℕ} {ts : List ℕ} (h : start ≤ t) (hts : ∀ u ∈ ts, t ≤ u) :
    Within rate level start (t :: ts) ↔ 1 ≤ level + (t - start : ℕ) * rate ∧
      ∀ (j : ℕ) (h : j < ts.length), (j + 1 : K) + 1 ≤ level + (t - start : ℕ) * rate + (ts[j] - t : ℕ) * rate := by
  have hflow : ∀ (j : ℕ) (hj : j < ts.length),
      level + (t - start : ℕ) * rate + (ts[j] - t : ℕ) * rate = level + (ts[j] - start : ℕ) * rate :=
    fun j hj => flow_add h (hts _ (List.getElem_mem hj))
  constructor
  · intro hw
    refine ⟨by simpa using hw 0 (Nat.succ_pos _), fun j hj => ?_⟩
    rw [hflow j hj]
    simpa using hw (j + 1) (Nat.succ_lt_succ hj)
  · rintro ⟨hfirst, hrest⟩ j hj
    cases j with
    | zero => simpa using hfirst
    | succ j =>
      have := hrest j (Nat.lt_of_succ_lt_succ hj)
      rw [hflow] at this
      simpa using this

theorem admits_iff {level : K} {last : ℕ} {ts : List ℕ} (hlast : ∀ t ∈ ts, last ≤ t) (hsorted : ts.Pairwise (· ≤ ·)) :
    Admits burst rate level last ts ↔ Within rate level last ts ∧ Conforms burst rate ts := by
  induction ts generalizing level last with
  | nil => exact iff_of_true trivial ⟨fun j h => absurd h (Nat.not_lt_zero j), trivial⟩
  | cons t ts ih =>
    obtain ⟨hhead, htail⟩ := List.pairwise_cons.mp hsorted
    have hstart := hlast t List.mem_cons_self
    -- the rest within what is left of the smaller of the two
    have hleft : Within rate (refilled burst rate level (t - last) - 1) t ts ↔
        (∀ (j : ℕ) (h : j < ts.length), (j + 1 : K) + 1 ≤ level + (t - last : ℕ) * rate + (ts[j] - t : ℕ) * rate) ∧
          ∀ (j : ℕ) (h : j < ts.length), (j + 1 : K) + 1 ≤ burst + (t - t : ℕ) * rate + (ts[j] - t : ℕ) * rate := by
      have hone : ∀ x y : K, x ≤ refilled burst rate level (t - last) - 1 + y ↔
          x + 1 ≤ level + (t - last : ℕ) * rate + y ∧ x + 1 ≤ burst + y := by
        intro x y
        have hshift : x ≤ refilled burst rate level (t - last) - 1 + y ↔ x + 1 - y ≤ refilled burst rate level (t - last) := by
          constructor <;> intro h <;> linarith
        rw [hshift, le_refilled, sub_le_iff_le_add, sub_le_iff_le_add]
      simp only [Within, hone, Nat.sub_self, Nat.cast_zero, zero_mul, add_zero]
      exact ⟨fun h => ⟨fun j hj => (h j hj).1, fun j hj => (h j hj).2⟩, fun h j hj => ⟨h.1 j hj, h.2 j hj⟩⟩
    rw [Admits, ih (fun u hu => hhead u hu) htail, hleft, within_cons hstart hhead, Conforms, within_cons le_rfl hhead, le_refilled,
      Nat.sub_self, Nat.cast_zero, zero_mul, add_zero]
    tauto

/-- From a full bucket. -/
theorem admits_full_iff (hrate : 0 ≤ rate) {last : ℕ} {ts : List ℕ} (hlast : ∀ t ∈ ts, last ≤ t) (hsorted : ts.Pairwise (· ≤ ·)) :
    Admits burst rate burst last ts ↔ Conforms burst rate ts := by
  rw [admits_iff hlast hsorted, and_iff_right_iff_imp]
  intro hconforms j hj
  cases ts with
  | nil => exact absurd hj (Nat.not_lt_zero j)
  | cons t ts =>
    have hwithin := hconforms.1 j hj
    have hmore : ((t :: ts)[j] - t : ℕ) ≤ (t :: ts)[j] - last := Nat.sub_le_sub_left (hlast t List.mem_cons_self) _
    have hflow : (((t :: ts)[j] - t : ℕ) : K) * rate ≤ ((t :: ts)[j] - last : ℕ) * rate :=
      mul_le_mul_of_nonneg_right (Nat.cast_le.mpr hmore) hrate
    linarith

/-! ## A window of time

What is admitted in the window and what the bucket still holds come out of one burst and the inflow. -/

/-- `n` admissions so far in the window from `a` to `e`, and the bucket holds `level` since `last`. -/
structure Spent (burst rate : K) (a e n : ℕ) (level : K) (last : ℕ) : Prop where
  nonneg : 0 ≤ level
  le_burst : level ≤ burst
  early : last < a → n = 0
  used : last ≤ e → n + level ≤ burst + (last - a : ℕ) * rate
  total : (n : K) ≤ burst + (e - a : ℕ) * rate

variable {a e n last t : ℕ} {level : K}

theorem spent_full (hrate : 0 ≤ rate) (hburst : 0 ≤ burst) : Spent burst rate a e 0 burst last where
  nonneg := hburst
  le_burst := le_rfl
  early _ := rfl
  used _ := by
    rw [Nat.cast_zero, zero_add]
    exact le_add_of_nonneg_right (mul_nonneg (Nat.cast_nonneg _) hrate)
  total := by
    rw [Nat.cast_zero]
    exact add_nonneg hburst (mul_nonneg (Nat.cast_nonneg _) hrate)

theorem Spent.refill (hrate : 0 ≤ rate) (h : Spent burst rate a e n level last) (hlast : last ≤ t) :
    Spent burst rate a e n (refilled burst rate level (t - last)) t where
  nonneg := le_min (add_nonneg h.nonneg (mul_nonneg (Nat.cast_nonneg _) hrate)) (h.nonneg.trans h.le_burst)
  le_burst := min_le_right _ _
  early ht := h.early (hlast.trans_lt ht)
  used ht := by
    by_cases ha : last < a
    · rw [h.early ha, Nat.cast_zero, zero_add]
      exact (min_le_right _ _).trans (le_add_of_nonneg_right (mul_nonneg (Nat.cast_nonneg _) hrate))
    · have hused := h.used (hlast.trans ht)
      have hlevel : refilled burst rate level (t - last) ≤ level + (t - last : ℕ) * rate := min_le_left _ _
      have hflow : burst + (last - a : ℕ) * rate + (t - last : ℕ) * rate = burst + (t - a : ℕ) * rate := flow_add (not_lt.mp ha) hlast
      linarith
  total := h.total

/-- An admission, counted when it is in the window. -/
theorem Spent.take (hrate : 0 ≤ rate) (h : Spent burst rate a e n level t) (hone : 1 ≤ level) :
    Spent burst rate a e (n + if a ≤ t ∧ t ≤ e then 1 else 0) (level - 1) t where
  nonneg := sub_nonneg.mpr hone
  le_burst := (sub_le_self level zero_le_one).trans h.le_burst
  early ht := by
    rw [if_neg fun hwindow => absurd hwindow.1 (not_le.mpr ht), h.early ht]
  used ht := by
    have hused := h.used ht
    split_ifs with hwindow
    · push_cast
      linarith
    · push_cast
      linarith
  total := by
    have htotal := h.total
    split_ifs with hwindow
    · have hused := h.used hwindow.2
      have hmore : ((t - a : ℕ) : K) * rate ≤ (e - a : ℕ) * rate :=
        mul_le_mul_of_nonneg_right (Nat.cast_le.mpr (Nat.sub_le_sub_right hwindow.2 a)) hrate
      push_cast
      linarith
    · simpa using htotal

end CockroachChat.TokenBucket
