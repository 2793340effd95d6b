import Mathlib

/-! # Matching arrivals with departures

When at no point of a history more items have arrived than have departed, each arrival can be given
a departure of its own that is earlier and carries the same item: the arrivals of one item are
matched in order. -/
namespace CockroachChat.Matching
set_option autoImplicit false

/-! ## Matching by keys -/

/-- If every element of a list of distinct keys has a partner with its key and its value, its values
are among those of the partners, with multiplicities. -/
theorem subperm_of_partners {α β γ κ : Type} (key : α → κ) (key' : β → κ) {f : α → Option γ} {g : β → Option γ}
    {l : List α} {l' : List β} (distinct : (l.map key).Nodup)
    (partner : ∀ x ∈ l, ∃ y ∈ l', key' y = key x ∧ g y = f x) : (l.filterMap f).Subperm (l'.filterMap g) := by
  classical
  induction l generalizing l' with
  | nil => exact List.nil_subperm
  | cons x l ih =>
    obtain ⟨y, hy, hkey, hval⟩ := partner x List.mem_cons_self
    rw [List.map_cons, List.nodup_cons] at distinct
    have hrest : (l.filterMap f).Subperm ((l'.erase y).filterMap g) := by
      refine ih distinct.2 fun x' hx' => ?_
      obtain ⟨y', hy', hkey', hval'⟩ := partner x' (List.mem_cons_of_mem x hx')
      have hne : y' ≠ y := by
        rintro rfl
        exact distinct.1 (List.mem_map.mpr ⟨x', hx', hkey'.symm.trans hkey⟩)
      exact ⟨y', (List.mem_erase_of_ne hne).mpr hy', hkey', hval'⟩
    have hperm := (List.perm_cons_erase hy).filterMap g
    refine List.Subperm.trans ?_ hperm.symm.subperm
    rw [List.filterMap_cons, List.filterMap_cons, hval]
    cases f x with
    | none => exact hrest
    | some c => exact List.subperm_cons c |>.mpr hrest

/-! ## Matching over a history -/

variable {ε τ : Type} (sent : ε → Option τ)

/-- The event at a position of the history sends `t`. -/
def SentAt (events : List ε) (t : τ) (j : ℕ) : Prop := ∃ e, events[j]? = some e ∧ sent e = some t

theorem count_sentAt [DecidableEq τ] (events : List ε) (t : τ) [DecidablePred (SentAt sent events t)] (n : ℕ) :
    Nat.count (SentAt sent events t) n = ((events.take n).filterMap sent).count t := by
  induction n with
  | zero => simp
  | succ n ih =>
    rw [Nat.count_succ, ih, List.take_add_one, List.filterMap_append, List.count_append]
    congr 1
    rcases hget : events[n]? with _ | e
    · simp [SentAt, hget]
    · rcases hsent : sent e with _ | t'
      · simp [SentAt, hget, hsent]
      · by_cases heq : t' = t <;> simp [SentAt, hget, hsent, heq]

theorem prefix_grows (recv : List ε → List τ) (grows : ∀ pre e, recv pre <+: recv (pre ++ [e])) (pre post : List ε) :
    recv pre <+: recv (pre ++ post) := by
  induction post using List.reverseRecOn with
  | nil => rw [List.append_nil]
  | append_singleton post e ih =>
    rw [← List.append_assoc]
    exact ih.trans (grows _ e)

section Matching
variable [DecidableEq τ] (recv : List ε → List τ) (events : List ε)

/-- How many arrivals of `t` come before the `i`-th arrival. -/
def rank (i : ℕ) (t : τ) : ℕ := ((recv events).take i).count t

/-- The position of the departure of the `i`-th arrival. -/
noncomputable def departure (i : ℕ) : ℕ :=
  match (recv events)[i]? with
  | some t => Nat.nth (SentAt sent events t) (rank recv events i t)
  | none => 0

theorem departure_eq {i : ℕ} {t : τ} (arrival : (recv events)[i]? = some t) :
    departure sent recv events i = Nat.nth (SentAt sent events t) (rank recv events i t) := by
  rw [departure, arrival]

theorem rank_lt_count {i : ℕ} {t : τ} (arrival : (recv events)[i]? = some t) {j : ℕ} (h : i < j) :
    rank recv events i t < ((recv events).take j).count t := by
  obtain ⟨hi, hget⟩ := List.getElem?_eq_some_iff.mp arrival
  have hle := (List.take_prefix_take_left (l := recv events) h).sublist.count_le t
  rw [List.take_add_one, arrival, List.count_append] at hle
  simp only [Option.toList_some, List.count_singleton_self] at hle
  exact hle

variable {recv} {events} {t : τ}
variable (grows : ∀ pre e, recv pre <+: recv (pre ++ [e]))
include grows

omit [DecidableEq τ] in
theorem arrival_whole {pre post : List ε} (split : events = pre ++ post) {i : ℕ} {t : τ}
    (arrival : (recv pre)[i]? = some t) : (recv events)[i]? = some t := by
  obtain ⟨more, hmore⟩ : recv pre <+: recv events := split ▸ prefix_grows recv grows pre post
  obtain ⟨hi, -⟩ := List.getElem?_eq_some_iff.mp arrival
  rw [← hmore, List.getElem?_append_left hi, arrival]

variable (covered : ∀ pre post, events = pre ++ post → ∀ t, (recv pre).count t ≤ (pre.filterMap sent).count t)
include covered

theorem rank_covered [DecidablePred (SentAt sent events t)] {pre post : List ε} (split : events = pre ++ post) {i : ℕ}
    (arrival : (recv pre)[i]? = some t) : rank recv events i t < Nat.count (SentAt sent events t) pre.length := by
  obtain ⟨more, hmore⟩ : recv pre <+: recv events := split ▸ prefix_grows recv grows pre post
  obtain ⟨hi, -⟩ := List.getElem?_eq_some_iff.mp arrival
  have hlt := rank_lt_count recv events (arrival_whole grows split arrival) hi
  rw [← hmore, List.take_left] at hlt
  have htake : events.take pre.length = pre := by rw [split, List.take_left]
  rw [count_sentAt, htake]
  exact hlt.trans_le (covered pre post split t)

/-- Where the history has the arrival, it has its departure. -/
theorem departure_found {pre post : List ε} (split : events = pre ++ post) {i : ℕ} {t : τ}
    (arrival : (recv pre)[i]? = some t) :
    departure sent recv events i < pre.length ∧ SentAt sent events t (departure sent recv events i) := by
  classical
  have hrank := rank_covered sent grows covered split arrival
  rw [departure_eq sent recv events (arrival_whole grows split arrival)]
  exact ⟨Nat.nth_lt_of_lt_count hrank, Nat.nth_mem _ fun hf => hrank.trans_le (Nat.count_le_card hf _)⟩

theorem departure_ne {i j : ℕ} (hij : i < j) (hj : j < (recv events).length) :
    departure sent recv events i ≠ departure sent recv events j := by
  classical
  intro heq
  have whole : events = events ++ [] := (List.append_nil _).symm
  obtain ⟨t, hi⟩ : ∃ t, (recv events)[i]? = some t := ⟨_, List.getElem?_eq_getElem (hij.trans hj)⟩
  obtain ⟨t', hj⟩ : ∃ t', (recv events)[j]? = some t' := ⟨_, List.getElem?_eq_getElem hj⟩
  obtain ⟨-, e, he, hsent⟩ := departure_found sent grows covered whole hi
  obtain ⟨-, e', he', hsent'⟩ := departure_found sent grows covered whole hj
  -- one departure is of one item, and the ranks of its arrivals differ
  rw [heq, he', Option.some.injEq] at he
  subst he
  rw [hsent', Option.some.injEq] at hsent
  subst hsent
  rw [departure_eq sent recv events hi, departure_eq sent recv events hj] at heq
  have hrank := rank_covered sent grows covered whole hj
  exact absurd heq (Nat.nth_lt_nth' (rank_lt_count recv events hi hij)
    fun hf => hrank.trans_le (Nat.count_le_card hf _)).ne

theorem departure_injOn : Set.InjOn (departure sent recv events) {i | i < (recv events).length} := by
  intro i hi j hj heq
  rcases lt_trichotomy i j with h | h | h
  · exact absurd heq (departure_ne sent grows covered h hj)
  · exact h
  · exact absurd heq.symm (departure_ne sent grows covered h hi)

variable (recv) in
/-- Each arrival has a departure of its own, in whatever part of the history has the arrival. -/
theorem exists_matching :
    ∃ index : ℕ → ℕ, Set.InjOn index {i | i < (recv events).length} ∧
      ∀ pre post, events = pre ++ post → ∀ i t, (recv pre)[i]? = some t →
        ∃ e, pre[index i]? = some e ∧ sent e = some t := by
  refine ⟨departure sent recv events, departure_injOn sent grows covered, ?_⟩
  intro pre post split i t arrival
  obtain ⟨hlt, e, he, hsent⟩ := departure_found sent grows covered split arrival
  refine ⟨e, ?_, hsent⟩
  rw [← he, congrArg (·[departure sent recv events i]?) split]
  exact (List.getElem?_append_left hlt).symm

end Matching

end CockroachChat.Matching
