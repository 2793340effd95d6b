import Mathlib

/-! # Runs of a deterministic machine

A machine is a step function on states and labels; a run is a list of labels. An invariant that
holds at the start and is kept by every step holds at the end of every run. -/
namespace CockroachChat.Runs
set_option autoImplicit false

variable {σ α : Type} (step : σ → α → σ)

def run (s : σ) (labels : List α) : σ := labels.foldl step s

@[simp] theorem run_nil (s : σ) : run step s [] = s := rfl

@[simp] theorem run_cons (s : σ) (a : α) (labels : List α) :
    run step s (a :: labels) = run step (step s a) labels := rfl

theorem run_append (s : σ) (l₁ l₂ : List α) : run step s (l₁ ++ l₂) = run step (run step s l₁) l₂ :=
  List.foldl_append ..

theorem run_snoc (s : σ) (labels : List α) (a : α) :
    run step s (labels ++ [a]) = step (run step s labels) a := by
  rw [run_append]
  rfl

/-- The invariant rule. -/
theorem run_invariant (Inv : σ → Prop) (hstep : ∀ s a, Inv s → Inv (step s a)) (s : σ) (hs : Inv s)
    (labels : List α) : Inv (run step s labels) := by
  induction labels generalizing s with
  | nil => exact hs
  | cons a labels ih => exact ih (step s a) (hstep s a hs)

/-- The rule for an invariant that speaks about the labels of the run so far. -/
theorem run_history (Inv : List α → σ → Prop) (s : σ) (hs : Inv [] s)
    (hstep : ∀ h s a, Inv h s → Inv (h ++ [a]) (step s a)) (labels : List α) :
    Inv labels (run step s labels) := by
  induction labels using List.reverseRecOn with
  | nil => exact hs
  | append_singleton labels a ih =>
    rw [run_snoc]
    exact hstep labels _ a ih

/-- A reading that some labels set and the others leave alone is what the last of those set it to. -/
theorem run_last_set {β : Type} (Inv : σ → Prop) (hstep : ∀ s a, Inv s → Inv (step s a)) (reading : σ → β)
    (sets : α → Option β) (hset : ∀ s a, Inv s → reading (step s a) = (sets a).getD (reading s)) (s : σ) (hs : Inv s)
    (labels : List α) : reading (run step s labels) = ((labels.filterMap sets).getLast?).getD (reading s) := by
  induction labels using List.reverseRecOn with
  | nil => rfl
  | append_singleton labels a ih =>
    rw [run_snoc, hset _ a (run_invariant step Inv hstep s hs labels), ih, List.filterMap_append]
    cases h : sets a with
    | none => simp [h]
    | some b => simp [h]

/-- What one step keeps under a condition, a run keeps when every step of it meets the condition
in the state it starts from. -/
theorem run_guarded (Inv : σ → Prop) (ok : σ → α → Prop) (hstep : ∀ s a, Inv s → ok s a → Inv (step s a))
    (s : σ) (hs : Inv s) (labels : List α)
    (hok : ∀ pre a post, labels = pre ++ a :: post → ok (run step s pre) a) :
    Inv (run step s labels) := by
  induction labels generalizing s with
  | nil => exact hs
  | cons a labels ih =>
    refine ih (step s a) (hstep s a hs (hok [] a labels rfl)) ?_
    intro pre b post hsplit
    exact hok (a :: pre) b post (by rw [hsplit, List.cons_append])

/-- Every step of the run meets a condition in the state it starts from. -/
def Guarded (ok : σ → α → Prop) : σ → List α → Prop
  | _, [] => True
  | s, a :: labels => ok s a ∧ Guarded ok (step s a) labels

instance decidableGuarded (ok : σ → α → Prop) [∀ s a, Decidable (ok s a)] :
    ∀ (s : σ) (labels : List α), Decidable (Guarded step ok s labels)
  | _, [] => inferInstanceAs (Decidable True)
  | s, a :: labels =>
    have := decidableGuarded ok (step s a) labels
    inferInstanceAs (Decidable (ok s a ∧ Guarded step ok (step s a) labels))

theorem Guarded.at {ok : σ → α → Prop} {s : σ} {labels : List α} (h : Guarded step ok s labels) (pre : List α) (a : α)
    (post : List α) (hsplit : labels = pre ++ a :: post) : ok (run step s pre) a := by
  induction pre generalizing s labels with
  | nil =>
    subst hsplit
    exact h.1
  | cons b pre ih =>
    subst hsplit
    exact ih h.2 rfl

/-- `run_guarded` for a condition given step by step. -/
theorem Guarded.invariant {Inv : σ → Prop} {ok : σ → α → Prop} (hstep : ∀ s a, Inv s → ok s a → Inv (step s a)) {s : σ}
    (hs : Inv s) {labels : List α} (h : Guarded step ok s labels) : Inv (run step s labels) :=
  run_guarded step Inv ok hstep s hs labels h.at

theorem Guarded.and {ok ok' : σ → α → Prop} {s : σ} {labels : List α} (h : Guarded step ok s labels)
    (h' : Guarded step ok' s labels) : Guarded step (fun s a => ok s a ∧ ok' s a) s labels := by
  induction labels generalizing s with
  | nil => trivial
  | cons a labels ih => exact ⟨⟨h.1, h'.1⟩, ih h.2 h'.2⟩

theorem Guarded.of_forall {ok : α → Prop} (s : σ) {labels : List α} (h : ∀ a ∈ labels, ok a) :
    Guarded step (fun _ a => ok a) s labels := by
  induction labels generalizing s with
  | nil => trivial
  | cons a labels ih => exact ⟨h a List.mem_cons_self, ih (step s a) fun b hb => h b (List.mem_cons_of_mem a hb)⟩

/-- Two machines that read the same labels stay related when every step they make keeps the relation. -/
theorem Guarded.simulation {τ : Type} {step' : τ → α → τ} {R : σ → τ → Prop} {ok : σ → α → Prop}
    (hstep : ∀ s t a, R s t → ok s a → R (step s a) (step' t a)) {s : σ} {t : τ} (hst : R s t) {labels : List α}
    (h : Guarded step ok s labels) : R (run step s labels) (run step' t labels) := by
  induction labels generalizing s t with
  | nil => exact hst
  | cons a labels ih => exact ih (hstep s t a hst h.1) h.2

/-- A step that is a chain of moves keeps whatever every move keeps. -/
theorem chain_invariant {Move : σ → σ → Prop} (Inv : σ → Prop) (hmove : ∀ s s', Inv s → Move s s' → Inv s')
    {s s' : σ} (chain : Relation.ReflTransGen Move s s') (hs : Inv s) : Inv s' := by
  induction chain with
  | refl => exact hs
  | tail _ move ih => exact hmove _ _ ih move

/-- `Q` holds in every state of the run, the first and the last included. -/
def Throughout (Q : σ → Prop) : σ → List α → Prop
  | s, [] => Q s
  | s, a :: labels => Q s ∧ Throughout Q (step s a) labels

instance decidableThroughout (Q : σ → Prop) [DecidablePred Q] : ∀ (s : σ) (labels : List α), Decidable (Throughout step Q s labels)
  | s, [] => inferInstanceAs (Decidable (Q s))
  | s, a :: labels =>
    have := decidableThroughout Q (step s a) labels
    inferInstanceAs (Decidable (Q s ∧ Throughout step Q (step s a) labels))

theorem Throughout.after {Q : σ → Prop} {s : σ} (pre post : List α) (h : Throughout step Q s (pre ++ post)) :
    Q (run step s pre) := by
  induction pre generalizing s with
  | nil => cases post <;> first | exact h | exact h.1
  | cons a pre ih => exact ih h.2

theorem Throughout.imp {Q Q' : σ → Prop} (hQ : ∀ s, Q s → Q' s) {s : σ} (labels : List α)
    (h : Throughout step Q s labels) : Throughout step Q' s labels := by
  induction labels generalizing s with
  | nil => exact hQ s h
  | cons a labels ih => exact ⟨hQ s h.1, ih h.2⟩

theorem Throughout.start {Q : σ → Prop} {s : σ} {labels : List α} (h : Throughout step Q s labels) : Q s := by
  cases labels with
  | nil => exact h
  | cons a labels => exact h.1

/-- When a step keeps `Q` exactly under a condition, a run stays in `Q` exactly when its steps all
meet the condition. -/
theorem throughout_iff {Q : σ → Prop} {ok : σ → α → Prop} (hstep : ∀ s a, Q s → (Q (step s a) ↔ ok s a)) (s : σ) (hs : Q s)
    (labels : List α) :
    Throughout step Q s labels ↔ ∀ pre a post, labels = pre ++ a :: post → ok (run step s pre) a := by
  induction labels generalizing s with
  | nil => exact iff_of_true hs fun pre a post h => by simp at h
  | cons a labels ih =>
    constructor
    · intro h pre b post hsplit
      have hnext := Throughout.start step h.2
      cases pre with
      | nil =>
        obtain ⟨rfl, rfl⟩ := List.cons.inj hsplit
        exact (hstep s a hs).mp hnext
      | cons c pre =>
        obtain ⟨rfl, rfl⟩ := List.cons.inj hsplit
        exact (ih (step s a) hnext).mp h.2 pre b post rfl
    · intro h
      have hnext := (hstep s a hs).mpr (h [] a labels rfl)
      refine ⟨hs, (ih (step s a) hnext).mpr fun pre b post hsplit => ?_⟩
      exact h (a :: pre) b post (by rw [hsplit, List.cons_append])

/-! ## Machines side by side -/

section Family
variable {ι : Type} [DecidableEq ι]

/-- One of the machines makes a step. -/
def stepAt (states : ι → σ) (e : ι × α) : ι → σ := Function.update states e.1 (step (states e.1) e.2)

/-- `run_guarded` for each of the machines of a family. -/
theorem Guarded.family (Inv : ι → σ → Prop) {ok : σ → α → Prop} (hstep : ∀ i s a, Inv i s → ok s a → Inv i (step s a))
    {states : ι → σ} (hstates : ∀ i, Inv i (states i)) {events : List (ι × α)}
    (h : Guarded (stepAt step) (fun states e => ok (states e.1) e.2) states events) (i : ι) :
    Inv i (run (stepAt step) states events i) := by
  refine run_guarded (stepAt step) (fun states => ∀ i, Inv i (states i)) (fun states e => ok (states e.1) e.2) ?_ states hstates events h.at i
  intro states e hinv hok i
  unfold stepAt
  by_cases hi : i = e.1
  · subst hi
    rw [Function.update_self]
    exact hstep _ _ _ (hinv _) hok
  · rw [Function.update_of_ne hi]
    exact hinv i

end Family

/-! ## Outputs -/

/-- What the steps of a run put out, in order. -/
def outputs {β : Type} (out : σ → α → List β) : σ → List α → List β
  | _, [] => []
  | s, a :: labels => out s a ++ outputs out (step s a) labels

theorem outputs_append {β : Type} (out : σ → α → List β) (s : σ) (l₁ l₂ : List α) :
    outputs step out s (l₁ ++ l₂) = outputs step out s l₁ ++ outputs step out (run step s l₁) l₂ := by
  induction l₁ generalizing s with
  | nil => rfl
  | cons a l₁ ih => rw [List.cons_append, outputs, ih, outputs, List.append_assoc, run_cons]

theorem mem_outputs {β : Type} (out : σ → α → List β) (b : β) (s : σ) (labels : List α) :
    b ∈ outputs step out s labels ↔ ∃ pre a, pre ++ [a] <+: labels ∧ b ∈ out (run step s pre) a := by
  induction labels generalizing s with
  | nil => simp [outputs]
  | cons a labels ih =>
    rw [outputs, List.mem_append, ih]
    constructor
    · rintro (hnow | ⟨pre, a', hpre, hmem⟩)
      · exact ⟨[], a, List.prefix_append [a] labels, hnow⟩
      · exact ⟨a :: pre, a', List.cons_prefix_cons.mpr ⟨rfl, hpre⟩, hmem⟩
    · rintro ⟨pre, a', hpre, hmem⟩
      cases pre with
      | nil =>
        obtain ⟨rfl, -⟩ := List.cons_prefix_cons.mp hpre
        exact .inl hmem
      | cons c pre =>
        obtain ⟨rfl, hrest⟩ := List.cons_prefix_cons.mp hpre
        exact .inr ⟨pre, a', hrest, hmem⟩

/-- When each step puts out no more of something than it takes in or has in stock, so does a run. -/
theorem outputs_count_le {β : Type} [BEq β] (out taken : σ → α → List β) (Inv : σ → Prop)
    (hstep : ∀ s a, Inv s → Inv (step s a)) (b : β) (stock : σ → ℕ)
    (hcount : ∀ s a, Inv s → (out s a).count b + stock (step s a) ≤ (taken s a).count b + stock s) (s : σ) (hs : Inv s)
    (labels : List α) :
    (outputs step out s labels).count b ≤ (outputs step taken s labels).count b + stock s := by
  induction labels generalizing s with
  | nil => exact Nat.zero_le _
  | cons a labels ih =>
    have hnow := hcount s a hs
    have hlater := ih (step s a) (hstep s a hs)
    simp only [outputs, List.count_append]
    omega

/-! ## Traces -/

/-- Every entry of a trace meets a condition on what came before it. -/
def Justified {β : Type} (cond : List β → β → Prop) (trace : List β) : Prop :=
  ∀ pre b post, trace = pre ++ b :: post → cond pre b

theorem justified_nil {β : Type} (cond : List β → β → Prop) : Justified cond [] := by
  intro pre b post h
  cases pre <;> cases h

/-- The entries one by one, each with what came before it. -/
theorem justified_iff {β : Type} {cond : List β → β → Prop} {log : List β} :
    Justified cond log ↔ ∀ i, (h : i < log.length) → cond (log.take i) log[i] := by
  constructor
  · intro hj i h
    exact hj (log.take i) log[i] (log.drop (i + 1)) (by rw [← List.drop_eq_getElem_cons h, List.take_append_drop])
  · rintro hi pre b post rfl
    have hb := hi pre.length (by simp)
    simpa using hb

instance {β : Type} {cond : List β → β → Prop} [∀ pre b, Decidable (cond pre b)] (log : List β) :
    Decidable (Justified cond log) := decidable_of_iff _ justified_iff.symm

theorem Justified.before {β : Type} {cond : List β → β → Prop} {trace more : List β} (h : Justified cond (trace ++ more)) :
    Justified cond trace := by
  rintro pre b post rfl
  exact h pre b (post ++ more) (by simp)

/-- New entries need only be justified by the trace they are added to, when a longer past justifies more. -/
theorem Justified.append {β : Type} {cond : List β → β → Prop} (mono : ∀ pre more b, cond pre b → cond (pre ++ more) b)
    {trace new : List β} (h : Justified cond trace) (hnew : ∀ b ∈ new, cond trace b) : Justified cond (trace ++ new) := by
  intro pre b post hsplit
  rcases List.append_eq_append_iff.mp hsplit with ⟨more, rfl, htail⟩ | ⟨more, rfl, htail⟩
  · exact mono trace more b (hnew b (by simp [htail]))
  · cases more with
    | nil =>
      rw [List.append_nil] at h
      rw [List.nil_append] at htail
      have hb := mono pre [] b
      rw [List.append_nil] at hb
      refine hb ?_
      have := hnew b (by simp [← htail])
      rwa [List.append_nil] at this
    | cons c more =>
      rw [List.cons_append, List.cons.injEq] at htail
      obtain ⟨rfl, -⟩ := htail
      exact h pre b more rfl

end CockroachChat.Runs
