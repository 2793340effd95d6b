import Mathlib

/-! # A queue and what it owes

A queue forgets what is too old and, past its size, what is oldest. What was put into it is owed until
it is settled. A queue covers its debts when everything owed and not settled is still in it, behind no
more rows than there are newer debts. Queues and debts have the newest in front. -/
namespace CockroachChat.Backlog
set_option autoImplicit false

structure Debt (α : Type) where
  item : α
  settled : Bool
  deriving DecidableEq

variable {α β γ : Type} {row : α → β} {l : List (Debt α)} {q : List β}

inductive Covers (row : α → β) : List (Debt α) → List β → Prop
  | none (q : List β) : Covers row [] q
  | held {l : List (Debt α)} {q : List β} (a : α) (b : Bool) (older : Covers row l q) : Covers row (⟨a, b⟩ :: l) (row a :: q)
  | settled {l : List (Debt α)} {q : List β} (a : α) (older : Covers row l q) : Covers row (⟨a, true⟩ :: l) q

/-- What is owed and not settled. -/
def outstanding (l : List (Debt α)) : List α := (l.filter fun d => !d.settled).map (·.item)

/-- Debts that a test calls old are settled. -/
def age (old : α → Bool) (l : List (Debt α)) : List (Debt α) := l.map fun d => { d with settled := d.settled || old d.item }

/-- The newest debt that passes is settled. -/
def settleOne (p : α → Bool) : List (Debt α) → List (Debt α)
  | [] => []
  | d :: l => if !d.settled && p d.item then { d with settled := true } :: l else d :: settleOne p l

/-- One debt is settled for each of the names. -/
def settleAll [DecidableEq γ] (name : α → γ) (names : List γ) (l : List (Debt α)) : List (Debt α) :=
  names.foldl (fun l n => settleOne (fun a => name a = n) l) l

namespace Covers

theorem append (h : Covers row l q) (more : List β) : Covers row l (q ++ more) := by
  induction h with
  | none q => exact .none _
  | held a b _ ih => exact .held a b ih
  | settled a _ ih => exact .settled a ih

/-- Only the newest count. -/
theorem take (h : Covers row l q) (n : ℕ) : Covers row (l.take n) (q.take n) := by
  induction h generalizing n with
  | none q =>
    rw [List.take_nil]
    exact .none _
  | held a b _ ih =>
    cases n with
    | zero => exact .none _
    | succ n => exact .held a b (ih n)
  | @settled l q a _ ih =>
    cases n with
    | zero => exact .none _
    | succ n =>
      have hmore : q.take (n + 1) = q.take n ++ (q.drop n).take 1 := by
        rw [List.take_add]
      rw [List.take_succ_cons, hmore]
      exact .settled a ((ih n).append _)

/-- The queue drops some rows, and their debts are settled. -/
theorem age (h : Covers row l q) {old : α → Bool} {keep : β → Bool} (hkeep : ∀ a, old a = false → keep (row a) = true) :
    Covers row (Backlog.age old l) (q.filter keep) := by
  induction h with
  | none q => exact .none _
  | @held l q a b _ ih =>
    by_cases hrow : keep (row a) = true
    · rw [List.filter_cons_of_pos hrow]
      exact .held a _ ih
    · have hold : old a = true := by
        by_contra hyoung
        exact hrow (hkeep a (by simpa using hyoung))
      have hsettled : (b || old a) = true := by rw [hold, Bool.or_true]
      rw [List.filter_cons_of_neg hrow, Backlog.age, List.map_cons, hsettled]
      exact .settled a ih
  | settled a _ ih => exact .settled a ih

theorem age_same (h : Covers row l q) (old : α → Bool) : Covers row (Backlog.age old l) q := by
  have hage : Covers row (Backlog.age old l) (q.filter fun _ => true) := h.age fun _ _ => rfl
  rwa [List.filter_true] at hage

theorem settleOne (h : Covers row l q) (p : α → Bool) : Covers row (Backlog.settleOne p l) q := by
  induction h with
  | none q => exact .none _
  | held a b older ih =>
    rw [Backlog.settleOne]
    split_ifs
    · exact .held a true older
    · exact .held a b ih
  | settled a older ih => exact .settled a ih

theorem settleAll [DecidableEq γ] (h : Covers row l q) (name : α → γ) (names : List γ) :
    Covers row (Backlog.settleAll name names l) q := by
  induction names generalizing l with
  | nil => exact h
  | cons n names ih => exact ih (h.settleOne _)

/-- What is outstanding is in the queue. -/
theorem outstanding_sublist (h : Covers row l q) : ((outstanding l).map row).Sublist q := by
  induction h with
  | none q => exact List.nil_sublist _
  | held a b _ ih =>
    cases b with
    | true => exact ih.cons (row a)
    | false => exact ih.cons_cons (row a)
  | settled a _ ih => exact ih

/-- Where nothing is outstanding any queue will do. -/
theorem of_settled (h : outstanding l = []) (q : List β) : Covers row l q := by
  induction l with
  | nil => exact .none q
  | cons d l ih =>
    obtain ⟨a, b⟩ := d
    cases b with
    | true => exact .settled a (ih h)
    | false => cases h

end Covers

theorem outstanding_settleOne [DecidableEq γ] (name : α → γ) (n : γ) (l : List (Debt α)) :
    (outstanding (settleOne (fun a => name a = n) l)).map name = ((outstanding l).map name).erase n := by
  induction l with
  | nil => rfl
  | cons d l ih =>
    obtain ⟨a, b⟩ := d
    cases b with
    | true => exact ih
    | false =>
      have hcons : (outstanding (⟨a, false⟩ :: l)).map name = name a :: (outstanding l).map name := rfl
      rw [hcons, settleOne]
      by_cases hname : name a = n
      · rw [hname, List.erase_cons_head, if_pos (by simp)]
        rfl
      · rw [List.erase_cons_tail (by simpa using hname), if_neg (by simp [hname]), ← ih]
        rfl

theorem outstanding_settleAll [DecidableEq γ] (name : α → γ) (names : List γ) (l : List (Debt α)) :
    (outstanding (settleAll name names l)).map name = ((outstanding l).map name).diff names := by
  induction names generalizing l with
  | nil => rfl
  | cons n names ih =>
    rw [List.diff_cons, ← outstanding_settleOne]
    exact ih _

/-- Nothing is outstanding once all of it has been named. -/
theorem outstanding_settled [DecidableEq γ] (name : α → γ) {names : List γ} {l : List (Debt α)}
    (h : ((outstanding l).map name).Subperm names) : outstanding (settleAll name names l) = [] := by
  have hdiff : ((outstanding l).map name).diff names = [] := by
    have hzero : (((outstanding l).map name : Multiset γ) - names) = 0 := tsub_eq_zero_of_le h
    rw [Multiset.coe_sub] at hzero
    exact (Multiset.coe_eq_zero _).mp hzero
  rw [← outstanding_settleAll] at hdiff
  exact List.map_eq_nil_iff.mp hdiff

theorem outstanding_age (old : α → Bool) (l : List (Debt α)) : (outstanding (age old l)).Sublist (outstanding l) := by
  induction l with
  | nil => exact .slnil
  | cons d l ih =>
    obtain ⟨a, b⟩ := d
    cases b with
    | true => exact ih
    | false =>
      cases hold : old a with
      | true =>
        have hgone : outstanding (age old (⟨a, false⟩ :: l)) = outstanding (age old l) := by
          simp [outstanding, age, hold]
        rw [hgone]
        exact ih.cons a
      | false =>
        have hstays : outstanding (age old (⟨a, false⟩ :: l)) = a :: outstanding (age old l) := by
          simp [outstanding, age, hold]
        rw [hstays]
        exact ih.cons_cons a

end CockroachChat.Backlog
