import Mathlib

/-! # Sorted lists and their ends

Lists sorted by a key, the `n` rows with the largest keys, and rows picked out by an identifier. -/
namespace CockroachChat.Sorting
set_option autoImplicit false

section Keys
variable {α β κ : Type} [LinearOrder κ] (key : α → κ)

theorem sorted_sort (l : List α) : (l.insertionSort fun a b => key a ≤ key b).Pairwise fun a b => key a ≤ key b := by
  have : Std.Total fun a b => key a ≤ key b := ⟨fun a b => le_total (key a) (key b)⟩
  have : IsTrans α fun a b => key a ≤ key b := ⟨fun a b c => le_trans⟩
  exact List.pairwise_insertionSort _ l

theorem sorted_sort_down (l : List α) :
    (l.insertionSort fun a b => key b ≤ key a).Pairwise fun a b => key b ≤ key a := by
  have : Std.Total fun a b => key b ≤ key a := ⟨fun a b => le_total (key b) (key a)⟩
  have : IsTrans α fun a b => key b ≤ key a := ⟨fun a b c hab hbc => le_trans hbc hab⟩
  exact List.pairwise_insertionSort _ l

/-- A permutation sorted by a key that tells the elements apart is the sorted list. -/
theorem eq_sort {l m : List α} (hperm : m.Perm l) (hsorted : m.Pairwise fun a b => key a ≤ key b)
    (hkey : ∀ a ∈ l, ∀ b ∈ l, key a = key b → a = b) : m = l.insertionSort fun a b => key a ≤ key b := by
  have hsort := List.perm_insertionSort (fun a b => key a ≤ key b) l
  refine List.Perm.eq_of_pairwise ?_ hsorted (sorted_sort key l) (hperm.trans hsort.symm)
  intro a b ha hb hab hba
  exact hkey a (hperm.mem_iff.mp ha) b (hsort.mem_iff.mp hb) (le_antisymm hab hba)

omit [LinearOrder κ] in
/-- Insertion compares an element with later ones only. -/
theorem sort_map (r : β → β → Prop) (s : α → α → Prop) [DecidableRel r] [DecidableRel s] (f : α → β) (l : List α)
    (h : l.Pairwise fun a b => r (f a) (f b) ↔ s a b) : (l.map f).insertionSort r = (l.insertionSort s).map f := by
  have hinsert : ∀ (a : α) (m : List α), (∀ b ∈ m, r (f a) (f b) ↔ s a b) →
      (m.map f).orderedInsert r (f a) = (m.orderedInsert s a).map f := by
    intro a m hm
    induction m with
    | nil => rfl
    | cons b m ih =>
      rw [List.map_cons, List.orderedInsert_cons, List.orderedInsert_cons]
      have hb := hm b List.mem_cons_self
      by_cases hs : s a b
      · rw [if_pos hs, if_pos (hb.mpr hs), List.map_cons, List.map_cons]
      · rw [if_neg hs, if_neg (mt hb.mp hs), List.map_cons, ih fun c hc => hm c (List.mem_cons_of_mem b hc)]
  induction l with
  | nil => rfl
  | cons a l ih =>
    obtain ⟨hhead, htail⟩ := List.pairwise_cons.mp h
    rw [List.map_cons, List.insertionSort_cons, List.insertionSort_cons, ih htail]
    exact hinsert a _ fun b hb => hhead b ((List.mem_insertionSort s).mp hb)

theorem sort_filter (p : α → Bool) (l : List α) (hkey : ∀ a ∈ l, ∀ b ∈ l, key a = key b → a = b) :
    (l.filter p).insertionSort (fun a b => key a ≤ key b) = (l.insertionSort fun a b => key a ≤ key b).filter p := by
  symm
  apply eq_sort
  · exact (List.perm_insertionSort _ l).filter p
  · exact (sorted_sort key l).filter p
  · intro a ha b hb
    exact hkey a (List.mem_of_mem_filter ha) b (List.mem_of_mem_filter hb)

theorem sort_down (l : List α) (hkey : ∀ a ∈ l, ∀ b ∈ l, key a = key b → a = b) :
    l.insertionSort (fun a b => key b ≤ key a) = (l.insertionSort fun a b => key a ≤ key b).reverse := by
  rw [← List.reverse_reverse (l.insertionSort fun a b => key b ≤ key a)]
  congr 1
  apply eq_sort
  · exact (List.reverse_perm _).trans (List.perm_insertionSort _ l)
  · exact List.pairwise_reverse.mpr (sorted_sort_down key l)
  · exact hkey

/-! ## The largest keys -/

/-- A limit of `n` does not cut through rows of equal key: all rows fit, or those that are not
smaller than some row are just `n`. -/
def Uncut (n : ℕ) (l : List α) : Prop :=
  l.length ≤ n ∨ n = 0 ∨ ∃ a ∈ l, (l.filter fun b => key a ≤ key b).length = n

instance (n : ℕ) (l : List α) : Decidable (Uncut key n l) :=
  inferInstanceAs (Decidable (_ ∨ _ ∨ _))

theorem Uncut.perm {n : ℕ} {l m : List α} (h : Uncut key n l) (hperm : l.Perm m) : Uncut key n m := by
  obtain hall | hnone | ⟨a, ha, hcount⟩ := h
  · exact .inl (hperm.length_eq ▸ hall)
  · exact .inr (.inl hnone)
  · exact .inr (.inr ⟨a, hperm.mem_iff.mp ha, (hperm.filter _).length_eq ▸ hcount⟩)

/-- What lies above a bound is the end of a sorted list. -/
theorem filter_sorted (t : κ) (l : List α) (hsorted : l.Pairwise fun a b => key a ≤ key b) :
    l.filter (fun b => t ≤ key b) = l.drop (l.length - (l.filter fun b => t ≤ key b).length) := by
  induction l with
  | nil => rfl
  | cons a l ih =>
    obtain ⟨hhead, htail⟩ := List.pairwise_cons.mp hsorted
    by_cases ha : t ≤ key a
    · have hall : (a :: l).filter (fun b => t ≤ key b) = a :: l := by
        rw [List.filter_eq_self]
        intro b hb
        rcases List.mem_cons.mp hb with rfl | hb
        · exact decide_eq_true ha
        · exact decide_eq_true (ha.trans (hhead b hb))
      rw [hall, Nat.sub_self, List.drop_zero]
    · have hfew := List.length_filter_le (fun b => decide (t ≤ key b)) l
      rw [List.filter_cons_of_neg (by simpa using ha), List.length_cons, Nat.succ_sub hfew, List.drop_succ_cons]
      exact ih htail

/-- The `n` largest are the same rows however rows of equal key are arranged. -/
theorem newest_perm {n : ℕ} {l m : List α} (hl : l.Pairwise fun a b => key a ≤ key b)
    (hm : m.Pairwise fun a b => key a ≤ key b) (hperm : l.Perm m) (h : Uncut key n l) :
    (l.drop (l.length - n)).Perm (m.drop (m.length - n)) := by
  obtain hall | hnone | ⟨a, -, hcount⟩ := h
  · have hm' : m.length ≤ n := hperm.length_eq ▸ hall
    rw [Nat.sub_eq_zero_of_le hall, Nat.sub_eq_zero_of_le hm']
    exact hperm
  · subst hnone
    rw [Nat.sub_zero, Nat.sub_zero, List.drop_length, List.drop_length]
  · have hfilter := hperm.filter fun b => decide (key a ≤ key b)
    have hl' := filter_sorted key (key a) l hl
    have hm' := filter_sorted key (key a) m hm
    rw [← hfilter.length_eq, hcount] at hm'
    rw [hcount] at hl'
    rw [← hl', ← hm']
    exact hfilter

/-- What has no more than `n` rows from its own key on is among the last `n`. -/
theorem mem_newest {n : ℕ} {l : List α} (hsorted : l.Pairwise fun a b => key a ≤ key b) {a : α} (ha : a ∈ l)
    (hfew : (l.filter fun b => key a ≤ key b).length ≤ n) : a ∈ l.drop (l.length - n) := by
  have hmem : a ∈ l.filter fun b => key a ≤ key b := List.mem_filter.mpr ⟨ha, by simp⟩
  rw [filter_sorted key (key a) l hsorted] at hmem
  have hsub : l.length - n ≤ l.length - (l.filter fun b => key a ≤ key b).length := by omega
  exact (List.drop_sublist_drop_left l hsub).subset hmem

theorem newest_few {n : ℕ} {l : List α} (hsorted : l.Pairwise fun a b => key a ≤ key b) (hkeys : (l.map key).Nodup) {a : α}
    (ha : a ∈ l.drop (l.length - n)) : (l.filter fun b => key a ≤ key b).length ≤ n := by
  have hsplit := List.take_append_drop (l.length - n) l
  have hnone : (l.take (l.length - n)).filter (fun b => key a ≤ key b) = [] := by
    rw [List.filter_eq_nil_iff]
    intro b hb
    rw [← hsplit, List.pairwise_append] at hsorted
    rw [← hsplit, List.map_append, List.nodup_append] at hkeys
    have hle := hsorted.2.2 b hb a ha
    have hne := hkeys.2.2 (key b) (List.mem_map_of_mem hb) (key a) (List.mem_map_of_mem ha)
    simpa using lt_of_le_of_ne hle hne
  rw [← hsplit, List.filter_append, hnone, List.nil_append]
  refine (List.length_filter_le _ _).trans ?_
  rw [List.length_drop]
  omega

/-! ## One more element -/

/-- A late element goes behind those of equal key. -/
theorem sort_snoc (l : List α) (a : α) :
    (l ++ [a]).insertionSort (fun a b => key a ≤ key b) =
      (l.insertionSort fun a b => key a ≤ key b).orderedInsert (fun a b => key a < key b) a := by
  have hswap : ∀ (b : α) (m : List α),
      (m.orderedInsert (fun a b => key a < key b) a).orderedInsert (fun a b => key a ≤ key b) b =
        (m.orderedInsert (fun a b => key a ≤ key b) b).orderedInsert (fun a b => key a < key b) a := by
    intro b m
    induction m with
    | nil =>
      by_cases hba : key b ≤ key a
      · simp [hba, hba.not_gt]
      · simp [hba, not_le.mp hba]
    | cons c m ih =>
      by_cases hac : key a < key c
      · by_cases hba : key b ≤ key a
        · have hbc := hba.trans hac.le
          simp [hac, hba, hbc, hba.not_gt]
        · by_cases hbc : key b ≤ key c
          · simp [hac, hba, hbc, not_le.mp hba]
          · simp [hac, hba, hbc]
      · by_cases hbc : key b ≤ key c
        · have hba := hbc.trans (not_lt.mp hac)
          simp [hac, hbc, hba.not_gt]
        · simp [hac, hbc, ih]
  induction l with
  | nil => rfl
  | cons b l ih => rw [List.cons_append, List.insertionSort_cons, List.insertionSort_cons, ih, hswap]

/-- A late element finds its place among the `n` largest without the others. -/
theorem newest_insert (n : ℕ) (l : List α) (a : α) (hsorted : l.Pairwise fun a b => key a ≤ key b) :
    (l.orderedInsert (fun a b => key a < key b) a).drop (l.length + 1 - n) =
      ((l.drop (l.length - n)).orderedInsert (fun a b => key a < key b) a).drop ((l.drop (l.length - n)).length + 1 - n) := by
  induction l with
  | nil => rw [List.drop_nil]
  | cons b l ih =>
    obtain ⟨hhead, htail⟩ := List.pairwise_cons.mp hsorted
    by_cases hn : l.length + 1 ≤ n
    · rw [List.length_cons, Nat.sub_eq_zero_of_le hn, List.drop_zero, List.length_cons]
    · have hlen : (l.drop (l.length - n)).length = n := by
        rw [List.length_drop]
        omega
      have hdrop : (b :: l).length - n = l.length - n + 1 := by
        rw [List.length_cons]
        omega
      have hdrop' : (b :: l).length + 1 - n = l.length - n + 1 + 1 := by
        rw [List.length_cons]
        omega
      have hdrop'' : l.length + 1 - n = l.length - n + 1 := by omega
      rw [hdrop, hdrop', List.drop_succ_cons]
      by_cases hab : key a < key b
      · rw [List.orderedInsert_cons, if_pos hab, List.drop_succ_cons, List.drop_succ_cons, hlen, Nat.add_sub_cancel_left]
        -- all that is kept has a larger key
        cases hm : l.drop (l.length - n) with
        | nil => rfl
        | cons c m =>
          have hc : c ∈ l := List.mem_of_mem_drop (hm ▸ List.mem_cons_self)
          rw [List.orderedInsert_cons, if_pos (hab.trans_le (hhead c hc)), List.drop_succ_cons, List.drop_zero]
      · rw [List.orderedInsert_cons, if_neg hab, List.drop_succ_cons, ← hdrop'', ih htail]

/-- The `n` largest of what comes in one by one, those of equal key in the order they came. -/
theorem newest_foldl (n : ℕ) (l : List α) :
    l.foldl (fun held a => ((held ++ [a]).insertionSort fun a b => key a ≤ key b).drop (held.length + 1 - n)) [] =
      (l.insertionSort fun a b => key a ≤ key b).drop (l.length - n) := by
  induction l using List.reverseRecOn with
  | nil => rw [List.foldl_nil, List.insertionSort_nil, List.drop_nil]
  | append_singleton l a ih =>
    have hsorted := sorted_sort key l
    have hkept : ((l.insertionSort fun a b => key a ≤ key b).drop (l.length - n)).Pairwise fun a b => key a ≤ key b :=
      hsorted.sublist (List.drop_sublist _ _)
    have h := newest_insert key n (l.insertionSort fun a b => key a ≤ key b) a hsorted
    rw [List.length_insertionSort] at h
    rw [List.foldl_append, List.foldl_cons, List.foldl_nil, ih, sort_snoc, sort_snoc, hkept.insertionSort_eq,
      List.length_append, List.length_singleton, h]

/-! ## Rows of equal key -/

omit [LinearOrder κ] in
/-- A list in which a property goes downwards falls into the part that has it and the rest. -/
theorem split_down (p : α → Bool) {l : List α} (h : l.Pairwise fun a b => p b = true → p a = true) :
    l.filter p ++ l.filter (fun a => !p a) = l := by
  induction l with
  | nil => rfl
  | cons a l ih =>
    obtain ⟨hhead, htail⟩ := List.pairwise_cons.mp h
    cases ha : p a with
    | true => rw [List.filter_cons_of_pos ha, List.filter_cons_of_neg (by simp [ha]), List.cons_append, ih htail]
    | false =>
      have hnone : ∀ b ∈ l, p b = false := fun b hb => Bool.eq_false_iff.mpr fun hpb => by simp [hhead b hb hpb] at ha
      rw [List.filter_cons_of_neg (by simp [ha]), List.filter_cons_of_pos (by simp [ha]),
        List.filter_eq_nil_iff.mpr fun b hb => by simp [hnone b hb], List.filter_eq_self.mpr fun b hb => by simp [hnone b hb],
        List.nil_append]

/-- Rows of one key keep their order. -/
theorem filter_key_sort (k : κ) (l : List α) :
    (l.insertionSort fun a b => key a ≤ key b).filter (fun a => key a = k) = l.filter fun a => key a = k := by
  have hequal : (l.filter fun a => key a = k).Pairwise fun a b => key a ≤ key b := by
    refine List.pairwise_of_forall_mem_list fun a ha b hb => ?_
    have hka : key a = k := by simpa using List.of_mem_filter ha
    have hkb : key b = k := by simpa using List.of_mem_filter hb
    rw [hka, hkb]
  have hsub := List.sublist_insertionSort hequal List.filter_sublist
  have hsub' := hsub.filter fun a => decide (key a = k)
  rw [List.filter_filter] at hsub'
  simp only [Bool.and_self] at hsub'
  exact (hsub'.eq_of_length ((List.perm_insertionSort _ l).filter _).length_eq.symm).symm

/-- A sorted list around a key. -/
theorem sort_around (k : κ) (l : List α) :
    (l.insertionSort fun a b => key a ≤ key b) =
      (l.insertionSort fun a b => key a ≤ key b).filter (fun a => key a < k) ++
        (l.filter (fun a => key a = k) ++ (l.insertionSort fun a b => key a ≤ key b).filter fun a => k < key a) := by
  have hsorted := sorted_sort key l
  rw [← filter_key_sort key k l]
  generalize (l.insertionSort fun a b => key a ≤ key b) = s at hsorted ⊢
  have hlow := split_down (fun a => decide (key a < k)) (hsorted.imp fun hab hb => by
    simpa using hab.trans_lt (of_decide_eq_true hb))
  have hhigh := split_down (fun a => decide (key a ≤ k)) (l := s.filter fun a => !decide (key a < k))
    ((hsorted.filter _).imp fun hab hb => by simpa using hab.trans (of_decide_eq_true hb))
  rw [List.filter_filter, List.filter_filter] at hhigh
  have hmid : s.filter (fun a => decide (key a ≤ k) && !decide (key a < k)) = s.filter fun a => key a = k := by
    refine List.filter_congr fun a _ => ?_
    rw [← decide_not, ← Bool.decide_and, decide_eq_decide, not_lt, le_antisymm_iff]
  have habove : s.filter (fun a => (!decide (key a ≤ k)) && !decide (key a < k)) = s.filter fun a => k < key a := by
    refine List.filter_congr fun a _ => ?_
    rw [Bool.eq_iff_iff]
    simpa using fun h : k < key a => h.le
  rw [hmid, habove] at hhigh
  rw [hhigh, hlow]

/-- How many rows come behind the last of the rows `m`, sorted: those of larger key, and those of
its key that came after it. -/
def behind [DecidableEq α] (m : α) (l : List α) : ℕ :=
  l.countP (fun a => key m < key a) + (l.reverse.takeWhile (· ≠ m)).countP fun a => key a = key m

omit [LinearOrder κ] in
theorem mem_drop_split {m : α} {n : ℕ} {A B : List α} (hB : m ∉ B) :
    m ∈ (A ++ m :: B).drop ((A ++ m :: B).length - n) ↔ B.length < n := by
  have hlen : (A ++ m :: B).length = A.length + B.length + 1 := by simp; omega
  rw [hlen]
  constructor
  · intro hm
    by_contra hn
    have hdrop : A.length + B.length + 1 - n = A.length + (1 + (B.length - n)) := by omega
    rw [hdrop, ← List.drop_drop, List.drop_left, ← List.drop_drop, List.drop_one, List.tail_cons] at hm
    exact hB (List.mem_of_mem_drop hm)
  · intro hn
    have hdrop : A.length + B.length + 1 - n ≤ A.length := by omega
    rw [List.drop_append_of_le_length hdrop]
    exact List.mem_append_right _ List.mem_cons_self

/-- A row is among the `n` last as long as fewer come behind it. -/
theorem mem_newest_iff [DecidableEq α] {m : α} {n : ℕ} {l : List α} (hm : m ∈ l) :
    m ∈ (l.insertionSort fun a b => key a ≤ key b).drop (l.length - n) ↔ behind key m l < n := by
  obtain ⟨after, before, hrev, hafter⟩ := List.eq_append_cons_of_mem (List.mem_reverse.mpr hm)
  have hl : l = before.reverse ++ m :: after.reverse := by
    rw [← List.reverse_reverse l, hrev]
    simp
  have hsplit := sort_around key (key m) l
  have hequal : l.filter (fun a => key a = key m) =
      before.reverse.filter (fun a => key a = key m) ++ m :: after.reverse.filter fun a => key a = key m := by
    rw [hl, List.filter_append, List.filter_cons_of_pos (by simp)]
  have hlen : l.length = (l.insertionSort fun a b => key a ≤ key b).length := (List.length_insertionSort _ l).symm
  rw [hequal] at hsplit
  have habove : ((l.insertionSort fun a b => key a ≤ key b).filter fun a => key m < key a).length =
      l.countP fun a => key m < key a := by
    rw [← List.countP_eq_length_filter, (List.perm_insertionSort _ l).countP_eq]
  have htake : (l.reverse.takeWhile (· ≠ m)) = after := by
    rw [hrev, List.takeWhile_append_of_pos (by simpa using fun a ha (h : a = m) => hafter (h ▸ ha))]
    simp
  have hcount : behind key m l = (after.reverse.filter (fun a => key a = key m) ++
      (l.insertionSort fun a b => key a ≤ key b).filter fun a => key m < key a).length := by
    rw [behind, htake, List.length_append, habove, ← List.countP_eq_length_filter, List.countP_reverse, Nat.add_comm]
  have hlast : m ∉ after.reverse.filter (fun a => key a = key m) ++
      (l.insertionSort fun a b => key a ≤ key b).filter fun a => key m < key a := by
    rw [List.mem_append, not_or]
    refine ⟨fun h => hafter (List.mem_reverse.mp (List.mem_of_mem_filter h)), fun h => ?_⟩
    simpa using List.of_mem_filter h
  rw [hlen, hcount]
  generalize (l.insertionSort fun a b => key a ≤ key b).filter (fun a => key m < key a) = above at hsplit hlast ⊢
  rw [hsplit, List.append_assoc, List.cons_append, ← List.append_assoc]
  exact mem_drop_split hlast

/-- What comes in one by one, on top of what is kept. -/
theorem newest_foldl_from (n : ℕ) (held l : List α) (hsorted : held.Pairwise fun a b => key a ≤ key b) (hroom : held.length ≤ n) :
    l.foldl (fun held a => ((held ++ [a]).insertionSort fun a b => key a ≤ key b).drop (held.length + 1 - n)) held =
      ((held ++ l).insertionSort fun a b => key a ≤ key b).drop ((held ++ l).length - n) := by
  have hheld := newest_foldl key n held
  rw [hsorted.insertionSort_eq, Nat.sub_eq_zero_of_le hroom, List.drop_zero] at hheld
  rw [← newest_foldl key n (held ++ l), List.foldl_append, hheld]

end Keys

/-! ## Rows picked out by an identifier -/

section Pick
variable {α ι : Type} [DecidableEq ι] (id : α → ι)

theorem filter_ids_sublist {l kept : List α} (hids : (l.map id).Nodup) (hkept : kept.Sublist l) :
    (l.filter fun a => id a ∈ kept.map id) = kept := by
  induction hkept with
  | slnil => rfl
  | cons a hsub ih =>
    obtain ⟨hfresh, hrest⟩ := List.nodup_cons.mp hids
    rw [List.filter_cons_of_neg, ih hrest]
    rw [decide_eq_true_eq]
    intro hmem
    exact hfresh ((hsub.map id).subset hmem)
  | cons_cons a hsub ih =>
    obtain ⟨hfresh, hrest⟩ := List.nodup_cons.mp hids
    rw [List.filter_cons_of_pos (by simp)]
    congr 1
    refine .trans (List.filter_congr fun b hb => ?_) (ih hrest)
    have hne : id b ≠ id a := by
      intro heq
      exact hfresh (heq ▸ List.mem_map_of_mem hb)
    simp [hne]

/-- Rows that identifiers tell apart are found alike in any order. -/
theorem find_congr {l m : List α} (hmem : ∀ a, a ∈ l ↔ a ∈ m) (hids : (m.map id).Nodup) (i : ι) :
    l.find? (fun a => id a = i) = m.find? (fun a => id a = i) := by
  cases hl : l.find? fun a => id a = i with
  | none =>
    symm
    rw [List.find?_eq_none] at hl ⊢
    intro a ha
    exact hl a ((hmem a).mpr ha)
  | some a =>
    have hid : id a = i := by simpa using List.find?_some hl
    cases hm : m.find? fun a => id a = i with
    | none =>
      have := List.find?_eq_none.mp hm a ((hmem a).mp (List.mem_of_find?_eq_some hl))
      simp [hid] at this
    | some b =>
      have hid' : id b = i := by simpa using List.find?_some hm
      congr 1
      exact List.inj_on_of_nodup_map hids ((hmem a).mp (List.mem_of_find?_eq_some hl)) (List.mem_of_find?_eq_some hm)
        (hid.trans hid'.symm)

end Pick
/-- A list whose later elements meet a condition only if the earlier ones do is those that meet it, then the others. -/
theorem filter_append_filter_not {α : Type} {p : α → Bool} {l : List α} (down : l.Pairwise fun a b => p b = true → p a = true) :
    l.filter p ++ l.filter (fun a => !p a) = l := by
  induction l with
  | nil => rfl
  | cons a l ih =>
    obtain ⟨hfirst, hrest⟩ := List.pairwise_cons.mp down
    have ih := ih hrest
    cases ha : p a with
    | true => rw [List.filter_cons_of_pos ha, List.filter_cons_of_neg (by simp [ha]), List.cons_append, ih]
    | false =>
      have hnone : l.filter p = [] :=
        List.filter_eq_nil_iff.mpr fun b hb hpb => by simpa [ha] using hfirst b hb hpb
      rw [List.filter_cons_of_neg (by simp [ha]), List.filter_cons_of_pos (by simp [ha]), hnone, List.nil_append]
      rw [hnone, List.nil_append] at ih
      rw [ih]

end CockroachChat.Sorting
