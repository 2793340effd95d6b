import CockroachChat.Foundations.Maps

/-! # Entries grouped by a key

The entries of a list that carry a key are grouped by it, in the order of the list. When the list is
ascending, the entries behind the first of their group are those with a smaller entry of the same key. -/
namespace CockroachChat.Grouping
set_option autoImplicit false

variable {α β γ : Type} {cmp : γ → γ → Ordering} [Std.TransCmp cmp] [Std.LawfulEqCmp cmp] (key : β → Option γ)

/-- The groups, one a key. -/
def groups (cmp : γ → γ → Ordering) [Std.TransCmp cmp] (l : List (α × β)) : Std.ExtTreeMap γ (List α) cmp :=
  l.foldl
    (fun m e => match key e.2 with
      | some k => m.insert k (m[k]?.getD [] ++ [e.1])
      | none => m) ∅

/-- The entries that carry the key `k`. -/
def members [DecidableEq γ] (l : List (α × β)) (k : γ) : List α := (l.filter fun e => key e.2 = some k).map Prod.fst

variable [DecidableEq γ]

theorem groups_getElem? (l : List (α × β)) (k : γ) :
    (groups key cmp l)[k]? = if members key l k = [] then none else some (members key l k) := by
  unfold groups members
  induction l using List.reverseRecOn with
  | nil => rfl
  | append_singleton l e ih =>
    rw [List.foldl_concat, List.filter_append, List.map_append]
    generalize (l.foldl _ ∅ : Std.ExtTreeMap γ (List α) cmp) = m at ih ⊢
    cases hkey : key e.2 with
    | none =>
      have hskip : [e].filter (fun e => key e.2 = some k) = [] := by simp [hkey]
      simp only [hskip, List.map_nil, List.append_nil, ih]
    | some k' =>
      simp only
      by_cases hk : k' = k
      · subst hk
        have hkeep : [e].filter (fun e => key e.2 = some k') = [e] := by simp [hkey]
        rw [Std.ExtTreeMap.getElem?_insert_self, hkeep, ih]
        generalize (l.filter fun e => key e.2 = some k').map Prod.fst = ids
        by_cases hids : ids = [] <;> simp [hids]
      · have hskip : [e].filter (fun e => key e.2 = some k) = [] := by simp [hkey, hk]
        rw [Std.ExtTreeMap.getElem?_insert, if_neg (by simpa using hk), hskip, List.map_nil, List.append_nil, ih]

/-- All but the first of every group. -/
def later (cmp : γ → γ → Ordering) [Std.TransCmp cmp] (l : List (α × β)) : List α :=
  (groups key cmp l).values.flatMap (·.drop 1)

theorem mem_later {l : List (α × β)} {a : α} : a ∈ later key cmp l ↔ ∃ k, a ∈ (members key l k).drop 1 := by
  unfold later
  rw [Maps.values_eq, List.mem_flatMap]
  constructor
  · rintro ⟨ids, hids, hmem⟩
    obtain ⟨⟨k, ids⟩, hheld, rfl⟩ := List.mem_map.mp hids
    rw [Std.ExtTreeMap.mem_toList_iff_getElem?_eq_some, groups_getElem?] at hheld
    split_ifs at hheld
    cases hheld
    exact ⟨k, hmem⟩
  · rintro ⟨k, hmem⟩
    have hne : members key l k ≠ [] := by
      intro hnil
      simp [hnil] at hmem
    refine ⟨members key l k, List.mem_map.mpr ⟨(k, members key l k), ?_, rfl⟩, hmem⟩
    rw [Std.ExtTreeMap.mem_toList_iff_getElem?_eq_some, groups_getElem?, if_neg hne]

theorem mem_members {l : List (α × β)} {a : α} {k : γ} : a ∈ members key l k ↔ ∃ b, (a, b) ∈ l ∧ key b = some k := by
  simp [members]

/-- Of two entries of one group, one is not the first. -/
theorem later_covers {l : List (α × β)} {a a' : α} {k : γ} (h : a ∈ members key l k) (h' : a' ∈ members key l k) (hne : a ≠ a') :
    a ∈ later key cmp l ∨ a' ∈ later key cmp l := by
  simp only [mem_later]
  cases hids : members key l k with
  | nil => simp [hids] at h
  | cons b rest =>
    rw [hids] at h h'
    rcases List.mem_cons.mp h with rfl | h
    · exact .inr ⟨k, by rw [hids]; exact (List.mem_cons.mp h').resolve_left hne.symm⟩
    · exact .inl ⟨k, by rw [hids]; exact h⟩

theorem later_nodup {l : List (α × β)} (distinct : (l.map Prod.fst).Nodup) : (later key cmp l).Nodup := by
  have hmembers : ∀ k, (members key l k).Nodup := fun k => distinct.sublist (List.filter_sublist.map _)
  have hheld : ∀ e ∈ (groups key cmp l).toList, e.2 = members key l e.1 := by
    rintro ⟨k, ids⟩ he
    rw [Std.ExtTreeMap.mem_toList_iff_getElem?_eq_some, groups_getElem?] at he
    split_ifs at he
    exact (Option.some.inj he).symm
  unfold later
  rw [Maps.values_eq, List.nodup_flatMap, List.pairwise_map]
  constructor
  · intro ids hids
    obtain ⟨e, he, rfl⟩ := List.mem_map.mp hids
    rw [hheld e he]
    exact (hmembers e.1).sublist (List.drop_sublist _ _)
  · refine (Std.ExtTreeMap.distinct_keys_toList (t := groups key cmp l)).imp_of_mem fun {e e'} he he' hne => ?_
    intro a ha ha'
    rw [hheld e he] at ha
    rw [hheld e' he'] at ha'
    obtain ⟨b, hb, hkey⟩ := (mem_members key).mp (List.mem_of_mem_drop ha)
    obtain ⟨b', hb', hkey'⟩ := (mem_members key).mp (List.mem_of_mem_drop ha')
    obtain rfl : b = b' := congrArg Prod.snd (List.inj_on_of_nodup_map distinct hb hb' rfl)
    exact hne (Std.LawfulEqCmp.compare_eq_iff_eq.mpr (Option.some.inj (hkey.symm.trans hkey')))

/-- Where the entries are ascending, those behind the first of their group have a smaller one of the
same key that is the first of it. -/
theorem later_smaller [LinearOrder α] {l : List (α × β)} (ascending : (l.map Prod.fst).Pairwise (· < ·)) {a : α}
    (h : a ∈ later key cmp l) :
    ∃ b k a' b', (a, b) ∈ l ∧ key b = some k ∧ (a', b') ∈ l ∧ key b' = some k ∧ a' < a ∧ a' ∉ later key cmp l := by
  obtain ⟨k, hk⟩ := (mem_later key).mp h
  have hsub : ∀ k, (members key l k).Sublist (l.map Prod.fst) := fun k => List.filter_sublist.map _
  cases hids : members key l k with
  | nil => simp [hids] at hk
  | cons a' rest =>
    rw [hids] at hk
    have hmem : a ∈ members key l k := hids ▸ List.mem_cons_of_mem a' hk
    have hmem' : a' ∈ members key l k := hids ▸ List.mem_cons_self
    obtain ⟨b, hb, hkey⟩ := (mem_members key).mp hmem
    obtain ⟨b', hb', hkey'⟩ := (mem_members key).mp hmem'
    have hfirst : ∀ x ∈ rest, a' < x := (List.pairwise_cons.mp (hids ▸ ascending.sublist (hsub k))).1
    refine ⟨b, k, a', b', hb, hkey, hb', hkey', hfirst a hk, fun hlater => ?_⟩
    -- the first of its group carries no other key
    obtain ⟨k', hk'⟩ := (mem_later key).mp hlater
    obtain ⟨b'', hb'', hkey''⟩ := (mem_members key).mp (List.mem_of_mem_drop hk')
    have hinj := List.inj_on_of_nodup_map (ascending.imp ne_of_lt) hb' hb'' rfl
    obtain rfl : b' = b'' := congrArg Prod.snd hinj
    rw [hkey', Option.some.injEq] at hkey''
    subst hkey''
    rw [hids] at hk'
    exact lt_irrefl a' (hfirst a' hk')

end CockroachChat.Grouping
