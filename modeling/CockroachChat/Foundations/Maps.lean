import Mathlib

/-! # Updates of one key of an ordered map -/
namespace CockroachChat.Maps
set_option autoImplicit false

variable {α β : Type} {cmp : α → α → Ordering} [Std.TransCmp cmp] [Std.LawfulEqCmp cmp]

@[simp] theorem insert_insert (m : Std.ExtTreeMap α β cmp) (k : α) (v w : β) :
    (m.insert k v).insert k w = m.insert k w := by
  apply Std.ExtTreeMap.ext_getElem?
  intro k'
  grind

@[simp] theorem erase_insert (m : Std.ExtTreeMap α β cmp) (k : α) (v : β) : (m.insert k v).erase k = m.erase k := by
  apply Std.ExtTreeMap.ext_getElem?
  intro k'
  grind

@[simp] theorem insert_erase (m : Std.ExtTreeMap α β cmp) (k : α) (v : β) : (m.erase k).insert k v = m.insert k v := by
  apply Std.ExtTreeMap.ext_getElem?
  intro k'
  grind

@[simp] theorem erase_erase (m : Std.ExtTreeMap α β cmp) (k : α) : (m.erase k).erase k = m.erase k := by
  apply Std.ExtTreeMap.ext_getElem?
  intro k'
  grind

theorem getElem?_insert_ne (m : Std.ExtTreeMap α β cmp) {k k' : α} (v : β) (h : k ≠ k') : (m.insert k v)[k']? = m[k']? := by
  rw [Std.ExtTreeMap.getElem?_insert, if_neg (mt Std.LawfulEqCmp.eq_of_compare h)]

theorem getElem?_erase_ne (m : Std.ExtTreeMap α β cmp) {k k' : α} (h : k ≠ k') : (m.erase k)[k']? = m[k']? := by
  rw [Std.ExtTreeMap.getElem?_erase, if_neg (mt Std.LawfulEqCmp.eq_of_compare h)]

theorem getElem?_foldl_erase (m : Std.ExtTreeMap α β cmp) (l : List α) (k : α) [DecidableEq α] :
    (l.foldl (fun m k => m.erase k) m)[k]? = if k ∈ l then none else m[k]? := by
  induction l generalizing m with
  | nil => simp
  | cons a l ih =>
    rw [List.foldl_cons, ih, Std.ExtTreeMap.getElem?_erase]
    by_cases hl : k ∈ l
    · simp [hl]
    · by_cases ha : a = k
      · simp [ha]
      · have hka : k ≠ a := Ne.symm ha
        simp [hl, ha, hka]

theorem insert_held {m : Std.ExtTreeMap α β cmp} {k : α} {v : β} (h : m[k]? = some v) : m.insert k v = m := by
  apply Std.ExtTreeMap.ext_getElem?
  intro k'
  grind

theorem erase_absent {m : Std.ExtTreeMap α β cmp} {k : α} (h : m[k]? = none) : m.erase k = m := by
  apply Std.ExtTreeMap.ext_getElem?
  intro k'
  grind

omit [Std.LawfulEqCmp cmp] in
theorem contains_held {m : Std.ExtTreeMap α β cmp} {k : α} {v : β} (h : m[k]? = some v) : m.contains k = true := by
  rw [Std.ExtTreeMap.contains_eq_isSome_getElem?, h]
  rfl

omit [Std.LawfulEqCmp cmp] in
theorem contains_absent {m : Std.ExtTreeMap α β cmp} {k : α} (h : m[k]? = none) : m.contains k = false := by
  rw [Std.ExtTreeMap.contains_eq_isSome_getElem?, h]
  rfl

/-! ## Reading one key's entry out of the entry list -/

omit [Std.LawfulEqCmp cmp] in
theorem values_eq (m : Std.ExtTreeMap α β cmp) : m.values = m.toList.map Prod.snd := by
  obtain ⟨m⟩ := m
  induction m using Std.ExtDTreeMap.inductionOn with
  | mk t =>
    show t.inner.values = (Std.DTreeMap.Internal.Impl.Const.toList t.inner).map Prod.snd
    rw [Std.DTreeMap.Internal.Impl.values_eq_map_snd, Std.DTreeMap.Internal.Impl.Const.toList_eq_toListModel_map,
      List.map_map]
    rfl

section Entries
variable {γ : Type} (g : α × β → List γ) (k : α)

omit [Std.LawfulEqCmp cmp] in
theorem flatMap_entries_absent (l : List (α × β)) (other : ∀ e, e.1 ≠ k → g e = []) (absent : k ∉ l.map Prod.fst) :
    l.flatMap g = [] := by
  rw [List.flatMap_eq_nil_iff]
  intro e he
  refine other e ?_
  rintro rfl
  exact absent (List.mem_map.mpr ⟨e, he, rfl⟩)

omit [Std.LawfulEqCmp cmp] in
theorem flatMap_entries_held (l : List (α × β)) (other : ∀ e, e.1 ≠ k → g e = []) (nodup : (l.map Prod.fst).Nodup)
    {v : β} (held : (k, v) ∈ l) : l.flatMap g = g (k, v) := by
  induction l with
  | nil => cases held
  | cons e l ih =>
    obtain ⟨hfresh, hrest⟩ := List.nodup_cons.mp nodup
    rw [List.flatMap_cons]
    rcases List.mem_cons.mp held with rfl | held
    · rw [flatMap_entries_absent g k l other hfresh, List.append_nil]
    · have hne : e.1 ≠ k := by
        rintro rfl
        exact hfresh (List.mem_map.mpr ⟨_, held, rfl⟩)
      rw [other e hne, ih hrest held, List.nil_append]

theorem flatMap_toList (m : Std.ExtTreeMap α β cmp) (other : ∀ e, e.1 ≠ k → g e = []) :
    m.toList.flatMap g = match m[k]? with
      | some v => g (k, v)
      | none => [] := by
  have hnodup := m.nodup_keys
  rw [← Std.ExtTreeMap.map_fst_toList_eq_keys] at hnodup
  cases h : m[k]? with
  | some v => exact flatMap_entries_held g k _ other hnodup (Std.ExtTreeMap.mem_toList_iff_getElem?_eq_some.mpr h)
  | none =>
    refine flatMap_entries_absent g k _ other fun hmem => ?_
    obtain ⟨e, he, rfl⟩ := List.mem_map.mp hmem
    rw [Std.ExtTreeMap.mem_toList_iff_getElem?_eq_some.mp he] at h
    cases h

end Entries

end CockroachChat.Maps
