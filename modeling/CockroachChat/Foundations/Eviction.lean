import Mathlib

/-! # Bounded maps that drop their oldest entry

A full map makes room by dropping an entry of least age stamp, so whoever is dropped leaves the whole
rest of the map stamped no earlier. -/
namespace CockroachChat.Eviction
set_option autoImplicit false

variable {α β : Type} {cmp : α → α → Ordering} [Std.TransCmp cmp] (stamp : β → ℕ)

/-- Without the first entry, in key order, of least stamp. -/
def dropOldest (m : Std.ExtTreeMap α β cmp) : Std.ExtTreeMap α β cmp :=
  match m.toList.argmin (fun e => stamp e.2) with
  | some e => m.erase e.1
  | none => m

section Cases
variable [Std.LawfulEqCmp cmp] {m : Std.ExtTreeMap α β cmp}

theorem dropOldest_cases (m : Std.ExtTreeMap α β cmp) : m = ∅ ∧ dropOldest stamp m = m ∨
    ∃ (k : α) (v : β), m[k]? = some v ∧ (∀ (k' : α) (v' : β), m[k']? = some v' → stamp v ≤ stamp v') ∧ dropOldest stamp m = m.erase k := by
  unfold dropOldest
  cases h : m.toList.argmin (fun e => stamp e.2) with
  | none => exact .inl ⟨Std.ExtTreeMap.toList_eq_nil_iff.mp (List.argmin_eq_none.mp h), rfl⟩
  | some e =>
    obtain ⟨k, v⟩ := e
    refine .inr ⟨k, v, Std.ExtTreeMap.mem_toList_iff_getElem?_eq_some.mp (List.argmin_mem h), ?_, rfl⟩
    intro k' v' h'
    exact List.le_of_mem_argmin (f := fun e : α × β => stamp e.2) (Std.ExtTreeMap.mem_toList_iff_getElem?_eq_some.mpr h') h

theorem dropOldest_absent {k : α} (h : m[k]? = none) : (dropOldest stamp m)[k]? = none := by
  rcases dropOldest_cases stamp m with ⟨-, heq⟩ | ⟨k', -, -, -, heq⟩
  · rw [heq, h]
  · rw [heq, Std.ExtTreeMap.getElem?_erase, h, ite_self]

theorem dropOldest_held {k : α} {v : β} (h : (dropOldest stamp m)[k]? = some v) : m[k]? = some v := by
  rcases dropOldest_cases stamp m with ⟨-, heq⟩ | ⟨k', -, -, -, heq⟩
  · rwa [heq] at h
  · rw [heq, Std.ExtTreeMap.getElem?_erase] at h
    split_ifs at h
    exact h

/-- An entry that is dropped leaves no entry stamped before it. -/
theorem dropOldest_dropped {k : α} {v : β} (held : m[k]? = some v) (h : (dropOldest stamp m)[k]? ≠ some v) :
    ∀ (k' : α) (v' : β), m[k']? = some v' → stamp v ≤ stamp v' := by
  rcases dropOldest_cases stamp m with ⟨-, heq⟩ | ⟨k', v', hk', hleast, heq⟩
  · rw [heq] at h
    exact absurd held h
  · rw [heq, Std.ExtTreeMap.getElem?_erase] at h
    split_ifs at h with hk
    · obtain rfl := Std.LawfulEqCmp.eq_of_compare hk
      cases hk'.symm.trans held
      exact hleast
    · exact absurd held h

theorem size_dropOldest (m : Std.ExtTreeMap α β cmp) : (dropOldest stamp m).size = m.size - 1 := by
  rcases dropOldest_cases stamp m with ⟨rfl, heq⟩ | ⟨k, v, hk, -, heq⟩
  · rw [heq]
    rfl
  · have hmem : k ∈ m := Std.ExtTreeMap.mem_iff_isSome_getElem?.mpr (by rw [hk]; rfl)
    rw [heq, Std.ExtTreeMap.size_erase, if_pos (Std.ExtTreeMap.mem_iff_contains.mp hmem)]

/-- Room for one more. -/
theorem size_room {cap : ℕ} (hcap : 1 ≤ cap) (h : m.size ≤ cap) : (if m.size ≥ cap then dropOldest stamp m else m).size < cap := by
  split_ifs with hfull
  · rw [size_dropOldest]
    omega
  · omega

/-- The keys other than one, of a map that holds it. -/
theorem others_card [DecidableEq α] {k : α} {v : β} (held : m[k]? = some v) : (m.erase k).keys.toFinset.card + 1 = m.size := by
  have hmem : k ∈ m := Std.ExtTreeMap.mem_iff_isSome_getElem?.mpr (by rw [held]; rfl)
  have hpos : 0 < m.size := by
    rw [← Std.ExtTreeMap.length_toList]
    exact List.length_pos_of_mem (Std.ExtTreeMap.mem_toList_iff_getElem?_eq_some.mpr held)
  rw [List.toFinset_card_of_nodup Std.ExtTreeMap.nodup_keys, Std.ExtTreeMap.length_keys, Std.ExtTreeMap.size_erase,
    if_pos (Std.ExtTreeMap.mem_iff_contains.mp hmem)]
  omega

theorem mem_others [DecidableEq α] {k k' : α} : k' ∈ (m.erase k).keys.toFinset ↔ k' ≠ k ∧ ∃ v : β, m[k']? = some v := by
  rw [List.mem_toFinset, Std.ExtTreeMap.mem_keys, Std.ExtTreeMap.mem_iff_isSome_getElem?, Std.ExtTreeMap.getElem?_erase]
  by_cases hk : k' = k
  · subst hk
    simp
  · rw [if_neg (fun h => hk (Std.LawfulEqCmp.eq_of_compare h).symm), Option.isSome_iff_exists]
    simp [hk]

end Cases
end CockroachChat.Eviction
