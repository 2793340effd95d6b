import CockroachChat.Foundations.Truncation

/-! # Indexing and slicing

`b[i]` and `&b[i..j]` panic outside the slice, and `&s[i..j]` on a string also inside a character.
What panics is an error here. -/
namespace CockroachChat
set_option autoImplicit false

inductive Panic
  | outOfBounds
  | charBoundary
  | lengthMismatch
deriving DecidableEq, Repr

def index (b : Bytes) (i : ℕ) : Except Panic UInt8 :=
  match b[i]? with
  | some x => .ok x
  | none => .error .outOfBounds

def slice (b : Bytes) (i j : ℕ) : Except Panic Bytes :=
  if i ≤ j ∧ j ≤ b.length then .ok ((b.drop i).take (j - i)) else .error .outOfBounds

def isContinuation (x : UInt8) : Bool := 0x80 ≤ x && x < 0xC0

/-- `str::is_char_boundary`, on the bytes of the string. -/
def isCharBoundary (b : Bytes) (i : ℕ) : Bool :=
  i == 0 || match b[i]? with
    | some x => !isContinuation x
    | none => i == b.length

/-- `&s[i..j]`, as bytes. -/
def sliceStr (b : Bytes) (i j : ℕ) : Except Panic Bytes :=
  if i ≤ j ∧ isCharBoundary b i = true ∧ isCharBoundary b j = true then .ok ((b.drop i).take (j - i))
  else .error .charBoundary

/-- `copy_from_slice` into an array. -/
def copyFromSlice (n : ℕ) (b : Bytes) : Except Panic (Vector UInt8 n) :=
  if b.length = n then .ok (arrayOf n b) else .error .lengthMismatch

theorem index_ok {b : Bytes} {i : ℕ} (h : i < b.length) : index b i = .ok (b.getD i 0) := by
  rw [index, List.getElem?_eq_getElem h, List.getD_eq_getElem _ _ h]

theorem slice_ok {b : Bytes} {i j : ℕ} (hij : i ≤ j) (hj : j ≤ b.length) :
    slice b i j = .ok ((b.drop i).take (j - i)) := if_pos ⟨hij, hj⟩

/-! ## Where characters begin -/

section Boundaries

theorem isCharBoundary_zero (b : Bytes) : isCharBoundary b 0 = true := rfl

theorem isCharBoundary_length (b : Bytes) : isCharBoundary b b.length = true := by
  simp [isCharBoundary]

theorem isCharBoundary_of_get {b : Bytes} {i : ℕ} {x : UInt8} (h : b[i]? = some x) (hx : isContinuation x = false) :
    isCharBoundary b i = true := by
  simp [isCharBoundary, h, hx]

theorem isContinuation_ofNat {n : ℕ} (h : n < 256) : isContinuation (UInt8.ofNat n) = (decide (128 ≤ n) && decide (n < 192)) := by
  simp [isContinuation, UInt8.le_iff_toNat_le, UInt8.lt_iff_toNat_lt, Nat.mod_eq_of_lt h]

/-- The first byte of a character starts it, and the others do not. -/
theorem utf8EncodeChar_shape (c : Char) :
    ∃ x xs, String.utf8EncodeChar c = x :: xs ∧ isContinuation x = false ∧ ∀ y ∈ xs, isContinuation y = true := by
  have hlater (n : ℕ) : isContinuation (UInt8.ofNat (n % 64 + 128)) = true := by
    rw [isContinuation_ofNat (by omega), Bool.and_eq_true, decide_eq_true_eq, decide_eq_true_eq]
    omega
  have hfirst {n : ℕ} (h : n < 256) (hn : n < 128 ∨ 192 ≤ n) : isContinuation (UInt8.ofNat n) = false := by
    rw [isContinuation_ofNat h, Bool.and_eq_false_iff, decide_eq_false_iff_not, decide_eq_false_iff_not]
    omega
  unfold String.utf8EncodeChar
  dsimp only
  split
  · exact ⟨_, _, rfl, hfirst (by omega) (by omega), by simp⟩
  · split
    · exact ⟨_, _, rfl, hfirst (by omega) (by omega), by simp only [List.forall_mem_cons, hlater, List.not_mem_nil, false_implies, implies_true, and_self]⟩
    · split
      · exact ⟨_, _, rfl, hfirst (by omega) (by omega), by simp only [List.forall_mem_cons, hlater, List.not_mem_nil, false_implies, implies_true, and_self]⟩
      · exact ⟨_, _, rfl, hfirst (by omega) (by omega), by simp only [List.forall_mem_cons, hlater, List.not_mem_nil, false_implies, implies_true, and_self]⟩

theorem isCharBoundary_prefix (pre more : List Char) :
    isCharBoundary (utf8Bytes (pre ++ more)) (utf8Bytes pre).length = true := by
  cases more with
  | nil =>
    rw [List.append_nil]
    exact isCharBoundary_length _
  | cons c more =>
    obtain ⟨x, xs, hc, hx, -⟩ := utf8EncodeChar_shape c
    have hget : (utf8Bytes (pre ++ c :: more))[(utf8Bytes pre).length]? = some x := by
      rw [utf8Bytes_append, utf8Bytes_cons, hc, List.getElem?_append_right le_rfl, Nat.sub_self]
      rfl
    exact isCharBoundary_of_get hget hx

/-- The boundaries of a string are the lengths of its prefixes. -/
theorem isCharBoundary_iff (cs : List Char) (i : ℕ) :
    isCharBoundary (utf8Bytes cs) i = true ↔ ∃ pre more, cs = pre ++ more ∧ (utf8Bytes pre).length = i := by
  constructor
  · intro h
    by_cases hi : i < (utf8Bytes cs).length
    · obtain ⟨pre, c, more, p, rest, rfl, -, hsplit, hrest, hlen⟩ := exists_cut cs i hi
      obtain ⟨x, xs, hc, -, hxs⟩ := utf8EncodeChar_shape c
      cases p with
      | nil => exact ⟨pre, c :: more, rfl, hlen⟩
      | cons y p =>
        -- inside a character
        obtain ⟨z, rest, rfl⟩ := List.exists_cons_of_ne_nil hrest
        have hcont : isContinuation z = true := by
          rw [hc, List.cons_append, List.cons.injEq] at hsplit
          exact hxs z (by rw [hsplit.2]; simp)
        have hget : (utf8Bytes (pre ++ c :: more))[i]? = some z := by
          rw [utf8Bytes_append, utf8Bytes_cons, hsplit, ← hlen, List.getElem?_append_right (Nat.le_add_right _ _),
            Nat.add_sub_cancel_left, List.append_assoc, List.getElem?_append_right le_rfl, Nat.sub_self]
          rfl
        have hpos : i ≠ 0 := by
          rw [List.length_cons] at hlen
          omega
        simp [isCharBoundary, hget, hcont, hpos] at h
    · have hnone : (utf8Bytes cs)[i]? = none := List.getElem?_eq_none (Nat.le_of_not_lt hi)
      refine ⟨cs, [], (List.append_nil cs).symm, ?_⟩
      simp only [isCharBoundary, hnone, Bool.or_eq_true, beq_iff_eq] at h
      omega
  · rintro ⟨pre, more, rfl, rfl⟩
    exact isCharBoundary_prefix pre more

/-! ## A cut that keeps whole characters -/

/-- The longest prefix of a string within `n` bytes. -/
structure CleanCut (n : ℕ) (s cut : String) : Prop where
  is_prefix : cut.toList <+: s.toList
  short : (asBytes cut).length ≤ n
  longest : ∀ cs, cs <+: s.toList → (utf8Bytes cs).length ≤ n → cs <+: cut.toList

theorem CleanCut.own {n : ℕ} {s cut : String} (h : CleanCut n s cut) {c : Char} (hc : c ∈ cut.toList) : c ∈ s.toList :=
  h.is_prefix.subset hc

theorem cleanCut_self {n : ℕ} {s : String} (h : (asBytes s).length ≤ n) : CleanCut n s s :=
  ⟨List.prefix_rfl, h, fun _ hcs _ => hcs⟩

theorem cleanCut_at (pre more : List Char) :
    CleanCut (utf8Bytes pre).length (String.ofList (pre ++ more)) (String.ofList pre) := by
  refine ⟨?_, ?_, ?_⟩
  · rw [String.toList_ofList, String.toList_ofList]
    exact List.prefix_append pre more
  · rw [asBytes_eq, String.toList_ofList]
  · intro cs hcs hlen
    rw [String.toList_ofList] at hcs ⊢
    rcases List.prefix_or_prefix_of_prefix hcs (List.prefix_append pre more) with h | ⟨extra, rfl⟩
    · exact h
    · rw [utf8Bytes_append, List.length_append] at hlen
      cases extra with
      | nil => rw [List.append_nil]
      | cons c extra =>
        obtain ⟨x, xs, hc, -⟩ := utf8EncodeChar_shape c
        rw [utf8Bytes_cons, hc, List.length_append, List.length_cons] at hlen
        omega

/-- What the decoder makes of a string cut at byte `n`. -/
theorem cleanCut_lossy_iff (s : String) (n : ℕ) :
    CleanCut n s (fromUtf8Lossy ((asBytes s).take n)) ↔ (asBytes s).length ≤ n ∨ isCharBoundary (asBytes s) n = true := by
  by_cases hn : (asBytes s).length ≤ n
  · rw [List.take_of_length_le hn, fromUtf8Lossy_asBytes]
    exact iff_of_true (cleanCut_self hn) (.inl hn)
  · rw [or_iff_right hn, asBytes_eq, isCharBoundary_iff]
    rw [asBytes_eq] at hn
    constructor
    · intro h
      obtain ⟨pre, c, more, p, rest, hs, htake, hsplit, hrest, hlen⟩ := exists_cut s.toList n (by omega)
      cases p with
      | nil => exact ⟨pre, c :: more, hs, hlen⟩
      | cons x xs =>
        -- the cut character comes back as a U+FFFD, which is longer than what was kept of it
        exfalso
        obtain ⟨fuel, hfuel, heq⟩ := lossyChars_append pre (x :: xs) _ le_rfl
        obtain ⟨fuel, rfl⟩ : ∃ f, fuel = f + 1 := ⟨fuel - 1, by rw [List.length_cons] at hfuel; omega⟩
        have hnone := decodeChar?_cut hsplit hrest
        have hback : (fromUtf8Lossy ((utf8Bytes s.toList).take n)).toList =
            pre ++ '\uFFFD' :: lossyChars fuel ((x :: xs).drop (illFormedLength (x :: xs))) := by
          rw [htake, fromUtf8Lossy, String.toList_ofList, heq]
          simp only [lossyChars, hnone]
        have hprefix := h.is_prefix
        rw [hback, hs, List.prefix_append_right_inj, List.cons_prefix_cons] at hprefix
        obtain ⟨rfl, -⟩ := hprefix
        have hshort := h.short
        rw [asBytes_eq, hback, utf8Bytes_append, utf8Bytes_cons, List.length_append, List.length_append, hsplit,
          List.length_append] at hshort
        have := List.length_pos_iff.mpr hrest
        omega
    · rintro ⟨pre, more, hs, rfl⟩
      have hcut : fromUtf8Lossy ((utf8Bytes s.toList).take (utf8Bytes pre).length) = String.ofList pre := by
        rw [hs, utf8Bytes_append, List.take_left, fromUtf8Lossy, utf8Bytes, lossyChars_encode _ _ le_rfl]
      rw [hcut]
      have hclean := cleanCut_at pre more
      rwa [← hs, String.ofList_toList] at hclean

end Boundaries

end CockroachChat
