import CockroachChat.Foundations.Utf8

/-! # Strings cut at a byte

A string cut at a byte reads back as the characters before the cut, with one U+FFFD for a character
cut in two. -/
namespace CockroachChat
set_option autoImplicit false

def utf8Bytes (cs : List Char) : Bytes := cs.flatMap String.utf8EncodeChar

theorem utf8Bytes_nil : utf8Bytes [] = [] := rfl

theorem utf8Bytes_cons (c : Char) (cs : List Char) : utf8Bytes (c :: cs) = String.utf8EncodeChar c ++ utf8Bytes cs :=
  List.flatMap_cons ..

theorem utf8Bytes_append (cs cs' : List Char) : utf8Bytes (cs ++ cs') = utf8Bytes cs ++ utf8Bytes cs' := List.flatMap_append ..

theorem asBytes_eq (s : String) : asBytes s = utf8Bytes s.toList := asBytes_eq_flatMap s

theorem decodeChar?_head (c : Char) (rest : Bytes) : decodeChar? (String.utf8EncodeChar c ++ rest) = some c := by
  have h : ByteArray.mk (String.utf8EncodeChar c ++ rest).toArray =
      (String.utf8EncodeChar c).toByteArray ++ ByteArray.mk rest.toArray := by
    apply ByteArray.ext
    simp
  rw [decodeChar?, h, ByteArray.utf8DecodeChar?_utf8EncodeChar_append]

theorem decodeChar?_more {b : Bytes} {c : Char} (h : decodeChar? b = some c) (rest : Bytes) :
    decodeChar? (b ++ rest) = some c := by
  have happend : ByteArray.mk (b ++ rest).toArray = ByteArray.mk b.toArray ++ ByteArray.mk rest.toArray := by
    apply ByteArray.ext
    simp
  rw [decodeChar?, happend]
  exact ByteArray.utf8DecodeChar?_append_eq_some h _

/-- A character cut in two is none. -/
theorem decodeChar?_cut {c : Char} {p rest : Bytes} (hsplit : String.utf8EncodeChar c = p ++ rest) (hrest : rest ≠ []) :
    decodeChar? p = none := by
  rw [Option.eq_none_iff_forall_ne_some]
  intro c' hc'
  have hwhole := decodeChar?_more hc' rest
  have hhead := decodeChar?_head c []
  rw [List.append_nil, hsplit, hwhole] at hhead
  obtain rfl := Option.some.inj hhead
  have hsize := ByteArray.le_size_of_utf8DecodeChar?_eq_some hc'
  have hlen := congrArg List.length hsplit
  have hpos := List.length_pos_iff.mpr hrest
  rw [String.length_utf8EncodeChar, List.length_append] at hlen
  have hp : (ByteArray.mk p.toArray).size = p.length := by simp [ByteArray.size]
  rw [hp] at hsize
  omega

theorem lossyChars_append (cs : List Char) (p : Bytes) (fuel : ℕ) (h : (utf8Bytes cs ++ p).length ≤ fuel) :
    ∃ fuel', p.length ≤ fuel' ∧ lossyChars fuel (utf8Bytes cs ++ p) = cs ++ lossyChars fuel' p := by
  induction cs generalizing fuel with
  | nil => exact ⟨fuel, h, rfl⟩
  | cons c cs ih =>
    have hpos : 0 < (String.utf8EncodeChar c).length := by
      rw [String.length_utf8EncodeChar]
      exact Char.utf8Size_pos c
    rw [utf8Bytes_cons, List.append_assoc] at h ⊢
    have hd := decodeChar?_head c (utf8Bytes cs ++ p)
    rw [List.length_append] at h
    obtain ⟨fuel, rfl⟩ : ∃ f, fuel = f + 1 := ⟨fuel - 1, by omega⟩
    obtain ⟨fuel', hfuel', heq⟩ := ih fuel (by omega)
    refine ⟨fuel', hfuel', ?_⟩
    obtain ⟨x, xs, hx⟩ := List.exists_cons_of_length_pos hpos
    rw [hx, List.cons_append] at hd ⊢
    simp only [lossyChars, hd]
    rw [← List.cons_append, ← hx, List.drop_left, heq, List.cons_append]

theorem lossyChars_nil (fuel : ℕ) : lossyChars fuel [] = [] := by cases fuel <;> rfl

/-- A cut U+FFFD is one replacement character, with nothing after it. -/
theorem lossyChars_cut_replacement {x : UInt8} {xs rest : Bytes} (hrest : rest ≠ [])
    (hsplit : String.utf8EncodeChar '\uFFFD' = x :: xs ++ rest) (fuel : ℕ) :
    lossyChars fuel ((x :: xs).drop (illFormedLength (x :: xs))) = [] := by
  have hbytes : String.utf8EncodeChar '\uFFFD' = [0xEF, 0xBF, 0xBD] := by decide
  rw [hbytes] at hsplit
  have hdrop : (x :: xs).drop (illFormedLength (x :: xs)) = [] := by
    rcases xs with _ | ⟨y, _ | ⟨z, xs⟩⟩
    · rfl
    · simp only [List.cons_append, List.nil_append, List.cons.injEq] at hsplit
      obtain ⟨rfl, rfl, -⟩ := hsplit
      decide
    · cases rest with
      | nil => exact absurd rfl hrest
      | cons r rest => cases xs <;> simp at hsplit
  rw [hdrop, lossyChars_nil]

/-- A cut reads back as the whole string only where it cuts a final U+FFFD. -/
theorem lossy_cut_iff (cs more : List Char) {c : Char} {p rest : Bytes} (hsplit : String.utf8EncodeChar c = p ++ rest)
    (hrest : rest ≠ []) :
    fromUtf8Lossy (utf8Bytes cs ++ p) = String.ofList (cs ++ c :: more) ↔ p ≠ [] ∧ c = '\uFFFD' ∧ more = [] := by
  obtain ⟨fuel, hfuel, heq⟩ := lossyChars_append cs p _ le_rfl
  rw [fromUtf8Lossy, heq, String.ofList_inj, List.append_cancel_left_eq]
  cases p with
  | nil => simp [lossyChars_nil]
  | cons x xs =>
    obtain ⟨fuel, rfl⟩ : ∃ f, fuel = f + 1 := ⟨fuel - 1, by rw [List.length_cons] at hfuel; omega⟩
    have hnone := decodeChar?_cut hsplit hrest
    simp only [lossyChars, hnone, List.cons.injEq, ne_eq, reduceCtorEq, not_false_eq_true, true_and]
    constructor
    · rintro ⟨rfl, htail⟩
      exact ⟨rfl, htail.symm.trans (lossyChars_cut_replacement hrest hsplit fuel)⟩
    · rintro ⟨rfl, rfl⟩
      exact ⟨rfl, lossyChars_cut_replacement hrest hsplit fuel⟩

/-- Where a cut falls: in some character, or right before it. -/
theorem exists_cut (cs : List Char) (n : ℕ) (h : n < (utf8Bytes cs).length) :
    ∃ pre c more p rest, cs = pre ++ c :: more ∧ (utf8Bytes cs).take n = utf8Bytes pre ++ p ∧
      String.utf8EncodeChar c = p ++ rest ∧ rest ≠ [] ∧ (utf8Bytes pre).length + p.length = n := by
  induction cs generalizing n with
  | nil => cases h
  | cons c cs ih =>
    by_cases hn : n < (String.utf8EncodeChar c).length
    · refine ⟨[], c, cs, (String.utf8EncodeChar c).take n, (String.utf8EncodeChar c).drop n, rfl, ?_, ?_, ?_, ?_⟩
      · rw [utf8Bytes_cons, List.take_append_of_le_length hn.le, utf8Bytes_nil, List.nil_append]
      · rw [List.take_append_drop]
      · rw [ne_eq, List.drop_eq_nil_iff]
        omega
      · rw [List.length_take, utf8Bytes_nil, List.length_nil]
        omega
    · have hle : (String.utf8EncodeChar c).length ≤ n := Nat.le_of_not_lt hn
      rw [utf8Bytes_cons, List.length_append] at h
      obtain ⟨pre, c', more, p, rest, rfl, htake, hsplit, hrest, hlen⟩ := ih (n - (String.utf8EncodeChar c).length) (by omega)
      refine ⟨c :: pre, c', more, p, rest, rfl, ?_, hsplit, hrest, ?_⟩
      · rw [utf8Bytes_cons, List.take_append, List.take_of_length_le hle, htake, utf8Bytes_cons, List.append_assoc]
      · rw [utf8Bytes_cons, List.length_append]
        omega

/-- A string survives a cut if it ends before it, or in a U+FFFD that the cut goes through. -/
theorem lossy_take_iff (s : String) (n : ℕ) :
    fromUtf8Lossy ((asBytes s).take n) = s ↔
      (asBytes s).length ≤ n ∨ (asBytes s).length ≤ n + 2 ∧ s.toList.getLast? = some '\uFFFD' := by
  by_cases hn : (asBytes s).length ≤ n
  · rw [List.take_of_length_le hn, fromUtf8Lossy_asBytes]
    exact iff_of_true rfl (.inl hn)
  · rw [or_iff_right hn]
    have hbytes := asBytes_eq s
    obtain ⟨pre, c, more, p, rest, hs, htake, hsplit, hrest, hlen⟩ := exists_cut s.toList n (by rw [← hbytes]; omega)
    have hs' : s = String.ofList (pre ++ c :: more) := by rw [← hs, String.ofList_toList]
    have hthree : (String.utf8EncodeChar '\uFFFD').length = 3 := by decide
    have hrest' := List.length_pos_iff.mpr hrest
    have hparts := congrArg List.length hsplit
    have htotal : (asBytes s).length = (utf8Bytes pre).length + ((String.utf8EncodeChar c).length + (utf8Bytes more).length) := by
      rw [hbytes, hs, utf8Bytes_append, utf8Bytes_cons, List.length_append, List.length_append]
    rw [List.length_append] at hparts
    rw [hbytes, htake, ← hbytes, hs]
    have hcut := lossy_cut_iff pre more hsplit hrest
    rw [← hs'] at hcut
    rw [hcut]
    constructor
    · rintro ⟨hp, rfl, rfl⟩
      have hp' := List.length_pos_iff.mpr hp
      have hnil : (utf8Bytes []).length = 0 := rfl
      exact ⟨by omega, by simp⟩
    · rintro ⟨hshort, hlast⟩
      have hmore : more = [] := by
        rcases List.eq_nil_or_concat more with hnil | ⟨front, last, rfl⟩
        · exact hnil
        · have hconcat : pre ++ c :: front.concat last = (pre ++ c :: front) ++ [last] := by simp
          rw [hconcat, List.getLast?_concat] at hlast
          obtain rfl := Option.some.inj hlast
          have hend : (utf8Bytes (front.concat '\uFFFD')).length = (utf8Bytes front).length + 3 := by
            rw [List.concat_eq_append, utf8Bytes_append, List.length_append, utf8Bytes_cons, utf8Bytes_nil, List.append_nil, hthree]
          omega
      subst hmore
      have hc : c = '\uFFFD' := by simpa using hlast
      subst hc
      have hnil : (utf8Bytes []).length = 0 := rfl
      refine ⟨?_, rfl, rfl⟩
      rintro rfl
      rw [List.length_nil] at hlen hparts
      omega

end CockroachChat
