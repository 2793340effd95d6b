import CockroachChat.Foundations.Bytes

/-! # Strings and their UTF-8 bytes

`asBytes` is `str::as_bytes`; `fromUtf8Lossy` is `String::from_utf8_lossy`, which decodes one
character at a time and puts one U+FFFD in place of each maximal ill-formed piece. On the bytes of
a string it is the identity. -/
namespace CockroachChat
set_option autoImplicit false

def asBytes (s : String) : Bytes := s.toByteArray.data.toList

def decodeChar? (b : Bytes) : Option Char := (ByteArray.mk b.toArray).utf8DecodeChar? 0

/-- A second byte that may follow the first byte `w` of a three- or four-byte sequence. -/
def secondOk (w x : UInt8) : Bool :=
  (w == 0xE0 && 0xA0 ≤ x && x ≤ 0xBF) || (0xE1 ≤ w && w ≤ 0xEC && 0x80 ≤ x && x ≤ 0xBF) ||
  (w == 0xED && 0x80 ≤ x && x ≤ 0x9F) || (0xEE ≤ w && w ≤ 0xEF && 0x80 ≤ x && x ≤ 0xBF) ||
  (w == 0xF0 && 0x90 ≤ x && x ≤ 0xBF) || (0xF1 ≤ w && w ≤ 0xF3 && 0x80 ≤ x && x ≤ 0xBF) ||
  (w == 0xF4 && 0x80 ≤ x && x ≤ 0x8F)

/-- How many bytes one replacement character stands for at the head of an ill-formed slice. -/
def illFormedLength : Bytes → ℕ
  | w :: x :: y :: _ =>
      if secondOk w x then
        if 0xF0 ≤ w && 0x80 ≤ y && y ≤ 0xBF then 3 else 2
      else 1
  | w :: x :: [] => if secondOk w x then 2 else 1
  | _ => 1

def lossyChars : ℕ → Bytes → List Char
  | 0, _ => []
  | _, [] => []
  | fuel + 1, b@(_ :: _) =>
      match decodeChar? b with
      | some c => c :: lossyChars fuel (b.drop (String.utf8EncodeChar c).length)
      | none => '\uFFFD' :: lossyChars fuel (b.drop (illFormedLength b))

def fromUtf8Lossy (b : Bytes) : String := String.ofList (lossyChars b.length b)

theorem decodeChar?_encode (c : Char) (rest : List Char) :
    decodeChar? ((c :: rest).flatMap String.utf8EncodeChar) = some c := by
  have h : ByteArray.mk ((c :: rest).flatMap String.utf8EncodeChar).toArray = (c :: rest).utf8Encode := by
    apply ByteArray.ext
    simp [List.utf8Encode]
  rw [decodeChar?, h, List.utf8DecodeChar?_utf8Encode_cons]

theorem lossyChars_encode (cs : List Char) (fuel : ℕ)
    (h : (cs.flatMap String.utf8EncodeChar).length ≤ fuel) :
    lossyChars fuel (cs.flatMap String.utf8EncodeChar) = cs := by
  induction cs generalizing fuel with
  | nil => cases fuel <;> rfl
  | cons c cs ih =>
    have hpos : 0 < (String.utf8EncodeChar c).length := by
      rw [String.length_utf8EncodeChar]
      exact Char.utf8Size_pos c
    rw [List.flatMap_cons, List.length_append] at h
    obtain ⟨fuel, rfl⟩ : ∃ f, fuel = f + 1 := ⟨fuel - 1, by omega⟩
    have hd := decodeChar?_encode c cs
    rw [List.flatMap_cons] at hd ⊢
    obtain ⟨x, xs, hx⟩ := List.exists_cons_of_length_pos hpos
    rw [hx, List.cons_append] at hd ⊢
    simp only [lossyChars, hd]
    rw [← List.cons_append, ← hx, List.drop_left, ih fuel (by omega)]

theorem asBytes_eq_flatMap (s : String) : asBytes s = s.toList.flatMap String.utf8EncodeChar := by
  have h : s.toByteArray = s.toList.utf8Encode := by
    rw [← String.toByteArray_ofList, String.ofList_toList]
  rw [asBytes, h]
  simp [List.utf8Encode]

@[simp] theorem fromUtf8Lossy_asBytes (s : String) : fromUtf8Lossy (asBytes s) = s := by
  rw [fromUtf8Lossy, asBytes_eq_flatMap, lossyChars_encode _ _ le_rfl, String.ofList_toList]

end CockroachChat
