import CockroachChat.Foundations.Slices
import CockroachChat.Core.Prims

/-! # Fingerprints as text

The interface to the platform names a peer by 64 hexadecimal digits. `hex` writes them, and
`decodeHex32` reads them, two bytes of the string at a time. -/
namespace CockroachChat
set_option autoImplicit false

/-! ## Writing -/

def hex (bytes : Bytes) : String :=
  String.ofList (bytes.flatMap fun b => [Nat.digitChar (b.toNat / 16), Nat.digitChar (b.toNat % 16)])

theorem toList_hex_cons (x : UInt8) (b : Bytes) :
    (hex (x :: b)).toList = Nat.digitChar (x.toNat / 16) :: Nat.digitChar (x.toNat % 16) :: (hex b).toList := by
  rw [hex, hex, String.toList_ofList, String.toList_ofList, List.flatMap_cons]
  rfl

/-! ## Reading -/

/-- `to_digit(16)` of an ASCII character. -/
def toDigit16 (x : UInt8) : Option ℕ :=
  if 0x30 ≤ x ∧ x ≤ 0x39 then some (x.toNat - 0x30)
  else if 0x61 ≤ x ∧ x ≤ 0x66 then some (x.toNat - 0x61 + 10)
  else if 0x41 ≤ x ∧ x ≤ 0x46 then some (x.toNat - 0x41 + 10)
  else none

/-- `u8::from_str_radix(_, 16)`: a plus sign in front of the digits is skipped. -/
def fromStrRadix16 (b : Bytes) : Option UInt8 :=
  let digits := if b.head? = some 0x2B then b.tail else b
  if digits = [] then none
  else
    (digits.foldlM
      (fun n x => do
        let d ← toDigit16 x
        if n * 16 + d < 256 then some (n * 16 + d) else none)
      0).map UInt8.ofNat

/-- The loop of `decode_hex32` from byte `i` of the result on, with `n` bytes to go. -/
def decodePairs (b : Bytes) (i : ℕ) : ℕ → Except Panic (Option Bytes)
  | 0 => .ok (some [])
  | n + 1 => do
      match fromStrRadix16 (← sliceStr b (i * 2) (i * 2 + 2)) with
      | none => .ok none
      | some byte => do
          let rest ← decodePairs b (i + 1) n
          .ok (rest.map (byte :: ·))

def decodeHex32 (s : String) : Except Panic (Option Fingerprint) :=
  if (asBytes s).length ≠ 64 then .ok none
  else do
    let out ← decodePairs (asBytes s) 0 32
    .ok (out.map (arrayOf 32))

/-! ## Digits -/

def isHexDigit (c : Char) : Bool := c.isDigit || ('a' ≤ c && c ≤ 'f') || ('A' ≤ c && c ≤ 'F')

theorem toDigit16_bounds : ∀ n < 256, ∀ d ∈ toDigit16 (UInt8.ofNat n), d < 16 ∧ n < 128 := by
  decide +kernel

theorem toDigit16_lt {x : UInt8} {d : ℕ} (h : toDigit16 x = some d) : d < 16 := by
  rw [← UInt8.ofNat_toNat (x := x)] at h
  exact (toDigit16_bounds _ x.toNat_lt _ h).1

theorem isContinuation_digit {x : UInt8} {d : ℕ} (h : toDigit16 x = some d) : isContinuation x = false := by
  rw [← UInt8.ofNat_toNat (x := x)] at h ⊢
  rw [isContinuation_ofNat x.toNat_lt, Bool.and_eq_false_iff, decide_eq_false_iff_not]
  have := (toDigit16_bounds _ x.toNat_lt _ h).2
  omega

/-- What the parser makes of two bytes. -/
theorem fromStrRadix16_pair (x y : UInt8) :
    fromStrRadix16 [x, y] =
      if x = 0x2B then (toDigit16 y).map UInt8.ofNat
      else (toDigit16 x).bind fun a => (toDigit16 y).map fun d => UInt8.ofNat (a * 16 + d) := by
  by_cases hx : x = 0x2B
  · subst hx
    rw [if_pos rfl]
    cases hy : toDigit16 y with
    | none => simp [fromStrRadix16, hy]
    | some d =>
      have hd := toDigit16_lt hy
      have hfit : d < 256 := by omega
      simp [fromStrRadix16, hy, hfit]
  · rw [if_neg hx]
    cases ha : toDigit16 x with
    | none => simp [fromStrRadix16, hx, ha]
    | some a =>
      have ha' := toDigit16_lt ha
      have hfit : a < 256 := by omega
      cases hy : toDigit16 y with
      | none => simp [fromStrRadix16, hx, ha, hy, hfit]
      | some d =>
        have hd := toDigit16_lt hy
        have hfit' : a * 16 + d < 256 := by omega
        simp [fromStrRadix16, hx, ha, hy, hfit, hfit']

/-- A digit as a byte, and what is written for its value. -/
theorem digit_facts : ∀ n < 128, isHexDigit (Char.ofNat n) = true →
    ∃ d < 16, toDigit16 (UInt8.ofNat n) = some d ∧ Nat.digitChar d = (Char.ofNat n).toLower := by
  decide +kernel

theorem digitChar_digit : ∀ d < 16, isHexDigit (Nat.digitChar d) = true ∧ (Nat.digitChar d).toLower = Nat.digitChar d := by
  decide +kernel

theorem digitChar_inj : ∀ a < 16, ∀ d < 16, Nat.digitChar a = Nat.digitChar d → a = d := by
  decide +kernel

/-! ## One pair of bytes -/

def pair (b : Bytes) (i : ℕ) : Bytes := (b.drop (i * 2)).take 2

/-- Two digits, or a plus sign and a digit. -/
def readsAsByte : Bytes → Bool
  | [x, y] => (x == 0x2B || (toDigit16 x).isSome) && (toDigit16 y).isSome
  | _ => false

theorem isSome_fromStrRadix16 (x y : UInt8) : (fromStrRadix16 [x, y]).isSome = readsAsByte [x, y] := by
  rw [fromStrRadix16_pair, readsAsByte]
  by_cases hx : x = 0x2B
  · rw [if_pos hx, Option.isSome_map, hx]
    rfl
  · rw [if_neg hx, beq_eq_false_iff_ne.mpr hx, Bool.false_or]
    cases toDigit16 x with
    | none => rfl
    | some a => rw [Option.bind_some, Option.isSome_map, Option.isSome_some, Bool.true_and]

theorem readsAsByte_cases {p : Bytes} (h : readsAsByte p = true) :
    ∃ x y, p = [x, y] ∧ isContinuation x = false ∧ isContinuation y = false := by
  match p, h with
  | [x, y], h =>
    rw [readsAsByte, Bool.and_eq_true, Bool.or_eq_true, beq_iff_eq, Option.isSome_iff_exists, Option.isSome_iff_exists] at h
    obtain ⟨hx, d, hy⟩ := h
    refine ⟨x, y, rfl, ?_, isContinuation_digit hy⟩
    rcases hx with rfl | ⟨a, ha⟩
    · decide
    · exact isContinuation_digit ha

theorem pair_get {b : Bytes} {i : ℕ} {x y : UInt8} (h : pair b i = [x, y]) : b[i * 2]? = some x := by
  have hget : (pair b i)[0]? = some x := by rw [h]; rfl
  rwa [pair, List.getElem?_take_of_lt (by omega), List.getElem?_drop, Nat.add_zero] at hget

theorem pair_of_le {b : Bytes} {i : ℕ} (h : i * 2 + 2 ≤ b.length) : ∃ x y, pair b i = [x, y] := by
  have hlen : (pair b i).length = 2 := by
    rw [pair, List.length_take, List.length_drop]
    omega
  exact List.length_eq_two.mp hlen

theorem sliceStr_pair {b : Bytes} {i : ℕ} (hstart : isCharBoundary b (i * 2) = true)
    (hend : isCharBoundary b (i * 2 + 2) = true) : sliceStr b (i * 2) (i * 2 + 2) = .ok (pair b i) := by
  rw [sliceStr, if_pos ⟨by omega, hstart, hend⟩, Nat.add_sub_cancel_left, pair]

/-! ## The whole string -/

/-- The first pair that is no number, the string not being cut inside a character there. -/
structure RefusedAt (b : Bytes) (k : ℕ) : Prop where
  before : ∀ j < k, readsAsByte (pair b j) = true
  starts : isCharBoundary b (k * 2) = true
  ends : isCharBoundary b (k * 2 + 2) = true
  refused : readsAsByte (pair b k) = false

theorem RefusedAt.boundary {b : Bytes} {k : ℕ} (h : RefusedAt b k) {j : ℕ} (hj : j ≤ k) : isCharBoundary b (j * 2) = true := by
  rcases Nat.lt_or_eq_of_le hj with hlt | rfl
  · obtain ⟨x, y, hp, hx, -⟩ := readsAsByte_cases (h.before j hlt)
    exact isCharBoundary_of_get (pair_get hp) hx
  · exact h.starts

theorem decodePairs_refused {b : Bytes} {k : ℕ} (h : RefusedAt b k) (hk : k * 2 + 2 ≤ b.length) (m : ℕ) :
    ∀ i n, i + m = k → m < n → decodePairs b i n = .ok none := by
  induction m with
  | zero =>
    intro i n hi hn
    obtain ⟨n, rfl⟩ : ∃ n', n = n' + 1 := ⟨n - 1, by omega⟩
    obtain rfl : i = k := hi
    obtain ⟨x, y, hp⟩ := pair_of_le hk
    have hnone : fromStrRadix16 (pair b i) = none := by
      have hr := h.refused
      rw [hp, ← isSome_fromStrRadix16] at hr
      rw [hp]
      exact Option.isSome_eq_false_iff.mp hr |> Option.isNone_iff_eq_none.mp
    rw [decodePairs, sliceStr_pair h.starts h.ends]
    show (match fromStrRadix16 (pair b i) with | none => _ | some byte => _) = _
    rw [hnone]
  | succ m ih =>
    intro i n hi hn
    obtain ⟨n, rfl⟩ : ∃ n', n = n' + 1 := ⟨n - 1, by omega⟩
    have hread := h.before i (by omega)
    obtain ⟨x, y, hp, -, -⟩ := readsAsByte_cases hread
    have hsome : (fromStrRadix16 (pair b i)).isSome = true := by rw [hp, isSome_fromStrRadix16, ← hp, hread]
    obtain ⟨byte, hbyte⟩ := Option.isSome_iff_exists.mp hsome
    have hend := h.boundary (show i + 1 ≤ k by omega)
    rw [Nat.succ_mul] at hend
    rw [decodePairs, sliceStr_pair (h.boundary (by omega)) hend]
    show (match fromStrRadix16 (pair b i) with | none => _ | some byte => _) = _
    rw [hbyte, ih (i + 1) n (by omega) (by omega)]
    rfl

/-- A string that is refused has such a pair. -/
theorem refusedAt_of_none {b : Bytes} (n : ℕ) :
    ∀ i, (i + n) * 2 ≤ b.length → (∀ j < i, readsAsByte (pair b j) = true) → decodePairs b i n = .ok none →
      ∃ k < i + n, RefusedAt b k := by
  induction n with
  | zero =>
    intro i _ _ h
    cases h
  | succ n ih =>
    intro i hlen hbefore h
    by_cases hcut : isCharBoundary b (i * 2) = true ∧ isCharBoundary b (i * 2 + 2) = true
    · obtain ⟨x, y, hp⟩ := pair_of_le (b := b) (i := i) (by omega)
      rw [decodePairs, sliceStr_pair hcut.1 hcut.2] at h
      change (match fromStrRadix16 (pair b i) with | none => _ | some byte => _) = _ at h
      have hread : (fromStrRadix16 (pair b i)).isSome = readsAsByte (pair b i) := by rw [hp, isSome_fromStrRadix16]
      cases hbyte : fromStrRadix16 (pair b i) with
      | none =>
        rw [hbyte, Option.isSome_none] at hread
        exact ⟨i, by omega, hbefore, hcut.1, hcut.2, hread.symm⟩
      | some byte =>
        rw [hbyte, Option.isSome_some] at hread
        rw [hbyte] at h
        change (decodePairs b (i + 1) n >>= fun rest => .ok (rest.map (byte :: ·))) = _ at h
        cases hrest : decodePairs b (i + 1) n with
        | error e =>
          rw [hrest] at h
          cases h
        | ok rest =>
          rw [hrest] at h
          cases rest with
          | some rest => cases h
          | none =>
            obtain ⟨k, hk, hr⟩ := ih (i + 1) (by omega) (fun j hj => by
              rcases Nat.lt_or_eq_of_le (Nat.lt_succ_iff.mp hj) with hlt | rfl
              · exact hbefore j hlt
              · exact hread.symm) hrest
            exact ⟨k, by omega, hr⟩
    · rw [decodePairs, sliceStr, if_neg (fun h => hcut h.2)] at h
      cases h

/-! ## Well-formed fingerprints -/

def IsFingerprint (s : String) : Prop := s.toList.length = 64 ∧ ∀ c ∈ s.toList, isHexDigit c = true

instance (s : String) : Decidable (IsFingerprint s) := inferInstanceAs (Decidable (_ ∧ _))

theorem isHexDigit_ascii {c : Char} (h : isHexDigit c = true) : c.toNat < 128 := by
  simp only [isHexDigit, Char.isDigit, Bool.or_eq_true, Bool.and_eq_true, decide_eq_true_eq, Char.le_def,
    UInt32.le_iff_toNat_le, ge_iff_le] at h
  have h9 : ('9').val.toNat = 57 := rfl
  have hf : ('f').val.toNat = 102 := rfl
  have hF : ('F').val.toNat = 70 := rfl
  have hc : c.toNat = c.val.toNat := rfl
  omega

theorem digit_byte {c : Char} (h : isHexDigit c = true) :
    String.utf8EncodeChar c = [UInt8.ofNat c.toNat] ∧
      ∃ d < 16, toDigit16 (UInt8.ofNat c.toNat) = some d ∧ Nat.digitChar d = c.toLower := by
  have hc := isHexDigit_ascii h
  constructor
  · rw [String.utf8EncodeChar]
    exact if_pos (Nat.le_of_lt_succ hc)
  · have hfacts := digit_facts c.toNat hc
    rw [Char.ofNat_toNat] at hfacts
    exact hfacts h

theorem utf8Bytes_digits (cs : List Char) (h : ∀ c ∈ cs, isHexDigit c = true) :
    utf8Bytes cs = cs.map fun c => UInt8.ofNat c.toNat := by
  induction cs with
  | nil => rfl
  | cons c cs ih =>
    rw [List.forall_mem_cons] at h
    rw [utf8Bytes_cons, (digit_byte h.1).1, ih h.2, List.map_cons, List.singleton_append]

theorem isCharBoundary_digits {cs : List Char} (h : ∀ c ∈ cs, isHexDigit c = true) {i : ℕ} (hi : i ≤ cs.length) :
    isCharBoundary (utf8Bytes cs) i = true := by
  rw [isCharBoundary_iff]
  have htake : (utf8Bytes (cs.take i)).length = i := by
    rw [utf8Bytes_digits _ (fun c hc => h c (List.mem_of_mem_take hc)), List.length_map, List.length_take]
    omega
  exact ⟨cs.take i, cs.drop i, (List.take_append_drop i cs).symm, htake⟩

/-- Digits read back as the bytes they write. -/
theorem decodePairs_digits {cs : List Char} (h : ∀ c ∈ cs, isHexDigit c = true) (n : ℕ) :
    ∀ i, cs.length = (i + n) * 2 →
      ∃ out, decodePairs (utf8Bytes cs) i n = .ok (some out) ∧ out.length = n ∧
        (hex out).toList = (cs.drop (i * 2)).map Char.toLower := by
  induction n with
  | zero =>
    intro i hlen
    refine ⟨[], rfl, rfl, ?_⟩
    rw [List.drop_eq_nil_of_le (by omega)]
    rfl
  | succ n ih =>
    intro i hlen
    obtain ⟨out, hout, hcount, hdigits⟩ := ih (i + 1) (by omega)
    have hdrop : cs.drop (i * 2) = cs[i * 2] :: cs[i * 2 + 1] :: cs.drop ((i + 1) * 2) := by
      rw [List.drop_eq_getElem_cons (by omega), List.drop_eq_getElem_cons (by omega), Nat.succ_mul]
    obtain ⟨-, a, ha, hx, hax⟩ := digit_byte (h _ (List.getElem_mem (show i * 2 < cs.length by omega)))
    obtain ⟨-, d, hd, hy, hdy⟩ := digit_byte (h _ (List.getElem_mem (show i * 2 + 1 < cs.length by omega)))
    have hpair : pair (utf8Bytes cs) i = [UInt8.ofNat (cs[i * 2]).toNat, UInt8.ofNat (cs[i * 2 + 1]).toNat] := by
      rw [pair, utf8Bytes_digits cs h, ← List.map_drop, hdrop]
      rfl
    have hbyte : fromStrRadix16 (pair (utf8Bytes cs) i) = some (UInt8.ofNat (a * 16 + d)) := by
      have hplus : UInt8.ofNat (cs[i * 2]).toNat ≠ 0x2B := by
        intro heq
        rw [heq] at hx
        cases hx
      rw [hpair, fromStrRadix16_pair, if_neg hplus, hx, hy]
      rfl
    refine ⟨UInt8.ofNat (a * 16 + d) :: out, ?_, by rw [List.length_cons, hcount], ?_⟩
    · rw [decodePairs, sliceStr_pair (isCharBoundary_digits h (by omega)) (isCharBoundary_digits h (by omega))]
      show (match fromStrRadix16 (pair (utf8Bytes cs) i) with | none => _ | some byte => _) = _
      rw [hbyte, hout]
      rfl
    · have hvalue : (UInt8.ofNat (a * 16 + d)).toNat = a * 16 + d := by
        rw [UInt8.toNat_ofNat']
        omega
      have hhigh : (a * 16 + d) / 16 = a := by omega
      have hlow : (a * 16 + d) % 16 = d := by omega
      rw [toList_hex_cons, hvalue, hhigh, hlow, hdigits, hdrop, List.map_cons, List.map_cons, hax, hdy]

theorem hex_digits (b : Bytes) : ∀ c ∈ (hex b).toList, isHexDigit c = true ∧ c.toLower = c := by
  induction b with
  | nil =>
    intro c hc
    cases hc
  | cons x b ih =>
    have hx := x.toNat_lt
    rw [toList_hex_cons, List.forall_mem_cons, List.forall_mem_cons]
    exact ⟨digitChar_digit _ (by omega), digitChar_digit _ (by omega), ih⟩

theorem hex_length (b : Bytes) : (hex b).toList.length = b.length * 2 := by
  induction b with
  | nil => rfl
  | cons x b ih =>
    rw [toList_hex_cons, List.length_cons, List.length_cons, ih, List.length_cons]
    omega

theorem hex_injective {b b' : Bytes} (h : (hex b).toList = (hex b').toList) : b = b' := by
  induction b generalizing b' with
  | nil =>
    cases b' with
    | nil => rfl
    | cons x' b' =>
      rw [toList_hex_cons] at h
      cases h
  | cons x b ih =>
    cases b' with
    | nil =>
      rw [toList_hex_cons] at h
      cases h
    | cons x' b' =>
      have hx := x.toNat_lt
      have hx' := x'.toNat_lt
      rw [toList_hex_cons, toList_hex_cons, List.cons.injEq, List.cons.injEq] at h
      obtain ⟨hhigh, hlow, hrest⟩ := h
      have hhigh := digitChar_inj _ (by omega) _ (by omega) hhigh
      have hlow := digitChar_inj _ (by omega) _ (by omega) hlow
      have hbyte : x = x' := UInt8.toNat_inj.mp (by omega)
      rw [hbyte, ih hrest]

theorem toLower_hex (b : Bytes) : (hex b).toLower = hex b := by
  apply String.toList_inj.mp
  rw [String.toLower, String.toList_map]
  exact (List.map_congr_left fun c hc => (hex_digits b c hc).2).trans (List.map_id _)

/-! ## What is read -/

theorem asBytes_length_of_fingerprint {s : String} (h : IsFingerprint s) : (asBytes s).length = 64 := by
  rw [asBytes_eq, utf8Bytes_digits _ h.2, List.length_map, h.1]

theorem decodeHex32_fingerprint {s : String} (h : IsFingerprint s) :
    ∃ fp, decodeHex32 s = .ok (some fp) ∧ hex fp.toList = s.toLower := by
  have hlen := asBytes_length_of_fingerprint h
  obtain ⟨out, hout, hcount, hdigits⟩ := decodePairs_digits h.2 32 0 h.1
  refine ⟨arrayOf 32 out, ?_, ?_⟩
  · rw [decodeHex32, if_neg (not_not.mpr hlen), asBytes_eq, hout]
    rfl
  · apply String.toList_inj.mp
    rw [toList_arrayOf _ (by omega), List.take_of_length_le (by omega), hdigits, String.toLower, String.toList_map]
    rfl

theorem decodeHex32_hex (fp : Fingerprint) : decodeHex32 (hex fp.toList) = .ok (some fp) := by
  have hwell : IsFingerprint (hex fp.toList) := by
    refine ⟨?_, fun c hc => (hex_digits _ c hc).1⟩
    rw [hex_length, Vector.length_toList]
  obtain ⟨fp', hdec, hback⟩ := decodeHex32_fingerprint hwell
  rw [toLower_hex] at hback
  rw [hdec, Vector.toList_inj.mp (hex_injective (congrArg String.toList hback))]

theorem decodeHex32_none_iff (s : String) :
    decodeHex32 s = .ok none ↔ (asBytes s).length ≠ 64 ∨ ∃ k < 32, RefusedAt (asBytes s) k := by
  by_cases hlen : (asBytes s).length = 64
  · rw [or_iff_right (not_not.mpr hlen), decodeHex32, if_neg (not_not.mpr hlen)]
    constructor
    · intro h
      cases hout : decodePairs (asBytes s) 0 32 with
      | error e =>
        rw [hout] at h
        cases h
      | ok out =>
        rw [hout] at h
        cases out with
        | some out => cases h
        | none =>
          obtain ⟨k, hk, hr⟩ := refusedAt_of_none 32 0 (by omega) (fun j hj => absurd hj (Nat.not_lt_zero j)) hout
          exact ⟨k, by omega, hr⟩
    · rintro ⟨k, hk, hr⟩
      rw [decodePairs_refused hr (by omega) k 0 32 (Nat.zero_add k) hk]
      rfl
  · rw [decodeHex32, if_pos hlen]
    exact iff_of_true rfl (.inl hlen)

end CockroachChat
