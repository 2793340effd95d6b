import Mathlib

/-! # Byte strings

Fixed-size byte arrays are `Vector UInt8 n`, byte slices are lists. The two directions between
them are `Vector.toList` and `arrayOf`, which is `copy_from_slice` on a slice that is long enough.
Unsigned integers travel big-endian: `beBytes n x` is the last `n` base-256 digits of `x`. -/
namespace CockroachChat
set_option autoImplicit false

abbrev Bytes := List UInt8

/-- The first `n` bytes of a slice as an array, filled up with zeros. -/
def arrayOf (n : ℕ) (b : Bytes) : Vector UInt8 n :=
  ⟨(b.take n ++ List.replicate (n - b.length) 0).toArray, by simp; omega⟩

theorem toList_arrayOf {n : ℕ} (b : Bytes) (h : n ≤ b.length) : (arrayOf n b).toList = b.take n := by
  have hzero : n - b.length = 0 := by omega
  simp [arrayOf, Vector.toList, hzero]

@[simp] theorem arrayOf_toList_append {n : ℕ} (v : Vector UInt8 n) (rest : Bytes) :
    arrayOf n (v.toList ++ rest) = v := by
  have hlen : v.toList.length = n := by simp
  apply Vector.toList_inj.mp
  rw [toList_arrayOf _ (by simp), List.take_left' hlen]

@[simp] theorem arrayOf_toList {n : ℕ} (v : Vector UInt8 n) : arrayOf n v.toList = v := by
  simpa using arrayOf_toList_append v []

/-! ## Comparing

Arrays are compared byte by byte, as the lists of their bytes. -/

section Compare
variable {n : ℕ}

instance decidableEqArray : DecidableEq (Vector UInt8 n) := fun v w => decidable_of_iff (v.toList = w.toList) Vector.toList_inj

instance ordArray : Ord (Vector UInt8 n) := ⟨fun v w => compare v.toList w.toList⟩

instance transOrdArray : Std.TransOrd (Vector UInt8 n) where
  eq_swap {v w} := (Std.OrientedCmp.eq_swap : compare v.toList w.toList = (compare w.toList v.toList).swap)
  isLE_trans {u _ w} h₁ h₂ := (Std.TransCmp.isLE_trans h₁ h₂ : (compare u.toList w.toList).isLE = true)

instance lawfulEqOrdArray : Std.LawfulEqOrd (Vector UInt8 n) where
  compare_self := by
    intro v
    exact (Std.ReflCmp.compare_self : compare v.toList v.toList = .eq)
  eq_of_compare {v w} h := by
    have hlist : compare v.toList w.toList = .eq := h
    exact Vector.toList_inj.mp (Std.LawfulEqCmp.eq_of_compare hlist)

end Compare

/-! ## Big-endian integers -/

def beBytes : ℕ → ℕ → Bytes
  | 0, _ => []
  | n + 1, x => beBytes n (x / 256) ++ [UInt8.ofNat (x % 256)]

def ofBe (b : Bytes) : ℕ := b.foldl (fun acc x => acc * 256 + x.toNat) 0

@[simp] theorem beBytes_length (n x : ℕ) : (beBytes n x).length = n := by
  induction n generalizing x with
  | zero => rfl
  | succ n ih => simp [beBytes, ih]

theorem ofBe_snoc (b : Bytes) (x : UInt8) : ofBe (b ++ [x]) = ofBe b * 256 + x.toNat := by
  simp [ofBe]

theorem ofBe_beBytes (n x : ℕ) : ofBe (beBytes n x) = x % 256 ^ n := by
  induction n generalizing x with
  | zero => simp [beBytes, ofBe, Nat.mod_one]
  | succ n ih =>
    have hbyte : (UInt8.ofNat (x % 256)).toNat = x % 256 := by simp
    rw [beBytes, ofBe_snoc, ih, hbyte, pow_succ, Nat.mul_comm (256 ^ n) 256, Nat.mod_mul]
    omega

theorem ofBe_beBytes_of_lt {n x : ℕ} (h : x < 256 ^ n) : ofBe (beBytes n x) = x := by
  rw [ofBe_beBytes, Nat.mod_eq_of_lt h]

theorem ofBe_lt (b : Bytes) : ofBe b < 256 ^ b.length := by
  induction b using List.reverseRecOn with
  | nil => simp [ofBe]
  | append_singleton b x ih =>
    have hx : x.toNat < 256 := x.toNat_lt
    rw [ofBe_snoc, List.length_append, List.length_singleton, pow_succ]
    omega

theorem beBytes_ofBe (b : Bytes) : beBytes b.length (ofBe b) = b := by
  induction b using List.reverseRecOn with
  | nil => rfl
  | append_singleton b x ih =>
    have hx : x.toNat < 256 := x.toNat_lt
    rw [List.length_append, List.length_singleton, beBytes, ofBe_snoc]
    rw [show (ofBe b * 256 + x.toNat) / 256 = ofBe b by omega, ih,
      show (ofBe b * 256 + x.toNat) % 256 = x.toNat by omega, UInt8.ofNat_toNat]

end CockroachChat
