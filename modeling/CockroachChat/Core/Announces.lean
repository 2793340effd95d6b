import CockroachChat.Core.WireFormat
import CockroachChat.Foundations.Slices

/-! # Nicknames in announces

The encoder cuts a nickname at byte 24, and the decoder repairs what it was left with. -/
namespace CockroachChat
set_option autoImplicit false

/-- `decode_announce` with every index and slice checked. -/
def decodeAnnounceSliced (payload : Bytes) : Except Panic (Option (Key32 × Key32 × String)) := do
  if payload.length < 65 then return none
  let ed ← copyFromSlice 32 (← slice payload 0 32)
  let dh ← copyFromSlice 32 (← slice payload 32 64)
  let n := (← index payload 64).toNat
  if 65 + n > payload.length then return none
  let nick := fromUtf8Lossy (← slice payload 65 (65 + n))
  return some (ed, dh, nick)

theorem copyFromSlice_take {n : ℕ} {b : Bytes} (h : n ≤ b.length) : copyFromSlice n (b.take n) = .ok (arrayOf n b) := by
  have hlen : (b.take n).length = n := by
    rw [List.length_take]
    omega
  rw [copyFromSlice, if_pos hlen]
  congr 1
  apply Vector.toList_inj.mp
  rw [toList_arrayOf _ hlen.ge, toList_arrayOf _ h, List.take_take, Nat.min_self]

/-- Decoding an announce never panics. -/
theorem decodeAnnounceSliced_ok (payload : Bytes) : decodeAnnounceSliced payload = .ok (decodeAnnounce payload) := by
  unfold decodeAnnounceSliced decodeAnnounce
  by_cases hshort : payload.length < 65
  · rw [if_pos hshort, if_pos hshort]
    rfl
  · have hed := copyFromSlice_take (n := 32) (b := payload) (by omega)
    have hdh := copyFromSlice_take (n := 32) (b := payload.drop 32) (by rw [List.length_drop]; omega)
    rw [if_neg hshort, if_neg hshort, slice_ok (by omega) (by omega), slice_ok (by omega) (by omega), index_ok (by omega)]
    simp only [List.drop_zero, Nat.reduceSub, hed, hdh, bind, Except.bind, pure, Except.pure]
    by_cases hnick : 65 + (payload.getD 64 0).toNat > payload.length
    · rw [if_pos hnick, if_pos hnick]
    · rw [if_neg hnick, if_neg hnick, slice_ok (by omega) (by omega), Nat.add_sub_cancel_left]

/-- The keys come back always, and the nickname as its longest prefix of at most 24 bytes exactly if
it ends before byte 24 or a character begins there. -/
theorem announce_nickname (ed dh : Key32) (nick : String) :
    (∀ payload, decodeAnnounceSliced payload = .ok (decodeAnnounce payload)) ∧
      (∃ nick', decodeAnnounce (encodeAnnounce ed dh nick) = some (ed, dh, nick')) ∧
        ((∃ nick', decodeAnnounce (encodeAnnounce ed dh nick) = some (ed, dh, nick') ∧
            CleanCut 24 nick nick' ∧ ∀ c ∈ nick'.toList, c ∈ nick.toList) ↔
          (asBytes nick).length ≤ 24 ∨ isCharBoundary (asBytes nick) 24 = true) := by
  refine ⟨decodeAnnounceSliced_ok, decodeAnnounce_encodeAnnounce ed dh nick, ?_⟩
  rw [← cleanCut_lossy_iff]
  constructor
  · rintro ⟨nick', hdec, hclean, -⟩
    rw [decodeAnnounce_nick] at hdec
    cases hdec
    exact hclean
  · intro hclean
    exact ⟨_, decodeAnnounce_nick ed dh nick, hclean, fun c hc => hclean.own hc⟩

/-- A name of nine characters whose last letter, of three bytes, lies across the cut. -/
theorem hindi_name_cut :
    let key : Key32 := Vector.replicate 32 0
    let nick := String.ofList ('a' :: List.replicate 8 'अ')
    let back := String.ofList ('a' :: List.replicate 7 'अ' ++ ['\uFFFD'])
    nick.toList.length = 9 ∧ decodeAnnounce (encodeAnnounce key key nick) = some (key, key, back) ∧
      '\uFFFD' ∈ back.toList ∧ '\uFFFD' ∉ nick.toList ∧
      ¬ ∃ nick', decodeAnnounce (encodeAnnounce key key nick) = some (key, key, nick') ∧ CleanCut 24 nick nick' := by
  intro key nick back
  have hdec : decodeAnnounce (encodeAnnounce key key nick) = some (key, key, back) := by
    have hcut : fromUtf8Lossy ((asBytes nick).take 24) = back := by decide +kernel
    rw [decodeAnnounce_nick, hcut]
  have hback : '\uFFFD' ∈ back.toList := by
    rw [String.toList_ofList]
    decide
  have hnick : '\uFFFD' ∉ nick.toList := by
    rw [String.toList_ofList]
    decide
  refine ⟨?_, hdec, hback, hnick, ?_⟩
  · rw [String.toList_ofList]
    rfl
  · rintro ⟨nick', hdec', hclean⟩
    rw [hdec] at hdec'
    cases hdec'
    exact hnick (hclean.own hback)

end CockroachChat
