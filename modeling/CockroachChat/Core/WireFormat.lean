import CockroachChat.Core.Payloads

/-! # What the wire formats preserve

The signed region determines a packet's type and payload, a packet survives its encoding, and an
announce keeps its two keys. -/
namespace CockroachChat
set_option autoImplicit false

/-! ## The recipient bit -/

theorem byte_or_and (x y z : UInt8) : (x ||| y) &&& z = x &&& z ||| y &&& z := by
  apply UInt8.toBitVec_inj.mp
  rw [UInt8.toBitVec_and, UInt8.toBitVec_or, UInt8.toBitVec_or, UInt8.toBitVec_and, UInt8.toBitVec_and]
  ext i hi
  simp [Bool.and_or_distrib_right]

theorem clear_and_bit (x : UInt8) : (x &&& ~~~hasRecipientFlag) &&& hasRecipientFlag = 0 := by
  rw [UInt8.and_assoc, show ~~~hasRecipientFlag &&& hasRecipientFlag = 0 by decide, UInt8.and_zero]

theorem set_and_bit (x : UInt8) :
    (x &&& ~~~hasRecipientFlag ||| hasRecipientFlag) &&& hasRecipientFlag = hasRecipientFlag := by
  rw [byte_or_and, clear_and_bit]
  decide

theorem clear_clear (x : UInt8) : (x &&& ~~~hasRecipientFlag) &&& ~~~hasRecipientFlag = x &&& ~~~hasRecipientFlag := by
  rw [UInt8.and_assoc, UInt8.and_self]

theorem set_clear (x : UInt8) :
    (x &&& ~~~hasRecipientFlag ||| hasRecipientFlag) &&& ~~~hasRecipientFlag = x &&& ~~~hasRecipientFlag := by
  rw [byte_or_and, clear_clear, show hasRecipientFlag &&& ~~~hasRecipientFlag = 0 by decide, UInt8.or_zero]

namespace Packet

theorem effectiveFlags_bit (p : Packet) :
    p.effectiveFlags &&& hasRecipientFlag = if p.recipient.isSome then hasRecipientFlag else 0 := by
  unfold effectiveFlags
  cases p.recipient.isSome with
  | true => exact set_and_bit p.flags
  | false => exact clear_and_bit p.flags

/-- The flags without the recipient bit, which is derived. -/
theorem effectiveFlags_clear (p : Packet) :
    p.effectiveFlags &&& ~~~hasRecipientFlag = p.flags &&& ~~~hasRecipientFlag := by
  unfold effectiveFlags
  cases p.recipient.isSome with
  | true => exact set_clear p.flags
  | false => exact clear_clear p.flags

/-! ## The signed region -/

def recipientBytes (p : Packet) : Bytes := match p.recipient with | some r => r.toList | none => []

theorem writeBody_eq (p : Packet) (ttlOverride : Option UInt8) :
    p.writeBody ttlOverride = [p.version, p.msgType.toU8, p.effectiveFlags, ttlOverride.getD p.ttl] ++
      (beBytes 8 p.timestampMs.toNat ++ (p.sender.toList ++ (p.recipientBytes ++
        (beBytes 2 p.payload.length ++ p.payload)))) := by
  cases h : p.recipient <;> simp [writeBody, recipientBytes, h]

theorem signedRegion_inj {p q : Packet} (h : p.signedRegion = q.signedRegion) :
    p.msgType.toU8 = q.msgType.toU8 ∧ p.payload = q.payload := by
  rw [signedRegion, signedRegion, writeBody_eq, writeBody_eq] at h
  obtain ⟨hhead, htail⟩ := List.append_inj h (by simp)
  simp only [List.cons.injEq, and_true] at hhead
  obtain ⟨-, htype, hflags, -⟩ := hhead
  obtain ⟨-, htail⟩ := List.append_inj htail (by simp)
  obtain ⟨-, htail⟩ := List.append_inj htail (by simp)
  have hsome : p.recipient.isSome = q.recipient.isSome := by
    have hbit := congrArg (· &&& hasRecipientFlag) hflags
    simp only [effectiveFlags_bit] at hbit
    cases hp : p.recipient.isSome <;> cases hq : q.recipient.isSome <;> simp_all [hasRecipientFlag]
  have hlen : p.recipientBytes.length = q.recipientBytes.length := by
    unfold recipientBytes
    cases hp : p.recipient <;> cases hq : q.recipient <;> simp_all
  obtain ⟨-, htail⟩ := List.append_inj htail hlen
  exact ⟨htype, (List.append_inj htail (by simp)).2⟩

end Packet

/-! ## Announces -/

theorem decodeAnnounce_nick (ed dh : Key32) (nick : String) :
    decodeAnnounce (encodeAnnounce ed dh nick) = some (ed, dh, fromUtf8Lossy ((asBytes nick).take 24)) := by
  let n := min (asBytes nick).length 24
  have hn : n < 256 := by
    have : n ≤ 24 := Nat.min_le_right _ _
    omega
  have hbytes : encodeAnnounce ed dh nick = ed.toList ++ (dh.toList ++ (UInt8.ofNat n :: (asBytes nick).take n)) := by
    simp [encodeAnnounce, n]
  have hlen : ((asBytes nick).take n).length = n := by
    rw [List.length_take]
    exact Nat.min_eq_left (Nat.min_le_left _ _)
  have htotal : (encodeAnnounce ed dh nick).length = 65 + n := by
    rw [hbytes]
    simp [hlen]
    omega
  have hcount : ((encodeAnnounce ed dh nick).getD 64 0).toNat = n := by
    rw [hbytes, ← List.append_assoc, List.getD_append_right _ _ _ _ (by simp)]
    simp [Nat.mod_eq_of_lt hn]
  have hdh : arrayOf 32 ((encodeAnnounce ed dh nick).drop 32) = dh := by
    rw [hbytes, List.drop_left' (by simp), arrayOf_toList_append]
  have hnick : ((encodeAnnounce ed dh nick).drop 65).take n = (asBytes nick).take 24 := by
    have hfront : encodeAnnounce ed dh nick = (ed.toList ++ dh.toList ++ [UInt8.ofNat n]) ++ (asBytes nick).take n := rfl
    rw [hfront, List.drop_left' (by simp), List.take_take, Nat.min_self, List.take_eq_take_iff]
    have hdef : n = min (asBytes nick).length 24 := rfl
    omega
  unfold decodeAnnounce
  rw [if_neg (by omega), hcount, hdh, if_neg (by omega), hnick, show arrayOf 32 (encodeAnnounce ed dh nick) = ed by
    rw [hbytes, arrayOf_toList_append]]

theorem decodeAnnounce_encodeAnnounce (ed dh : Key32) (nick : String) :
    ∃ nick', decodeAnnounce (encodeAnnounce ed dh nick) = some (ed, dh, nick') :=
  ⟨_, decodeAnnounce_nick ed dh nick⟩

end CockroachChat
