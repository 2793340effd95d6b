import CockroachChat.Core.PacketCodec
import CockroachChat.Core.Reference

/-! # What a signature covers

The signed region is the encoding of the packet with the TTL at zero, short of the signature, so the
decoder reads everything else back out of it. -/
namespace CockroachChat
set_option autoImplicit false

namespace Packet

/-- The packet with the fields its signature leaves out at zero. -/
def blank (p : Packet) : Packet := { p with ttl := 0, signature := Vector.replicate 64 0 }

theorem encode_blank (p : Packet) : p.blank.encode = p.signedRegion ++ List.replicate 64 0 := by
  have hbody : p.blank.writeBody none = p.writeBody (some 0) := rfl
  rw [encode, hbody, signedRegion]
  simp [blank]

theorem Canonical.blank {p : Packet} (h : p.Canonical) : p.blank.Canonical := ⟨h.version, h.msgType, h.flags, h.payload⟩

theorem blank_inj {p q : Packet} (hp : p.Canonical) (hq : q.Canonical) : p.signedRegion = q.signedRegion ↔ p.blank = q.blank := by
  constructor
  · intro h
    have hencode : p.blank.encode = q.blank.encode := by
      rw [encode_blank, encode_blank, h]
    have hdecode := decode_encode hp.blank
    rw [hencode, decode_encode hq.blank] at hdecode
    exact (Except.ok.inj hdecode).symm
  · intro h
    have hencode := congrArg encode h
    rw [encode_blank, encode_blank] at hencode
    exact List.append_cancel_right hencode

/-- Agreement on every field but the TTL and the signature. -/
def SameSigned (p q : Packet) : Prop :=
  p.version = q.version ∧ p.msgType = q.msgType ∧ p.flags = q.flags ∧ p.timestampMs = q.timestampMs ∧ p.sender = q.sender ∧
    p.recipient = q.recipient ∧ p.payload = q.payload

theorem blank_eq_iff (p q : Packet) : p.blank = q.blank ↔ SameSigned p q := by
  unfold blank SameSigned
  simp only [Packet.mk.injEq, true_and, and_true]

section Verify
variable [P : Prims]

theorem verify_ttl {p q : Packet} (h : q = { p with ttl := q.ttl }) (key : P.VerifyingKey) : q.verifyWith key = p.verifyWith key := by
  have hregion : q.signedRegion = p.signedRegion := by
    rw [h]
    rfl
  have hsignature : q.signature = p.signature := by
    rw [h]
  rw [verifyWith, verifyWith, hregion, hsignature]

/-- Of two packets that the decoder returns, the signed bytes are the same exactly when the packets
agree on every field but the TTL and the signature; and no key tells copies with other TTLs apart. -/
theorem signed_region_covers {b b' : Bytes} {p q : Packet} (hp : decode b = .ok p) (hq : decode b' = .ok q) :
    (p.signedRegion = q.signedRegion ↔ p.version = q.version ∧ p.msgType = q.msgType ∧ p.flags = q.flags ∧
      p.timestampMs = q.timestampMs ∧ p.sender = q.sender ∧ p.recipient = q.recipient ∧ p.payload = q.payload) ∧
    ((p.version = q.version ∧ p.msgType = q.msgType ∧ p.flags = q.flags ∧ p.timestampMs = q.timestampMs ∧ p.sender = q.sender ∧
      p.recipient = q.recipient ∧ p.payload = q.payload ∧ p.signature = q.signature) →
        ∀ key : P.VerifyingKey, p.verifyWith key = q.verifyWith key) := by
  refine ⟨(blank_inj (canonical_of_decode hp).1 (canonical_of_decode hq).1).trans (blank_eq_iff p q), ?_⟩
  rintro ⟨hversion, htype, hflags, htime, hsender, hrecipient, hpayload, hsignature⟩ key
  refine verify_ttl ?_ key
  cases p
  cases q
  simp_all

end Verify
end Packet
end CockroachChat

namespace CockroachChat.Reference
set_option autoImplicit false
attribute [local instance] prims

/-- A directed packet and the broadcast whose payload begins with the same recipient sign different bytes. -/
theorem mimicry_tells :
    let p := Packet.new .channelMessage 7 5 (Vector.replicate 8 1) (some (Vector.replicate 8 2)) [3]
    let q := Packet.new .channelMessage 7 5 (Vector.replicate 8 1) none (List.replicate 8 2 ++ [0, 1, 3])
    p.signedRegion ≠ q.signedRegion := by
  intro p q h
  have hp : Packet.decode p.encode = .ok p := Packet.decode_encode ⟨rfl, by decide, by decide, by decide⟩
  have hq : Packet.decode q.encode = .ok q := Packet.decode_encode ⟨rfl, by decide, by decide, by decide⟩
  have hsame := (Packet.signed_region_covers hp hq).1.mp h
  exact absurd hsame.2.2.2.2.2.1 (by decide)

end CockroachChat.Reference
