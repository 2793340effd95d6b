import CockroachChat.Core.WireFormat

/-! # The packet codec is a bijection

The decoder reads only bytes that are there, accepts exactly the strings of the packet layout, and
is inverse to the encoder in both directions. -/
namespace CockroachChat
set_option autoImplicit false

/-! ## Slices -/

theorem chunk_append_drop (b : Bytes) (off n : ℕ) (h : off + n ≤ b.length) :
    (arrayOf n (b.drop off)).toList ++ b.drop (off + n) = b.drop off := by
  rw [toList_arrayOf _ (by rw [List.length_drop]; omega), ← List.drop_drop, List.take_append_drop]

theorem take_append_drop_add (b : Bytes) (off n : ℕ) : (b.drop off).take n ++ b.drop (off + n) = b.drop off := by
  rw [← List.drop_drop, List.take_append_drop]

theorem beBytes_ofBe_take (b : Bytes) (n : ℕ) (h : n ≤ b.length) : beBytes n (ofBe (b.take n)) = b.take n := by
  have hlen : (b.take n).length = n := by rw [List.length_take, Nat.min_eq_left h]
  have := beBytes_ofBe (b.take n)
  rwa [hlen] at this

theorem MsgType.toU8_fromU8 (b : UInt8) : (MsgType.fromU8 b).toU8 = b := by
  unfold MsgType.fromU8
  split_ifs with h₁ h₂ h₃ h₄ h₅ h₆ h₇ h₈ h₉ h₁₀ h₁₁ <;> first | rfl | (symm; assumption)

namespace Packet

/-- Four header bytes and the rest. -/
theorem header_append_drop (b : Bytes) (h : 4 ≤ b.length) :
    [byteAt b 0, byteAt b 1, byteAt b 2, byteAt b 3] ++ b.drop 4 = b := by
  match b, h with
  | x₀ :: x₁ :: x₂ :: x₃ :: rest, _ => rfl

/-! ## What the decoder accepts -/

/-- Where `payload_len` starts. -/
def lengthAt (b : Bytes) : ℕ := if byteAt b 2 &&& hasRecipientFlag ≠ 0 then 28 else 20

/-- The declared payload length. -/
def declared (b : Bytes) : ℕ := ofBe ((b.drop (lengthAt b)).take 2)

/-- The packet read off a string of the layout. -/
def parsed (b : Bytes) : Packet where
  version := byteAt b 0
  msgType := MsgType.fromU8 (byteAt b 1)
  flags := byteAt b 2 &&& ~~~hasRecipientFlag
  ttl := byteAt b 3
  timestampMs := UInt64.ofNat (ofBe ((b.drop 4).take 8))
  sender := arrayOf 8 (b.drop 12)
  recipient := if byteAt b 2 &&& hasRecipientFlag ≠ 0 then some (arrayOf 8 (b.drop 20)) else none
  payload := (b.drop (lengthAt b + 2)).take (declared b)
  signature := arrayOf 64 (b.drop (lengthAt b + 2 + declared b))

/-- The checks of the decoder, in its order, on a string whose recipient flag is known. -/
theorem decode_eq (b : Bytes) :
    decode b =
      if b.length < minHeader then .error (.short minHeader b.length)
      else if byteAt b 0 ≠ protocolVersion then .error (.badVersion (byteAt b 0))
      else if b.length < lengthAt b then .error (.short 28 b.length)
      else if b.length < lengthAt b + 2 then .error (.short (lengthAt b + 2) b.length)
      else if b.length < lengthAt b + 2 + declared b + sigLen then
        .error (.badLength (declared b) (b.length - (lengthAt b + 2)))
      else if lengthAt b + 2 + declared b + sigLen ≠ b.length then
        .error (.trailing (b.length - (lengthAt b + 2 + declared b + sigLen)))
      else .ok (parsed b) := by
  have hmin : minHeader = 22 := rfl
  have hsig : sigLen = 64 := rfl
  by_cases hshort : b.length < minHeader
  · rw [if_pos hshort]
    simp [decode, need, Bind.bind, Except.bind, hshort]
  · rw [if_neg hshort]
    by_cases hversion : byteAt b 0 = protocolVersion
    · rw [if_neg (not_not.mpr hversion)]
      by_cases hrecipient : byteAt b 2 &&& hasRecipientFlag = 0
      · have hoff : lengthAt b = 20 := if_neg (not_not.mpr hrecipient)
        simp only [decode, need, Bind.bind, Except.bind, throw, throwThe, MonadExceptOf.throw, pure, Except.pure,
          hversion, hrecipient, hoff, declared, parsed, ne_eq, not_true_eq_false, if_false, Nat.zero_add, gt_iff_lt,
          hshort]
        split_ifs <;> first | rfl | omega
      · have hoff : lengthAt b = 28 := if_pos hrecipient
        simp only [decode, need, Bind.bind, Except.bind, throw, throwThe, MonadExceptOf.throw, pure, Except.pure,
          hversion, hrecipient, hoff, declared, parsed, ne_eq, not_true_eq_false, if_false, Nat.zero_add, gt_iff_lt,
          hshort, not_false_eq_true, if_true]
        split_ifs <;> first | rfl | omega
    · rw [if_pos hversion]
      simp [decode, need, Bind.bind, Except.bind, throw, throwThe, MonadExceptOf.throw, hshort, hversion]

theorem decode_eq_ok_iff (b : Bytes) (p : Packet) :
    decode b = .ok p ↔
      byteAt b 0 = protocolVersion ∧ lengthAt b + 2 + declared b + sigLen = b.length ∧ p = parsed b := by
  rw [decode_eq]
  have hmin : minHeader = 22 ∧ sigLen = 64 := ⟨rfl, rfl⟩
  have hoff : 20 ≤ lengthAt b := by
    unfold lengthAt
    split_ifs <;> omega
  split_ifs with h₁ h₂ h₃ h₄ h₅ h₆
  · exact iff_of_false nofun fun h => by omega
  · exact iff_of_false nofun fun h => h₂ h.1
  · exact iff_of_false nofun fun h => by omega
  · exact iff_of_false nofun fun h => by omega
  · exact iff_of_false nofun fun h => by omega
  · exact iff_of_false nofun fun h => h₆ h.2.1
  · rw [Except.ok.injEq]
    exact ⟨fun h => ⟨not_not.mp h₂, not_not.mp h₆, h.symm⟩, fun h => h.2.2.symm⟩

/-! ## Both directions -/

theorem encode_eq (p : Packet) :
    p.encode = [p.version, p.msgType.toU8, p.effectiveFlags, p.ttl] ++
      (beBytes 8 p.timestampMs.toNat ++ (p.sender.toList ++ (p.recipientBytes ++
        (beBytes 2 p.payload.length ++ (p.payload ++ p.signature.toList))))) := by
  rw [encode, writeBody_eq]
  simp [List.append_assoc]

theorem recipientBytes_length (p : Packet) : 20 + p.recipientBytes.length = if p.recipient.isSome then 28 else 20 := by
  unfold recipientBytes
  cases p.recipient <;> simp

theorem lengthAt_encode (p : Packet) : lengthAt p.encode = 20 + p.recipientBytes.length := by
  have hflag : byteAt p.encode 2 = p.effectiveFlags := by
    rw [encode_eq]
    rfl
  rw [lengthAt, hflag, effectiveFlags_bit, recipientBytes_length]
  cases p.recipient.isSome <;> simp [hasRecipientFlag]

/-- The fields of an encoded packet, one behind the other. -/
theorem drop_encode (p : Packet) :
    p.encode.drop 4 = beBytes 8 p.timestampMs.toNat ++ (p.encode.drop 12) ∧
    p.encode.drop 12 = p.sender.toList ++ (p.encode.drop 20) ∧
    p.encode.drop 20 = p.recipientBytes ++ p.encode.drop (lengthAt p.encode) ∧
    p.encode.drop (lengthAt p.encode) = beBytes 2 p.payload.length ++ p.encode.drop (lengthAt p.encode + 2) ∧
    p.encode.drop (lengthAt p.encode + 2) = p.payload ++ p.signature.toList := by
  have h4 : p.encode.drop 4 = beBytes 8 p.timestampMs.toNat ++ (p.sender.toList ++ (p.recipientBytes ++
      (beBytes 2 p.payload.length ++ (p.payload ++ p.signature.toList)))) := by
    rw [encode_eq]
    rfl
  have h12 : p.encode.drop 12 = p.sender.toList ++ (p.recipientBytes ++
      (beBytes 2 p.payload.length ++ (p.payload ++ p.signature.toList))) := by
    rw [show 12 = 4 + 8 from rfl, ← List.drop_drop, h4, List.drop_left' (beBytes_length 8 _)]
  have h20 : p.encode.drop 20 = p.recipientBytes ++
      (beBytes 2 p.payload.length ++ (p.payload ++ p.signature.toList)) := by
    rw [show 20 = 12 + 8 from rfl, ← List.drop_drop, h12, List.drop_left' (by simp)]
  have hlen : p.encode.drop (lengthAt p.encode) = beBytes 2 p.payload.length ++ (p.payload ++ p.signature.toList) := by
    rw [lengthAt_encode, ← List.drop_drop, h20, List.drop_left' rfl]
  have hpay : p.encode.drop (lengthAt p.encode + 2) = p.payload ++ p.signature.toList := by
    rw [← List.drop_drop, hlen, List.drop_left' (beBytes_length 2 _)]
  refine ⟨?_, ?_, ?_, ?_, hpay⟩
  · rw [h4, h12]
  · rw [h12, h20]
  · rw [h20, hlen]
  · rw [hlen, hpay]

/-- A packet in the form the decoder produces. -/
structure Canonical (p : Packet) : Prop where
  version : p.version = protocolVersion
  msgType : MsgType.fromU8 p.msgType.toU8 = p.msgType
  flags : p.flags &&& hasRecipientFlag = 0
  payload : p.payload.length ≤ 65535

theorem and_not_of_and_eq_zero {x : UInt8} (h : x &&& hasRecipientFlag = 0) : x &&& ~~~hasRecipientFlag = x := by
  apply UInt8.toBitVec_inj.mp
  ext i hi
  have hbit := congrArg (fun y : UInt8 => y.toBitVec[i]) h
  simp only [UInt8.toBitVec_and, BitVec.getElem_and, UInt8.toBitVec_not, BitVec.getElem_not] at hbit ⊢
  cases hx : x.toBitVec[i]
  · rfl
  · rw [hx, Bool.true_and] at hbit
    rw [hbit]
    simp

theorem parsed_encode {p : Packet} (h : p.Canonical) (declares : declared p.encode = p.payload.length) :
    parsed p.encode = p := by
  obtain ⟨hts, hsender, hrecipient, hlen, hpay⟩ := drop_encode p
  have hheader : byteAt p.encode 0 = p.version ∧ byteAt p.encode 1 = p.msgType.toU8 ∧
      byteAt p.encode 2 = p.effectiveFlags ∧ byteAt p.encode 3 = p.ttl := by
    rw [encode_eq]
    exact ⟨rfl, rfl, rfl, rfl⟩
  have hclear : byteAt p.encode 2 &&& ~~~hasRecipientFlag = p.flags := by
    rw [hheader.2.2.1, effectiveFlags_clear, and_not_of_and_eq_zero h.flags]
  have htime : UInt64.ofNat (ofBe ((p.encode.drop 4).take 8)) = p.timestampMs := by
    rw [hts, List.take_left' (beBytes_length 8 _), ofBe_beBytes_of_lt (by simpa using p.timestampMs.toNat_lt)]
    simp
  have hbit : (if byteAt p.encode 2 &&& hasRecipientFlag ≠ 0 then some (arrayOf 8 (p.encode.drop 20)) else none) =
      p.recipient := by
    rw [hheader.2.2.1, effectiveFlags_bit, hrecipient, recipientBytes]
    cases p.recipient <;> simp [hasRecipientFlag]
  have hpayload : (p.encode.drop (lengthAt p.encode + 2)).take (declared p.encode) = p.payload := by
    rw [declares, hpay, List.take_left]
  have hsignature : arrayOf 64 (p.encode.drop (lengthAt p.encode + 2 + declared p.encode)) = p.signature := by
    rw [declares, ← List.drop_drop, hpay, List.drop_left, arrayOf_toList]
  unfold parsed
  rw [hheader.1, hheader.2.1, h.msgType, hclear, hheader.2.2.2, htime, hsender, arrayOf_toList_append, hbit, hpayload,
    hsignature]

theorem decode_encode {p : Packet} (h : p.Canonical) : decode p.encode = .ok p := by
  have hdeclared : declared p.encode = p.payload.length := by
    have hpayload := h.payload
    rw [declared, (drop_encode p).2.2.2.1, List.take_left' (beBytes_length 2 _), ofBe_beBytes_of_lt (by omega)]
  have htotal : p.encode.length = 20 + p.recipientBytes.length + 2 + p.payload.length + 64 := by
    rw [encode_eq]
    simp
    omega
  refine (decode_eq_ok_iff _ _).mpr ⟨?_, ?_, (parsed_encode h hdeclared).symm⟩
  · rw [encode_eq]
    exact h.version
  · rw [lengthAt_encode, hdeclared, htotal]
    rfl

/-- A byte is made of its recipient bit and the rest. -/
theorem clear_or_and (x : UInt8) : x &&& ~~~hasRecipientFlag ||| x &&& hasRecipientFlag = x := by
  apply UInt8.toBitVec_inj.mp
  ext i hi
  simp only [UInt8.toBitVec_or, UInt8.toBitVec_and, UInt8.toBitVec_not, BitVec.getElem_or, BitVec.getElem_and,
    BitVec.getElem_not]
  cases x.toBitVec[i] <;> cases hasRecipientFlag.toBitVec[i] <;> rfl

theorem and_flag_eq (x : UInt8) : x &&& hasRecipientFlag = 0 ∨ x &&& hasRecipientFlag = hasRecipientFlag := by
  have hmod : (x &&& hasRecipientFlag).toNat = x.toNat % 2 := by
    rw [UInt8.toNat_and, show hasRecipientFlag.toNat = 1 from rfl, Nat.and_one_is_mod]
  rcases Nat.mod_two_eq_zero_or_one x.toNat with h | h
  · exact .inl (UInt8.toNat_inj.mp (hmod.trans h))
  · exact .inr (UInt8.toNat_inj.mp (hmod.trans h))

/-- The recipient bit is derived from the recipient on encoding and was read off it on decoding. -/
theorem effectiveFlags_parsed (b : Bytes) : (parsed b).effectiveFlags = byteAt b 2 := by
  have hrecipient : (parsed b).recipient =
      if byteAt b 2 &&& hasRecipientFlag ≠ 0 then some (arrayOf 8 (b.drop 20)) else none := rfl
  have hflags : (parsed b).flags = byteAt b 2 &&& ~~~hasRecipientFlag := rfl
  unfold effectiveFlags
  rw [hrecipient, hflags, clear_clear]
  rcases and_flag_eq (byteAt b 2) with hbit | hbit
  · have hwhole := clear_or_and (byteAt b 2)
    rw [hbit, UInt8.or_zero] at hwhole
    simp [hbit, hwhole]
  · have hwhole := clear_or_and (byteAt b 2)
    rw [hbit] at hwhole
    simp [hbit, hwhole, show hasRecipientFlag ≠ 0 by decide]

theorem declared_le (b : Bytes) : declared b ≤ 65535 := by
  have hlt := ofBe_lt ((b.drop (lengthAt b)).take 2)
  have hlen : ((b.drop (lengthAt b)).take 2).length ≤ 2 := List.length_take_le 2 _
  have hpow := Nat.pow_le_pow_right (show 0 < 256 by decide) hlen
  rw [declared]
  omega

theorem parsed_canonical {b : Bytes} (version : byteAt b 0 = protocolVersion) : (parsed b).Canonical where
  version := version
  msgType := congrArg MsgType.fromU8 (MsgType.toU8_fromU8 _)
  flags := clear_and_bit _
  payload := (List.length_take_le _ _).trans (declared_le b)

theorem recipientBytes_parsed {b : Bytes} (h : lengthAt b ≤ b.length) :
    (parsed b).recipientBytes ++ b.drop (lengthAt b) = b.drop 20 := by
  by_cases hbit : byteAt b 2 &&& hasRecipientFlag = 0
  · have hoff : lengthAt b = 20 := if_neg (not_not.mpr hbit)
    have hnone : (parsed b).recipient = none := if_neg (not_not.mpr hbit)
    rw [recipientBytes, hnone, hoff]
    rfl
  · have hoff : lengthAt b = 28 := if_pos hbit
    have hsome : (parsed b).recipient = some (arrayOf 8 (b.drop 20)) := if_pos hbit
    rw [recipientBytes, hsome, hoff]
    exact chunk_append_drop b 20 8 (by omega)

theorem encode_parsed {b : Bytes} (length : lengthAt b + 2 + declared b + sigLen = b.length) :
    (parsed b).encode = b := by
  have hsig : sigLen = 64 := rfl
  have hoff : 20 ≤ lengthAt b := by
    unfold lengthAt
    split_ifs <;> omega
  have hsignature : (parsed b).signature.toList = b.drop (lengthAt b + 2 + declared b) := by
    refine (toList_arrayOf _ (by rw [List.length_drop]; omega)).trans (List.take_of_length_le ?_)
    rw [List.length_drop]
    omega
  have hpayload : (parsed b).payload ++ b.drop (lengthAt b + 2 + declared b) = b.drop (lengthAt b + 2) :=
    take_append_drop_add b _ _
  have hlength : beBytes 2 (parsed b).payload.length = (b.drop (lengthAt b)).take 2 := by
    have hlen : (parsed b).payload.length = declared b := by
      refine (List.length_take ..).trans (Nat.min_eq_left ?_)
      rw [List.length_drop]
      omega
    rw [hlen]
    exact beBytes_ofBe_take _ 2 (by rw [List.length_drop]; omega)
  have htime : beBytes 8 (parsed b).timestampMs.toNat = (b.drop 4).take 8 := by
    have hlt := ofBe_lt ((b.drop 4).take 8)
    have hlen : ((b.drop 4).take 8).length ≤ 8 := List.length_take_le 8 _
    have hpow := Nat.pow_le_pow_right (show 0 < 256 by decide) hlen
    have hnat : (parsed b).timestampMs.toNat = ofBe ((b.drop 4).take 8) :=
      UInt64.toNat_ofNat_of_lt' (lt_of_lt_of_le hlt hpow)
    rw [hnat]
    exact beBytes_ofBe_take _ 8 (by rw [List.length_drop]; omega)
  have hsender : (parsed b).sender.toList ++ b.drop 20 = b.drop 12 := chunk_append_drop b 12 8 (by omega)
  have hheader : [(parsed b).version, (parsed b).msgType.toU8, (parsed b).effectiveFlags, (parsed b).ttl] ++ b.drop 4 = b := by
    rw [effectiveFlags_parsed, show (parsed b).msgType.toU8 = byteAt b 1 from MsgType.toU8_fromU8 _]
    exact header_append_drop b (by omega)
  rw [encode_eq, hsignature, hpayload, hlength, take_append_drop_add, recipientBytes_parsed (by omega), hsender, htime,
    take_append_drop_add, hheader]

/-! ## Reading in bounds -/

/-- Decoding with every access checked: `none` is an index out of bounds. -/
abbrev Checked := ExceptT WireError Option

def checked {α : Type} (r : Except WireError α) : Checked α := ExceptT.mk (some r)

/-- `bytes[off]`. -/
def index (bytes : Bytes) (off : ℕ) : Checked UInt8 := ExceptT.lift bytes[off]?

/-- `bytes[off..off + n]`. -/
def range (bytes : Bytes) (off n : ℕ) : Checked Bytes :=
  ExceptT.lift (if off + n ≤ bytes.length then some ((bytes.drop off).take n) else none)

/-- The decoder from `payload_len` on; `build` makes the packet of what is read. -/
def checkedTail (bytes : Bytes) (off : ℕ) (build : Bytes → Signature → Packet) : Checked Packet := do
  checked (need off 2 bytes.length)
  let payloadLen := ofBe [← index bytes off, ← index bytes (off + 1)]
  let remaining := bytes.length - (off + 2)
  if payloadLen + sigLen > remaining then throw (.badLength payloadLen remaining) else do
  let payload ← range bytes (off + 2) payloadLen
  let signature := arrayOf 64 (← range bytes (off + 2 + payloadLen) 64)
  let off := off + 2 + payloadLen + sigLen
  if off ≠ bytes.length then throw (.trailing (bytes.length - off)) else return build payload signature

/-- `Packet::decode` with each of its accesses to the slice spelled out. -/
def decodeChecked (bytes : Bytes) : Checked Packet := do
  checked (need 0 minHeader bytes.length)
  let version ← index bytes 0
  if version ≠ protocolVersion then throw (.badVersion version) else do
  let msgType := MsgType.fromU8 (← index bytes 1)
  let flags ← index bytes 2
  let ttl ← index bytes 3
  let timestampMs := UInt64.ofNat (ofBe (← range bytes 4 8))
  let sender := arrayOf 8 (← range bytes 12 8)
  let build (recipient : Option EphId) (payload : Bytes) (signature : Signature) : Packet :=
    { version, msgType, flags := flags &&& ~~~hasRecipientFlag, ttl, timestampMs, sender, recipient, payload,
      signature }
  if flags &&& hasRecipientFlag ≠ 0 then do
    checked (need 20 8 bytes.length)
    let recipient ← range bytes 20 8
    checkedTail bytes 28 (build (some (arrayOf 8 recipient)))
  else checkedTail bytes 20 (build none)

theorem index_eq {bytes : Bytes} {off : ℕ} (h : off < bytes.length) : index bytes off = pure (byteAt bytes off) := by
  simp [index, byteAt, List.getD_eq_getElem?_getD, List.getElem?_eq_getElem h]
  rfl

theorem range_eq {bytes : Bytes} {off n : ℕ} (h : off + n ≤ bytes.length) :
    range bytes off n = pure ((bytes.drop off).take n) := by
  rw [range, if_pos h]
  rfl

@[simp] theorem checked_ok {α : Type} (a : α) : checked (.ok a) = pure a := rfl

theorem checked_error {α β : Type} (e : WireError) (k : α → Checked β) : (checked (.error e) >>= k) = throw e := rfl

theorem arrayOf_take (n : ℕ) (b : Bytes) (h : n ≤ b.length) : arrayOf n (b.take n) = arrayOf n b := by
  apply Vector.toList_inj.mp
  rw [toList_arrayOf _ h, toList_arrayOf _ (by rw [List.length_take, Nat.min_eq_left h]), List.take_take, Nat.min_self]

theorem need_ok {off n have_ : ℕ} (h : off + n ≤ have_) : need off n have_ = .ok () := if_neg (by omega)

theorem need_error {off n have_ : ℕ} (h : have_ < off + n) : need off n have_ = .error (.short (off + n) have_) := if_pos h

theorem ofBe_two {b : Bytes} {off : ℕ} (h : off + 2 ≤ b.length) :
    ofBe [byteAt b off, byteAt b (off + 1)] = ofBe ((b.drop off).take 2) := by
  have h₀ : off < b.length := by omega
  have h₁ : off + 1 < b.length := by omega
  rw [List.drop_eq_getElem_cons h₀, List.drop_eq_getElem_cons h₁]
  simp only [byteAt, List.getD_eq_getElem?_getD, List.getElem?_eq_getElem h₀, List.getElem?_eq_getElem h₁,
    Option.getD_some]
  rfl

theorem checkedTail_eq {b : Bytes} {build : Bytes → Signature → Packet}
    (built : build (parsed b).payload (parsed b).signature = parsed b) :
    checkedTail b (lengthAt b) build = some
      (if b.length < lengthAt b + 2 then .error (.short (lengthAt b + 2) b.length)
      else if b.length < lengthAt b + 2 + declared b + sigLen then
        .error (.badLength (declared b) (b.length - (lengthAt b + 2)))
      else if lengthAt b + 2 + declared b + sigLen ≠ b.length then
        .error (.trailing (b.length - (lengthAt b + 2 + declared b + sigLen)))
      else .ok (parsed b)) := by
  have hsig : sigLen = 64 := rfl
  unfold checkedTail
  by_cases hlen : b.length < lengthAt b + 2
  · rw [if_pos hlen, need_error hlen, checked_error]
    rfl
  · rw [if_neg hlen, need_ok (by omega), checked_ok, pure_bind, index_eq (by omega), index_eq (by omega), pure_bind,
      pure_bind, ofBe_two (by omega)]
    rw [show ofBe ((b.drop (lengthAt b)).take 2) = declared b from rfl]
    by_cases hbad : b.length < lengthAt b + 2 + declared b + sigLen
    · rw [if_pos hbad, if_pos (by omega)]
      rfl
    · rw [if_neg hbad, if_neg (by omega), range_eq (by omega), range_eq (by omega), pure_bind, pure_bind,
        arrayOf_take 64 _ (by rw [List.length_drop]; omega)]
      dsimp only
      show (if _ then _ else pure (build (parsed b).payload (parsed b).signature)) = _
      rw [built]
      split_ifs <;> rfl

/-- No access of the decoder is out of bounds. -/
theorem decodeChecked_eq (b : Bytes) : decodeChecked b = some (decode b) := by
  have hmin : minHeader = 22 := rfl
  rw [decode_eq]
  unfold decodeChecked
  by_cases hshort : b.length < minHeader
  · rw [if_pos hshort, need_error (by omega), checked_error]
    rfl
  rw [if_neg hshort, need_ok (by omega), checked_ok, pure_bind, index_eq (by omega), pure_bind]
  by_cases hversion : byteAt b 0 = protocolVersion
  · rw [if_neg (not_not.mpr hversion), if_neg (not_not.mpr hversion), index_eq (by omega), index_eq (by omega),
      index_eq (by omega), range_eq (by omega), range_eq (by omega)]
    simp only [pure_bind]
    by_cases hrecipient : byteAt b 2 &&& hasRecipientFlag = 0
    · have hoff : lengthAt b = 20 := if_neg (not_not.mpr hrecipient)
      have hnone : (parsed b).recipient = none := if_neg (not_not.mpr hrecipient)
      rw [if_neg (not_not.mpr hrecipient), if_neg (by omega), arrayOf_take 8 _ (by rw [List.length_drop]; omega)]
      conv_lhs => rw [← hoff]
      refine checkedTail_eq ?_
      rw [← hnone]
      rfl
    · have hoff : lengthAt b = 28 := if_pos hrecipient
      have hsome : (parsed b).recipient = some (arrayOf 8 (b.drop 20)) := if_pos hrecipient
      rw [if_pos hrecipient]
      by_cases hlong : b.length < lengthAt b
      · rw [if_pos hlong, need_error (by omega), checked_error]
        rfl
      · rw [if_neg hlong, need_ok (by omega), checked_ok, pure_bind, range_eq (by omega), pure_bind,
          arrayOf_take 8 _ (by rw [List.length_drop]; omega), arrayOf_take 8 _ (by rw [List.length_drop]; omega)]
        conv_lhs => rw [← hoff]
        refine checkedTail_eq ?_
        rw [← hsome]
        rfl
  · rw [if_pos hversion, if_pos hversion]
    rfl

/-! ## The whole format -/

/-- The strings of the packet layout. -/
def Layout (b : Bytes) : Prop :=
  ∃ (msgType flags ttl : UInt8) (timestamp sender : Vector UInt8 8) (recipient : Option EphId)
    (length : Vector UInt8 2) (payload : Bytes) (signature : Signature),
    (recipient.isSome = true ↔ flags &&& hasRecipientFlag ≠ 0) ∧ ofBe length.toList = payload.length ∧
    b = [protocolVersion, msgType, flags, ttl] ++ (timestamp.toList ++ (sender.toList ++
      ((recipient.map Vector.toList).getD [] ++ (length.toList ++ (payload ++ signature.toList)))))

theorem layout_encode {p : Packet} (h : p.Canonical) : Layout p.encode := by
  have hpayload := h.payload
  refine ⟨p.msgType.toU8, p.effectiveFlags, p.ttl, arrayOf 8 (beBytes 8 p.timestampMs.toNat), p.sender, p.recipient,
    arrayOf 2 (beBytes 2 p.payload.length), p.payload, p.signature, ?_, ?_, ?_⟩
  · rw [effectiveFlags_bit]
    cases p.recipient <;> simp [hasRecipientFlag]
  · rw [toList_arrayOf _ (by simp), List.take_of_length_le (by simp), ofBe_beBytes_of_lt (by omega)]
  · have hrecipient : p.recipientBytes = (p.recipient.map Vector.toList).getD [] := by
      unfold recipientBytes
      cases p.recipient <;> rfl
    rw [toList_arrayOf _ (by simp), toList_arrayOf _ (by simp), List.take_of_length_le (by simp),
      List.take_of_length_le (by simp), encode_eq, h.version, hrecipient]

/-- What the decoder accepts is the encoding of what it returns. -/
theorem canonical_of_decode {b : Bytes} {p : Packet} (h : decode b = .ok p) : p.Canonical ∧ p.encode = b := by
  obtain ⟨hversion, hlength, rfl⟩ := (decode_eq_ok_iff b p).mp h
  exact ⟨parsed_canonical hversion, encode_parsed hlength⟩

/-- The recipient bit on encoding is the bit it was given with. -/
theorem effectiveFlags_of_bit {p : Packet} {flags : UInt8} (hflags : p.flags = flags &&& ~~~hasRecipientFlag)
    (bit : p.recipient.isSome = true ↔ flags &&& hasRecipientFlag ≠ 0) : p.effectiveFlags = flags := by
  have hwhole := clear_or_and flags
  unfold effectiveFlags
  rw [hflags, clear_clear]
  rcases and_flag_eq flags with hbit | hbit
  · have hnone : p.recipient.isSome = false := by
      rw [Bool.eq_false_iff, ne_eq, bit]
      exact fun h => h hbit
    rw [hbit, UInt8.or_zero] at hwhole
    simpa [hnone] using hwhole
  · have hsome : p.recipient.isSome = true := by
      rw [bit, hbit]
      decide
    rw [hbit] at hwhole
    simpa [hsome] using hwhole

theorem decode_layout {b : Bytes} (h : Layout b) : ∃ p, decode b = .ok p := by
  obtain ⟨msgType, flags, ttl, timestamp, sender, recipient, length, payload, signature, hbit, hlength, rfl⟩ := h
  let p : Packet :=
    { version := protocolVersion, msgType := MsgType.fromU8 msgType, flags := flags &&& ~~~hasRecipientFlag, ttl,
      timestampMs := UInt64.ofNat (ofBe timestamp.toList), sender, recipient, payload, signature }
  have hlt := ofBe_lt length.toList
  have hcanonical : p.Canonical :=
    ⟨rfl, congrArg MsgType.fromU8 (MsgType.toU8_fromU8 _), clear_and_bit _, by
      rw [hlength, Vector.length_toList] at hlt
      show payload.length ≤ 65535
      omega⟩
  have htime : beBytes 8 p.timestampMs.toNat = timestamp.toList := by
    have hnat : p.timestampMs.toNat = ofBe timestamp.toList := by
      refine UInt64.toNat_ofNat_of_lt' (lt_of_lt_of_le (ofBe_lt _) ?_)
      rw [Vector.length_toList]
      decide
    have := beBytes_ofBe timestamp.toList
    rwa [Vector.length_toList, ← hnat] at this
  have hlen : beBytes 2 p.payload.length = length.toList := by
    have := beBytes_ofBe length.toList
    rwa [Vector.length_toList, hlength] at this
  have hrecipient : p.recipientBytes = (recipient.map Vector.toList).getD [] := by
    cases recipient <;> rfl
  refine ⟨p, ?_⟩
  rw [← decode_encode hcanonical, encode_eq, htime, hlen, hrecipient, effectiveFlags_of_bit rfl hbit,
    show p.msgType.toU8 = msgType from MsgType.toU8_fromU8 _]

/-- The decoder never reads out of bounds, accepts exactly the strings of the layout, and is inverse
to the encoder on what it accepts and on the packets of its form. -/
theorem codec_bijective :
    (∀ b, decodeChecked b = some (decode b)) ∧
    (∀ b, (∃ p, decode b = .ok p) ↔ Layout b) ∧
    (∀ b p, decode b = .ok p → p.encode = b) ∧
    ∀ p : Packet, p.version = protocolVersion → MsgType.fromU8 p.msgType.toU8 = p.msgType →
      p.flags &&& hasRecipientFlag = 0 → p.payload.length ≤ 65535 → decode p.encode = .ok p := by
  have hback : ∀ b p, decode b = .ok p → p.Canonical ∧ p.encode = b := by
    intro b p h
    obtain ⟨hversion, hlength, rfl⟩ := (decode_eq_ok_iff b p).mp h
    exact ⟨parsed_canonical hversion, encode_parsed hlength⟩
  refine ⟨decodeChecked_eq, fun b => ⟨?_, decode_layout⟩, fun b p h => (hback b p h).2, ?_⟩
  · rintro ⟨p, h⟩
    obtain ⟨hcanonical, rfl⟩ := hback b p h
    exact layout_encode hcanonical
  · exact fun p hversion htype hflags hpayload => decode_encode ⟨hversion, htype, hflags, hpayload⟩

/-- A directed packet of a type nobody knows, with a reserved flag. -/
def stranger : Packet :=
  { Packet.new (.unknown 0x42) 5 1700000000000 (Vector.replicate 8 1) (some (Vector.replicate 8 2)) [1, 2, 3] with
    flags := 0b10 }

theorem stranger_survives : decode stranger.encode = .ok stranger ∧ Layout stranger.encode :=
  have hdecode := codec_bijective.2.2.2 stranger rfl (by decide) (by decide) (by decide)
  ⟨hdecode, (codec_bijective.2.1 _).mp ⟨stranger, hdecode⟩⟩

end Packet
end CockroachChat
