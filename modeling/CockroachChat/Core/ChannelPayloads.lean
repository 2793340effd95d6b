import CockroachChat.Core.Payloads
import CockroachChat.Core.Reference
import CockroachChat.Foundations.Truncation

/-! # Channel payloads there and back

A channel payload reads back as what it was built from, unless its text compresses and is longer than
the receiver's cap, or its name does not fit the length byte. -/
namespace CockroachChat
set_option autoImplicit false

/-- `lz4_flex`: what was compressed decompresses to itself, and not into less room. -/
structure Lz4Laws (P : Prims) : Prop where
  roundtrip : ∀ b, P.lz4Decompress (P.lz4Compress b) b.length = .ok b
  room : ∀ b n, n < b.length → ∃ e, P.lz4Decompress (P.lz4Compress b) n = .error e

variable [P : Prims]

theorem decompress_maybeCompress (lz4 : Lz4Laws P) {cfg : Tunables} {input out : Bytes} (h : maybeCompress input cfg = some out) :
    (decompress out cfg).toOption =
      if input.length ≤ cfg.decompressMaxBytes ∧ input.length < 2 ^ 32 then some input else none := by
  unfold maybeCompress at h
  dsimp only at h
  split_ifs at h
  obtain rfl := Option.some.inj h
  have hlen : (beBytes 4 input.length).length = 4 := beBytes_length _ _
  have htake : (beBytes 4 input.length ++ P.lz4Compress input).take 4 = beBytes 4 input.length := List.take_left' hlen
  have hdrop : (beBytes 4 input.length ++ P.lz4Compress input).drop 4 = P.lz4Compress input := List.drop_left' hlen
  have hdeclared : ofBe (beBytes 4 input.length) = input.length % 2 ^ 32 := ofBe_beBytes _ _
  have hfour : ¬ (beBytes 4 input.length ++ P.lz4Compress input).length < 4 := by
    rw [List.length_append]
    omega
  unfold decompress
  simp only [if_neg hfour, htake, hdrop, hdeclared]
  by_cases hwide : input.length < 2 ^ 32
  · rw [Nat.mod_eq_of_lt hwide, lz4.roundtrip]
    by_cases hcap : input.length ≤ cfg.decompressMaxBytes
    · rw [if_neg (Nat.not_lt.mpr hcap), if_pos ⟨hcap, hwide⟩]
      simp [Except.toOption]
    · rw [if_pos (Nat.lt_of_not_le hcap), if_neg fun hfit => hcap hfit.1]
      rfl
  · have hnone : ¬ (input.length ≤ cfg.decompressMaxBytes ∧ input.length < 2 ^ 32) := fun hfit => hwide hfit.2
    obtain ⟨e, he⟩ := lz4.room input (input.length % 2 ^ 32) (by omega)
    rw [he, if_neg hnone]
    by_cases hcap : input.length % 2 ^ 32 > cfg.decompressMaxBytes
    · rw [if_pos hcap]
      rfl
    · rw [if_neg hcap]
      rfl

theorem encodeChannel_packed {channel text : String} {cfg : Tunables} {body : Bytes}
    (h : maybeCompress (asBytes text) cfg = some body) :
    encodeChannel channel text cfg =
      [1, UInt8.ofNat (min (asBytes channel).length 255)] ++ (asBytes channel).take (min (asBytes channel).length 255) ++ body := by
  unfold encodeChannel
  dsimp only
  rw [h]

/-- A payload by its parts: the flag, a name of at most 255 bytes and the body. -/
theorem decodeChannel_parts (flag : UInt8) (name body : Bytes) (cfg : Tunables) (h : name.length ≤ 255) :
    decodeChannel ([flag, UInt8.ofNat name.length] ++ name ++ body) cfg =
      (if flag = 1 then (decompress body cfg).toOption else some body).map fun t => (fromUtf8Lossy name, fromUtf8Lossy t) := by
  have hbyte : (UInt8.ofNat name.length).toNat = name.length := by
    rw [UInt8.toNat_ofNat']
    omega
  have hname : ((name ++ body).take name.length) = name := List.take_left
  have hbody : (name ++ body).drop name.length = body := List.drop_left
  unfold decodeChannel
  simp only [List.cons_append, List.nil_append, List.length_cons, List.length_append, List.getD_cons_zero, List.getD_cons_succ,
    hbyte, Nat.add_comm 2, List.drop_succ_cons, List.drop_zero, hname, hbody]
  rw [if_neg (by omega), if_neg (by omega)]

/-- What a receiver can make of a text: nothing, if it compresses and is longer than the cap. -/
def Readable (text : Bytes) (cfg : Tunables) : Prop :=
  maybeCompress text cfg = none ∨ text.length ≤ cfg.decompressMaxBytes ∧ text.length < 2 ^ 32

instance (text : Bytes) (cfg : Tunables) : Decidable (Readable text cfg) := inferInstanceAs (Decidable (_ ∨ _))

theorem decodeChannel_encodeChannel (lz4 : Lz4Laws P) (channel text : String) (cfg : Tunables) :
    decodeChannel (encodeChannel channel text cfg) cfg =
      if Readable (asBytes text) cfg then some (fromUtf8Lossy ((asBytes channel).take 255), text) else none := by
  have hlen : ((asBytes channel).take 255).length = min (asBytes channel).length 255 := by
    rw [List.length_take, Nat.min_comm]
  have hname : (asBytes channel).take (min (asBytes channel).length 255) = (asBytes channel).take 255 := by
    rcases Nat.le_total (asBytes channel).length 255 with hle | hle
    · rw [Nat.min_eq_left hle, List.take_length, List.take_of_length_le hle]
    · rw [Nat.min_eq_right hle]
  have hparts : ∀ (flag : UInt8) (body : Bytes),
      decodeChannel ([flag, UInt8.ofNat (min (asBytes channel).length 255)] ++ (asBytes channel).take 255 ++ body) cfg =
        (if flag = 1 then (decompress body cfg).toOption else some body).map
          fun t => (fromUtf8Lossy ((asBytes channel).take 255), fromUtf8Lossy t) := by
    intro flag body
    rw [← hlen]
    exact decodeChannel_parts flag _ body cfg (by omega)
  unfold encodeChannel
  dsimp only
  rw [hname]
  cases hpack : maybeCompress (asBytes text) cfg with
  | none =>
    have hreadable : Readable (asBytes text) cfg := .inl hpack
    dsimp only
    rw [if_pos hreadable, hparts, if_neg (by decide), Option.map_some, fromUtf8Lossy_asBytes]
  | some body =>
    have hreadable : Readable (asBytes text) cfg ↔
        (asBytes text).length ≤ cfg.decompressMaxBytes ∧ (asBytes text).length < 2 ^ 32 := by
      unfold Readable
      rw [hpack]
      simp
    dsimp only
    rw [hparts, if_pos rfl, decompress_maybeCompress lz4 hpack, if_congr hreadable rfl rfl]
    split_ifs
    · rw [Option.map_some, fromUtf8Lossy_asBytes]
    · rfl

/-- What is left of a name by the length byte reads back as the name. -/
def NameFits (channel : String) : Prop :=
  (asBytes channel).length ≤ 255 ∨ (asBytes channel).length ≤ 257 ∧ channel.toList.getLast? = some '\uFFFD'

instance (channel : String) : Decidable (NameFits channel) := inferInstanceAs (Decidable (_ ∨ _))

/-- The round trip of a channel payload, of whatever length. -/
theorem channel_roundtrip_iff (lz4 : Lz4Laws P) (channel text : String) (cfg : Tunables) :
    decodeChannel (encodeChannel channel text cfg) cfg = some (channel, text) ↔
      NameFits channel ∧ Readable (asBytes text) cfg := by
  rw [decodeChannel_encodeChannel lz4]
  split_ifs with hreadable
  · rw [Option.some_inj, Prod.mk.injEq, and_iff_left rfl, and_iff_left hreadable]
    exact lossy_take_iff channel 255
  · exact iff_of_false (by simp) fun h => hreadable h.2

end CockroachChat

namespace CockroachChat.Reference

/-- A codec that shortens what repeats one byte. -/
def shorten : Bytes → Bytes
  | [] => [0]
  | c :: rest =>
      if rest = List.replicate rest.length c ∧ rest.length + 1 < 2 ^ 32 then 1 :: c :: beBytes 4 (rest.length + 1)
      else 0 :: c :: rest

def lengthen : Bytes → ℕ → Except String Bytes
  | 1 :: c :: n, room => if ofBe n ≤ room then .ok (List.replicate (ofBe n) c) else .error "output too small"
  | 0 :: b, room => if b.length ≤ room then .ok b else .error "output too small"
  | _, _ => .error "invalid token"

@[reducible] def shortening : Prims := { prims with lz4Compress := shorten, lz4Decompress := lengthen }

theorem lengthen_shorten (b : Bytes) (room : ℕ) :
    lengthen (shorten b) room = if b.length ≤ room then .ok b else .error "output too small" := by
  cases b with
  | nil => rfl
  | cons c rest =>
    by_cases h : rest = List.replicate rest.length c ∧ rest.length + 1 < 2 ^ 32
    · have hlen : ofBe (beBytes 4 (rest.length + 1)) = rest.length + 1 := ofBe_beBytes_of_lt h.2
      rw [shorten, if_pos h, lengthen, hlen, List.replicate_succ, ← h.1]
      rfl
    · rw [shorten, if_neg h]
      rfl

theorem shortening_laws : Lz4Laws shortening where
  roundtrip b := by
    have h := lengthen_shorten b b.length
    rwa [if_pos le_rfl] at h
  room b n hn := by
    have h := lengthen_shorten b n
    rw [if_neg (Nat.not_le.mpr hn)] at h
    exact ⟨_, h⟩

attribute [local instance] shortening

/-- A text of one letter over and over. -/
def monotone (n : ℕ) : String := String.ofList (List.replicate n 'a')

theorem asBytes_monotone (n : ℕ) : asBytes (monotone n) = List.replicate n 97 := by
  rw [asBytes_eq_flatMap, monotone, String.toList_ofList]
  induction n with
  | zero => rfl
  | succ n ih =>
    rw [List.replicate_succ, List.flatMap_cons, ih]
    rfl

theorem monotone_compresses {n : ℕ} (h : 128 ≤ n) (h' : n < 2 ^ 32) :
    maybeCompress (asBytes (monotone n)) {} = some (beBytes 4 n ++ 1 :: 97 :: beBytes 4 n) := by
  obtain ⟨m, rfl⟩ : ∃ m, n = m + 1 := ⟨n - 1, by omega⟩
  have hpack : Prims.lz4Compress (List.replicate (m + 1) 97) = 1 :: 97 :: beBytes 4 (m + 1) := by
    change shorten (List.replicate (m + 1) 97) = _
    rw [List.replicate_succ, shorten, List.length_replicate, if_pos ⟨rfl, h'⟩]
  rw [asBytes_monotone]
  unfold maybeCompress
  simp only [List.length_replicate, hpack, List.length_append, beBytes_length, List.length_cons]
  rw [if_neg (by omega), if_pos (by omega)]

theorem short_monotone_roundtrip :
    decodeChannel (encodeChannel "#news" (monotone 4000) {}) {} = some ("#news", monotone 4000) := by
  apply (channel_roundtrip_iff shortening_laws "#news" (monotone 4000) {}).mpr
  refine ⟨.inl (by decide), .inr ?_⟩
  rw [asBytes_monotone, List.length_replicate]
  decide

/-- A text the sender shows and no receiver can read. -/
theorem long_monotone_lost :
    (encodeChannel "#news" (monotone 5000) {}).length ≤ 65535 ∧ decodeChannel (encodeChannel "#news" (monotone 5000) {}) {} = none := by
  have hpack := monotone_compresses (n := 5000) (by decide) (by decide)
  constructor
  · rw [encodeChannel_packed hpack]
    simp
    omega
  · rw [decodeChannel_encodeChannel shortening_laws, if_neg]
    unfold Readable
    rw [hpack, asBytes_monotone, List.length_replicate]
    decide

end CockroachChat.Reference
