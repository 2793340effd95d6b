import CockroachChat.Core.PacketCodec
import CockroachChat.Node.ReferenceNodes
import CockroachChat.Sessions.Outbound

/-! # Which packets of our own can be decoded

A packet is written with its payload length cut to sixteen bits, and none of the four places that
build packets bounds the payload. A packet is decodable exactly when its payload fits. -/
namespace CockroachChat
set_option autoImplicit false

theorem Packet.decode_encode_iff {p : Packet} (version : p.version = protocolVersion)
    (msgType : MsgType.fromU8 p.msgType.toU8 = p.msgType) (flags : p.flags &&& hasRecipientFlag = 0) :
    Packet.decode p.encode = .ok p ↔ p.payload.length ≤ 65535 := by
  constructor
  · intro h
    obtain ⟨hversion, -, hparsed⟩ := (Packet.decode_eq_ok_iff _ _).mp h
    rw [hparsed]
    exact (Packet.parsed_canonical hversion).payload
  · exact fun hpayload => Packet.decode_encode ⟨version, msgType, flags, hpayload⟩

variable [P : Prims] {S : Type}

namespace MeshNode

/-- Whatever was built on the way between the two states decodes to itself. -/
def Decodable (s t : MeshNode S) : Prop := ∀ pkt ∈ s.builtBy t, Packet.decode pkt.encode = .ok pkt

theorem builtBy_of_trace {s t : MeshNode S} {os : List Obs} (trace : t.trace = s.trace ++ os) :
    s.builtBy t = os.filterMap Obs.built := by
  rw [builtBy, trace, List.drop_left]

theorem builtBy_flood {s t : MeshNode S} {os : List Obs} (trace : t.trace = s.trace ++ os)
    (quiet : os.filterMap Obs.built = []) (pkt : Packet) : s.builtBy (t.flood pkt) = [pkt] := by
  have htrace : (t.flood pkt).trace = s.trace ++ (os ++ .originate pkt :: t.broadcastObs pkt none) := by
    rw [flood, trace, List.append_assoc]
  rw [builtBy_of_trace htrace, List.filterMap_append, quiet,
    List.filterMap_cons_some (show Obs.built (.originate pkt) = some pkt from rfl), filterMap_broadcastObs]
  rfl

theorem ownPacket_decodable_iff (s : MeshNode S) {msgType : MsgType} (canonical : MsgType.fromU8 msgType.toU8 = msgType)
    (recipient : Option EphId) (payload : Bytes) :
    Packet.decode (s.ownPacket msgType recipient payload).encode = .ok (s.ownPacket msgType recipient payload) ↔
      payload.length ≤ 65535 :=
  Packet.decode_encode_iff rfl canonical (by show (0 : UInt8) &&& hasRecipientFlag = 0; decide)

theorem encodeChannel_length (channel text : String) (cfg : Tunables) :
    (encodeChannel channel text cfg).length =
      2 + min (asBytes channel).length 255 + ((maybeCompress (asBytes text) cfg).getD (asBytes text)).length := by
  cases h : maybeCompress (asBytes text) cfg <;> simp [encodeChannel, h, List.length_take] <;> omega

omit P in
theorem encodeSync_length (filter : SyncFilter) :
    (encodeSync filter).length = 1 + min (asBytes filter.channel).length 255 + 8 * filter.digests.length := by
  simp [encodeSync, List.length_flatMap, List.length_take]
  omega

omit P in
theorem encodeAnnounce_length_le (ed dh : Key32) (nick : String) : (encodeAnnounce ed dh nick).length ≤ 65535 := by
  simp [encodeAnnounce, List.length_take]
  omega

/-! ## The four places -/

theorem announce_decodable (s : MeshNode S) : s.Decodable s.announce := by
  intro pkt hpkt
  rw [announce_eq, builtBy_flood (List.append_nil s.trace).symm rfl, List.mem_singleton] at hpkt
  rw [hpkt, ownPacket_decodable_iff s rfl]
  exact encodeAnnounce_length_le _ _ _

theorem sendDirected_decodable {s t : MeshNode S} {os : List Obs} (trace : t.trace = s.trace ++ os)
    (quiet : os.filterMap Obs.built = []) {msgType : MsgType} (canonical : MsgType.fromU8 msgType.toU8 = msgType)
    (fp : Fingerprint) (payload : Bytes) :
    s.Decodable (t.sendDirected msgType fp payload) ↔ (t.fpToEph[fp]?.isSome = true → payload.length ≤ 65535) := by
  cases hroute : t.fpToEph[fp]? with
  | none => simp [Decodable, sendDirected_none hroute, builtBy_of_trace trace, quiet]
  | some eph =>
    simp only [Decodable, sendDirected_some hroute, builtBy_flood trace quiet, List.mem_singleton, forall_eq,
      ownPacket_decodable_iff t canonical, Option.isSome_some, forall_const]

variable [Store S]

theorem sendChannelMessage_decodable_iff (s : MeshNode S) (channel text : String) :
    s.Decodable (s.sendChannelMessage channel text) ↔
      2 + min (asBytes (normalize channel)).length 255 +
        ((maybeCompress (asBytes text) s.cfg).getD (asBytes text)).length ≤ 65535 := by
  have hbuilt : s.builtBy (s.sendChannelMessage channel text) =
      [s.ownPacket .channelMessage none (encodeChannel (normalize channel) text s.cfg)] := by
    unfold sendChannelMessage
    rw [broadcast_eq, builtBy_of_trace (List.append_assoc ..), List.filterMap_append, filterMap_broadcastObs]
    rfl
  simp only [Decodable, hbuilt, List.mem_singleton, forall_eq]
  rw [ownPacket_decodable_iff s rfl, encodeChannel_length]

omit [Store S] in
/-- A text encrypted for a peer is sent as the nonce and what the engine made of it. -/
theorem encryptAndSendDm_decodable_iff (s : MeshNode S) (fp : Fingerprint) (kind : UInt8) (body : Bytes) :
    s.Decodable (s.encryptAndSendDm fp kind body) ↔
      ∀ σ σ' ciphertext, s.noiseSessions[fp]? = some σ → σ.encrypt (kind :: body) = .ok (σ', ciphertext) →
        s.fpToEph[fp]?.isSome = true → ciphertext.length ≤ 65535 := by
  unfold encryptAndSendDm
  cases hheld : s.noiseSessions[fp]? with
  | none => simp [Decodable, builtBy_of_trace (List.append_nil s.trace).symm]
  | some σ =>
    cases henc : σ.encrypt (kind :: body) with
    | error e =>
      have hnone : s.builtBy (s.note (.encryptCall fp σ.view (kind :: body))) = [] := by
        have htrace : (s.note (.encryptCall fp σ.view (kind :: body))).trace =
            s.trace ++ [.encryptCall fp σ.view (kind :: body)] := rfl
        rw [builtBy_of_trace htrace]
        rfl
      refine iff_of_true (by simp [Decodable, henc, hnone]) ?_
      rintro σ₁ σ' ciphertext heq hok -
      cases heq
      cases henc.symm.trans hok
    | ok r =>
      obtain ⟨σ', ciphertext⟩ := r
      simp only [henc]
      refine (sendDirected_decodable (List.append_assoc ..) rfl rfl fp ciphertext).trans ?_
      constructor
      · rintro h σ₁ σ₁' ciphertext' heq hok hroute
        cases heq
        cases henc.symm.trans hok
        exact h hroute
      · exact fun h hroute => h σ σ' ciphertext rfl henc hroute

theorem sendSyncRequests_decodable_iff (s : MeshNode S) (link : LinkId) :
    s.Decodable (s.sendSyncRequests link) ↔ ∀ channel ∈ s.subscribed,
      1 + min (asBytes channel).length 255 +
        8 * (SyncFilter.new channel (Store.channelDigests s.store channel)).digests.length ≤ 65535 := by
  obtain ⟨os, hupdate, hbuilt⟩ := s.sendSyncRequests_update link
  have htrace : (s.sendSyncRequests link).trace = s.trace ++ os := congrArg MeshNode.trace hupdate
  have hiff : ∀ channel, Packet.decode (s.syncPacket channel).encode = .ok (s.syncPacket channel) ↔
      1 + min (asBytes channel).length 255 +
        8 * (SyncFilter.new channel (Store.channelDigests s.store channel)).digests.length ≤ 65535 := by
    intro channel
    rw [Packet.decode_encode_iff rfl rfl (by show (0 : UInt8) &&& hasRecipientFlag = 0; decide)]
    exact iff_of_eq (congrArg (· ≤ 65535) (encodeSync_length _))
  simp only [Decodable, builtBy_of_trace htrace, hbuilt, List.mem_map, forall_exists_index, and_imp,
    forall_apply_eq_imp_iff₂, hiff, Std.ExtTreeSet.mem_toList]

end MeshNode
end CockroachChat

namespace CockroachChat.Reference
attribute [local instance] prims

def letters (n : ℕ) : String := String.ofList (List.replicate n 'a')

theorem letters_length (n : ℕ) : (asBytes (letters n)).length = n := by
  rw [asBytes_eq_flatMap, letters, String.toList_ofList, List.length_flatMap, List.map_replicate, List.sum_replicate]
  exact Nat.mul_one n

theorem maybeCompress_none (b : Bytes) (cfg : Tunables) : maybeCompress b cfg = none := by
  have hlonger : ¬ (beBytes 4 b.length ++ prims.lz4Compress b).length < b.length := by
    rw [List.length_append]
    exact Nat.not_lt.mpr (Nat.le_add_left _ _)
  simp only [maybeCompress, if_neg hlonger, ite_self]

end CockroachChat.Reference
