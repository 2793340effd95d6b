import CockroachChat.Flood.Inventory
import CockroachChat.Flood.Relaying

/-! # Sync requests beyond one hop

A node builds its sync requests with one hop to live, and nothing else keeps them on the link: the
relay path looks at the TTL byte alone, which no signature covers. -/
namespace CockroachChat
set_option autoImplicit false

/-- Whoever receives these bytes as a sync request is told that it comes from `eph`. -/
def NamesOnly (eph : EphId) (b : Bytes) : Prop :=
  ∀ q, Packet.decode b = .ok q → q.msgType = .syncRequest → q.sender = eph

theorem namesOnly_encode {eph : EphId} {p : Packet} (h : p.msgType.toU8 = MsgType.syncRequest.toU8 → p.sender = eph) :
    NamesOnly eph p.encode := by
  intro q hdecode htype
  obtain ⟨-, -, rfl⟩ := (Packet.decode_eq_ok_iff _ _).mp hdecode
  have hsender : (Packet.parsed p.encode).sender = p.sender := by
    show arrayOf 8 (p.encode.drop 12) = p.sender
    rw [(Packet.drop_encode p).2.1, arrayOf_toList_append]
  have hbyte : (Packet.parsed p.encode).msgType.toU8 = p.msgType.toU8 := by
    show (MsgType.fromU8 (Packet.byteAt p.encode 1)).toU8 = _
    rw [MsgType.toU8_fromU8, Packet.encode_eq]
    rfl
  rw [hsender]
  exact h (by rw [← hbyte, htype])

/-- A frame that is a packet by itself is framed from that packet alone. -/
theorem Framed.complete {b b' : Bytes} (h : Framed b' (kindComplete :: b)) : b' = b := by
  obtain ⟨digest, mtu, frames, hsplit, hmem⟩ := h
  unfold split at hsplit
  simp only at hsplit
  split_ifs at hsplit
  · cases hsplit
    exact (List.cons.inj (List.mem_singleton.mp hmem)).2.symm
  · cases hsplit
    obtain ⟨i, hi, hframe⟩ := List.mem_mapIdx.mp hmem
    cases (List.cons.inj hframe).1

variable [P : Prims] {S : Type} [Store S]

namespace MeshNode

/-- Every sync request the node has sent, whole or in pieces, names the node. -/
def LinkLocal (s : MeshNode S) : Prop :=
  ∀ link f, Obs.send link f ∈ s.trace →
    (∃ b, Framed b f ∧ NamesOnly s.ephId b) ∧ ∀ b, f = kindComplete :: b → NamesOnly s.ephId b

/-- The packet that the call takes in is no sync request with hops left that names somebody else. -/
def OneHop (s : MeshNode S) (c : Call) : Prop :=
  ∀ pkt ∈ (s.at_ c.now).taken c.action, pkt.msgType = .syncRequest → pkt.sender ≠ s.ephId → pkt.ttl ≤ 1

instance (s : MeshNode S) (c : Call) : Decidable (s.OneHop c) :=
  inferInstanceAs (Decidable (∀ pkt ∈ _, _ → _ → _))

variable [A : ArchiveStore S]

/-- Nothing that the node sent, holds for relaying, or would resend is a sync request of somebody else. -/
structure Localized (eph : EphId) (s : MeshNode S) : Prop where
  own : s.ephId = eph
  sent : ∀ link f, Obs.send link f ∈ s.trace → ∃ b, Framed b f ∧ NamesOnly eph b
  pending : ∀ (d : Digest) (e : Pending), s.scheduler.pending[d]? = some e → NamesOnly eph e.packet.encode
  stored : ∀ m ∈ A.archived s.store, NamesOnly eph m.raw

theorem Localized.linkLocal {eph : EphId} {s : MeshNode S} (h : Localized eph s) : s.LinkLocal := by
  rw [LinkLocal, h.own]
  intro link f hmem
  obtain ⟨b, hframed, hnames⟩ := h.sent link f hmem
  refine ⟨⟨b, hframed, hnames⟩, ?_⟩
  rintro b' rfl
  rwa [hframed.complete] at hnames

omit [Store S] A in
theorem heard_of_arrival {s : MeshNode S} {a : Action} {link : LinkId} {bytes : Bytes} {pkt : Packet}
    (harrival : s.arrival a = some (link, bytes)) (hdecode : Packet.decode bytes = .ok pkt) : s.heard a = some pkt := by
  unfold arrival at harrival
  split at harrival
  · split at harrival
    · rename_i link' frame result hresult
      cases harrival
      simp only [heard, assembled, hresult, hdecode, Except.toOption]
    · cases harrival
  · cases harrival

omit A in
/-- What a call builds carries the node's own name. -/
theorem exec_built (s : MeshNode S) (c : Call) : (exec s c).ephId = s.ephId ∧
    ∃ os, (exec s c).trace = s.trace ++ os ∧ ∀ pkt ∈ os.filterMap Obs.built, pkt.sender = s.ephId := by
  obtain ⟨hid, os, htr, hos⟩ := exec_adds (p := fun id o => ∀ pkt, o.built = some pkt → pkt.sender = id.ephId) s c
    (fun _ _ _ h => by cases h)
    (fun id o hdirect pkt h => by
      cases o <;> cases h
      exact hdirect)
    fun _ _ _ h => by cases h
  refine ⟨congrArg LocalIdentity.ephId hid, os, htr, fun pkt hpkt => ?_⟩
  obtain ⟨o, ho, hbuilt⟩ := List.mem_filterMap.mp hpkt
  exact hos o ho pkt hbuilt

theorem exec_localized {eph : EphId} {s : MeshNode S} (h : Localized eph s) {c : Call} (oneHop : s.OneHop c) :
    Localized eph (exec s c) := by
  obtain ⟨hown, os, htr, hbuilt⟩ := exec_built s c
  obtain ⟨os', htr', hsend, -, hstore⟩ := act_yields (s.at_ c.now) c.action
  obtain rfl : os = os' := List.append_cancel_left (htr.symm.trans htr')
  rw [h.own] at hown hbuilt
  have hnames : ∀ pkt ∈ os.filterMap Obs.built, NamesOnly eph pkt.encode := fun pkt hpkt =>
    namesOnly_encode fun _ => hbuilt pkt hpkt
  refine ⟨hown, fun link f hmem => ?_, fun d e held => ?_, fun m hm => ?_⟩
  · rw [htr] at hmem
    rcases List.mem_append.mp hmem with hmem | hmem
    · exact h.sent link f hmem
    · rcases hsend link f hmem with ⟨pkt, hpkt, hframed⟩ | ⟨b, hpass, hframed⟩
      · exact ⟨_, hframed, hnames pkt hpkt⟩
      · rcases hpass with ⟨-, r, hr, rfl⟩ | ⟨m, hm, rfl⟩
        · obtain ⟨d, e, held, -, -, rfl⟩ := RelayScheduler.mem_due.mp hr
          exact ⟨_, hframed, h.pending d e held⟩
        · exact ⟨_, hframed, h.stored m hm⟩
  · rcases exec_scheduler s c with
      ⟨link, bytes, pkt, delay, now, harrival, hdecode, httl, haccepts, hsched⟩ | ⟨-, hsched⟩ | ⟨-, hsched⟩
    · rw [hsched, RelayScheduler.schedule_pending] at held
      split_ifs at held
      · cases held
        refine namesOnly_encode fun hsync => ?_
        by_contra hother
        have htype : pkt.msgType = .syncRequest := by
          rw [← (Packet.canonical_of_decode hdecode).1.msgType, hsync]
          rfl
        have htaken : (s.at_ c.now).taken c.action = some pkt := by
          rw [taken, heard_of_arrival harrival hdecode, Option.filter_some, if_pos haccepts]
        have hone := UInt8.le_iff_toNat_le.mp (oneHop pkt htaken htype (h.own ▸ hother))
        have htwo := UInt8.le_iff_toNat_le.mp httl
        exact absurd (htwo.trans hone) (by decide)
      · exact h.pending d e held
    · rw [hsched, RelayScheduler.due_pending] at held
      exact h.pending d e (Option.mem_filter_iff.mp held).1
    · rw [hsched] at held
      exact h.pending d e held
  · rcases hstore m hm with hm | ⟨pkt, hpkt, hraw⟩ | ⟨pkt, -, htype, hraw⟩
    · exact h.stored m hm
    · rw [hraw]
      exact hnames pkt hpkt
    · rw [hraw]
      refine namesOnly_encode fun hsync => ?_
      rw [htype] at hsync
      cases hsync

end MeshNode
end CockroachChat

namespace CockroachChat.Reference
open MeshNode
attribute [local instance] prims

/-- A sync request in the name of node 9, which nobody has to sign. -/
def strangersRequest (ttl : UInt8) : Packet := Packet.new .syncRequest ttl 0 (Vector.replicate 8 9) none []

/-- Node 1 has two links; the request arrives on the first. -/
def requested (ttl : UInt8) : List (Unit × Call) :=
  ([up 0 0, up 0 1] ++ arriving 1 0 [frameOf (strangersRequest ttl)] ++ [(⟨1000, .tick⟩ : Call)]).map ((), ·)

end CockroachChat.Reference
