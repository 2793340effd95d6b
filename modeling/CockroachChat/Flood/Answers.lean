import CockroachChat.Core.PacketCodec
import CockroachChat.Flood.Inventory
import CockroachChat.Node.ReferenceNodes
import CockroachChat.Stores.Retention

/-! # Answers to sync requests

A request lists the digests that the neighbour holds of a channel. The answer is the stored packets of
the others, each of them once. -/
namespace CockroachChat
set_option autoImplicit false

/-! ## The request -/

theorem SyncFilter.mem_new {channel : String} {ds : List Digest} {d : Digest} : d ∈ (SyncFilter.new channel ds).digests ↔ d ∈ ds := by
  show d ∈ (Std.ExtTreeSet.ofList ds compare).toList ↔ d ∈ ds
  rw [Std.ExtTreeSet.mem_toList, Std.ExtTreeSet.mem_ofList, List.contains_iff_mem]

/-- Sorting and cutting repetitions once more changes nothing. -/
theorem SyncFilter.new_digests (channel : String) (ds : List Digest) :
    SyncFilter.new channel (SyncFilter.new channel ds).digests = SyncFilter.new channel ds := by
  have hset : Std.ExtTreeSet.ofList (SyncFilter.new channel ds).digests compare = Std.ExtTreeSet.ofList ds compare := by
    refine Std.ExtTreeSet.ext_mem fun d => ?_
    rw [Std.ExtTreeSet.mem_ofList, Std.ExtTreeSet.mem_ofList, List.contains_iff_mem, List.contains_iff_mem, SyncFilter.mem_new]
  show SyncFilter.mk channel (Std.ExtTreeSet.ofList _ compare).toList = _
  rw [hset]
  rfl

theorem SyncFilter.nodup_new (channel : String) (ds : List Digest) : (SyncFilter.new channel ds).digests.Nodup := by
  refine (Std.ExtTreeSet.distinct_toList (t := Std.ExtTreeSet.ofList ds compare)).imp fun {a b} h => ?_
  rintro rfl
  exact h Std.ReflCmp.compare_self

theorem digestChunks_flatMap (ds : List Digest) (fuel : ℕ) (enough : ds.length ≤ fuel) :
    digestChunks fuel (ds.flatMap Vector.toList) = ds := by
  induction ds generalizing fuel with
  | nil => cases fuel <;> rfl
  | cons d ds ih =>
    cases fuel with
    | zero => cases enough
    | succ fuel =>
      have hlong : ¬ (d.toList ++ ds.flatMap Vector.toList).length < 8 := by simp
      have hdrop : (d.toList ++ ds.flatMap Vector.toList).drop 8 = ds.flatMap Vector.toList := List.drop_left' (by simp)
      rw [List.flatMap_cons, digestChunks, if_neg hlong, arrayOf_toList_append, hdrop, ih fuel (Nat.le_of_succ_le_succ enough)]

/-- A request reads back as it was made. -/
theorem decodeSync_encodeSync {channel : String} (short : (asBytes channel).length ≤ 255) (ds : List Digest) :
    decodeSync (encodeSync (SyncFilter.new channel ds)) = some (SyncFilter.new channel ds) := by
  have hclen : min (asBytes channel).length 255 = (asBytes channel).length := Nat.min_eq_left short
  have hbyte : (UInt8.ofNat (asBytes channel).length).toNat = (asBytes channel).length := by
    rw [UInt8.toNat_ofNat']
    omega
  have hpayload : encodeSync (SyncFilter.new channel ds) = UInt8.ofNat (asBytes channel).length ::
      (asBytes channel ++ (SyncFilter.new channel ds).digests.flatMap Vector.toList) := by
    have hname : (SyncFilter.new channel ds).channel = channel := rfl
    simp [encodeSync, hname, hclen]
  have hfuel : (SyncFilter.new channel ds).digests.length ≤ ((SyncFilter.new channel ds).digests.flatMap Vector.toList).length := by
    simp [List.length_flatMap]
    omega
  rw [hpayload, decodeSync]
  simp only [hbyte, List.take_left, List.drop_left, List.length_cons, List.length_append]
  rw [if_neg (by omega), fromUtf8Lossy_asBytes, digestChunks_flatMap _ _ hfuel, SyncFilter.new_digests]

/-! ## The store -/

theorem MemoryStore.Filed.congr {s t : MemoryStore} (h : s.Filed) (channels : t.channels = s.channels)
    (digests : t.digests = s.digests) : t.Filed where
  known channel d := by
    have h := h.known channel d
    unfold MemoryStore.hasMessage MemoryStore.channelDigests at h ⊢
    rwa [channels, digests]
  once channel := by
    have h := h.once channel
    unfold MemoryStore.channelDigests at h ⊢
    rwa [channels]
  apart channel channel' d := by
    have h := h.apart channel channel' d
    unfold MemoryStore.channelDigests at h ⊢
    rwa [channels]

theorem MemoryStore.filed_empty {s : MemoryStore} (channels : s.channels = ∅) : s.Filed := by
  constructor <;> simp [MemoryStore.channelDigests, channels]

/-- A stored message is found by its digest. -/
theorem MemoryStore.Filed.find {s : MemoryStore} (h : s.Filed) {channel : String} {m : StoredMessage} (hm : m ∈ s.rows channel) :
    s.messageByDigest m.digest = some m := by
  have hmem : m ∈ s.channels.values.flatten := MemoryStore.mem_values.mpr ⟨channel, hm⟩
  have hsome : (s.messageByDigest m.digest).isSome := List.find?_isSome.mpr ⟨m, hmem, by simp⟩
  obtain ⟨m', hfind⟩ := Option.isSome_iff_exists.mp hsome
  have hdigest : m'.digest = m.digest := by simpa using List.find?_some hfind
  obtain ⟨channel', hm'⟩ := MemoryStore.mem_values.mp (List.mem_of_find?_eq_some hfind)
  have hheld : m.digest ∈ s.channelDigests channel := MemoryStore.mem_digests.mpr ⟨m, hm, rfl⟩
  have hheld' : m.digest ∈ s.channelDigests channel' := MemoryStore.mem_digests.mpr ⟨m', hm', hdigest⟩
  obtain rfl := h.apart channel channel' m.digest hheld hheld'
  rw [hfind, List.inj_on_of_nodup_map (h.once channel) hm' hm hdigest]

theorem StoreOp.apply_filed {s : MemoryStore} (h : s.Filed) (op : StoreOp) : (op.apply s).Filed := by
  cases op with
  | putChannelMessage msg =>
    have happly : apply s (.putChannelMessage msg) = s.putChannelMessage msg := rfl
    rw [happly]
    cases hmsg : s.hasMessage msg.digest with
    | true =>
      rw [MemoryStore.putChannelMessage_known hmsg]
      exact h
    | false => exact h.put hmsg
  | deleteDms fp onlyControl =>
    have happly : apply s (.deleteDms fp onlyControl) = s.deleteDms fp onlyControl := rfl
    rw [happly, MemoryStore.deleteDms]
    split_ifs
    · cases s.dms[fp]? <;> exact h.congr rfl rfl
    · exact h.congr rfl rfl
  | panicWipe => exact MemoryStore.filed_empty rfl
  | upsertPeer | putDm | queueEnvelope | takeEnvelopes | deletePeer => exact h.congr rfl rfl

/-- The messages that come in carry the bytes of a packet. -/
def StoreOp.Raw : StoreOp → Prop
  | putChannelMessage msg => ∃ pkt : Packet, msg.raw = pkt.encode
  | _ => True

theorem StoreOp.apply_messages {s : MemoryStore} (op : StoreOp) {m : StoredMessage} (h : m ∈ (op.apply s).messages) :
    m ∈ s.messages ∨ op = .putChannelMessage m := by
  cases op with
  | putChannelMessage msg => exact (MemoryStore.putChannelMessage_messages s msg h).elim (fun heq => .inr (heq ▸ rfl)) .inl
  | deleteDms fp onlyControl => exact .inl (ArchiveStore.delete_dms s fp onlyControl m h)
  | panicWipe => exact absurd h (ArchiveStore.wipe s m)
  | upsertPeer | putDm | queueEnvelope | takeEnvelopes | deletePeer => exact .inl h

/-- After any operations, every message is filed once, with the bytes of a packet. -/
theorem StoreOp.run_filed (historyMax envelopeMaxPerPeer : ℕ) (historyMs envelopeTtlMs : Millis) (ops : List StoreOp)
    (raw : ∀ op ∈ ops, op.Raw) :
    (Runs.run apply (MemoryStore.new historyMax historyMs envelopeTtlMs envelopeMaxPerPeer) ops).Filed ∧
      ∀ m ∈ (Runs.run apply (MemoryStore.new historyMax historyMs envelopeTtlMs envelopeMaxPerPeer) ops).messages,
        ∃ pkt : Packet, m.raw = pkt.encode := by
  have hstep : ∀ (s : MemoryStore) (op : StoreOp), (s.Filed ∧ ∀ m ∈ s.messages, ∃ pkt : Packet, m.raw = pkt.encode) → op.Raw →
      (op.apply s).Filed ∧ ∀ m ∈ (op.apply s).messages, ∃ pkt : Packet, m.raw = pkt.encode := by
    rintro s op ⟨hfiled, hall⟩ hop
    refine ⟨apply_filed hfiled op, fun m hm => ?_⟩
    rcases apply_messages op hm with hold | rfl
    · exact hall m hold
    · exact hop
  refine Runs.run_guarded apply _ (fun _ op => op.Raw) hstep _ ⟨MemoryStore.filed_empty rfl, ?_⟩ ops fun pre op post hsplit => ?_
  · intro m hm
    obtain ⟨channel, msgs, hheld, -⟩ := MemoryStore.mem_messages.mp hm
    simp [MemoryStore.new] at hheld
  · exact raw op (by simp [hsplit])

/-! ## The answer -/

theorem Packet.encode_ne_nil (pkt : Packet) : pkt.encode ≠ [] := by
  rw [Packet.encode_eq]
  simp

variable [P : Prims]

namespace MeshNode

/-- The frames of a stored message. -/
def framesOf (mtu : ℕ) (m : StoredMessage) : List Bytes := (split m.raw m.digest mtu).toOption.getD []

/-- Resending stored messages that are found by their digests. -/
theorem resendAll (answer : List StoredMessage) (link : LinkId) {s : MeshNode MemoryStore}
    (found : ∀ m ∈ answer, s.store.messageByDigest m.digest = some m) (raw : ∀ m ∈ answer, m.raw ≠ []) :
    (answer.map (·.digest)).foldl (fun t digest => t.resendStored link digest) s =
      { s with trace := s.trace ++ answer.flatMap fun m => (framesOf (s.linkMtu link) m).map (.send link) } := by
  induction answer generalizing s with
  | nil => simp
  | cons m answer ih =>
    have hfound : Store.messageByDigest s.store m.digest = some m := found m List.mem_cons_self
    have hone : s.resendStored link m.digest =
        { s with trace := s.trace ++ (framesOf (s.linkMtu link) m).map (.send link) } := by
      rw [resendStored, hfound]
      simp only [raw m List.mem_cons_self, ne_eq, not_false_eq_true, if_true]
      rw [sendBytes_eq, sendObs, framesOf]
      cases split m.raw m.digest (s.linkMtu link) <;> rfl
    have hrest := ih (s := { s with trace := s.trace ++ (framesOf (s.linkMtu link) m).map (.send link) })
      (fun d hd => found d (List.mem_cons_of_mem m hd)) fun d hd => raw d (List.mem_cons_of_mem m hd)
    rw [List.map_cons, List.foldl_cons, hone, hrest, List.flatMap_cons, List.append_assoc]
    rfl

/-- A request reads back as it was made, and on a link whose MTU serves the stored packets it is
answered with the frames of each stored message of the channel that it does not list, once, and with
nothing else. -/
theorem sync_answer_exact {channel : String} (short : (asBytes channel).length ≤ 255) (ds : List Digest) :
    decodeSync (encodeSync (SyncFilter.new channel ds)) = some (SyncFilter.new channel ds) ∧
      ∀ (historyMax envelopeMaxPerPeer : ℕ) (historyMs envelopeTtlMs : Millis) (ops : List StoreOp), (∀ op ∈ ops, op.Raw) →
        ∀ (s : MeshNode MemoryStore) (link : LinkId) (l : LinkState) (pkt : Packet),
          s.store = Runs.run StoreOp.apply (MemoryStore.new historyMax historyMs envelopeTtlMs envelopeMaxPerPeer) ops →
          s.links[link]? = some l → pkt.payload = encodeSync (SyncFilter.new channel ds) →
          (∀ m ∈ s.store.rows channel, m.digest ∉ ds → (split m.raw m.digest l.mtu).isOk) →
          ∃ (answer : List StoredMessage) (frames : StoredMessage → List Bytes),
            answer.Perm ((s.store.rows channel).filter (·.digest ∉ ds)) ∧ answer.Nodup ∧
            (∀ m ∈ answer, split m.raw m.digest l.mtu = .ok (frames m)) ∧
            s.handleSyncRequest link pkt =
              { s with trace := s.trace ++ answer.flatMap fun m => (frames m).map (.send link) } := by
  refine ⟨decodeSync_encodeSync short ds, ?_⟩
  intro historyMax envelopeMaxPerPeer historyMs envelopeTtlMs ops raw s link l pkt hstore hlink hpayload hserved
  obtain ⟨hfiled, hraw⟩ := StoreOp.run_filed historyMax envelopeMaxPerPeer historyMs envelopeTtlMs ops raw
  rw [← hstore] at hfiled hraw
  let mine : SyncFilter := SyncFilter.new channel (s.store.channelDigests channel)
  let missing : List Digest := mine.missingFrom (SyncFilter.new channel ds)
  let answer : List StoredMessage := missing.filterMap s.store.messageByDigest
  have hmtu : s.linkMtu link = l.mtu := by simp [linkMtu, hlink]
  have hmissing : ∀ d, d ∈ missing ↔ (∃ m ∈ s.store.rows channel, m.digest = d) ∧ d ∉ ds := by
    intro d
    simp only [missing, mine, SyncFilter.missingFrom, List.mem_filter, SyncFilter.mem_new, MemoryStore.mem_digests,
      Bool.not_eq_true', List.contains_eq_mem, decide_eq_false_iff_not]
  have hnodup : missing.Nodup := (SyncFilter.nodup_new channel _).filter _
  have hfind : ∀ m ∈ s.store.rows channel, s.store.messageByDigest m.digest = some m := fun m hm => hfiled.find hm
  have hanswer : ∀ m, m ∈ answer ↔ m ∈ s.store.rows channel ∧ m.digest ∉ ds := by
    intro m
    simp only [answer, List.mem_filterMap, hmissing]
    constructor
    · rintro ⟨d, ⟨⟨m', hm', rfl⟩, hd⟩, hfound⟩
      rw [hfind m' hm'] at hfound
      cases hfound
      exact ⟨hm', hd⟩
    · rintro ⟨hm, hd⟩
      exact ⟨m.digest, ⟨⟨m, hm, rfl⟩, hd⟩, hfind m hm⟩
  have hdigests : answer.map (·.digest) = missing := by
    have hall : ∀ l' : List Digest, (∀ d ∈ l', ∃ m, s.store.messageByDigest d = some m ∧ m.digest = d) →
        (l'.filterMap s.store.messageByDigest).map (·.digest) = l' := by
      intro l'
      induction l' with
      | nil => exact fun _ => rfl
      | cons d l' ih =>
        intro h
        obtain ⟨m, hm, hd⟩ := h d List.mem_cons_self
        rw [List.filterMap_cons_some hm, List.map_cons, hd, ih fun d' hd' => h d' (List.mem_cons_of_mem d hd')]
    refine hall missing fun d hd => ?_
    obtain ⟨⟨m, hm, rfl⟩, -⟩ := (hmissing d).mp hd
    exact ⟨m, hfind m hm, rfl⟩
  have hanswerNodup : answer.Nodup := by
    refine List.Nodup.of_map (·.digest) ?_
    rw [hdigests]
    exact hnodup
  refine ⟨answer, framesOf l.mtu, ?_, hanswerNodup, ?_, ?_⟩
  · have honce : ((s.store.rows channel).map StoredMessage.digest).Nodup := hfiled.once channel
    have hrows : ((s.store.rows channel).filter (·.digest ∉ ds)).Nodup := (List.Nodup.of_map _ honce).filter _
    rw [List.perm_ext_iff_of_nodup hanswerNodup hrows]
    intro m
    rw [hanswer, List.mem_filter, decide_eq_true_eq]
  · intro m hm
    obtain ⟨hrow, hd⟩ := (hanswer m).mp hm
    have hok := hserved m hrow hd
    cases hsplit : split m.raw m.digest l.mtu with
    | error e => rw [hsplit] at hok; cases hok
    | ok frames => simp [framesOf, hsplit, Except.toOption]
  · have hremote : decodeSync pkt.payload = some (SyncFilter.new channel ds) := hpayload ▸ decodeSync_encodeSync short ds
    have hhandle : s.handleSyncRequest link pkt = missing.foldl (fun t digest => t.resendStored link digest) s := by
      simp only [handleSyncRequest, hremote]
      rfl
    rw [hhandle, ← hdigests, resendAll answer link, hmtu]
    · exact fun m hm => hfind m ((hanswer m).mp hm).1
    · intro m hm
      obtain ⟨bytes, hbytes⟩ := hraw m (MemoryStore.mem_values.mpr ⟨channel, ((hanswer m).mp hm).1⟩)
      rw [hbytes]
      exact Packet.encode_ne_nil bytes

end MeshNode
end CockroachChat

namespace CockroachChat.Reference
attribute [local instance] prims

def flyer (n : ℕ) : Packet := (Packet.new .channelMessage 7 n (Vector.replicate 8 1) none []).signWith (1 : UInt8)

/-- The flyer as it is stored. -/
def filedFlyer (n : ℕ) : StoredMessage :=
  { digest := (flyer n).digest, channel := defaultChannel, sender := Vector.replicate 8 1, timestampMs := n, body := []
    raw := (flyer n).encode }

def threeFlyers : List StoreOp := [1, 2, 3].map fun n => .putChannelMessage (filedFlyer n)

/-- Node 1 with its link up and three flyers in its store. -/
def archivist : Node := { linked 1 with store := Runs.run StoreOp.apply (MemoryStore.new 10 0 0 10) threeFlyers }

/-- A neighbour has the second. -/
def asking : Packet :=
  Packet.new .syncRequest 1 0 (Vector.replicate 8 2) none (encodeSync (SyncFilter.new defaultChannel [(flyer 2).digest]))

theorem two_flyers_sent : ∃ (answer : List StoredMessage) (frames : StoredMessage → List Bytes),
    answer.Perm [filedFlyer 1, filedFlyer 3] ∧ answer.Nodup ∧
      (archivist.handleSyncRequest 0 asking).trace = archivist.trace ++ answer.flatMap fun m => (frames m).map (.send 0) := by
  have hraw : ∀ op ∈ threeFlyers, op.Raw := by
    intro op hop
    obtain ⟨n, -, rfl⟩ := List.mem_map.mp hop
    exact ⟨flyer n, rfl⟩
  have hlink : archivist.links[(0 : LinkId)]? = some ⟨1000, none, none⟩ := by decide +kernel
  obtain ⟨answer, frames, hperm, hnodup, -, hhandle⟩ :=
    (MeshNode.sync_answer_exact (by decide +kernel) [(flyer 2).digest]).2 10 10 0 0 threeFlyers hraw
      archivist 0 _ asking rfl hlink rfl (by decide +kernel)
  have hrows : (archivist.store.rows defaultChannel).filter (·.digest ∉ [(flyer 2).digest]) = [filedFlyer 1, filedFlyer 3] := by
    decide +kernel
  rw [hrows] at hperm
  exact ⟨answer, frames, hperm, hnodup, by rw [hhandle]⟩

end CockroachChat.Reference
