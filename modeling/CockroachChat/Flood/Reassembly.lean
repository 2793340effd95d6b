import CockroachChat.Core.PacketCodec
import CockroachChat.Foundations.Runs

/-! # Fragments and their reassembly

The slot of a digest holds the chunks that have arrived, whatever the order and the repetitions, and
the last missing one completes the message. -/
namespace CockroachChat
set_option autoImplicit false

/-! ## Splitting -/

theorem chunksAux_flatten {size : ℕ} (hsize : 0 < size) (fuel : ℕ) (b : Bytes) (hfuel : b.length ≤ fuel) :
    (chunksAux size fuel b).flatten = b := by
  induction fuel generalizing b with
  | zero => simp [chunksAux, List.length_eq_zero_iff.mp (Nat.le_zero.mp hfuel)]
  | succ fuel ih =>
    cases b with
    | nil => rfl
    | cons x b =>
      have hdrop : ((x :: b).drop size).length ≤ fuel := by
        rw [List.length_drop]
        omega
      rw [chunksAux, List.flatten_cons, ih _ hdrop, List.take_append_drop]

theorem chunks_flatten {size : ℕ} (hsize : 0 < size) (b : Bytes) : (chunks size b).flatten = b :=
  chunksAux_flatten hsize b.length b le_rfl

theorem chunksAux_length {size : ℕ} (hsize : 0 < size) (fuel : ℕ) (b : Bytes) (hfuel : b.length ≤ fuel) :
    (chunksAux size fuel b).length = (b.length + size - 1) / size := by
  induction fuel generalizing b with
  | zero =>
    rw [Nat.le_zero.mp hfuel, Nat.zero_add, Nat.div_eq_of_lt (by omega)]
    rfl
  | succ fuel ih =>
    cases b with
    | nil =>
      rw [List.length_nil, Nat.zero_add, Nat.div_eq_of_lt (by omega)]
      rfl
    | cons x b =>
      have hdrop : ((x :: b).drop size).length = (x :: b).length - size := List.length_drop
      have hpos : 0 < (x :: b).length := List.length_pos_of_ne_nil (List.cons_ne_nil _ _)
      rw [chunksAux, List.length_cons, ih _ (by rw [hdrop]; omega), hdrop]
      by_cases hle : (x :: b).length ≤ size
      · rw [show (x :: b).length - size + size - 1 = size - 1 by omega, Nat.div_eq_of_lt (by omega),
          show (x :: b).length + size - 1 = (x :: b).length - 1 + size by omega, Nat.add_div_right _ hsize,
          Nat.div_eq_of_lt (by omega)]
      · rw [show (x :: b).length + size - 1 = (x :: b).length - size + size - 1 + size by omega,
          Nat.add_div_right _ hsize]

theorem chunks_length {size : ℕ} (hsize : 0 < size) (b : Bytes) :
    (chunks size b).length = (b.length + size - 1) / size := chunksAux_length hsize b.length b le_rfl

theorem length_le_of_mem_chunks {size : ℕ} {b c : Bytes} (h : c ∈ chunks size b) : c.length ≤ size := by
  have haux : ∀ (fuel : ℕ) (b : Bytes), c ∈ chunksAux size fuel b → c.length ≤ size := by
    intro fuel
    induction fuel with
    | zero => exact fun b h => nomatch h
    | succ fuel ih =>
      intro b h
      cases b with
      | nil => exact nomatch h
      | cons x b =>
        rcases List.mem_cons.mp h with rfl | h
        · exact List.length_take_le _ _
        · exact ih _ h
  exact haux _ _ h

/-! ## Frames -/

/-- A readable fragment of the message with this digest. -/
def OfDigest (digest : Digest) (frame : Bytes) : Prop :=
  frame.head? = some kindFragment ∧ fragHeader ≤ frame.length ∧ arrayOf 8 (frame.drop 1) = digest

instance (digest : Digest) (frame : Bytes) : Decidable (OfDigest digest frame) :=
  inferInstanceAs (Decidable (_ ∧ _ ∧ _))

def frameIndex (frame : Bytes) : ℕ := ofBe ((frame.drop 9).take 2)

def frameTotal (frame : Bytes) : ℕ := ofBe ((frame.drop 11).take 2)

section Frame
variable (digest : Digest) {total i : ℕ} (chunk : Bytes)

theorem fragmentFrame_ofDigest (total i : ℕ) : OfDigest digest (fragmentFrame digest total i chunk) := by
  refine ⟨rfl, ?_, ?_⟩
  · simp [fragmentFrame, fragHeader]
    omega
  · show arrayOf 8 (digest.toList ++ beBytes 2 i ++ beBytes 2 total ++ chunk) = digest
    rw [List.append_assoc, List.append_assoc, arrayOf_toList_append]

theorem fragmentFrame_index (total : ℕ) (h : i < 65536) : frameIndex (fragmentFrame digest total i chunk) = i := by
  have hdrop : (fragmentFrame digest total i chunk).drop 9 = beBytes 2 i ++ (beBytes 2 total ++ chunk) := by
    show (digest.toList ++ beBytes 2 i ++ beBytes 2 total ++ chunk).drop 8 = _
    rw [List.append_assoc, List.append_assoc, List.drop_left' (by simp)]
  rw [frameIndex, hdrop, List.take_left' (beBytes_length 2 _), ofBe_beBytes_of_lt h]

theorem fragmentFrame_total (i : ℕ) (h : total < 65536) : frameTotal (fragmentFrame digest total i chunk) = total := by
  have hdrop : (fragmentFrame digest total i chunk).drop 11 = beBytes 2 total ++ chunk := by
    show (digest.toList ++ beBytes 2 i ++ beBytes 2 total ++ chunk).drop 10 = _
    rw [List.append_assoc, List.drop_left' (by simp)]
  rw [frameTotal, hdrop, List.take_left' (beBytes_length 2 _), ofBe_beBytes_of_lt h]

theorem fragmentFrame_chunk (total i : ℕ) : (fragmentFrame digest total i chunk).drop fragHeader = chunk := by
  show (digest.toList ++ beBytes 2 i ++ beBytes 2 total ++ chunk).drop 12 = chunk
  rw [List.drop_left' (by simp)]

theorem fragmentFrame_length (total i : ℕ) : (fragmentFrame digest total i chunk).length = 13 + chunk.length := by
  simp [fragmentFrame]
  omega

end Frame

/-! ## Slots -/

namespace Reassembler

/-- The slot holds exactly the chunks of the message with indices in `A`. -/
structure Filled (cs : List Bytes) (A : Finset ℕ) (p : Partial) : Prop where
  indices : A ⊆ Finset.range cs.length
  total : p.total = cs.length
  chunks : p.chunks = cs.mapIdx fun i c => if i ∈ A then some c else none
  received : p.received = A.card
  bytes : p.bytes = ∑ i ∈ A, (cs.getD i []).length

theorem filled_fresh (cs : List Bytes) (now : Millis) : Filled cs ∅ (freshPartial cs.length now) where
  indices := Finset.empty_subset _
  total := rfl
  chunks := by
    rw [freshPartial]
    refine List.ext_getElem (by simp) fun i h₁ h₂ => ?_
    simp
  received := rfl
  bytes := by simp [freshPartial]

/-- The slot after one more chunk. -/
def fillSlot (p : Partial) (i : ℕ) (chunk : Bytes) : Partial :=
  { p with
    chunks := p.chunks.set i (some chunk)
    received := p.received + 1
    bytes := p.bytes + chunk.length }

variable {cs : List Bytes} {A : Finset ℕ} {p : Partial}

theorem Filled.isNone_iff (h : Filled cs A p) {i : ℕ} (hi : i < cs.length) :
    (p.chunks.getD i none).isNone = true ↔ i ∉ A := by
  rw [h.chunks, List.getD_eq_getElem?_getD, List.getElem?_mapIdx, List.getElem?_eq_getElem hi]
  simp

theorem Filled.fill (h : Filled cs A p) {i : ℕ} (hi : i < cs.length) (fresh : i ∉ A) :
    Filled cs (insert i A) (fillSlot p i (cs.getD i [])) where
  indices := Finset.insert_subset (Finset.mem_range.mpr hi) h.indices
  total := h.total
  chunks := by
    have hget : cs.getD i [] = cs[i] := by simp [List.getD_eq_getElem?_getD, List.getElem?_eq_getElem hi]
    rw [fillSlot, h.chunks, hget]
    refine List.ext_getElem (by simp) fun j h₁ h₂ => ?_
    rw [List.getElem_set]
    by_cases hij : i = j
    · subst hij
      simp
    · simp [hij, Ne.symm hij]
  received := by
    rw [fillSlot, Finset.card_insert_of_notMem fresh, h.received]
  bytes := by
    show p.bytes + _ = _
    rw [Finset.sum_insert fresh, h.bytes, Nat.add_comm]

/-- With every index filled, the chunks in order are the message. -/
theorem Filled.assembled (h : Filled cs (Finset.range cs.length) p) : p.chunks.flatMap (·.getD []) = cs.flatten := by
  rw [h.chunks]
  have hall : (cs.mapIdx fun i c => if i ∈ Finset.range cs.length then some c else none) = cs.map some := by
    refine List.ext_getElem (by simp) fun i h₁ h₂ => ?_
    have hi : i < cs.length := by simpa using h₂
    simp [hi]
  rw [hall, List.flatMap_map]
  exact List.flatMap_id'

theorem sum_getD_length (cs : List Bytes) :
    ∑ j ∈ Finset.range cs.length, (cs.getD j []).length = cs.flatten.length := by
  induction cs with
  | nil => rfl
  | cons c cs ih =>
    rw [List.length_cons, Finset.sum_range_succ', List.flatten_cons, List.length_append, ← ih, Nat.add_comm]
    simp

theorem Filled.bytes_le (h : Filled cs A p) {i : ℕ} (hi : i < cs.length) (fresh : i ∉ A) :
    p.bytes + (cs.getD i []).length ≤ cs.flatten.length := by
  have hinsert := Finset.sum_insert (f := fun j => (cs.getD j []).length) fresh
  rw [h.bytes, ← sum_getD_length, Nat.add_comm, ← hinsert]
  exact Finset.sum_le_sum_of_subset (Finset.insert_subset (Finset.mem_range.mpr hi) h.indices)

/-- What the node holds of a message of which the chunks in `A` have arrived. -/
def Slot (r : Reassembler) (digest : Digest) (cs : List Bytes) (A : Finset ℕ) : Prop :=
  ∀ now, Filled cs A (r.slots[digest]?.getD (freshPartial cs.length now))

theorem Slot.of_lookup {r r' : Reassembler} {digest : Digest} (h : r.Slot digest cs A)
    (same : r'.slots[digest]? = r.slots[digest]?) : r'.Slot digest cs A := fun now => by
  rw [same]
  exact h now

theorem slot_free {r : Reassembler} {digest : Digest} (free : r.slots[digest]? = none) (cs : List Bytes) :
    r.Slot digest cs ∅ := fun now => by
  rw [free]
  exact filled_fresh cs now

/-- `ingest_fragment` from the parsed fragment on, when there is room for a slot. -/
def place (cfg : Tunables) (r : Reassembler) (digest : Digest) (total i : ℕ) (chunk : Bytes) (nowMs : Millis) :
    Reassembler × Except FragError (Option Bytes) :=
  let entry := r.slots[digest]?.getD (freshPartial total nowMs)
  if entry.total ≠ total then ({ r with slots := r.slots.erase digest }, .error (.badIndex i total)) else
  let free := (entry.chunks.getD i none).isNone
  if free ∧ entry.bytes + chunk.length > cfg.reassemblyMaxBytes then
    ({ r with slots := r.slots.erase digest }, .error (.tooLarge cfg.reassemblyMaxBytes)) else
  let entry := if free then fillSlot entry i chunk else entry
  if entry.received = entry.total then
    ({ r with slots := r.slots.erase digest }, .ok (some (entry.chunks.flatMap (·.getD []))))
  else ({ r with slots := r.slots.insert digest entry }, .ok none)

theorem place_other {r : Reassembler} {cfg : Tunables} {digest other : Digest} (hne : other ≠ digest) (total i : ℕ)
    (chunk : Bytes) (now : Millis) : (r.place cfg other total i chunk now).1.slots[digest]? = r.slots[digest]? := by
  simp only [place]
  split_ifs <;> simp [Std.ExtTreeMap.getElem?_erase, Std.ExtTreeMap.getElem?_insert, hne]

/-- The slots with room for the message. -/
def room (cfg : Tunables) (r : Reassembler) (digest : Digest) : Reassembler :=
  if r.slots[digest]? = none ∧ r.slots.size ≥ cfg.reassemblySlots then r.evictOldest else r

theorem ingestFragment_eq {r : Reassembler} {cfg : Tunables} {frame : Bytes} (long : fragHeader ≤ frame.length) (now : Millis) : r.ingestFragment cfg frame now =
    if frameTotal frame = 0 ∨ frameIndex frame ≥ frameTotal frame then
      (r, .error (.badIndex (frameIndex frame) (frameTotal frame)))
    else (r.room cfg (arrayOf 8 (frame.drop 1))).place cfg (arrayOf 8 (frame.drop 1)) (frameTotal frame) (frameIndex frame)
      (frame.drop fragHeader) now := by
  unfold ingestFragment
  rw [if_neg (Nat.not_lt.mpr long)]
  rfl

/-- No other slot has to go for this message. -/
def Roomy (cfg : Tunables) (r : Reassembler) (digest : Digest) : Prop := r.slots[digest]? = none → r.slots.size < cfg.reassemblySlots

theorem Roomy.room_eq {r : Reassembler} {cfg : Tunables} {digest : Digest} (h : r.Roomy cfg digest) : r.room cfg digest = r :=
  if_neg fun hfull => absurd (h hfull.1) (Nat.not_lt.mpr hfull.2)

theorem ingestFragment_place {r : Reassembler} {cfg : Tunables} {frame : Bytes} (room : r.Roomy cfg (arrayOf 8 (frame.drop 1)))
    (long : fragHeader ≤ frame.length) (now : Millis) :
    r.ingestFragment cfg frame now =
      if frameTotal frame = 0 ∨ frameIndex frame ≥ frameTotal frame then
        (r, .error (.badIndex (frameIndex frame) (frameTotal frame)))
      else r.place cfg (arrayOf 8 (frame.drop 1)) (frameTotal frame) (frameIndex frame) (frame.drop fragHeader) now := by
  rw [ingestFragment_eq long, room.room_eq]

theorem ingest_fragmentFrame {r : Reassembler} {cfg : Tunables} {digest : Digest} (room : r.Roomy cfg digest) {total i : ℕ} (hi : i < total) (count : total ≤ 65535) (chunk : Bytes) (now : Millis) :
    r.ingest cfg (fragmentFrame digest total i chunk) now = r.place cfg digest total i chunk now := by
  have hof := fragmentFrame_ofDigest digest chunk total i
  have hplace := ingestFragment_place (by rwa [hof.2.2]) hof.2.1 now
  rw [fragmentFrame_index digest chunk total (by omega), fragmentFrame_total digest chunk i (by omega),
    fragmentFrame_chunk, hof.2.2, if_neg (by omega)] at hplace
  exact hplace

/-- One fragment of the message, new or repeated: it completes the message or is kept. -/
theorem Slot.ingest {r : Reassembler} {cfg : Tunables} {digest : Digest} (h : r.Slot digest cs A)
    (room : r.Roomy cfg digest) (count : cs.length ≤ 65535) (fits : cs.flatten.length ≤ cfg.reassemblyMaxBytes)
    (missing : A.card < cs.length) {i : ℕ} (hi : i < cs.length) {chunk : Bytes} (hchunk : i ∈ A ∨ chunk = cs.getD i [])
    (now : Millis) :
    if (insert i A).card = cs.length then
      (r.ingest cfg (fragmentFrame digest cs.length i chunk) now).2 = .ok (some cs.flatten) ∧
        (r.ingest cfg (fragmentFrame digest cs.length i chunk) now).1.slots[digest]? = none
    else
      (r.ingest cfg (fragmentFrame digest cs.length i chunk) now).2 = .ok none ∧
        (r.ingest cfg (fragmentFrame digest cs.length i chunk) now).1.Slot digest cs (insert i A) := by
  rw [ingest_fragmentFrame room hi count]
  unfold place
  have hentry := h now
  generalize r.slots[digest]?.getD (freshPartial cs.length now) = entry at hentry
  simp only [hentry.total, ne_eq, not_true_eq_false, if_false]
  by_cases hmem : i ∈ A
  · -- a repetition
    have hfree : (entry.chunks.getD i none).isNone = false := by
      rw [Bool.eq_false_iff, ne_eq, hentry.isNone_iff hi]
      exact fun hn => hn hmem
    rw [Finset.insert_eq_of_mem hmem, if_neg (by omega)]
    simp only [hfree, Bool.false_eq_true, false_and, if_false, hentry.received, hentry.total, if_neg missing.ne]
    refine ⟨trivial, fun now' => ?_⟩
    simpa using hentry
  · have hfree : (entry.chunks.getD i none).isNone = true := (hentry.isNone_iff hi).mpr hmem
    obtain rfl : chunk = cs.getD i [] := hchunk.resolve_left hmem
    have hfilled := hentry.fill hi hmem
    have hcap := hentry.bytes_le hi hmem
    simp only [hfree, true_and, if_true, gt_iff_lt, if_neg (Nat.not_lt.mpr (hcap.trans fits)), hfilled.received, hfilled.total]
    by_cases hlast : (insert i A).card = cs.length
    · have hfull : insert i A = Finset.range cs.length :=
        Finset.eq_of_subset_of_card_le hfilled.indices (by rw [hlast, Finset.card_range])
      rw [if_pos hlast, if_pos hlast]
      rw [hfull] at hfilled
      exact ⟨by rw [hfilled.assembled], by simp⟩
    · rw [if_neg hlast, if_neg hlast]
      refine ⟨rfl, fun now' => ?_⟩
      simpa using hfilled

/-- Frames of other messages leave the slot alone. -/
theorem ingest_foreign {r : Reassembler} {cfg : Tunables} {digest : Digest} {frame : Bytes}
    (room : ∀ other, OfDigest other frame → r.Roomy cfg other) (foreign : ¬ OfDigest digest frame) (now : Millis) :
    (r.ingest cfg frame now).1.slots[digest]? = r.slots[digest]? := by
  cases frame with
  | nil => rfl
  | cons kind rest =>
    by_cases hfragment : kind = kindFragment
    · subst hfragment
      rw [show r.ingest cfg (kindFragment :: rest) now = r.ingestFragment cfg (kindFragment :: rest) now from rfl]
      by_cases hlong : fragHeader ≤ (kindFragment :: rest).length
      · have hne : arrayOf 8 ((kindFragment :: rest).drop 1) ≠ digest := fun heq => foreign ⟨rfl, hlong, heq⟩
        rw [ingestFragment_place (room _ ⟨rfl, hlong, rfl⟩) hlong]
        split_ifs
        · rfl
        · exact place_other hne ..
      · unfold ingestFragment
        rw [if_pos (Nat.lt_of_not_le hlong)]
    · simp only [ingest, hfragment, if_false]
      split_ifs <;> rfl

/-! ## Sequences of frames -/

/-- A frame arrives, or the timer sweeps out old slots. -/
inductive Feed
  | frame (f : Bytes) (now : Millis)
  | sweep (now : Millis)

def feed (cfg : Tunables) (r : Reassembler) : Feed → Reassembler
  | .frame f now => (r.ingest cfg f now).1
  | .sweep now => r.evictExpired cfg now

/-- There is room for a slot, and the sweep spares the one of `digest`. -/
def Admissible (cfg : Tunables) (digest : Digest) (r : Reassembler) : Feed → Prop
  | .frame _ _ => r.slots.size < cfg.reassemblySlots
  | .sweep now => ∀ p, r.slots[digest]? = some p → now - p.firstSeenMs < cfg.reassemblyTimeoutMs

/-- The index of a fragment of `digest`. -/
def Feed.index (digest : Digest) : Feed → Option ℕ
  | .frame f _ => if OfDigest digest f then some (frameIndex f) else none
  | .sweep _ => none

/-- The indices of the fragments of `digest` in a sequence. -/
def arrived (digest : Digest) (feeds : List Feed) : Finset ℕ := (feeds.filterMap (Feed.index digest)).toFinset

/-- A fragment of `digest` is one of the message `cs`, or repeats an index that has arrived. -/
def Conforms (digest : Digest) (cs : List Bytes) (past : List Feed) : Feed → Prop
  | .frame f _ => OfDigest digest f →
      ∃ i chunk, f = fragmentFrame digest cs.length i chunk ∧ i < cs.length ∧ (i ∈ arrived digest past ∨ chunk = cs.getD i [])
  | .sweep _ => True

theorem arrived_snoc (digest : Digest) (feeds : List Feed) (a : Feed) :
    arrived digest (feeds ++ [a]) = arrived digest feeds ∪ (a.index digest).toFinset := by
  unfold arrived
  rw [List.filterMap_append, List.toFinset_append]
  cases h : a.index digest <;> simp [h]

theorem sweep_slot {r : Reassembler} {cfg : Tunables} {digest : Digest} {now : Millis}
    (spared : ∀ p, r.slots[digest]? = some p → now - p.firstSeenMs < cfg.reassemblyTimeoutMs) :
    (r.evictExpired cfg now).slots[digest]? = r.slots[digest]? := by
  unfold evictExpired
  rw [Std.ExtTreeMap.getElem?_filter']
  cases h : r.slots[digest]? with
  | none => rfl
  | some p => simp [Option.filter, spared p h]

/-- One step of the sequence, when it does not complete the message. -/
theorem Slot.feed {cfg : Tunables} {digest : Digest} {r : Reassembler} {past : List Feed}
    (h : r.Slot digest cs (arrived digest past)) (count : cs.length ≤ 65535) (fits : cs.flatten.length ≤ cfg.reassemblyMaxBytes)
    {a : Feed} (conforms : Conforms digest cs past a) (admissible : Admissible cfg digest r a)
    (missing : (arrived digest (past ++ [a])).card < cs.length) : (r.feed cfg a).Slot digest cs (arrived digest (past ++ [a])) := by
  rw [arrived_snoc] at missing ⊢
  cases a with
  | sweep now =>
    rw [show (Feed.sweep now).index digest = none from rfl, Option.toFinset_none, Finset.union_empty]
    exact h.of_lookup (sweep_slot admissible)
  | frame f now =>
    by_cases hof : OfDigest digest f
    · obtain ⟨i, chunk, rfl, hi, hchunk⟩ := conforms hof
      have hindex : (Feed.frame (fragmentFrame digest cs.length i chunk) now).index digest = some i := by
        rw [Feed.index, if_pos hof, fragmentFrame_index digest chunk cs.length (by omega)]
      rw [hindex, Option.toFinset_some, Finset.union_comm, ← Finset.insert_eq] at missing ⊢
      have hbefore : (arrived digest past).card < cs.length :=
        (Finset.card_le_card (Finset.subset_insert i _)).trans_lt missing
      have hingest := h.ingest (fun _ => admissible) count fits hbefore hi hchunk now
      rw [if_neg missing.ne] at hingest
      exact hingest.2
    · rw [show (Feed.frame f now).index digest = none from if_neg hof, Option.toFinset_none, Finset.union_empty]
      exact h.of_lookup (ingest_foreign (fun _ _ _ => admissible) hof now)

/-- As long as the message is not complete, its slot holds what has arrived. -/
theorem run_slot {cfg : Tunables} {digest : Digest} {r : Reassembler} (free : r.slots[digest]? = none)
    (count : cs.length ≤ 65535) (fits : cs.flatten.length ≤ cfg.reassemblyMaxBytes) (feeds : List Feed)
    (conforms : ∀ pre a post, feeds = pre ++ a :: post → Conforms digest cs pre a)
    (admissible : ∀ pre a post, feeds = pre ++ a :: post → Admissible cfg digest (Runs.run (Reassembler.feed cfg) r pre) a)
    (missing : (arrived digest feeds).card < cs.length) :
    (Runs.run (Reassembler.feed cfg) r feeds).Slot digest cs (arrived digest feeds) := by
  induction feeds using List.reverseRecOn with
  | nil => exact slot_free free cs
  | append_singleton past a ih =>
    rw [Runs.run_snoc]
    have hbefore : (arrived digest past).card < cs.length := by
      rw [arrived_snoc] at missing
      exact (Finset.card_le_card Finset.subset_union_left).trans_lt missing
    have hslot := ih (fun pre b post h => conforms pre b (post ++ [a]) (by rw [h, List.append_assoc, List.cons_append]))
      (fun pre b post h => admissible pre b (post ++ [a]) (by rw [h, List.append_assoc, List.cons_append])) hbefore
    exact hslot.feed count fits (conforms past a [] rfl) (admissible past a [] rfl) missing

end Reassembler

/-! ## The round trip -/

/-- The fragments of a message cut into the chunks `cs`. -/
def fragmentsOf (digest : Digest) (cs : List Bytes) : List Bytes :=
  cs.mapIdx fun i chunk => fragmentFrame digest cs.length i chunk

theorem mem_fragmentsOf {digest : Digest} {cs : List Bytes} {f : Bytes} :
    f ∈ fragmentsOf digest cs ↔ ∃ i, i < cs.length ∧ f = fragmentFrame digest cs.length i (cs.getD i []) := by
  rw [fragmentsOf, List.mem_mapIdx]
  constructor
  · rintro ⟨i, hi, rfl⟩
    exact ⟨i, hi, by rw [List.getD_eq_getElem?_getD, List.getElem?_eq_getElem hi, Option.getD_some]⟩
  · rintro ⟨i, hi, rfl⟩
    exact ⟨i, hi, by rw [List.getD_eq_getElem?_getD, List.getElem?_eq_getElem hi, Option.getD_some]⟩

theorem split_cases {bytes : Bytes} {digest : Digest} {mtu : ℕ} {frames : List Bytes} (h : split bytes digest mtu = .ok frames) :
    13 < mtu ∧ (bytes.length < mtu ∧ frames = [kindComplete :: bytes] ∨
      mtu ≤ bytes.length ∧ (chunks (mtu - 13) bytes).length ≤ 65535 ∧
        frames = fragmentsOf digest (chunks (mtu - 13) bytes)) := by
  have hheader : fragHeader = 13 := rfl
  unfold split at h
  split_ifs at h with hsmall hcomplete
  · exact ⟨by omega, .inl ⟨hcomplete, by simpa using h.symm⟩⟩
  · simp only [hheader] at h
    rw [← chunks_length (by omega) bytes] at h
    split_ifs at h with hmany
    refine ⟨by omega, .inr ⟨by omega, by omega, ?_⟩⟩
    simpa [fragmentsOf] using h.symm

namespace Reassembler
variable {cfg : Tunables} {digest : Digest} {cs : List Bytes} {feeds : List Feed}

/-- The frame is among those that have arrived. -/
def Arrived (feeds : List Feed) (f : Bytes) : Prop := ∃ now, Feed.frame f now ∈ feeds

/-- Only frames of the message, or of other messages. -/
def Only (digest : Digest) (frames : List Bytes) (feeds : List Feed) : Prop :=
  ∀ f now, Feed.frame f now ∈ feeds → f ∈ frames ∨ ¬ OfDigest digest f

theorem mem_arrived_iff (count : cs.length ≤ 65535) (only : Only digest (fragmentsOf digest cs) feeds) {i : ℕ} :
    i ∈ arrived digest feeds ↔ i < cs.length ∧ Arrived feeds (fragmentFrame digest cs.length i (cs.getD i [])) := by
  unfold arrived
  rw [List.mem_toFinset, List.mem_filterMap]
  constructor
  · rintro ⟨a, ha, hindex⟩
    cases a with
    | sweep now => cases hindex
    | frame f now =>
      simp only [Feed.index] at hindex
      split_ifs at hindex with hof
      obtain ⟨j, hj, rfl⟩ := mem_fragmentsOf.mp ((only f now ha).resolve_right (not_not.mpr hof))
      rw [fragmentFrame_index _ _ _ (by omega)] at hindex
      cases hindex
      exact ⟨hj, now, ha⟩
  · rintro ⟨hi, now, ha⟩
    refine ⟨_, ha, ?_⟩
    rw [Feed.index, if_pos (fragmentFrame_ofDigest ..), fragmentFrame_index _ _ _ (by omega)]

theorem conforms_of_only (only : Only digest (fragmentsOf digest cs) feeds) :
    ∀ pre a post, feeds = pre ++ a :: post → Conforms digest cs pre a := by
  rintro pre a post rfl
  cases a with
  | sweep now => trivial
  | frame f now =>
    intro hof
    obtain ⟨i, hi, rfl⟩ := mem_fragmentsOf.mp ((only f now (by simp)).resolve_right (not_not.mpr hof))
    exact ⟨i, _, rfl, hi, .inr rfl⟩

/-- The frames of one message, in any order and with any repetitions, among frames of others: each
but the last to arrive is kept silently, and the last one returns the message. -/
theorem fragments_reassemble {bytes : Bytes} {mtu : ℕ} {frames : List Bytes} (fits : bytes.length ≤ cfg.reassemblyMaxBytes)
    (large : 13 < mtu) (splits : split bytes digest mtu = .ok frames) {r : Reassembler} (free : r.slots[digest]? = none) :
    (∀ f ∈ frames, f.length ≤ mtu) ∧
    ∀ feeds, Only digest frames feeds →
      (∀ pre a post, feeds = pre ++ a :: post → Admissible cfg digest (Runs.run (feed cfg) r pre) a) →
      (∃ g ∈ frames, ¬ Arrived feeds g) → ∀ f ∈ frames, ∀ now,
        Admissible cfg digest (Runs.run (feed cfg) r feeds) (.frame f now) →
          ((∀ g ∈ frames, g = f ∨ Arrived feeds g) → ((Runs.run (feed cfg) r feeds).ingest cfg f now).2 = .ok (some bytes)) ∧
          ((∃ g ∈ frames, g ≠ f ∧ ¬ Arrived feeds g) → ((Runs.run (feed cfg) r feeds).ingest cfg f now).2 = .ok none) := by
  obtain ⟨-, ⟨hshort, rfl⟩ | ⟨hlong, hcount, rfl⟩⟩ := split_cases splits
  · refine ⟨?_, ?_⟩
    · simpa using hshort
    · rintro feeds - - - f hf now -
      obtain rfl := List.mem_singleton.mp hf
      exact ⟨fun _ => rfl, fun ⟨g, hg, hne, _⟩ => absurd (List.mem_singleton.mp hg) hne⟩
  · have hsize : 0 < mtu - 13 := by omega
    refine ⟨fun f hf => ?_, ?_⟩
    · obtain ⟨i, hi, rfl⟩ := List.mem_mapIdx.mp hf
      have := length_le_of_mem_chunks (List.getElem_mem hi)
      rw [fragmentFrame_length]
      omega
    · intro feeds only admissible hmissing f hf now room
      have hflatten := chunks_flatten hsize bytes
      generalize chunks (mtu - 13) bytes = cs at *
      subst hflatten
      have hiff := fun j => mem_arrived_iff hcount only (i := j)
      have hsub : arrived digest feeds ⊆ Finset.range cs.length := fun j hj => Finset.mem_range.mpr ((hiff j).mp hj).1
      have hlt : ∀ A ⊆ Finset.range cs.length, ∀ j < cs.length, j ∉ A → A.card < cs.length := by
        intro A hA j hj hnot
        have := Finset.card_lt_card (Finset.ssubset_iff_subset_ne.mpr ⟨hA, fun heq => hnot (heq ▸ Finset.mem_range.mpr hj)⟩)
        rwa [Finset.card_range] at this
      obtain ⟨g, hg, hgone⟩ := hmissing
      obtain ⟨k, hk, rfl⟩ := mem_fragmentsOf.mp hg
      have hcard := hlt _ hsub k hk fun hmem => hgone ((hiff k).mp hmem).2
      have hslot := run_slot free hcount fits feeds (conforms_of_only only) admissible hcard
      obtain ⟨i, hi, rfl⟩ := mem_fragmentsOf.mp hf
      have hingest := hslot.ingest (fun _ => room) hcount fits hcard hi (.inr rfl) now
      refine ⟨fun hall => ?_, fun ⟨g, hg, hne, hnot⟩ => ?_⟩
      · have hfull : Finset.range cs.length ⊆ insert i (arrived digest feeds) := by
          intro j hj
          rw [Finset.mem_range] at hj
          rcases hall _ (mem_fragmentsOf.mpr ⟨j, hj, rfl⟩) with heq | harrived
          · have hindex := congrArg frameIndex heq
            rw [fragmentFrame_index _ _ _ (by omega), fragmentFrame_index _ _ _ (by omega)] at hindex
            exact hindex ▸ Finset.mem_insert_self _ _
          · exact Finset.mem_insert_of_mem ((hiff j).mpr ⟨hj, harrived⟩)
        have hall : (insert i (arrived digest feeds)).card = cs.length := by
          rw [(Finset.insert_subset (Finset.mem_range.mpr hi) hsub).antisymm hfull, Finset.card_range]
        rw [if_pos hall] at hingest
        exact hingest.1
      · obtain ⟨j, hj, rfl⟩ := mem_fragmentsOf.mp hg
        have hnotmem : j ∉ insert i (arrived digest feeds) := by
          rw [Finset.mem_insert, not_or]
          exact ⟨fun heq => hne (by rw [heq]), fun hmem => hnot ((hiff j).mp hmem).2⟩
        rw [if_neg (hlt _ (Finset.insert_subset (Finset.mem_range.mpr hi) hsub) j hj hnotmem).ne] at hingest
        exact hingest.1

/-- Thirty bytes on a link of mtu 30: the second fragment twice, then the first. -/
theorem two_fragments_reassemble :
    let digest : Digest := Vector.replicate 8 9
    let f₀ := fragmentFrame digest 2 0 (List.replicate 17 7)
    let f₁ := fragmentFrame digest 2 1 (List.replicate 13 7)
    split (List.replicate 30 7) digest 30 = .ok [f₀, f₁] ∧
      ((Runs.run (feed {}) {} [.frame f₁ 0, .frame f₁ 1]).ingest {} f₀ 2).2 = .ok (some (List.replicate 30 7)) := by
  intro digest f₀ f₁
  have hsplit : split (List.replicate 30 7) digest 30 = .ok [f₀, f₁] := by decide +kernel
  refine ⟨hsplit, ?_⟩
  refine ((fragments_reassemble (show _ ≤ ({} : Tunables).reassemblyMaxBytes by decide) (by decide) hsplit (r := {}) (by decide +kernel)).2 _ ?_ ?_ ?_
    f₀ (by simp) 2 (show _ < 128 by decide +kernel)).1 ?_
  · intro f now h
    simp only [List.mem_cons, Feed.frame.injEq, List.not_mem_nil, or_false] at h
    rcases h with ⟨rfl, -⟩ | ⟨rfl, -⟩ <;> exact .inl (by simp)
  · rintro pre a post h
    obtain _ | ⟨b, _ | ⟨c, pre⟩⟩ := pre
    · cases h
      show (0 : ℕ) < 128
      decide
    · cases h
      show _ < 128
      decide +kernel
    · simp at h
  · refine ⟨f₀, by simp, ?_⟩
    rintro ⟨now, h⟩
    simp only [List.mem_cons, Feed.frame.injEq, List.not_mem_nil, or_false] at h
    rcases h with ⟨h, -⟩ | ⟨h, -⟩ <;> exact absurd h (by decide)
  · intro g hg
    simp only [List.mem_cons, List.not_mem_nil, or_false] at hg
    rcases hg with rfl | rfl
    · exact .inl rfl
    · exact .inr ⟨0, by simp⟩
end Reassembler
end CockroachChat
