import CockroachChat.Flood.Reassembly
import CockroachChat.Foundations.Eviction
import CockroachChat.Foundations.Maps

/-! # The slots under arbitrary frames

Whatever is fed in, there are no more slots than allowed, and the counters of a slot agree with its
chunks. -/
namespace CockroachChat.Reassembler
set_option autoImplicit false

/-- An incomplete message: the counters are those of its chunks. -/
structure Sound (cfg : Tunables) (p : Partial) : Prop where
  total : p.chunks.length = p.total
  received : p.received = p.chunks.countP Option.isSome
  incomplete : p.received < p.total
  bytes : p.bytes = (p.chunks.map fun c => (c.getD []).length).sum
  bounded : p.bytes ≤ cfg.reassemblyMaxBytes

structure Contained (cfg : Tunables) (r : Reassembler) : Prop where
  few : r.slots.size ≤ cfg.reassemblySlots
  sound : ∀ (d : Digest) (p : Partial), r.slots[d]? = some p → Sound cfg p

variable {cfg : Tunables} {r : Reassembler} {p : Partial} {digest : Digest} {total i : ℕ} {now : Millis}

theorem evictOldest_eq (r : Reassembler) : r.evictOldest = { r with slots := Eviction.dropOldest Partial.firstSeenMs r.slots } := by
  unfold evictOldest Eviction.dropOldest
  cases r.slots.toList.argmin (fun e => e.2.firstSeenMs) <;> rfl

/-! ## One slot -/

theorem sum_set_none (cs : List (Option Bytes)) (i : ℕ) (chunk : Bytes) (h : cs[i]? = some none) :
    ((cs.set i (some chunk)).map fun c => (c.getD []).length).sum = (cs.map fun c => (c.getD []).length).sum + chunk.length := by
  induction cs generalizing i with
  | nil => cases h
  | cons c cs ih =>
    cases i with
    | zero =>
      obtain rfl : c = none := by simpa using h
      simp [Nat.add_comm]
    | succ i =>
      simp only [List.set_cons_succ, List.map_cons, List.sum_cons, ih i (by simpa using h)]
      omega

theorem count_set_none (cs : List (Option Bytes)) (i : ℕ) (chunk : Bytes) (h : cs[i]? = some none) :
    (cs.set i (some chunk)).countP Option.isSome = cs.countP Option.isSome + 1 := by
  obtain ⟨hi, hget⟩ := List.getElem?_eq_some_iff.mp h
  rw [List.countP_set hi, hget]
  simp

/-- A slot that has just taken a chunk, or has none to take. -/
structure Counted (cfg : Tunables) (p : Partial) : Prop where
  total : p.chunks.length = p.total
  received : p.received = p.chunks.countP Option.isSome
  bytes : p.bytes = (p.chunks.map fun c => (c.getD []).length).sum
  bounded : p.bytes ≤ cfg.reassemblyMaxBytes

theorem Sound.counted (h : Sound cfg p) : Counted cfg p := ⟨h.total, h.received, h.bytes, h.bounded⟩

theorem Counted.received_le (h : Counted cfg p) : p.received ≤ p.total := by
  rw [h.received, ← h.total]
  exact List.countP_le_length

theorem Counted.sound (h : Counted cfg p) (incomplete : p.received ≠ p.total) : Sound cfg p :=
  ⟨h.total, h.received, lt_of_le_of_ne h.received_le incomplete, h.bytes, h.bounded⟩

theorem counted_fresh (total : ℕ) (now : Millis) : Counted cfg (freshPartial total now) where
  total := List.length_replicate ..
  received := by simp [freshPartial, List.countP_replicate]
  bytes := by simp [freshPartial]
  bounded := Nat.zero_le _

theorem Counted.fill (h : Counted cfg p) {chunk : Bytes} (free : p.chunks[i]? = some none)
    (fits : p.bytes + chunk.length ≤ cfg.reassemblyMaxBytes) : Counted cfg (fillSlot p i chunk) where
  total := by rw [fillSlot, List.length_set, h.total]
  received := by rw [fillSlot, count_set_none _ _ _ free, h.received]
  bytes := by rw [fillSlot, sum_set_none _ _ _ free, h.bytes]
  bounded := fits

/-- A complete message has every chunk, and its bytes. -/
theorem Counted.whole (h : Counted cfg p) (complete : p.received = p.total) :
    p.chunks.mapM id = some (p.chunks.map (·.getD [])) ∧ (p.chunks.flatMap (·.getD [])).length ≤ cfg.reassemblyMaxBytes := by
  have hall : ∀ c ∈ p.chunks, c.isSome = true := by
    rw [← List.countP_eq_length, ← h.received, complete, h.total]
  constructor
  · have hsome : ∀ cs : List (Option Bytes), (∀ c ∈ cs, c.isSome = true) → cs.mapM id = some (cs.map (·.getD [])) := by
      intro cs
      induction cs with
      | nil => exact fun _ => rfl
      | cons c cs ih =>
        intro hcs
        obtain ⟨b, rfl⟩ := Option.isSome_iff_exists.mp (hcs c List.mem_cons_self)
        rw [List.mapM_cons, ih fun c hc => hcs c (List.mem_cons_of_mem _ hc)]
        rfl
    exact hsome _ hall
  · rw [List.length_flatMap, ← h.bytes]
    exact h.bounded

/-! ## One frame -/

theorem Contained.room (hslots : 1 ≤ cfg.reassemblySlots) (h : Contained cfg r) (digest : Digest) :
    Contained cfg (r.room cfg digest) ∧
      ((r.room cfg digest).slots[digest]? = none → (r.room cfg digest).slots.size < cfg.reassemblySlots) := by
  unfold Reassembler.room
  split_ifs with hfull
  · rw [evictOldest_eq]
    have hsize := Eviction.size_dropOldest Partial.firstSeenMs r.slots
    have hfew := h.few
    refine ⟨⟨?_, fun d p hp => h.sound d p (Eviction.dropOldest_held _ hp)⟩, fun _ => ?_⟩
    · simp only [hsize]
      omega
    · simp only [hsize]
      omega
  · exact ⟨h, fun hnone => not_le.mp fun hle => hfull ⟨hnone, hle⟩⟩

theorem Contained.erase (h : Contained cfg r) (digest : Digest) : Contained cfg { r with slots := r.slots.erase digest } where
  few := Std.ExtTreeMap.size_erase_le.trans h.few
  sound d p hp := by
    rw [Std.ExtTreeMap.getElem?_erase] at hp
    split_ifs at hp
    exact h.sound d p hp

theorem Contained.insert (h : Contained cfg r) (hroom : r.slots[digest]? = none → r.slots.size < cfg.reassemblySlots)
    (hp : Sound cfg p) : Contained cfg { r with slots := r.slots.insert digest p } where
  few := by
    show (r.slots.insert digest p).size ≤ _
    rw [Std.ExtTreeMap.size_insert]
    split_ifs with hmem
    · exact h.few
    · exact hroom (Std.ExtTreeMap.getElem?_eq_none (by simpa using hmem))
  sound d q hq := by
    rw [Std.ExtTreeMap.getElem?_insert] at hq
    split_ifs at hq
    · cases hq
      exact hp
    · exact h.sound d q hq

theorem Contained.entry (h : Contained cfg r) (digest : Digest) (total : ℕ) (now : Millis) :
    Counted cfg (r.slots[digest]?.getD (freshPartial total now)) := by
  cases hheld : r.slots[digest]? with
  | none => exact counted_fresh total now
  | some p => exact (h.sound digest p hheld).counted

/-- The slot of a fragment once it has been looked at: its chunk was there already, or is put in. -/
theorem counted_entry (hp : Counted cfg p) (hi : i < p.chunks.length) {chunk : Bytes}
    (fits : ¬ ((p.chunks.getD i none).isNone = true ∧ p.bytes + chunk.length > cfg.reassemblyMaxBytes)) :
    Counted cfg (if (p.chunks.getD i none).isNone = true then fillSlot p i chunk else p) := by
  split_ifs with hfree
  · refine hp.fill ?_ (not_lt.mp fun hlt => fits ⟨hfree, hlt⟩)
    rw [List.getD_eq_getElem?_getD, List.getElem?_eq_getElem hi, Option.getD_some] at hfree
    rw [List.getElem?_eq_getElem hi, Option.isNone_iff_eq_none.mp hfree]
  · exact hp

theorem Contained.place (h : Contained cfg r) (hroom : r.slots[digest]? = none → r.slots.size < cfg.reassemblySlots)
    (hi : i < total) (chunk : Bytes) (now : Millis) :
    Contained cfg (r.place cfg digest total i chunk now).1 ∧
      ∀ out, (r.place cfg digest total i chunk now).2 = .ok (some out) → out.length ≤ cfg.reassemblyMaxBytes := by
  have hentry := h.entry digest total now
  unfold Reassembler.place
  generalize r.slots[digest]?.getD (freshPartial total now) = p at hentry
  by_cases htotal : p.total ≠ total
  · simp only [if_pos htotal]
    exact ⟨h.erase digest, fun out hout => nomatch hout⟩
  simp only [if_neg htotal]
  have hlen : i < p.chunks.length := by
    rw [hentry.total, not_not.mp htotal]
    exact hi
  by_cases hcap : (p.chunks.getD i none).isNone = true ∧ p.bytes + chunk.length > cfg.reassemblyMaxBytes
  · simp only [if_pos hcap]
    exact ⟨h.erase digest, fun out hout => nomatch hout⟩
  simp only [if_neg hcap]
  have hcounted := counted_entry hentry hlen hcap
  generalize (if (p.chunks.getD i none).isNone = true then fillSlot p i chunk else p) = q at hcounted
  by_cases hcomplete : q.received = q.total
  · simp only [if_pos hcomplete]
    refine ⟨h.erase digest, fun out hout => ?_⟩
    cases hout
    exact (hcounted.whole hcomplete).2
  · simp only [if_neg hcomplete]
    exact ⟨h.insert hroom (hcounted.sound hcomplete), fun out hout => nomatch hout⟩

theorem Contained.ingest (hslots : 1 ≤ cfg.reassemblySlots) (h : Contained cfg r) (frame : Bytes) (now : Millis) :
    Contained cfg (r.ingest cfg frame now).1 ∧ (frame.head? = some kindFragment → ∀ out,
      (r.ingest cfg frame now).2 = .ok (some out) → out.length ≤ cfg.reassemblyMaxBytes) := by
  cases frame with
  | nil => exact ⟨h, fun hkind => nomatch hkind⟩
  | cons kind rest =>
    by_cases hkind : kind = kindFragment
    · subst hkind
      rw [show r.ingest cfg (kindFragment :: rest) now = r.ingestFragment cfg (kindFragment :: rest) now from rfl]
      by_cases hlong : fragHeader ≤ (kindFragment :: rest).length
      · rw [ingestFragment_eq hlong]
        split_ifs with hbad
        · exact ⟨h, fun _ out hout => nomatch hout⟩
        · obtain ⟨hcontained, hroom⟩ := h.room hslots (arrayOf 8 ((kindFragment :: rest).drop 1))
          have hplace := hcontained.place hroom (not_le.mp (not_or.mp hbad).2) ((kindFragment :: rest).drop fragHeader) now
          exact ⟨hplace.1, fun _ => hplace.2⟩
      · unfold ingestFragment
        rw [if_pos (Nat.lt_of_not_le hlong)]
        exact ⟨h, fun _ out hout => nomatch hout⟩
    · refine ⟨?_, fun h => absurd (Option.some.inj h) hkind⟩
      simp only [Reassembler.ingest, hkind, if_false]
      split_ifs <;> exact h

theorem Contained.sweep (h : Contained cfg r) (now : Millis) : Contained cfg (r.evictExpired cfg now) where
  few := Std.ExtTreeMap.size_filter_le_size.trans h.few
  sound d p hp := by
    rw [evictExpired, Std.ExtTreeMap.getElem?_filter'] at hp
    exact h.sound d p (Option.mem_filter_iff.mp hp).1

theorem run_contained (hslots : 1 ≤ cfg.reassemblySlots) (feeds : List Feed) : Contained cfg (Runs.run (feed cfg) {} feeds) := by
  refine Runs.run_invariant (feed cfg) (Contained cfg) (fun r a h => ?_) {} ⟨Nat.zero_le _, fun d p hp => ?_⟩ feeds
  · cases a with
    | frame f now => exact (h.ingest hslots f now).1
    | sweep now => exact h.sweep now
  · simp at hp

/-! ## No panics -/

/-- `ingest_fragment` with its index and its two unwraps left partial: `none` where one would panic. -/
def ingestFragmentChecked (cfg : Tunables) (r : Reassembler) (frame : Bytes) (nowMs : Millis) :
    Option (Reassembler × Except FragError (Option Bytes)) :=
  if frame.length < fragHeader then some (r, .ok none) else
  let digest : Digest := arrayOf 8 (frame.drop 1)
  let index := ofBe ((frame.drop 9).take 2)
  let total := ofBe ((frame.drop 11).take 2)
  let chunk := frame.drop fragHeader
  if total = 0 ∨ index ≥ total then some (r, .error (.badIndex index total)) else
  let r := if r.slots[digest]? = none ∧ r.slots.size ≥ cfg.reassemblySlots then r.evictOldest else r
  let cap := cfg.reassemblyMaxBytes
  let entry := r.slots[digest]?.getD (freshPartial total nowMs)
  if entry.total ≠ total then some ({ r with slots := r.slots.erase digest }, .error (.badIndex index total)) else
  (entry.chunks[index]?).bind fun slot =>
  if slot.isNone ∧ entry.bytes + chunk.length > cap then
    some ({ r with slots := r.slots.erase digest }, .error (.tooLarge cap)) else
  let entry := if slot.isNone then
      { entry with
        chunks := entry.chunks.set index (some chunk)
        received := entry.received + 1
        bytes := entry.bytes + chunk.length }
    else entry
  let slots := r.slots.insert digest entry
  if entry.received = entry.total then
    (slots[digest]?).bind fun done =>
    (done.chunks.mapM id).bind fun cs =>
    some ({ r with slots := slots.erase digest }, .ok (some cs.flatten))
  else some ({ r with slots := slots }, .ok none)

/-- The same from the parsed fragment on. -/
def placeChecked (cfg : Tunables) (r : Reassembler) (digest : Digest) (total i : ℕ) (chunk : Bytes) (nowMs : Millis) :
    Option (Reassembler × Except FragError (Option Bytes)) :=
  let entry := r.slots[digest]?.getD (freshPartial total nowMs)
  if entry.total ≠ total then some ({ r with slots := r.slots.erase digest }, .error (.badIndex i total)) else
  (entry.chunks[i]?).bind fun slot =>
  if slot.isNone ∧ entry.bytes + chunk.length > cfg.reassemblyMaxBytes then
    some ({ r with slots := r.slots.erase digest }, .error (.tooLarge cfg.reassemblyMaxBytes)) else
  let entry := if slot.isNone then fillSlot entry i chunk else entry
  let slots := r.slots.insert digest entry
  if entry.received = entry.total then
    (slots[digest]?).bind fun done =>
    (done.chunks.mapM id).bind fun cs =>
    some ({ r with slots := slots.erase digest }, .ok (some cs.flatten))
  else some ({ r with slots := slots }, .ok none)

theorem ingestFragmentChecked_eq {frame : Bytes} (long : fragHeader ≤ frame.length) (now : Millis) : r.ingestFragmentChecked cfg frame now =
    if frameTotal frame = 0 ∨ frameIndex frame ≥ frameTotal frame then
      some (r, .error (.badIndex (frameIndex frame) (frameTotal frame)))
    else (r.room cfg (arrayOf 8 (frame.drop 1))).placeChecked cfg (arrayOf 8 (frame.drop 1)) (frameTotal frame) (frameIndex frame)
      (frame.drop fragHeader) now := by
  unfold ingestFragmentChecked
  rw [if_neg (Nat.not_lt.mpr long)]
  rfl

theorem Contained.placeChecked (h : Contained cfg r) (hi : i < total) (digest : Digest) (chunk : Bytes) (now : Millis) :
    r.placeChecked cfg digest total i chunk now = some (r.place cfg digest total i chunk now) := by
  have hentry := h.entry digest total now
  unfold Reassembler.placeChecked Reassembler.place
  generalize r.slots[digest]?.getD (freshPartial total now) = p at hentry
  by_cases htotal : p.total ≠ total
  · simp only [if_pos htotal]
  simp only [if_neg htotal]
  have hlen : i < p.chunks.length := by
    rw [hentry.total, not_not.mp htotal]
    exact hi
  have hget : p.chunks.getD i none = p.chunks[i] := by
    rw [List.getD_eq_getElem?_getD, List.getElem?_eq_getElem hlen, Option.getD_some]
  rw [List.getElem?_eq_getElem hlen, Option.bind_some, ← hget]
  by_cases hcap : (p.chunks.getD i none).isNone = true ∧ p.bytes + chunk.length > cfg.reassemblyMaxBytes
  · simp only [if_pos hcap]
  simp only [if_neg hcap]
  have hcounted := counted_entry hentry hlen hcap
  generalize (if (p.chunks.getD i none).isNone = true then fillSlot p i chunk else p) = q at hcounted
  by_cases hcomplete : q.received = q.total
  · rw [if_pos hcomplete, if_pos hcomplete, Std.ExtTreeMap.getElem?_insert_self, Option.bind_some, (hcounted.whole hcomplete).1,
      Option.bind_some, Maps.erase_insert]
    rfl
  · rw [if_neg hcomplete, if_neg hcomplete]

/-- The partial version never stops, and is the model. -/
theorem Contained.checked (hslots : 1 ≤ cfg.reassemblySlots) (h : Contained cfg r) (frame : Bytes) (now : Millis) :
    r.ingestFragmentChecked cfg frame now = some (r.ingestFragment cfg frame now) := by
  by_cases hlong : fragHeader ≤ frame.length
  · rw [ingestFragment_eq hlong, ingestFragmentChecked_eq hlong]
    by_cases hbad : frameTotal frame = 0 ∨ frameIndex frame ≥ frameTotal frame
    · rw [if_pos hbad, if_pos hbad]
    · rw [if_neg hbad, if_neg hbad]
      exact (h.room hslots _).1.placeChecked (not_le.mp (not_or.mp hbad).2) _ _ _
  · unfold ingestFragmentChecked ingestFragment
    rw [if_pos (Nat.lt_of_not_le hlong), if_pos (Nat.lt_of_not_le hlong)]

/-- Under whatever frames and sweeps there are no more slots than allowed, the counters of every slot
are those of its chunks, no index or unwrap fails, and what completes is within the limit. -/
theorem hostile_frames_contained (cfg : Tunables) (hslots : 1 ≤ cfg.reassemblySlots) (feeds : List Feed) :
    let r := Runs.run (feed cfg) {} feeds
    r.slots.size ≤ cfg.reassemblySlots ∧
    (∀ (d : Digest) (p : Partial), r.slots[d]? = some p → p.chunks.length = p.total ∧ p.received = p.chunks.countP Option.isSome ∧
      p.received < p.total ∧ p.bytes = (p.chunks.map fun c => (c.getD []).length).sum ∧ p.bytes ≤ cfg.reassemblyMaxBytes) ∧
    (∀ frame now, r.ingestFragmentChecked cfg frame now = some (r.ingestFragment cfg frame now)) ∧
    ∀ frame now out, frame.head? = some kindFragment → (r.ingest cfg frame now).2 = .ok (some out) →
      out.length ≤ cfg.reassemblyMaxBytes := by
  intro r
  have hcontained := run_contained hslots feeds
  refine ⟨hcontained.few, fun d p hp => ?_, hcontained.checked hslots, fun frame now out hkind => ?_⟩
  · have hsound := hcontained.sound d p hp
    exact ⟨hsound.total, hsound.received, hsound.incomplete, hsound.bytes, hsound.bounded⟩
  · exact (hcontained.ingest hslots frame now).2 hkind out

/-- A single slot, and two messages of two fragments each begun. -/
theorem one_slot_contained :
    let cfg : Tunables := { reassemblySlots := 1 }
    let feeds : List Feed := [.frame (fragmentFrame (Vector.replicate 8 1) 2 0 [7]) 0, .frame (fragmentFrame (Vector.replicate 8 2) 2 1 [8]) 1]
    (Runs.run (feed cfg) {} feeds).slots.size ≤ 1 ∧
      ((Runs.run (feed cfg) {} feeds).ingest cfg (fragmentFrame (Vector.replicate 8 2) 2 0 [9]) 2).2 = .ok (some [9, 8]) ∧
      [9, 8].length ≤ cfg.reassemblyMaxBytes := by
  intro cfg feeds
  have hcontained := hostile_frames_contained cfg le_rfl feeds
  have hout : ((Runs.run (feed cfg) {} feeds).ingest cfg (fragmentFrame (Vector.replicate 8 2) 2 0 [9]) 2).2 = .ok (some [9, 8]) := by
    decide +kernel
  exact ⟨hcontained.1, hout, hcontained.2.2.2 _ 2 _ rfl hout⟩

end CockroachChat.Reassembler
