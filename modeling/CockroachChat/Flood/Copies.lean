import CockroachChat.Flood.Reassembly
import CockroachChat.Foundations.Interleavings
import CockroachChat.Foundations.Maps
import CockroachChat.Core.Reference

/-! # Two copies of one packet

A node that has two links may hear a packet on both, cut to different sizes under one digest, and
its reassembler keeps one slot for the digest. -/
namespace CockroachChat
set_option autoImplicit false

/-! ## The chunks of two byte strings that differ in one byte -/

theorem chunksAux_getD {size : ℕ} (hsize : 0 < size) (fuel : ℕ) (b : Bytes) (hfuel : b.length ≤ fuel) (i : ℕ) :
    (chunksAux size fuel b).getD i [] = (b.drop (i * size)).take size := by
  induction fuel generalizing b i with
  | zero => simp [chunksAux, List.length_eq_zero_iff.mp (Nat.le_zero.mp hfuel)]
  | succ fuel ih =>
    cases b with
    | nil => simp [chunksAux]
    | cons x b =>
      have hdrop : ((x :: b).drop size).length ≤ fuel := by
        rw [List.length_drop]
        omega
      cases i with
      | zero => simp [chunksAux]
      | succ i =>
        rw [chunksAux, List.getD_cons_succ, ih _ hdrop, List.drop_drop, Nat.succ_mul, Nat.add_comm size]

theorem chunks_getD {size : ℕ} (hsize : 0 < size) (b : Bytes) (i : ℕ) :
    (chunks size b).getD i [] = (b.drop (i * size)).take size := chunksAux_getD hsize b.length b le_rfl i

/-- Byte strings that differ at one place have the same chunks but the one with that place. -/
theorem chunks_getD_congr {size : ℕ} (hsize : 0 < size) {b b' : Bytes} {at_ : ℕ} (same : ∀ j, j ≠ at_ → b[j]? = b'[j]?)
    {i : ℕ} (hi : i ≠ at_ / size) : (chunks size b).getD i [] = (chunks size b').getD i [] := by
  rw [chunks_getD hsize, chunks_getD hsize]
  apply List.ext_getElem?
  intro j
  rw [List.getElem?_take, List.getElem?_take, List.getElem?_drop, List.getElem?_drop]
  split_ifs with hj
  · apply same
    rintro rfl
    apply hi
    rw [Nat.mul_comm, Nat.mul_add_div hsize, Nat.div_eq_of_lt hj, Nat.add_zero]
  · rfl

namespace Packet

theorem encode_ttl (p : Packet) (ttl : UInt8) {j : ℕ} (hj : j ≠ 3) : p.encode[j]? = { p with ttl := ttl }.encode[j]? := by
  have hbody : { p with ttl := ttl }.recipientBytes = p.recipientBytes := rfl
  have hflags : { p with ttl := ttl }.effectiveFlags = p.effectiveFlags := rfl
  simp only [encode, writeBody_eq, hbody, hflags, Option.getD_none]
  rcases j with _ | _ | _ | _ | j
  · rfl
  · rfl
  · rfl
  · exact absurd rfl hj
  · rfl

theorem encode_ttl_length (p : Packet) (ttl : UInt8) : { p with ttl := ttl }.encode.length = p.encode.length := by
  have hbody : { p with ttl := ttl }.recipientBytes = p.recipientBytes := rfl
  simp [encode, writeBody_eq, hbody]

/-- The bytes decode to a copy of the packet. -/
def CopyIn (p : Packet) (bytes : Bytes) : Prop := ∃ q, decode bytes = .ok q ∧ { q with ttl := p.ttl } = p

theorem copyIn_encode {p : Packet} (canonical : p.Canonical) (ttl : UInt8) : p.CopyIn { p with ttl := ttl }.encode := by
  have hcanonical : { p with ttl := ttl }.Canonical :=
    ⟨canonical.version, canonical.msgType, canonical.flags, canonical.payload⟩
  exact ⟨_, decode_encode hcanonical, rfl⟩

theorem CopyIn.length {p : Packet} {bytes : Bytes} (h : p.CopyIn bytes) : bytes.length = p.encode.length := by
  obtain ⟨q, hdecode, hq⟩ := h
  obtain ⟨hversion, hlength, hparsed⟩ := (decode_eq_ok_iff _ _).mp hdecode
  rw [← hq, encode_ttl_length, hparsed, encode_parsed hlength]

end Packet

namespace Reassembler
variable {cfg : Tunables} {digest : Digest} {cs ds : List Bytes} {feeds : List Feed}

/-! ## What comes out of a sequence -/

/-- The bytes one step returns. -/
def yields (cfg : Tunables) (r : Reassembler) : Feed → List Bytes
  | .frame f now => match (r.ingest cfg f now).2 with
    | .ok (some b) => [b]
    | _ => []
  | .sweep _ => []

def returned (cfg : Tunables) (r : Reassembler) : List Feed → List Bytes
  | [] => []
  | a :: feeds => r.yields cfg a ++ returned cfg (r.feed cfg a) feeds

theorem returned_append (r : Reassembler) (l₁ l₂ : List Feed) :
    r.returned cfg (l₁ ++ l₂) = r.returned cfg l₁ ++ (Runs.run (feed cfg) r l₁).returned cfg l₂ := by
  induction l₁ generalizing r with
  | nil => rfl
  | cons a l₁ ih => rw [List.cons_append, returned, ih, returned, List.append_assoc, Runs.run_cons]

theorem yields_some {r : Reassembler} {f : Bytes} {now : Millis} {b : Bytes} (h : (r.ingest cfg f now).2 = .ok (some b)) :
    r.yields cfg (.frame f now) = [b] := by
  rw [yields, h]

theorem yields_none {r : Reassembler} {f : Bytes} {now : Millis} (h : (r.ingest cfg f now).2 = .ok none) :
    r.yields cfg (.frame f now) = [] := by
  rw [yields, h]

theorem mem_returned {r : Reassembler} {pre post : List Feed} {f : Bytes} {now : Millis} {b : Bytes}
    (h : ((Runs.run (feed cfg) r pre).ingest cfg f now).2 = .ok (some b)) :
    b ∈ r.returned cfg (pre ++ .frame f now :: post) := by
  rw [returned_append, returned, yields_some h]
  simp

def Feed.carried : Feed → Option Bytes
  | .frame f _ => some f
  | .sweep _ => none

/-- The frames of two copies, each copy in order, among frames of other messages. -/
def Mixed (digest : Digest) (fs gs : List Bytes) (feeds : List Feed) : Prop :=
  ∃ own others, Merges fs gs own ∧ Merges own others (feeds.filterMap Feed.carried) ∧ ∀ f ∈ others, ¬ OfDigest digest f

theorem Mixed.symm {fs gs : List Bytes} (h : Mixed digest fs gs feeds) : Mixed digest gs fs feeds := by
  obtain ⟨own, others, hown, hall, hothers⟩ := h
  exact ⟨own, others, hown.symm, hall, hothers⟩

theorem mem_carried {f : Bytes} : f ∈ feeds.filterMap Feed.carried ↔ Arrived feeds f := by
  rw [List.mem_filterMap]
  constructor
  · rintro ⟨a, ha, hf⟩
    cases a with
    | frame g now =>
      cases hf
      exact ⟨now, ha⟩
    | sweep now => cases hf
  · rintro ⟨now, ha⟩
    exact ⟨_, ha, rfl⟩

theorem Mixed.arrived {fs gs : List Bytes} (h : Mixed digest fs gs feeds) {f : Bytes} (hf : f ∈ fs ∨ f ∈ gs) :
    Arrived feeds f := by
  obtain ⟨own, others, hown, hall, -⟩ := h
  exact mem_carried.mp (hall.mem_iff.mpr (.inl (hown.mem_iff.mpr hf)))

theorem Mixed.only {fs gs : List Bytes} (h : Mixed digest fs gs feeds) {f : Bytes} (hf : Arrived feeds f)
    (own : OfDigest digest f) : f ∈ fs ∨ f ∈ gs := by
  obtain ⟨_, others, hown, hall, hothers⟩ := h
  rcases hall.mem_iff.mp (mem_carried.mpr hf) with hmem | hmem
  · exact hown.mem_iff.mp hmem
  · exact absurd own (hothers f hmem)

/-! ## Equal sizes: one of the two comes out -/

theorem mem_arrived {a : Feed} {i : ℕ} (ha : a ∈ feeds) (hindex : a.index digest = some i) : i ∈ arrived digest feeds :=
  List.mem_toFinset.mpr (List.mem_filterMap.mpr ⟨a, ha, hindex⟩)

/-- Of two messages with the same chunks but one, the copy whose differing chunk is the first to
arrive is the one that the sequence conforms to. -/
theorem conforms_to_one {k : ℕ} (count : cs.length ≤ 65535) (length : ds.length = cs.length)
    (same : ∀ i, i ≠ k → cs.getD i [] = ds.getD i [])
    (only : ∀ f, Arrived feeds f → OfDigest digest f → f ∈ fragmentsOf digest cs ∨ f ∈ fragmentsOf digest ds) :
    (∀ pre a post, feeds = pre ++ a :: post → Conforms digest cs pre a) ∨
      ∀ pre a post, feeds = pre ++ a :: post → Conforms digest ds pre a := by
  have hpiece : ∀ f, Arrived feeds f → OfDigest digest f → ∃ i chunk, f = fragmentFrame digest cs.length i chunk ∧
      i < cs.length ∧ (chunk = cs.getD i [] ∨ chunk = ds.getD i []) := by
    intro f hf hof
    rcases only f hf hof with h | h
    · obtain ⟨i, hi, rfl⟩ := mem_fragmentsOf.mp h
      exact ⟨i, _, rfl, hi, .inl rfl⟩
    · obtain ⟨i, hi, rfl⟩ := mem_fragmentsOf.mp h
      exact ⟨i, _, by rw [length], by omega, .inr rfl⟩
  have hindex : ∀ i chunk now, i < cs.length →
      (Feed.frame (fragmentFrame digest cs.length i chunk) now).index digest = some i := by
    intro i chunk now hi
    rw [Feed.index, if_pos (fragmentFrame_ofDigest ..), fragmentFrame_index _ _ _ (by omega)]
  by_cases hfirst : ∃ pre now post, feeds = pre ++ .frame (fragmentFrame digest cs.length k (cs.getD k [])) now :: post ∧
      k ∉ arrived digest pre ∧ k < cs.length
  · left
    obtain ⟨pre, now, post, hfeeds, hnew, hk⟩ := hfirst
    intro pre' a post' hsplit
    cases a with
    | sweep now => trivial
    | frame f now' =>
      intro hof
      obtain ⟨i, chunk, rfl, hi, hchunk⟩ := hpiece f ⟨now', by simp [hsplit]⟩ hof
      refine ⟨i, chunk, rfl, hi, ?_⟩
      by_cases hik : i = k
      · subst hik
        have hsame : Feed.frame (fragmentFrame digest cs.length i chunk) now' =
            Feed.frame (fragmentFrame digest cs.length i (cs.getD i [])) now → chunk = cs.getD i [] := by
          intro heq
          have hdrop := congrArg (fun f => f.drop fragHeader) (Feed.frame.injEq .. ▸ heq).1
          simpa only [fragmentFrame_chunk] using hdrop
        rcases List.append_eq_append_iff.mp (hsplit.symm.trans hfeeds) with ⟨more, rfl, htail⟩ | ⟨more, rfl, htail⟩
        · cases more with
          | nil => exact .inr (hsame (List.cons.inj htail).1)
          | cons b more =>
            obtain ⟨rfl, -⟩ := List.cons.inj htail
            exact absurd (mem_arrived (List.mem_append_right _ List.mem_cons_self) (hindex i chunk now' hi)) hnew
        · cases more with
          | nil => exact .inr (hsame (List.cons.inj htail).1.symm)
          | cons b more =>
            obtain ⟨rfl, -⟩ := List.cons.inj htail
            exact .inl (mem_arrived (List.mem_append_right _ List.mem_cons_self) (hindex i (cs.getD i []) now hi))
      · exact .inr (hchunk.elim id fun h => h.trans (same i hik).symm)
  · right
    intro pre a post hsplit
    cases a with
    | sweep now => trivial
    | frame f now =>
      intro hof
      obtain ⟨i, chunk, rfl, hi, hchunk⟩ := hpiece f ⟨now, by simp [hsplit]⟩ hof
      refine ⟨i, chunk, by rw [length], by omega, ?_⟩
      by_cases hik : i = k
      · subst hik
        by_cases hmem : i ∈ arrived digest pre
        · exact .inl hmem
        · refine .inr (hchunk.resolve_left ?_)
          rintro rfl
          exact hfirst ⟨pre, now, post, hsplit, hmem, hi⟩
      · exact .inr (hchunk.elim (fun h => h.trans (same i hik)) id)

theorem arrived_subset (count : cs.length ≤ 65535) (conforms : ∀ pre a post, feeds = pre ++ a :: post → Conforms digest cs pre a) :
    arrived digest feeds ⊆ Finset.range cs.length := by
  intro i hi
  obtain ⟨a, ha, hindex⟩ := List.mem_filterMap.mp (List.mem_toFinset.mp hi)
  obtain ⟨pre, post, hsplit⟩ := List.append_of_mem ha
  have hconforms := conforms pre a post hsplit
  cases a with
  | sweep now => cases hindex
  | frame f now =>
    simp only [Feed.index] at hindex
    split_ifs at hindex with hof
    obtain ⟨j, chunk, rfl, hj, -⟩ := hconforms hof
    rw [fragmentFrame_index _ _ _ (by omega)] at hindex
    cases hindex
    exact Finset.mem_range.mpr hj

/-- The step at which the last index arrives. -/
theorem exists_last {n : ℕ} (pos : 0 < n) (full : (arrived digest feeds).card = n)
    (bound : ∀ pre post, feeds = pre ++ post → (arrived digest pre).card ≤ n) :
    ∃ pre a post, feeds = pre ++ a :: post ∧ (arrived digest pre).card < n ∧ (arrived digest (pre ++ [a])).card = n := by
  induction feeds using List.reverseRecOn with
  | nil => exact absurd full pos.ne
  | append_singleton past a ih =>
    by_cases hbefore : (arrived digest past).card = n
    · obtain ⟨pre, b, post, rfl, hlt, heq⟩ := ih hbefore fun pre post h => bound pre (post ++ [a]) (by rw [h, List.append_assoc])
      exact ⟨pre, b, post ++ [a], by simp, hlt, heq⟩
    · exact ⟨past, a, [], rfl, lt_of_le_of_ne (bound past [a] rfl) hbefore, full⟩

/-- A message all of whose fragments arrive comes out. -/
theorem returned_of_conforms {r : Reassembler} (free : r.slots[digest]? = none) (count : cs.length ≤ 65535) (pos : 0 < cs.length)
    (fits : cs.flatten.length ≤ cfg.reassemblyMaxBytes)
    (conforms : ∀ pre a post, feeds = pre ++ a :: post → Conforms digest cs pre a)
    (admissible : ∀ pre a post, feeds = pre ++ a :: post → Admissible cfg digest (Runs.run (feed cfg) r pre) a)
    (all : Finset.range cs.length ⊆ arrived digest feeds) : cs.flatten ∈ r.returned cfg feeds := by
  have hbound : ∀ pre post, feeds = pre ++ post → (arrived digest pre).card ≤ cs.length := by
    rintro pre post rfl
    have hsub : arrived digest pre ⊆ Finset.range cs.length :=
      arrived_subset count fun pre' a post' h => conforms pre' a (post' ++ post) (by rw [h]; simp)
    exact (Finset.card_le_card hsub).trans_eq (Finset.card_range _)
  have hfull : (arrived digest feeds).card = cs.length := by
    rw [(arrived_subset count conforms).antisymm all, Finset.card_range]
  obtain ⟨pre, a, post, rfl, hbefore, hlast⟩ := exists_last pos hfull hbound
  have hslot := run_slot free count fits pre (fun pre' b post' h => conforms pre' b (post' ++ a :: post) (by rw [h]; simp))
    (fun pre' b post' h => admissible pre' b (post' ++ a :: post) (by rw [h]; simp)) hbefore
  have hconforms := conforms pre a post rfl
  have hadmissible := admissible pre a post rfl
  rw [arrived_snoc] at hlast
  cases a with
  | sweep now =>
    rw [show (Feed.sweep now).index digest = none from rfl, Option.toFinset_none, Finset.union_empty] at hlast
    exact absurd hlast hbefore.ne
  | frame f now =>
    by_cases hof : OfDigest digest f
    · obtain ⟨i, chunk, rfl, hi, hchunk⟩ := hconforms hof
      rw [Feed.index, if_pos hof, fragmentFrame_index digest chunk cs.length (by omega), Option.toFinset_some,
        Finset.union_comm, ← Finset.insert_eq] at hlast
      have hingest := hslot.ingest (fun _ => hadmissible) count fits hbefore hi hchunk now
      rw [if_pos hlast] at hingest
      exact mem_returned hingest.1
    · rw [show (Feed.frame f now).index digest = none from if_neg hof, Option.toFinset_none, Finset.union_empty] at hlast
      exact absurd hlast hbefore.ne

/-! ## Different sizes: neither comes out -/

/-- No slot but that of the digest is in use. -/
def Alone (digest : Digest) (r : Reassembler) : Prop := r.slots.erase digest = ∅

theorem Alone.room {r : Reassembler} (h : r.Alone digest) (slots : 1 < cfg.reassemblySlots) : r.slots.size < cfg.reassemblySlots := by
  have hsize := Std.ExtTreeMap.size_le_size_erase (t := r.slots) (k := digest)
  rw [h, Std.ExtTreeMap.size_empty] at hsize
  omega

theorem Alone.ingest {r : Reassembler} (h : r.Alone digest) (slots : 1 < cfg.reassemblySlots) (total i : ℕ) (hi : i < total)
    (count : total ≤ 65535) (chunk : Bytes) (now : Millis) :
    (r.ingest cfg (fragmentFrame digest total i chunk) now).1.Alone digest := by
  rw [ingest_fragmentFrame (fun _ => h.room slots) hi count]
  unfold Alone at h ⊢
  simp only [place]
  split_ifs <;> simpa using h

/-- Whole fragments of the digest and nothing else. -/
def OwnFragment (digest : Digest) (f : Bytes) : Prop :=
  ∃ total i chunk, f = fragmentFrame digest total i chunk ∧ i < total ∧ total ≤ 65535

theorem alone_run {r : Reassembler} (h : r.Alone digest) (slots : 1 < cfg.reassemblySlots) {fs : List Bytes}
    (own : ∀ f ∈ fs, OwnFragment digest f) : (Runs.run (feed cfg) r (fs.map (.frame · 0))).Alone digest := by
  induction fs generalizing r with
  | nil => exact h
  | cons f fs ih =>
    obtain ⟨total, i, chunk, rfl, hi, count⟩ := own f List.mem_cons_self
    exact ih (h.ingest slots total i hi count chunk 0) fun g hg => own g (List.mem_cons_of_mem _ hg)

theorem alone_admissible {r : Reassembler} (h : r.Alone digest) (slots : 1 < cfg.reassemblySlots) {fs : List Bytes}
    (own : ∀ f ∈ fs, OwnFragment digest f) :
    ∀ pre a post, fs.map (Feed.frame · 0) = pre ++ a :: post → Admissible cfg digest (Runs.run (feed cfg) r pre) a := by
  intro pre a post hsplit
  obtain ⟨fs₁, fs₂, rfl, rfl, htail⟩ := List.map_eq_append_iff.mp hsplit
  obtain ⟨f, fs₂, rfl, rfl, -⟩ := List.map_eq_cons_iff.mp htail
  exact (alone_run h slots fun g hg => own g (List.mem_append_left _ hg)).room slots

/-- Fragments that do not complete the message are kept silently. -/
theorem Slot.keep {r : Reassembler} {A : Finset ℕ} (h : r.Slot digest cs A) (alone : r.Alone digest)
    (slots : 1 < cfg.reassemblySlots) (count : cs.length ≤ 65535) (fits : cs.flatten.length ≤ cfg.reassemblyMaxBytes)
    (chunk : ℕ → Bytes) (is : List ℕ) (his : ∀ i ∈ is, i < cs.length ∧ (i ∈ A ∨ chunk i = cs.getD i []))
    (missing : (A ∪ is.toFinset).card < cs.length) :
    let frames := is.map fun i => fragmentFrame digest cs.length i (chunk i)
    r.returned cfg (frames.map (.frame · 0)) = [] ∧
      (Runs.run (Reassembler.feed cfg) r (frames.map (.frame · 0))).Slot digest cs (A ∪ is.toFinset) := by
  induction is generalizing r A with
  | nil => simpa [returned] using h
  | cons i is ih =>
    have hunion : A ∪ (i :: is).toFinset = insert i A ∪ is.toFinset := by
      rw [List.toFinset_cons, Finset.union_insert, Finset.insert_union]
    rw [hunion] at missing ⊢
    obtain ⟨hi, hchunk⟩ := his i List.mem_cons_self
    have hone : (insert i A).card < cs.length := (Finset.card_le_card Finset.subset_union_left).trans_lt missing
    have hbefore : A.card < cs.length := (Finset.card_le_card (Finset.subset_insert i A)).trans_lt hone
    have hingest := h.ingest (fun _ => alone.room slots) count fits hbefore hi hchunk 0
    rw [if_neg hone.ne] at hingest
    obtain ⟨hnone, hslot⟩ := hingest
    have hrest := ih hslot (alone.ingest slots cs.length i hi count (chunk i) 0)
      (fun j hj => ⟨(his j (List.mem_cons_of_mem i hj)).1,
        (his j (List.mem_cons_of_mem i hj)).2.imp_left (Finset.mem_insert_of_mem)⟩) missing
    refine ⟨?_, hrest.2⟩
    rw [List.map_cons, List.map_cons, returned, yields_none hnone, List.nil_append]
    exact hrest.1

theorem Slot.held {r : Reassembler} {A : Finset ℕ} (h : r.Slot digest cs A) (some_ : A.Nonempty) :
    ∃ p, r.slots[digest]? = some p ∧ Filled cs A p := by
  have hentry := h 0
  cases hget : r.slots[digest]? with
  | some p =>
    rw [hget] at hentry
    exact ⟨p, rfl, hentry⟩
  | none =>
    rw [hget] at hentry
    have hzero : 0 = A.card := hentry.received
    exact absurd hzero (Finset.card_pos.mpr some_).ne

/-- A fragment with another total drops the slot. -/
theorem Slot.drop {r : Reassembler} {A : Finset ℕ} (h : r.Slot digest cs A) (some_ : A.Nonempty) (alone : r.Alone digest)
    (slots : 1 < cfg.reassemblySlots) (total i : ℕ) (other : cs.length ≠ total) (hi : i < total) (count : total ≤ 65535)
    (chunk : Bytes) :
    r.yields cfg (.frame (fragmentFrame digest total i chunk) 0) = [] ∧
      (r.ingest cfg (fragmentFrame digest total i chunk) 0).1.slots[digest]? = none := by
  obtain ⟨p, hget, hfilled⟩ := h.held some_
  have hplace : r.place cfg digest total i chunk 0 =
      ({ r with slots := r.slots.erase digest }, .error (.badIndex i total)) := by
    unfold place
    rw [hget, Option.getD_some, if_pos (by rw [hfilled.total]; exact other)]
  rw [yields, ingest_fragmentFrame (fun _ => alone.room slots) hi count, hplace]
  exact ⟨rfl, by simp⟩

theorem fragmentsOf_eq (digest : Digest) (cs : List Bytes) :
    fragmentsOf digest cs = (List.range cs.length).map fun i => fragmentFrame digest cs.length i (cs.getD i []) := by
  refine List.ext_getElem (by simp [fragmentsOf]) fun i h₁ h₂ => ?_
  have hi : i < cs.length := by simpa [fragmentsOf] using h₁
  simp [fragmentsOf, List.getElem?_eq_getElem hi]

theorem own_fragmentsOf (count : cs.length ≤ 65535) {f : Bytes} (hf : f ∈ fragmentsOf digest cs) : OwnFragment digest f := by
  obtain ⟨i, hi, rfl⟩ := mem_fragmentsOf.mp hf
  exact ⟨_, _, _, rfl, hi, count⟩

theorem card_toFinset_lt {is : List ℕ} {n : ℕ} (h : is.length < n) : is.toFinset.card < n :=
  (List.toFinset_card_le is).trans_lt h

section Destroy
variable {n m : ℕ}

/-- The rest of a message whose first fragment is lost. -/
theorem keep_rest (cs : List Bytes) (is : List ℕ) {r : Reassembler} (free : r.slots[digest]? = none) (alone : r.Alone digest) (slots : 1 < cfg.reassemblySlots)
    (count : cs.length ≤ 65535) (fits : cs.flatten.length ≤ cfg.reassemblyMaxBytes) (his : ∀ i ∈ is, i < cs.length)
    (missing : is.length < cs.length) :
    let frames := is.map fun i => fragmentFrame digest cs.length i (cs.getD i [])
    r.returned cfg (frames.map (.frame · 0)) = [] ∧
      (Runs.run (feed cfg) r (frames.map (.frame · 0))).Slot digest cs is.toFinset := by
  have hkeep := (slot_free free cs).keep alone slots count fits (fun i => cs.getD i []) is
    (fun i hi => ⟨his i hi, .inr rfl⟩) (by rw [Finset.empty_union]; exact card_toFinset_lt missing)
  rwa [Finset.empty_union] at hkeep

/-- Unequal totals: each copy drops the slot of the other. -/
theorem destroyed_of_totals (cfg : Tunables) (digest : Digest) (slots : 1 < cfg.reassemblySlots) (hn : cs.length = n + 2) (hm : ds.length = m + 2) (ne : n ≠ m)
    (countₙ : cs.length ≤ 65535) (countₘ : ds.length ≤ 65535) (fitsₙ : cs.flatten.length ≤ cfg.reassemblyMaxBytes)
    (fitsₘ : ds.flatten.length ≤ cfg.reassemblyMaxBytes) :
    ∃ frames, Merges (fragmentsOf digest cs) (fragmentsOf digest ds) frames ∧
      ({} : Reassembler).returned cfg (frames.map (.frame · 0)) = [] := by
  let F := fun i => fragmentFrame digest cs.length i (cs.getD i [])
  let G := fun i => fragmentFrame digest ds.length i (ds.getD i [])
  have hfs : fragmentsOf digest cs = F 0 :: F 1 :: (List.range' 2 n).map F := by
    rw [fragmentsOf_eq, hn, List.range_eq_range', List.range'_succ, List.range'_succ]
    simp only [List.map_cons, F, hn]
  have hgs : fragmentsOf digest ds = G 0 :: (List.range' 1 (m + 1)).map G := by
    rw [fragmentsOf_eq, hm, List.range_eq_range', List.range'_succ]
    simp only [List.map_cons, G, hm]
  refine ⟨F 0 :: (fragmentsOf digest ds ++ F 1 :: (List.range' 2 n).map F), ?_, ?_⟩
  · rw [hfs]
    exact .first (by simpa using (Merges.alone (F 1 :: (List.range' 2 n).map F)).after (fragmentsOf digest ds))
  · have alone₀ : ({} : Reassembler).Alone digest := Std.ExtTreeMap.erase_empty
    have hF : ∀ is : List ℕ, (∀ i ∈ is, i < n + 2) → ∀ f ∈ is.map F, OwnFragment digest f := by
      intro is his f hf
      obtain ⟨i, hi, rfl⟩ := List.mem_map.mp hf
      exact ⟨_, _, _, rfl, hn ▸ his i hi, countₙ⟩
    have hG : ∀ is : List ℕ, (∀ i ∈ is, i < m + 2) → ∀ f ∈ is.map G, OwnFragment digest f := by
      intro is his f hf
      obtain ⟨i, hi, rfl⟩ := List.mem_map.mp hf
      exact ⟨_, _, _, rfl, hm ▸ his i hi, countₘ⟩
    obtain ⟨hfirst, hslot₁⟩ := keep_rest cs [0] Std.ExtTreeMap.getElem?_empty alone₀ slots countₙ fitsₙ (by simp [hn]) (by simp [hn])
    have alone₁ := alone_run alone₀ slots (hF [0] (by simp))
    obtain ⟨hdrop₁, free₁⟩ := hslot₁.drop (by simp) alone₁ slots ds.length 0 (by omega) (by omega) countₘ (ds.getD 0 [])
    have alone₂ := alone₁.ingest slots ds.length 0 (by omega) countₘ (ds.getD 0 []) 0
    have hrange₁ : ∀ i ∈ List.range' 1 (m + 1), i < m + 2 := fun i hi => by
      have := List.mem_range'_1.mp hi
      omega
    obtain ⟨hsecond, hslot₂⟩ := keep_rest ds (List.range' 1 (m + 1)) free₁ alone₂ slots countₘ fitsₘ (fun i hi => hm ▸ hrange₁ i hi) (by simp [hm])
    have alone₃ := alone_run alone₂ slots (hG _ hrange₁)
    obtain ⟨hdrop₂, free₂⟩ := hslot₂.drop (by simp) alone₃ slots cs.length 1 (by omega) (by omega) countₙ (cs.getD 1 [])
    have alone₄ := alone₃.ingest slots cs.length 1 (by omega) countₙ (cs.getD 1 []) 0
    have hthird := (keep_rest cs (List.range' 2 n) free₂ alone₄ slots countₙ fitsₙ
      (fun i hi => by
        have := List.mem_range'_1.mp hi
        omega) (by simp [hn])).1
    have hframes : (F 0 :: (fragmentsOf digest ds ++ F 1 :: (List.range' 2 n).map F)).map (Feed.frame · 0) =
        ([0].map F).map (Feed.frame · 0) ++ .frame (G 0) 0 ::
          (((List.range' 1 (m + 1)).map G).map (Feed.frame · 0) ++ .frame (F 1) 0 :: ((List.range' 2 n).map F).map (Feed.frame · 0)) := by
      simp [hgs]
    rw [hframes, returned_append, hfirst, returned, hdrop₁, feed, returned_append, hsecond, returned, hdrop₂, feed, hthird]
    rfl

/-- Equal totals but unequal sizes: what comes out begins with the chunk of one copy and goes on with
those of the other. -/
theorem destroyed_of_sizes (cfg : Tunables) (digest : Digest) (slots : 1 < cfg.reassemblySlots) (hn : cs.length = n + 2) (hm : ds.length = n + 2)
    (lt : (cs.getD 0 []).length < (ds.getD 0 []).length) (count : n + 2 ≤ 65535)
    (fitsₙ : cs.flatten.length ≤ cfg.reassemblyMaxBytes) (fitsₘ : ds.flatten.length ≤ cfg.reassemblyMaxBytes) :
    ∃ frames, Merges (fragmentsOf digest cs) (fragmentsOf digest ds) frames ∧
      ∀ x ∈ ({} : Reassembler).returned cfg (frames.map (.frame · 0)), x.length < ds.flatten.length := by
  let F := fun i => fragmentFrame digest (n + 2) i (cs.getD i [])
  let G := fun i => fragmentFrame digest (n + 2) i (ds.getD i [])
  -- the message that the slot ends up with
  let es := cs.getD 0 [] :: ds.tail
  have hes : es.length = n + 2 := by simp [es, hm]
  have hget : ∀ i, i ≠ 0 → ds.getD i [] = es.getD i [] := by
    intro i hi
    obtain ⟨j, rfl⟩ := Nat.exists_eq_succ_of_ne_zero hi
    cases ds with
    | nil => simp at hm
    | cons d ds => simp [es]
  have hshort : es.flatten.length < ds.flatten.length := by
    cases ds with
    | nil => simp at hm
    | cons d ds =>
      simp only [List.getD_cons_zero] at lt
      simp only [es, List.tail_cons, List.flatten_cons, List.length_append]
      omega
  have hfs : fragmentsOf digest cs = F 0 :: (List.range' 1 (n + 1)).map F := by
    rw [fragmentsOf_eq, hn, List.range_eq_range', List.range'_succ]
    simp only [List.map_cons, F]
  have hgs : fragmentsOf digest ds = (List.range (n + 1)).map G ++ [G (n + 1)] := by
    rw [fragmentsOf_eq, hm, List.range_succ, List.map_append]
    rfl
  refine ⟨F 0 :: (fragmentsOf digest ds ++ (List.range' 1 (n + 1)).map F), ?_, ?_⟩
  · rw [hfs]
    exact .first (by simpa using (Merges.alone ((List.range' 1 (n + 1)).map F)).after (fragmentsOf digest ds))
  · have alone₀ : ({} : Reassembler).Alone digest := Std.ExtTreeMap.erase_empty
    have hown : ∀ (is : List ℕ) (chunk : ℕ → Bytes), (∀ i ∈ is, i < n + 2) →
        ∀ f ∈ is.map fun i => fragmentFrame digest (n + 2) i (chunk i), OwnFragment digest f := by
      intro is chunk his f hf
      obtain ⟨i, hi, rfl⟩ := List.mem_map.mp hf
      exact ⟨_, _, _, rfl, his i hi, count⟩
    have hcard : ({0} ∪ (List.range (n + 1)).toFinset : Finset ℕ) = Finset.range (n + 1) := by
      ext i
      simp only [Finset.mem_union, Finset.mem_singleton, List.mem_toFinset, List.mem_range, Finset.mem_range]
      omega
    obtain ⟨hfirst, hslot₁⟩ := keep_rest es [0] Std.ExtTreeMap.getElem?_empty alone₀ slots (hes ▸ count) (by omega)
      (by simp [hes]) (by simp [hes])
    rw [hes] at hfirst hslot₁
    have alone₁ := alone_run alone₀ slots (hown [0] (fun i => es.getD i []) (by simp))
    obtain ⟨hsecond, hslot₂⟩ := hslot₁.keep alone₁ slots (hes ▸ count) (by omega) (fun i => ds.getD i []) (List.range (n + 1))
      (fun i hi => ⟨by rw [hes]; exact (List.mem_range.mp hi).trans (by omega), by
        by_cases h0 : i = 0
        · exact .inl (by simp [h0])
        · exact .inr (hget i h0)⟩)
      (by rw [show [0].toFinset = {0} from rfl, hcard, Finset.card_range, hes]; omega)
    rw [show [0].toFinset = {0} from rfl, hcard] at hslot₂
    rw [hes] at hsecond hslot₂
    have alone₂ := alone_run alone₁ slots (hown (List.range (n + 1)) (fun i => ds.getD i []) (fun i hi => by
      have := List.mem_range.mp hi
      omega))
    have hthird := hslot₂.ingest (fun _ => alone₂.room slots) (hes ▸ count) (by omega) (by rw [Finset.card_range, hes]; omega) (i := n + 1) (by omega)
      (.inr (hget (n + 1) (by omega))) 0
    rw [← Finset.range_add_one, Finset.card_range, if_pos hes.symm, hes] at hthird
    have alone₃ := alone₂.ingest slots (n + 2) (n + 1) (by omega) count (ds.getD (n + 1) []) 0
    have hfourth := (keep_rest cs (List.range' 1 (n + 1)) hthird.2 alone₃ slots (hn ▸ count) fitsₙ
      (fun i hi => by
        have := List.mem_range'_1.mp hi
        omega) (by simp [hn])).1
    have hframes : (F 0 :: (fragmentsOf digest ds ++ (List.range' 1 (n + 1)).map F)).map (Feed.frame · 0) =
        ([0].map fun i => fragmentFrame digest (n + 2) i (es.getD i [])).map (Feed.frame · 0) ++
          (((List.range (n + 1)).map G).map (Feed.frame · 0) ++
            .frame (G (n + 1)) 0 :: ((List.range' 1 (n + 1)).map F).map (Feed.frame · 0)) := by
      simp [hgs, F, es]
    rw [hn] at hfourth
    intro x hx
    rw [hframes, returned_append, hfirst, returned_append, hsecond, returned, yields_some hthird.1, feed, hfourth] at hx
    obtain rfl : x = es.flatten := by simpa using hx
    exact hshort

end Destroy

/-! ## Which copies survive each other -/

section Survive
variable [P : Prims]

/-- Whatever the interleaving, a copy of the packet comes out. -/
def Survives (cfg : Tunables) (p : Packet) (fs gs : List Bytes) : Prop :=
  ∀ (r : Reassembler) (feeds : List Feed), r.slots[p.digest]? = none → Mixed p.digest fs gs feeds →
    (∀ pre a post, feeds = pre ++ a :: post → Admissible cfg p.digest (Runs.run (feed cfg) r pre) a) →
    ∃ b ∈ r.returned cfg feeds, p.CopyIn b

theorem Survives.symm {p : Packet} {fs gs : List Bytes} (h : Survives cfg p fs gs) : Survives cfg p gs fs :=
  fun r feeds free mixed admissible => h r feeds free mixed.symm admissible

theorem survives_complete {p : Packet} {b : Bytes} (copy : p.CopyIn b) (gs : List Bytes) :
    Survives cfg p [kindComplete :: b] gs := by
  intro r feeds free mixed admissible
  obtain ⟨now, hmem⟩ := mixed.arrived (.inl List.mem_cons_self)
  obtain ⟨pre, post, rfl⟩ := List.append_of_mem hmem
  exact ⟨b, mem_returned rfl, copy⟩

theorem survives_same {p : Packet} (canonical : p.Canonical) (fits : p.encode.length ≤ cfg.reassemblyMaxBytes) (ttl : UInt8)
    {size : ℕ} (hsize : 0 < size) (count : (chunks size p.encode).length ≤ 65535) :
    Survives cfg p (fragmentsOf p.digest (chunks size p.encode))
      (fragmentsOf p.digest (chunks size { p with ttl := ttl }.encode)) := by
  intro r feeds free mixed admissible
  have hlen := p.encode_ttl_length ttl
  have hlength : (chunks size { p with ttl := ttl }.encode).length = (chunks size p.encode).length := by
    rw [chunks_length hsize, chunks_length hsize, hlen]
  have hpos : 0 < (chunks size p.encode).length := by
    rw [chunks_length hsize]
    have : 0 < p.encode.length := by
      rw [Packet.encode, List.length_append, Vector.length_toList]
      omega
    exact Nat.div_pos (by omega) hsize
  have hall : Finset.range (chunks size p.encode).length ⊆ arrived p.digest feeds := by
    intro i hi
    have hi := Finset.mem_range.mp hi
    obtain ⟨now, hmem⟩ := mixed.arrived (.inl (mem_fragmentsOf.mpr ⟨i, hi, rfl⟩))
    refine mem_arrived hmem ?_
    rw [Feed.index, if_pos (fragmentFrame_ofDigest ..), fragmentFrame_index _ _ _ (by omega)]
  rcases conforms_to_one count hlength (fun i hi => chunks_getD_congr hsize (fun j hj => p.encode_ttl ttl hj) hi)
    (fun f hf hof => mixed.only hf hof) with conforms | conforms
  · have hreturned := returned_of_conforms free count hpos (by rwa [chunks_flatten hsize]) conforms admissible hall
    rw [chunks_flatten hsize] at hreturned
    exact ⟨_, hreturned, Packet.copyIn_encode canonical p.ttl⟩
  · have hreturned := returned_of_conforms free (hlength ▸ count) (hlength ▸ hpos) (by rwa [chunks_flatten hsize, hlen])
      conforms admissible (hlength ▸ hall)
    rw [chunks_flatten hsize] at hreturned
    exact ⟨_, hreturned, Packet.copyIn_encode canonical ttl⟩

/-- Copies cut to different sizes do not survive each other. -/
theorem not_survives {p : Packet} {b₁ b₂ : Bytes} (length₁ : b₁.length = p.encode.length) (length₂ : b₂.length = p.encode.length)
    (fits : p.encode.length ≤ cfg.reassemblyMaxBytes) (slots : 1 < cfg.reassemblySlots) {size₁ size₂ : ℕ} (pos : 0 < size₁)
    (lt : size₁ < size₂) (large : size₂ < p.encode.length) (count₁ : (chunks size₁ b₁).length ≤ 65535)
    (count₂ : (chunks size₂ b₂).length ≤ 65535) :
    ¬ Survives cfg p (fragmentsOf p.digest (chunks size₁ b₁)) (fragmentsOf p.digest (chunks size₂ b₂)) := by
  have hflat₁ : (chunks size₁ b₁).flatten.length = p.encode.length := by rw [chunks_flatten pos, length₁]
  have hflat₂ : (chunks size₂ b₂).flatten.length = p.encode.length := by rw [chunks_flatten (pos.trans lt), length₂]
  have htwo : ∀ {size : ℕ} {b : Bytes}, 0 < size → size < b.length → ∃ n, (chunks size b).length = n + 2 := by
    intro size b hsize hlt
    have htwo : 2 ≤ (b.length + size - 1) / size := (Nat.le_div_iff_mul_le hsize).mpr (by omega)
    rw [chunks_length hsize]
    exact ⟨_, (Nat.sub_add_cancel htwo).symm⟩
  obtain ⟨n, hn⟩ := htwo pos (b := b₁) (by omega)
  obtain ⟨m, hm⟩ := htwo (pos.trans lt) (b := b₂) (by omega)
  have hframes : ∃ frames, Merges (fragmentsOf p.digest (chunks size₁ b₁)) (fragmentsOf p.digest (chunks size₂ b₂)) frames ∧
      ∀ x ∈ ({} : Reassembler).returned cfg (frames.map (.frame · 0)), x.length ≠ p.encode.length := by
    by_cases hnm : n = m
    · subst hnm
      have hlt : ((chunks size₁ b₁).getD 0 []).length < ((chunks size₂ b₂).getD 0 []).length := by
        rw [chunks_getD pos, chunks_getD (pos.trans lt)]
        simp only [Nat.zero_mul, List.drop_zero, List.length_take]
        omega
      obtain ⟨frames, hmerges, hshort⟩ := destroyed_of_sizes cfg p.digest slots hn hm hlt (hn ▸ count₁)
        (hflat₁ ▸ fits) (hflat₂ ▸ fits)
      exact ⟨frames, hmerges, fun x hx => (hflat₂ ▸ hshort x hx).ne⟩
    · obtain ⟨frames, hmerges, hnone⟩ := destroyed_of_totals cfg p.digest slots hn hm hnm count₁ count₂
        (hflat₁ ▸ fits) (hflat₂ ▸ fits)
      exact ⟨frames, hmerges, by simp [hnone]⟩
  obtain ⟨frames, hmerges, hwrong⟩ := hframes
  have hown : ∀ f ∈ frames, OwnFragment p.digest f := fun f hf => by
    rcases hmerges.mem_iff.mp hf with h | h
    · exact own_fragmentsOf count₁ h
    · exact own_fragmentsOf count₂ h
  have hcarried : (frames.map (Feed.frame · 0)).filterMap Feed.carried = frames := by
    rw [List.filterMap_map]
    exact List.filterMap_some
  intro survives
  obtain ⟨b, hb, hcopy⟩ := survives {} (frames.map (.frame · 0)) Std.ExtTreeMap.getElem?_empty
    ⟨frames, [], hmerges, by rw [hcarried]; exact Merges.alone frames, by simp⟩
    (alone_admissible Std.ExtTreeMap.erase_empty slots hown)
  exact hwrong b hb hcopy.length

/-- Two copies of a packet on links of two sizes survive each other exactly when one of them goes out
whole or both are cut alike. -/
theorem copies_survive_iff {p : Packet} (canonical : p.Canonical) (fits : p.encode.length ≤ cfg.reassemblyMaxBytes)
    (slots : 1 < cfg.reassemblySlots) (ttl : UInt8) {m₁ m₂ : ℕ} {fs gs : List Bytes} (split₁ : split p.encode p.digest m₁ = .ok fs)
    (split₂ : split { p with ttl := ttl }.encode p.digest m₂ = .ok gs) :
    Survives cfg p fs gs ↔ p.encode.length < m₁ ∨ p.encode.length < m₂ ∨ m₁ = m₂ := by
  have hlen := p.encode_ttl_length ttl
  obtain ⟨hm₁, ⟨hshort₁, rfl⟩ | ⟨hlong₁, hcount₁, rfl⟩⟩ := split_cases split₁
  · exact iff_of_true (survives_complete (Packet.copyIn_encode canonical p.ttl) gs) (.inl hshort₁)
  · obtain ⟨hm₂, ⟨hshort₂, rfl⟩ | ⟨hlong₂, hcount₂, rfl⟩⟩ := split_cases split₂
    · exact iff_of_true (survives_complete (Packet.copyIn_encode canonical ttl) _).symm (.inr (.inl (by omega)))
    · rcases lt_trichotomy m₁ m₂ with hlt | rfl | hgt
      · exact iff_of_false (not_survives rfl hlen fits slots (by omega) (by omega) (by omega) hcount₁ hcount₂) (by omega)
      · exact iff_of_true (survives_same canonical fits ttl (by omega) hcount₁) (.inr (.inr rfl))
      · exact iff_of_false
          (fun h => not_survives hlen rfl fits slots (by omega) (by omega) (by omega) hcount₂ hcount₁ h.symm) (by omega)

end Survive

theorem split_fragments (bytes : Bytes) (digest : Digest) (mtu : ℕ) (large : 13 < mtu) (long : mtu ≤ bytes.length)
    (count : (chunks (mtu - 13) bytes).length ≤ 65535) :
    split bytes digest mtu = .ok (fragmentsOf digest (chunks (mtu - 13) bytes)) := by
  have hheader : fragHeader = 13 := rfl
  unfold split
  rw [hheader, if_neg (by omega), if_neg (by omega)]
  simp only [← chunks_length (show 0 < mtu - 13 by omega) bytes]
  rw [if_neg (Nat.not_lt.mpr count)]
  rfl

end Reassembler
end CockroachChat

namespace CockroachChat.Reference
attribute [local instance] prims

/-- A packet of 106 bytes. -/
def parcel : Packet := Packet.new .channelMessage 5 0 (Vector.replicate 8 1) none (List.replicate 20 7)

theorem parcel_canonical : parcel.Canonical := ⟨rfl, rfl, by decide, by decide⟩

/-- Both links have mtu 60. -/
theorem alike_copies_survive :
    ∃ fs gs, split parcel.encode parcel.digest 60 = .ok fs ∧ split { parcel with ttl := 4 }.encode parcel.digest 60 = .ok gs ∧
      Reassembler.Survives {} parcel fs gs := by
  have hsplit₁ := Reassembler.split_fragments parcel.encode parcel.digest 60 (by decide)
    (by decide +kernel) (by decide +kernel)
  have hsplit₂ := Reassembler.split_fragments { parcel with ttl := 4 }.encode parcel.digest 60
    (by decide) (by decide +kernel) (by decide +kernel)
  exact ⟨_, _, hsplit₁, hsplit₂, (Reassembler.copies_survive_iff parcel_canonical (by decide +kernel) (by decide) 4 hsplit₁ hsplit₂).mpr
    (.inr (.inr rfl))⟩

/-- One link has mtu 60, the other 80. -/
theorem unlike_copies_destroyed :
    ¬ ∀ (p : Packet) (ttl : UInt8) (m₁ m₂ : ℕ) (fs gs : List Bytes), p.Canonical → 13 < m₁ → 13 < m₂ →
      split p.encode p.digest m₁ = .ok fs → split { p with ttl := ttl }.encode p.digest m₂ = .ok gs →
      Reassembler.Survives {} p fs gs := by
  intro h
  have hsplit₁ := Reassembler.split_fragments parcel.encode parcel.digest 60 (by decide)
    (by decide +kernel) (by decide +kernel)
  have hsplit₂ := Reassembler.split_fragments { parcel with ttl := 4 }.encode parcel.digest 80
    (by decide) (by decide +kernel) (by decide +kernel)
  exact Reassembler.not_survives rfl (parcel.encode_ttl_length 4) (by decide +kernel) (by decide) (by decide) (by decide)
    (by decide +kernel) (by decide +kernel) (by decide +kernel)
    (h parcel 4 60 80 _ _ parcel_canonical (by decide) (by decide) hsplit₁ hsplit₂)

end CockroachChat.Reference
