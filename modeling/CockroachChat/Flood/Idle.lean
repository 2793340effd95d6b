import CockroachChat.Flood.Reassembly
import CockroachChat.Foundations.Maps

/-! # Slow transfers

The sweep counts from the first fragment of a message, not from the last. A transfer that is still
going when it gets too old loses what it has. -/
namespace CockroachChat.Reassembler
set_option autoImplicit false

variable {cfg : Tunables} {r : Reassembler} {digest : Digest} {cs : List Bytes} {A : Finset ℕ} {now t : Millis} {i total : ℕ}

def receivedOf (r : Reassembler) (digest : Digest) : ℕ := (r.slots[digest]?.map (·.received)).getD 0

/-- The frame puts a new fragment into the message's slot. -/
def Accepts (cfg : Tunables) (r : Reassembler) (digest : Digest) (f : Bytes) (now : Millis) : Prop :=
  r.receivedOf digest < (r.ingest cfg f now).1.receivedOf digest

/-- A new fragment of the message was put into its slot later than the timeout before `t`. -/
def Active (cfg : Tunables) (feeds : List Feed) (digest : Digest) (t : Millis) : Prop :=
  ∃ pre f u post, feeds = pre ++ .frame f u :: post ∧ Accepts cfg (Runs.run (feed cfg) {} pre) digest f u ∧
    t < u + cfg.reassemblyTimeoutMs

/-- No sweep takes a slot that has accepted something within the timeout. -/
def OnlyIdle (cfg : Tunables) (feeds : List Feed) : Prop :=
  ∀ pre t post, feeds = pre ++ .sweep t :: post → ∀ (d : Digest) (p : Partial), (Runs.run (feed cfg) {} pre).slots[d]? = some p →
    Active cfg pre d t → ((Runs.run (feed cfg) {} pre).evictExpired cfg t).slots[d]? = some p

/-- Whatever is active at a sweep was begun within the timeout. -/
def Brief (cfg : Tunables) (feeds : List Feed) : Prop :=
  ∀ pre t post, feeds = pre ++ .sweep t :: post → ∀ (d : Digest) (p : Partial), (Runs.run (feed cfg) {} pre).slots[d]? = some p →
    Active cfg pre d t → t - p.firstSeenMs < cfg.reassemblyTimeoutMs

theorem swept_iff {p : Partial} (held : r.slots[digest]? = some p) :
    (r.evictExpired cfg t).slots[digest]? = some p ↔ t - p.firstSeenMs < cfg.reassemblyTimeoutMs := by
  unfold evictExpired
  rw [Std.ExtTreeMap.getElem?_filter', held]
  by_cases h : t - p.firstSeenMs < cfg.reassemblyTimeoutMs
  · simp [Option.filter, h]
  · simp [Option.filter, h]

theorem onlyIdle_iff (feeds : List Feed) : OnlyIdle cfg feeds ↔ Brief cfg feeds := by
  constructor
  · exact fun h pre t post hsplit d p held active => (swept_iff held).mp (h pre t post hsplit d p held active)
  · exact fun h pre t post hsplit d p held active => (swept_iff held).mpr (h pre t post hsplit d p held active)

/-! ## When a slot was begun -/

/-- The message has a slot, begun then. -/
def Begun (r : Reassembler) (digest : Digest) (t : Millis) : Prop := ∃ p, r.slots[digest]? = some p ∧ p.firstSeenMs = t

theorem Begun.of_lookup {r' : Reassembler} (h : r.Begun digest t) (same : r'.slots[digest]? = r.slots[digest]?) : r'.Begun digest t := by
  obtain ⟨p, hp, ht⟩ := h
  exact ⟨p, same.trans hp, ht⟩

/-- A fragment that does not complete the message leaves it a slot, begun when it was or now. -/
theorem place_begun {chunk : Bytes} (h : (r.place cfg digest total i chunk now).2 = .ok none) :
    (r.place cfg digest total i chunk now).1.Begun digest (r.slots[digest]?.getD (freshPartial total now)).firstSeenMs := by
  unfold place at h ⊢
  generalize r.slots[digest]?.getD (freshPartial total now) = p at h ⊢
  by_cases htotal : p.total ≠ total
  · simp [htotal] at h
  simp only [if_neg htotal] at h ⊢
  by_cases hcap : (p.chunks.getD i none).isNone = true ∧ p.bytes + chunk.length > cfg.reassemblyMaxBytes
  · simp only [if_pos hcap] at h
    cases h
  simp only [if_neg hcap] at h ⊢
  have hfirst : (if (p.chunks.getD i none).isNone = true then fillSlot p i chunk else p).firstSeenMs = p.firstSeenMs := by
    split_ifs <;> rfl
  generalize (if (p.chunks.getD i none).isNone = true then fillSlot p i chunk else p) = q at h hfirst ⊢
  by_cases hcomplete : q.received = q.total
  · simp only [if_pos hcomplete] at h
    cases h
  · rw [if_neg hcomplete]
    exact ⟨q, Std.ExtTreeMap.getElem?_insert_self, hfirst⟩

/-! ## One transfer

The fragments of a message of which each arrives once, among other frames and sweeps. -/

/-- The fragments of the message. -/
def Feed.own (digest : Digest) : Feed → Option Bytes
  | .frame f _ => if OfDigest digest f then some f else none
  | .sweep _ => none

/-- No slot has to go for another. -/
def Spacious (cfg : Tunables) (r : Reassembler) : Feed → Prop
  | .frame f _ => ∀ d, OfDigest d f → r.Roomy cfg d
  | .sweep _ => True

/-- A message cut into few enough chunks, small enough to be put together. -/
structure Transfer (cfg : Tunables) (cs : List Bytes) : Prop where
  count : cs.length ≤ 65535
  fits : cs.flatten.length ≤ cfg.reassemblyMaxBytes

/-- A fragment that leaves some other one missing. -/
theorem Transfer.fragment (h : Transfer cfg cs) (hslot : r.Slot digest cs A) (room : r.Roomy cfg digest) (hi : i < cs.length)
    {k : ℕ} (hk : k < cs.length) (missing : k ∉ insert i A) (now : Millis) :
    (r.ingest cfg (fragmentFrame digest cs.length i (cs.getD i [])) now).2 = .ok none ∧
    (r.ingest cfg (fragmentFrame digest cs.length i (cs.getD i [])) now).1.Slot digest cs (insert i A) ∧
    ∀ t, (r.slots[digest]?.getD (freshPartial cs.length now)).firstSeenMs = t →
      (r.ingest cfg (fragmentFrame digest cs.length i (cs.getD i [])) now).1.Begun digest t := by
  have hsub : insert i A ⊆ (Finset.range cs.length).erase k := by
    intro j hj
    refine Finset.mem_erase.mpr ⟨fun heq => missing (heq ▸ hj), ?_⟩
    rcases Finset.mem_insert.mp hj with rfl | hj
    · exact Finset.mem_range.mpr hi
    · exact (hslot now).indices hj
  have hcard : (insert i A).card < cs.length := by
    have hle := Finset.card_le_card hsub
    rw [Finset.card_erase_of_mem (Finset.mem_range.mpr hk), Finset.card_range] at hle
    omega
  have hbefore : A.card < cs.length := (Finset.card_le_card (Finset.subset_insert i A)).trans_lt hcard
  have hingest := hslot.ingest room h.count h.fits hbefore hi (.inr rfl) now
  rw [if_neg hcard.ne] at hingest
  refine ⟨hingest.1, hingest.2, ?_⟩
  rintro t rfl
  have hnone := hingest.1
  rw [ingest_fragmentFrame room hi h.count] at hnone ⊢
  exact place_begun hnone

/-- What a sweep leaves of the slot. -/
theorem Slot.swept (h : r.Slot digest cs A) (t : Millis) :
    (r.evictExpired cfg t).Slot digest cs A ∨ (r.evictExpired cfg t).Slot digest cs ∅ := by
  cases held : r.slots[digest]? with
  | none =>
    refine .inl (h.of_lookup ?_)
    rw [evictExpired, Std.ExtTreeMap.getElem?_filter', held]
    rfl
  | some p =>
    by_cases hyoung : t - p.firstSeenMs < cfg.reassemblyTimeoutMs
    · exact .inl (h.of_lookup (((swept_iff held).mpr hyoung).trans held.symm))
    · refine .inr (slot_free ?_ cs)
      rw [evictExpired, Std.ExtTreeMap.getElem?_filter', held]
      simp [Option.filter, hyoung]

/-- Every sweep comes within the timeout from the beginning of the transfer. -/
def Spared (cfg : Tunables) (t₁ : Millis) (mid : List Feed) : Prop := ∀ u, .sweep u ∈ mid → u - t₁ < cfg.reassemblyTimeoutMs

section Run
variable {i₁ iₗ : ℕ} {t₁ : Millis} {mid : List Feed}

/-- Other fragments of the message, not the first and not the last. -/
def Between (digest : Digest) (cs : List Bytes) (i₁ iₗ : ℕ) (mid : List Feed) : Prop :=
  ∀ f u, .frame f u ∈ mid → OfDigest digest f → ∃ j, j < cs.length ∧ j ≠ i₁ ∧ j ≠ iₗ ∧ f = fragmentFrame digest cs.length j (cs.getD j [])

theorem last_not_arrived (count : cs.length ≤ 65535) (h : Between digest cs i₁ iₗ mid) (hi : i₁ < cs.length) (hne : i₁ ≠ iₗ) (chunk : Bytes) :
    iₗ ∉ arrived digest (.frame (fragmentFrame digest cs.length i₁ chunk) t₁ :: mid) := by
  unfold arrived
  rw [List.mem_toFinset, List.mem_filterMap]
  rintro ⟨a, ha, hindex⟩
  rcases List.mem_cons.mp ha with rfl | ha
  · rw [Feed.index, if_pos (fragmentFrame_ofDigest ..), fragmentFrame_index _ _ _ (by omega)] at hindex
    exact hne (Option.some.inj hindex)
  · cases a with
    | sweep u => cases hindex
    | frame f u =>
      simp only [Feed.index] at hindex
      split_ifs at hindex with hof
      obtain ⟨j, hj, -, hlast, rfl⟩ := h f u ha hof
      rw [fragmentFrame_index _ _ _ (by omega)] at hindex
      exact hlast (Option.some.inj hindex)

/-- Where a transfer stands: it holds all that has come in since it began, or has lost its first fragment. -/
structure Standing (cfg : Tunables) (digest : Digest) (cs : List Bytes) (i₁ : ℕ) (t₁ : Millis) (mid : List Feed) (got : Finset ℕ)
    (r : Reassembler) : Prop where
  whole : Spared cfg t₁ mid → r.Slot digest cs got ∧ r.Begun digest t₁
  broken : ¬ Spared cfg t₁ mid → ∃ A, i₁ ∉ A ∧ r.Slot digest cs A

variable {got : Finset ℕ} {f : Bytes} {u : Millis}

theorem spared_frame : Spared cfg t₁ (mid ++ [.frame f u]) ↔ Spared cfg t₁ mid := by
  simp [Spared]

theorem spared_sweep : Spared cfg t₁ (mid ++ [.sweep u]) ↔ Spared cfg t₁ mid ∧ u - t₁ < cfg.reassemblyTimeoutMs := by
  simp [Spared, or_imp, forall_and]

/-- A sweep spares a transfer that is young enough, and breaks it off otherwise. -/
theorem Standing.sweep (h : Standing cfg digest cs i₁ t₁ mid got r) (u : Millis) :
    Standing cfg digest cs i₁ t₁ (mid ++ [.sweep u]) got (r.evictExpired cfg u) where
  whole hspared := by
    obtain ⟨hmid, hu⟩ := spared_sweep.mp hspared
    obtain ⟨hslot, p, hp, ht⟩ := h.whole hmid
    have hkept := (swept_iff hp).mpr (ht ▸ hu)
    exact ⟨hslot.of_lookup (hkept.trans hp.symm), p, hkept, ht⟩
  broken hbad := by
    by_cases hmid : Spared cfg t₁ mid
    · obtain ⟨-, p, hp, ht⟩ := h.whole hmid
      have hold : ¬ u - p.firstSeenMs < cfg.reassemblyTimeoutMs := fun hlt => hbad (spared_sweep.mpr ⟨hmid, ht ▸ hlt⟩)
      refine ⟨∅, Finset.notMem_empty _, slot_free ?_ cs⟩
      rw [evictExpired, Std.ExtTreeMap.getElem?_filter', hp]
      simp [Option.filter, hold]
    · obtain ⟨A, hA, hslot⟩ := h.broken hmid
      have hcases : (r.evictExpired cfg u).Slot digest cs A ∨ (r.evictExpired cfg u).Slot digest cs ∅ := hslot.swept u
      rcases hcases with hswept | hswept
      · exact ⟨A, hA, hswept⟩
      · exact ⟨∅, Finset.notMem_empty _, hswept⟩

/-- Another fragment, with the last one still missing. -/
theorem Standing.fragment (h : Standing cfg digest cs i₁ t₁ mid got r) (transfer : Transfer cfg cs) (room : r.Roomy cfg digest)
    {j : ℕ} (hj : j < cs.length) (hi₁ : i₁ < cs.length) (hiₗ : iₗ < cs.length) (hfirst : j ≠ i₁) (hmissing : iₗ ∉ insert j got) (u : Millis) :
    let f := fragmentFrame digest cs.length j (cs.getD j [])
    Standing cfg digest cs i₁ t₁ (mid ++ [.frame f u]) (insert j got) (r.ingest cfg f u).1 where
  whole hspared := by
    obtain ⟨hslot, p, hp, ht⟩ := h.whole (spared_frame.mp hspared)
    have hnext := transfer.fragment hslot room hj hiₗ hmissing u
    exact ⟨hnext.2.1, hnext.2.2 t₁ (by rw [hp]; exact ht)⟩
  broken hbad := by
    obtain ⟨A, hA, hslot⟩ := h.broken (mt spared_frame.mpr hbad)
    have hmissing : i₁ ∉ insert j A := by
      rw [Finset.mem_insert, not_or]
      exact ⟨hfirst.symm, hA⟩
    exact ⟨insert j A, hmissing, (transfer.fragment hslot room hj hi₁ hmissing u).2.1⟩

theorem Standing.foreign (h : Standing cfg digest cs i₁ t₁ mid got r) (room : ∀ d, OfDigest d f → r.Roomy cfg d)
    (hof : ¬ OfDigest digest f) (u : Millis) : Standing cfg digest cs i₁ t₁ (mid ++ [.frame f u]) got (r.ingest cfg f u).1 where
  whole hspared := by
    obtain ⟨hslot, hbegun⟩ := h.whole (spared_frame.mp hspared)
    have hsame := ingest_foreign room hof u
    exact ⟨hslot.of_lookup hsame, hbegun.of_lookup hsame⟩
  broken hbad := by
    obtain ⟨A, hA, hslot⟩ := h.broken (mt spared_frame.mpr hbad)
    exact ⟨A, hA, hslot.of_lookup (ingest_foreign room hof u)⟩

theorem lt_index {j : ℕ} (transfer : Transfer cfg cs) (hj : j < cs.length) : j < 65536 :=
  Nat.lt_of_lt_of_le hj (transfer.count.trans (by decide))

/-- Up to its last fragment. -/
theorem Transfer.run (h : Transfer cfg cs) (free : r.slots[digest]? = none) (hi₁ : i₁ < cs.length) (hiₗ : iₗ < cs.length)
    (hne : i₁ ≠ iₗ) (mid : List Feed) (between : Between digest cs i₁ iₗ mid) :
    let first : Feed := .frame (fragmentFrame digest cs.length i₁ (cs.getD i₁ [])) t₁
    (∀ pre a post, first :: mid = pre ++ a :: post → Spacious cfg (Runs.run (feed cfg) r pre) a) →
    Standing cfg digest cs i₁ t₁ mid (arrived digest (first :: mid)) (Runs.run (feed cfg) r (first :: mid)) := by
  intro first room
  induction mid using List.reverseRecOn with
  | nil =>
    refine ⟨fun _ => ?_, fun hbad => absurd (fun u hu => nomatch hu) hbad⟩
    have hroom := room [] first [] rfl digest (fragmentFrame_ofDigest ..)
    have hfirst := h.fragment (slot_free free cs) hroom hi₁ hiₗ (by simpa using hne.symm) t₁
    have harrived : arrived digest [first] = insert i₁ ∅ := by
      simp [arrived, first, Feed.index, fragmentFrame_ofDigest, fragmentFrame_index digest _ _ (lt_index h hi₁)]
    rw [harrived]
    refine ⟨hfirst.2.1, hfirst.2.2 t₁ ?_⟩
    rw [show r.slots[digest]? = none from free]
    rfl
  | append_singleton mid a ih =>
    have hbetween : Between digest cs i₁ iₗ mid := fun f u hf => between f u (List.mem_append_left _ hf)
    have hbefore := ih hbetween (fun pre b post hsplit => room pre b (post ++ [a]) (by rw [← List.cons_append, hsplit]; simp))
    have hroom := room (first :: mid) a [] rfl
    rw [← List.cons_append, Runs.run_snoc, arrived_snoc]
    cases a with
    | sweep u =>
      rw [show (Feed.sweep u).index digest = none from rfl, Option.toFinset_none, Finset.union_empty]
      exact hbefore.sweep u
    | frame f u =>
      by_cases hof : OfDigest digest f
      · obtain ⟨j, hj, hfirst, hlast, rfl⟩ := between f u (by simp) hof
        have hindex : (Feed.frame (fragmentFrame digest cs.length j (cs.getD j [])) u).index digest = some j := by
          rw [Feed.index, if_pos hof, fragmentFrame_index digest _ cs.length (lt_index h hj)]
        rw [hindex, Option.toFinset_some, Finset.union_comm, ← Finset.insert_eq]
        refine hbefore.fragment h (hroom digest hof) hj hi₁ hiₗ hfirst ?_ u
        rw [Finset.mem_insert, not_or]
        exact ⟨hlast.symm, last_not_arrived h.count hbetween hi₁ hne _⟩
      · rw [show (Feed.frame f u).index digest = none from if_neg hof, Option.toFinset_none, Finset.union_empty]
        exact hbefore.foreign (fun d hd => hroom d hd) hof u

theorem fragmentsOf_index (count : cs.length ≤ 65535) : (fragmentsOf digest cs).map frameIndex = List.range cs.length := by
  refine List.ext_getElem (by simp [fragmentsOf]) fun i h₁ h₂ => ?_
  have hi : i < cs.length := by simpa using h₂
  simp only [fragmentsOf, List.getElem_map, List.getElem_mapIdx, List.getElem_range]
  exact fragmentFrame_index digest _ _ (Nat.lt_of_lt_of_le hi (count.trans (by decide)))

theorem mem_own {feeds : List Feed} {f : Bytes} {u : Millis} (h : .frame f u ∈ feeds) (hof : OfDigest digest f) :
    f ∈ feeds.filterMap (Feed.own digest) :=
  List.mem_filterMap.mpr ⟨_, h, if_pos hof⟩

theorem arrived_own (feeds : List Feed) : arrived digest feeds = ((feeds.filterMap (Feed.own digest)).map frameIndex).toFinset := by
  have hindex : Feed.index digest = fun a => (a.own digest).map frameIndex := by
    funext a
    cases a with
    | sweep u => rfl
    | frame f u =>
      simp only [Feed.index, Feed.own]
      split_ifs <;> rfl
  rw [arrived, hindex, List.map_filterMap]

/-- Of the fragments of a message, each arriving once, the last one completes it exactly when no sweep
came too late after the first. -/
theorem Transfer.completes_iff (h : Transfer cfg cs) (free : r.slots[digest]? = none) {f₁ last : Bytes}
    (once : ((Feed.frame f₁ t₁ :: (mid ++ [.frame last now])).filterMap (Feed.own digest)).Perm (fragmentsOf digest cs))
    (hfirst : OfDigest digest f₁) (hlast : OfDigest digest last)
    (room : ∀ pre a post, Feed.frame f₁ t₁ :: (mid ++ [.frame last now]) = pre ++ a :: post → Spacious cfg (Runs.run (feed cfg) r pre) a) :
    ((Runs.run (feed cfg) r (.frame f₁ t₁ :: mid)).ingest cfg last now).2 = .ok (some cs.flatten) ↔ Spared cfg t₁ mid := by
  have hlist : (Feed.frame f₁ t₁ :: (mid ++ [.frame last now])).filterMap (Feed.own digest) =
      f₁ :: (mid.filterMap (Feed.own digest) ++ [last]) := by
    simp [Feed.own, hfirst, hlast]
  rw [hlist] at once
  have hnodup := (once.map frameIndex).nodup_iff.mpr (by rw [fragmentsOf_index h.count]; exact List.nodup_range)
  obtain ⟨i₁, hi₁, rfl⟩ := mem_fragmentsOf.mp (once.mem_iff.mp (List.mem_cons_self))
  obtain ⟨iₗ, hiₗ, rfl⟩ := mem_fragmentsOf.mp (once.mem_iff.mp (show last ∈ _ by simp))
  have hindex : ∀ j < cs.length, frameIndex (fragmentFrame digest cs.length j (cs.getD j [])) = j := fun j hj =>
    fragmentFrame_index digest _ _ (lt_index h hj)
  simp only [List.map_cons, List.map_append, List.map_nil, hindex i₁ hi₁, hindex iₗ hiₗ, List.nodup_cons, List.mem_append,
    List.mem_singleton, not_or, List.nodup_append] at hnodup
  obtain ⟨⟨hother, hne⟩, -, -, hdistinct⟩ := hnodup
  have between : Between digest cs i₁ iₗ mid := by
    intro f u hf hof
    have hmem := mem_own hf hof
    obtain ⟨j, hj, rfl⟩ := mem_fragmentsOf.mp (once.mem_iff.mp (List.mem_cons_of_mem _ (List.mem_append_left _ hmem)))
    have hj' : j ∈ (mid.filterMap (Feed.own digest)).map frameIndex := by
      have := List.mem_map_of_mem (f := frameIndex) hmem
      rwa [hindex j hj] at this
    exact ⟨j, hj, fun heq => hother (heq ▸ hj'), fun heq => hdistinct j hj' iₗ rfl heq, rfl⟩
  have hrun : Standing cfg digest cs i₁ t₁ mid (arrived digest (.frame (fragmentFrame digest cs.length i₁ (cs.getD i₁ [])) t₁ :: mid))
      (Runs.run (feed cfg) r (.frame (fragmentFrame digest cs.length i₁ (cs.getD i₁ [])) t₁ :: mid)) :=
    h.run free hi₁ hiₗ hne mid between fun pre a post hsplit =>
      room pre a (post ++ [.frame (fragmentFrame digest cs.length iₗ (cs.getD iₗ [])) now])
        (by rw [← List.cons_append, hsplit]; simp)
  have hroom := room (_ :: mid) _ [] rfl digest (fragmentFrame_ofDigest digest (cs.getD iₗ []) cs.length iₗ)
  constructor
  · intro hdone
    by_contra hbad
    obtain ⟨A, hA, hslot⟩ := hrun.broken hbad
    have hmissing : i₁ ∉ insert iₗ A := by
      rw [Finset.mem_insert, not_or]
      exact ⟨hne, hA⟩
    rw [(h.fragment hslot hroom hiₗ hi₁ hmissing now).1] at hdone
    cases hdone
  · intro hspared
    obtain ⟨hslot, -⟩ := hrun.whole hspared
    have hlastNot : iₗ ∉ arrived digest (.frame (fragmentFrame digest cs.length i₁ (cs.getD i₁ [])) t₁ :: mid) :=
      last_not_arrived h.count between hi₁ hne (cs.getD i₁ [])
    have hsub := (hslot now).indices
    have hall : Finset.range cs.length ⊆ insert iₗ (arrived digest (.frame (fragmentFrame digest cs.length i₁ (cs.getD i₁ [])) t₁ :: mid)) := by
      intro j hj
      have hmem : j ∈ (fragmentsOf digest cs).map frameIndex := by
        rw [fragmentsOf_index h.count]
        exact List.mem_range.mpr (Finset.mem_range.mp hj)
      rw [← (once.map frameIndex).mem_iff] at hmem
      rw [arrived_own, Finset.mem_insert, List.mem_toFinset]
      simp only [List.map_cons, List.map_append, List.map_nil, List.mem_cons, List.mem_append, List.not_mem_nil, or_false,
        hindex iₗ hiₗ] at hmem
      simp only [List.filterMap_cons, Feed.own, fragmentFrame_ofDigest, if_true, List.map_cons, List.mem_cons]
      tauto
    have hfull : insert iₗ (arrived digest (.frame (fragmentFrame digest cs.length i₁ (cs.getD i₁ [])) t₁ :: mid)) = Finset.range cs.length :=
      (Finset.insert_subset (Finset.mem_range.mpr hiₗ) hsub).antisymm hall
    have hcard := congrArg Finset.card hfull
    rw [Finset.card_range] at hcard
    have hbefore : (arrived digest (.frame (fragmentFrame digest cs.length i₁ (cs.getD i₁ [])) t₁ :: mid)).card < cs.length := by
      rw [Finset.card_insert_of_notMem hlastNot] at hcard
      omega
    have hingest := hslot.ingest hroom h.count h.fits hbefore hiₗ (.inr rfl) now
    rw [if_pos hcard] at hingest
    exact hingest.1

end Run

/-- Sweeps take idle slots only as long as whatever is active was begun within the timeout. A message
whose fragments arrive once each is completed by the last exactly when no sweep in between comes as
late as the timeout after the first. -/
theorem idle_only_iff (cfg : Tunables) :
    (∀ feeds, OnlyIdle cfg feeds ↔ Brief cfg feeds) ∧
    ∀ (bytes : Bytes) (digest : Digest) (mtu : ℕ) (frames : List Bytes), bytes.length ≤ cfg.reassemblyMaxBytes →
      split bytes digest mtu = .ok frames → ∀ (r : Reassembler), r.slots[digest]? = none →
      ∀ (f₁ last : Bytes) (t₁ now : Millis) (mid : List Feed), OfDigest digest f₁ → OfDigest digest last →
        ((Feed.frame f₁ t₁ :: (mid ++ [.frame last now])).filterMap (Feed.own digest)).Perm frames →
        (∀ pre a post, Feed.frame f₁ t₁ :: (mid ++ [.frame last now]) = pre ++ a :: post → Spacious cfg (Runs.run (feed cfg) r pre) a) →
        (((Runs.run (feed cfg) r (.frame f₁ t₁ :: mid)).ingest cfg last now).2 = .ok (some bytes) ↔
          ∀ u, .sweep u ∈ mid → u - t₁ < cfg.reassemblyTimeoutMs) := by
  refine ⟨onlyIdle_iff, ?_⟩
  intro bytes digest mtu frames fits splits r free f₁ last t₁ now mid hfirst hlast once room
  obtain ⟨hmtu, ⟨-, rfl⟩ | ⟨-, hcount, rfl⟩⟩ := split_cases splits
  · have hlen := once.length_eq
    simp [Feed.own, hfirst, hlast] at hlen
  · have hflatten := chunks_flatten (show 0 < mtu - 13 by omega) bytes
    have htransfer : Transfer cfg (chunks (mtu - 13) bytes) := ⟨hcount, by rw [hflatten]; exact fits⟩
    have hiff := htransfer.completes_iff free once hfirst hlast room
    rwa [hflatten] at hiff

/-- Forty bytes in three fragments, twenty seconds apart. -/
def slowFrames : List Bytes := fragmentsOf (Vector.replicate 8 9) (chunks 17 (List.replicate 40 7))

/-- Swept in time the transfer completes. -/
theorem swept_in_time :
    ((Runs.run (feed {}) {} [.frame (slowFrames.getD 0 []) 0, .frame (slowFrames.getD 1 []) 20000, .sweep 29999]).ingest {}
      (slowFrames.getD 2 []) 40000).2 = .ok (some (List.replicate 40 7)) := by
  refine ((idle_only_iff {}).2 (List.replicate 40 7) (Vector.replicate 8 9) 30 slowFrames (by decide) (by decide +kernel) {}
    (by decide +kernel) (slowFrames.getD 0 []) (slowFrames.getD 2 []) 0 40000 [.frame (slowFrames.getD 1 []) 20000, .sweep 29999]
    (by decide +kernel) (by decide +kernel) (by decide +kernel) ?_).mpr ?_
  · rintro pre a post hsplit
    obtain _ | ⟨b, _ | ⟨c, _ | ⟨d, _ | ⟨e, pre⟩⟩⟩⟩ := pre
    · cases hsplit
      exact fun d _ _ => by decide +kernel
    · cases hsplit
      exact fun d _ _ => by decide +kernel
    · cases hsplit
      trivial
    · cases hsplit
      exact fun d _ _ => by decide +kernel
    · simp at hsplit
  · intro u hu
    simp only [List.mem_cons, List.not_mem_nil, or_false, reduceCtorEq, false_or, Feed.sweep.injEq] at hu
    rw [hu]
    decide

/-- Swept a millisecond later, ten seconds after its second fragment, it is lost: the third returns nothing. -/
theorem slow_transfer_lost :
    let feeds : List Feed := [.frame (slowFrames.getD 0 []) 0, .frame (slowFrames.getD 1 []) 20000, .sweep 30000]
    ¬ OnlyIdle {} feeds ∧ ((Runs.run (feed {}) {} feeds).ingest {} (slowFrames.getD 2 []) 40000).2 = .ok none := by
  intro feeds
  refine ⟨fun h => ?_, by decide +kernel⟩
  obtain ⟨p, hp⟩ : ∃ p, (Runs.run (feed {}) {} (feeds.take 2)).slots[(Vector.replicate 8 9 : Digest)]? = some p :=
    Option.isSome_iff_exists.mp (by decide +kernel)
  have hactive : Active {} (feeds.take 2) (Vector.replicate 8 9) 30000 :=
    ⟨[.frame (slowFrames.getD 0 []) 0], slowFrames.getD 1 [], 20000, [], rfl, by unfold Accepts; decide +kernel, by decide⟩
  have hkept := h (feeds.take 2) 30000 [] rfl _ p hp hactive
  have hlost : ((Runs.run (feed {}) {} (feeds.take 2)).evictExpired {} 30000).slots[(Vector.replicate 8 9 : Digest)]? = none := by
    decide +kernel
  rw [hlost] at hkept
  cases hkept

end CockroachChat.Reassembler
