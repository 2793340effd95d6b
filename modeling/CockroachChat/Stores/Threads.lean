import CockroachChat.Privacy.Forget
import CockroachChat.Stores.Rows

/-! # Threads

How many rows a text leaves in a thread, and what is made of the rows when the thread is read back. -/
namespace CockroachChat
set_option autoImplicit false

variable [P : Prims] {S : Type} [Store S]

/-! ## One row for one text -/

def Action.sendsTo (fp : Fingerprint) : Action → Bool
  | .sendDm fp' _ => fp' = fp
  | _ => false

def StoredDm.ownFor (fp : Fingerprint) (dm : StoredDm) : Bool := dm.mine && decide (dm.peer = fp)

/-- A notice or an ack for the peer. -/
def Source.signalTo (fp : Fingerprint) : Source → Bool
  | .signal fp' _ => fp' = fp
  | _ => false

def Obs.signalTo (fp : Fingerprint) (o : Obs) : Bool := (o.source.map (Source.signalTo fp)).getD false

namespace MeshNode

/-- The rows of the user's own side of the thread with `fp`: one for each call of `send_dm`, besides
those of the notices and acks that were handed to `encrypt`. -/
def OneRowPerSend (s : MeshNode S) (calls : List Call) (fp : Fingerprint) : Prop :=
  (s.rowsPut calls).countP (StoredDm.ownFor fp) =
    calls.countP (fun c => c.action.sendsTo fp) + (Runs.run exec s calls).trace.countP (Obs.signalTo fp)

omit P [Store S] in
theorem own_noted (fp : Fingerprint) (now : Millis) (os : List Obs) :
    ((os.filterMap Obs.source).map (Source.row now)).countP (StoredDm.ownFor fp) = os.countP (Obs.signalTo fp) := by
  induction os with
  | nil => rfl
  | cons o os ih =>
    have hnoted : ∀ src, o.source = some src → StoredDm.ownFor fp (src.row now) = src.signalTo fp := by
      intro src hsrc
      cases src with
      | typed fp' text =>
        exfalso
        unfold Obs.source at hsrc
        split at hsrc <;> first | cases hsrc | (split_ifs at hsrc)
        all_goals cases hsrc
      | signal fp' kind => rfl
      | heard fp' pt => rfl
      | changed fp' => rfl
    cases hsrc : o.source with
    | none => simp [List.filterMap_cons_none hsrc, ih, Obs.signalTo, hsrc]
    | some src =>
      simp [List.filterMap_cons_some hsrc, List.countP_cons, ih, Obs.signalTo, hsrc, hnoted src hsrc]

theorem own_typed (s : MeshNode S) (c : Call) (fp : Fingerprint) :
    ((s.typed c).map (Source.row c.now)).countP (StoredDm.ownFor fp) =
      [c].countP (fun c => c.action.sendsTo fp) + (s.released c).countP (fun e => e.1 = fp) := by
  have hheld : ∀ l : List (Fingerprint × Bytes),
      ((l.map heldText).map (Source.row c.now)).countP (StoredDm.ownFor fp) = l.countP (fun e => e.1 = fp) := by
    intro l
    rw [List.countP_map, List.countP_map]
    rfl
  obtain ⟨now, a⟩ := c
  cases a with
  | sendDm fp' text => rfl
  | _ =>
    refine (hheld _).trans ?_
    simp [Action.sendsTo]

/-- What a call adds to the trace comes after what is there. -/
theorem exec_trace (s : MeshNode S) (c : Call) : (exec s c).trace = s.trace ++ (exec s c).trace.drop s.trace.length := by
  obtain ⟨-, os, htrace, -⟩ := exec_adds (p := fun _ _ => True) s c (fun _ _ => trivial) (fun _ _ _ => trivial) fun _ _ => trivial
  have hat : (s.at_ c.now).trace = s.trace := rfl
  rw [htrace, List.drop_left]

theorem own_rows (s : MeshNode S) (calls : List Call) (fp : Fingerprint) :
    s.trace.countP (Obs.signalTo fp) + (Runs.outputs exec sourceRows s calls).countP (StoredDm.ownFor fp) =
      calls.countP (fun c => c.action.sendsTo fp) + (Runs.run exec s calls).trace.countP (Obs.signalTo fp) +
        (Runs.outputs exec released s calls).countP (fun e => e.1 = fp) := by
  induction calls generalizing s with
  | nil => simp [Runs.outputs]
  | cons c calls ih =>
    have hrest := ih (exec s c)
    rw [exec_trace s c, List.countP_append] at hrest
    have htexts := own_typed s c fp
    have hnoted := own_noted fp c.now ((exec s c).trace.drop s.trace.length)
    have hcalls : ([c] ++ calls).countP (fun c => c.action.sendsTo fp) =
        [c].countP (fun c => c.action.sendsTo fp) + calls.countP (fun c => c.action.sendsTo fp) := List.countP_append
    rw [List.singleton_append] at hcalls
    simp only [Runs.outputs, List.countP_append, Runs.run_cons, sourceRows, sources, List.map_append] at hrest ⊢
    omega

/-- Over every run from the start, each text leaves one row, exactly as long as no announce of the peer
finds messages held for it: these are sent once more, and their rows are written once more. -/
theorem one_row_per_send_iff [Shelf S] {s₀ : MeshNode S} (initial : s₀.Initial) (calls : List Call) (fp : Fingerprint) :
    (∀ pre, pre <+: calls → s₀.OneRowPerSend pre fp) ↔
      ∀ pre c post, calls = pre ++ c :: post → ∀ e ∈ (Runs.run exec s₀ pre).released c, e.1 ≠ fp := by
  have hstart : s₀.trace = [] := by
    obtain ⟨_, _, _, _, _, _, _, rfl⟩ := initial
    rfl
  have hrow : ∀ pre, s₀.OneRowPerSend pre fp ↔ (Runs.outputs exec released s₀ pre).countP (fun e => e.1 = fp) = 0 := by
    intro pre
    have hcount := own_rows s₀ pre fp
    rw [hstart, List.countP_nil] at hcount
    rw [OneRowPerSend, (rowsPut_perm s₀ pre).countP_eq]
    omega
  simp only [hrow, List.countP_eq_zero, decide_eq_true_eq]
  constructor
  · rintro h pre c post rfl e he
    refine h (pre ++ [c]) ⟨post, by simp⟩ e ?_
    exact (Runs.mem_outputs exec released e s₀ _).mpr ⟨pre, c, List.prefix_rfl, he⟩
  · intro h pre hpre e he
    obtain ⟨before, c, hbefore, hout⟩ := (Runs.mem_outputs exec released e s₀ pre).mp he
    obtain ⟨post, rfl⟩ := hbefore.trans hpre
    exact h before c post (by simp) e hout

/-! ## Reading a thread back -/

end MeshNode

structure FfiDmMessage where
  body : String
  timestampMs : Millis
  mine : Bool
  kind : UInt8

/-- The kind that a stored body stands for. -/
def ffiKind (body : Bytes) : UInt8 :=
  match body with
  | [k] => if 1 ≤ k && k ≤ 3 then k else 0
  | _ => 0

def ffiDmMessage (d : StoredDm) : FfiDmMessage :=
  let kind := ffiKind d.body
  { body := if kind = 0 then fromUtf8Lossy d.body else "", timestampMs := d.timestampMs, mine := d.mine, kind }

/-- `FfiMeshNode::dm_history`. -/
def MeshNode.ffiDmHistory (s : MeshNode S) (fp : Fingerprint) (limit : ℕ) : List FfiDmMessage :=
  (Store.dmHistory s.store fp limit).map ffiDmMessage

omit P in
theorem ffiKind_control {body : Bytes} (h : isControlDm body = true) :
    body = [ffiKind body] ∧ 1 ≤ ffiKind body ∧ ffiKind body ≤ 3 := by
  match body, h with
  | [k], h =>
    have hk : (1 ≤ k && k ≤ 3) = true := h
    have hkind : ffiKind [k] = k := if_pos hk
    rw [Bool.and_eq_true, decide_eq_true_eq, decide_eq_true_eq] at hk
    rw [hkind]
    exact ⟨rfl, hk⟩

omit P in
theorem ffiKind_text {body : Bytes} (h : isControlDm body = false) : ffiKind body = 0 := by
  match body, h with
  | [], _ => rfl
  | [k], h => exact if_neg (by rw [show (1 ≤ k && k ≤ 3) = false from h]; decide)
  | _ :: _ :: _, _ => rfl

namespace Source

/-- Kind and text as they were sent, or as the event of a plaintext has them. -/
def shown : Source → UInt8 × String
  | typed _ text => (dmKindText, text)
  | signal _ kind => (kind, "")
  | heard _ plaintext => ((MeshNode.splitKind plaintext).1,
      if (MeshNode.splitKind plaintext).1 = dmKindText then fromUtf8Lossy (MeshNode.splitKind plaintext).2 else "")
  | changed _ => (dmKindKeyChanged, "")

/-- The bytes of a text that are stored as they are. -/
def bare : Source → Option Bytes
  | typed _ text => some (asBytes text)
  | heard _ plaintext => if (MeshNode.splitKind plaintext).1 = dmKindText then some (MeshNode.splitKind plaintext).2 else none
  | _ => none

/-- A text of one character that is stored like a notice, an ack or a marker. -/
def Ambiguous (src : Source) : Prop := ∃ body ∈ src.bare, isControlDm body = true

instance (src : Source) : Decidable src.Ambiguous := inferInstanceAs (Decidable (∃ body ∈ src.bare, isControlDm body = true))

/-- What is made of a row when the thread is read back or cleared of its control rows. -/
structure Kept (now : Millis) (src : Source) : Prop where
  read : ((ffiDmMessage (src.row now)).kind, (ffiDmMessage (src.row now)).body) = src.shown
  notice : (ffiDmMessage (src.row now)).kind = dmKindVerifyNotice ∨ (ffiDmMessage (src.row now)).kind = dmKindVerifyAck →
    (∃ fp, src = signal fp (ffiDmMessage (src.row now)).kind) ∨
      ∃ fp pt, src = heard fp pt ∧ (MeshNode.splitKind pt).1 = (ffiDmMessage (src.row now)).kind
  marker : (ffiDmMessage (src.row now)).kind = dmKindKeyChanged → ∃ fp, src = changed fp
  /-- A text is not taken for a control row. -/
  text : src.bare ≠ none → isControlDm (src.row now).body = false

omit P in
/-- A text is read back as it was stored. -/
theorem Kept.of_text {now : Millis} {src : Source} {body : Bytes} (hrow : (src.row now).body = body)
    (hshown : src.shown = (dmKindText, fromUtf8Lossy body)) (h : isControlDm body = false) : src.Kept now := by
  have hkind : (ffiDmMessage (src.row now)).kind = 0 := by
    rw [ffiDmMessage, hrow]
    exact ffiKind_text h
  have hbody : (ffiDmMessage (src.row now)).body = fromUtf8Lossy body := by
    simp only [ffiDmMessage, hrow, ffiKind_text h, if_true]
  refine ⟨by rw [hkind, hbody, hshown]; rfl, fun hnotice => ?_, fun hmarker => ?_, fun _ => by rw [hrow, h]⟩
  · rw [hkind] at hnotice
    exact absurd hnotice (by decide)
  · rw [hkind] at hmarker
    exact absurd hmarker (by decide)

omit P in
/-- A control row is read back as what it is. -/
theorem Kept.of_control {now : Millis} {src : Source} {k : UInt8} (hrow : (src.row now).body = [k]) (hcontrol : isControlDm [k] = true)
    (hshown : src.shown = (k, "")) (hbare : src.bare = none)
    (hnotice : k = dmKindVerifyNotice ∨ k = dmKindVerifyAck →
      (∃ fp, src = signal fp k) ∨ ∃ fp pt, src = heard fp pt ∧ (MeshNode.splitKind pt).1 = k)
    (hmarker : k = dmKindKeyChanged → ∃ fp, src = changed fp) : src.Kept now := by
  obtain ⟨hbody, hlow, -⟩ := ffiKind_control hcontrol
  have hk : ffiKind [k] = k := (List.cons.inj hbody).1.symm
  have hkind : (ffiDmMessage (src.row now)).kind = k := by
    rw [ffiDmMessage, hrow]
    exact hk
  have hpos : k ≠ 0 := by
    rintro rfl
    exact absurd hlow (by decide)
  refine ⟨?_, ?_, ?_, fun h => absurd hbare h⟩
  · rw [hkind, hshown]
    simp only [ffiDmMessage, hrow, hk, hpos, if_false]
  · rw [hkind]
    exact hnotice
  · rw [hkind]
    exact hmarker

omit P in
theorem splitKind_control {pt : Bytes} (h : (MeshNode.splitKind pt).1 ≠ dmKindText) :
    (MeshNode.splitKind pt).1 = dmKindVerifyNotice ∨ (MeshNode.splitKind pt).1 = dmKindVerifyAck := by
  have hkinds : ∀ k : UInt8, k ≤ 2 → k ≠ 0 → k = 1 ∨ k = 2 := by
    intro k hle hne
    grind
  unfold MeshNode.splitKind at h ⊢
  cases pt with
  | nil => exact absurd rfl h
  | cons k rest =>
    by_cases hk : k ≤ dmKindVerifyAck
    · simp only [hk, if_true] at h ⊢
      exact hkinds k hk h
    · simp only [hk, if_false] at h
      exact absurd rfl h

omit P in
theorem kept_iff (now : Millis) {src : Source}
    (hsignal : ∀ fp kind, src = signal fp kind → kind = dmKindVerifyNotice ∨ kind = dmKindVerifyAck) :
    src.Kept now ↔ ¬ src.Ambiguous := by
  have htext : ∀ {body : Bytes}, src.bare = some body → (src.row now).body = body →
      src.shown = (dmKindText, fromUtf8Lossy body) → (src.Kept now ↔ ¬ src.Ambiguous) := by
    intro body hbare hrow hshown
    constructor
    · rintro h ⟨body', hbody, hcontrol⟩
      have hfalse := h.text (by simp [hbare])
      rw [hbare] at hbody
      cases hbody
      rw [hrow, hcontrol] at hfalse
      cases hfalse
    · intro h
      refine .of_text hrow hshown ?_
      rw [← Bool.not_eq_true]
      exact fun hcontrol => h ⟨body, hbare, hcontrol⟩
  have hclear : src.bare = none → ¬ src.Ambiguous := by
    rintro hbare ⟨body, hbody, -⟩
    rw [hbare] at hbody
    cases hbody
  cases src with
  | typed fp text => exact htext rfl rfl (by rw [fromUtf8Lossy_asBytes]; rfl)
  | signal fp kind =>
    have hkind := hsignal fp kind rfl
    refine iff_of_true (.of_control (k := kind) rfl ?_ rfl rfl (fun _ => .inl ⟨fp, rfl⟩) ?_) (hclear rfl)
    · rcases hkind with rfl | rfl <;> decide
    · rcases hkind with rfl | rfl <;> exact fun h => absurd h (by decide)
  | heard fp pt =>
    by_cases hk : (MeshNode.splitKind pt).1 = dmKindText
    · exact htext (if_pos hk) (if_pos hk) (by rw [shown, if_pos hk, hk])
    · have hkind := splitKind_control hk
      have hbare : (heard fp pt).bare = none := if_neg hk
      refine iff_of_true (.of_control (if_neg hk) ?_ (by rw [shown, if_neg hk]) hbare (fun _ => .inr ⟨fp, pt, rfl, rfl⟩) ?_) (hclear hbare)
      · rcases hkind with h | h <;> rw [h] <;> decide
      · rcases hkind with h | h <;> rw [h] <;> exact fun h => absurd h (by decide)
  | changed fp =>
    exact iff_of_true (.of_control (k := dmKindKeyChanged) rfl (by decide) rfl rfl (fun h => absurd h (by decide)) fun _ => ⟨fp, rfl⟩)
      (hclear rfl)

end Source

/-! ### Clearing control rows -/

omit P in
theorem MemoryStore.mem_cleared (s : MemoryStore) (fp : Fingerprint) {dm : StoredDm} (h : dm ∈ s.thread fp) :
    dm ∈ (s.deleteDms fp true).thread fp ↔ isControlDm dm.body = false := by
  unfold thread at h ⊢
  unfold deleteDms
  cases held : s.dms[fp]? with
  | none =>
    rw [held] at h
    cases h
  | some rows =>
    rw [held] at h
    simp only [if_true, Std.ExtTreeMap.getElem?_insert_self, Option.getD_some, List.mem_filter, Bool.not_eq_true']
    exact and_iff_right h

omit P in
theorem SqliteStore.mem_cleared (s : SqliteStore) (fp : Fingerprint) {dm : StoredDm} (h : dm ∈ s.thread fp) :
    dm ∈ (s.deleteDms fp true).thread fp ↔ isControlDm dm.body = false := by
  have hsql : ∀ body : Bytes, (body.length = 1 ∧ (body = [0x01] ∨ body = [0x02] ∨ body = [0x03])) ↔ isControlDm body = true := by
    intro body
    match body with
    | [] => simp [isControlDm]
    | [k] =>
      have hbyte : (k = 1 ∨ k = 2 ∨ k = 3) ↔ (1 ≤ k && k ≤ 3) = true := by
        rw [Bool.and_eq_true, decide_eq_true_eq, decide_eq_true_eq, UInt8.le_iff_toNat_le, UInt8.le_iff_toNat_le]
        simp only [← UInt8.toNat_inj]
        simp
        omega
      simpa only [isControlDm, List.length_singleton, List.cons.injEq, and_true, true_and] using hbyte
    | _ :: _ :: _ => simp [isControlDm]
  have hleft : ∀ r : DmRow, r ∈ (s.deleteDms fp true).dms ↔ r ∈ s.dms ∧ ¬ (r.dm.peer = fp ∧ isControlDm r.dm.body = true) := by
    intro r
    simp only [deleteDms, if_true, List.mem_filter, decide_eq_true_eq, hsql]
  rw [mem_thread] at h ⊢
  obtain ⟨r, hr, hpeer, rfl⟩ := h
  simp only [hleft]
  constructor
  · rintro ⟨r', ⟨-, hkept⟩, hpeer', heq⟩
    rw [← Bool.not_eq_true, ← heq]
    exact fun hcontrol => hkept ⟨hpeer', hcontrol⟩
  · intro htext
    refine ⟨r, ⟨hr, fun h => ?_⟩, hpeer, rfl⟩
    rw [htext] at h
    cases h.2

namespace MeshNode

/-- The row a plaintext leaves and the event it is surfaced by are of one kind and text. -/
theorem received_shown (s : MeshNode S) (fp : Fingerprint) (σ σ' : NoiseSession) (n : ℕ) (pt : Bytes) :
    (s.received fp σ σ' n pt).events = s.events ++
      [.dmReceived fp (s.fpToEph[fp]?.getD (Vector.replicate 8 0)) (Source.heard fp pt).shown.2 (Source.heard fp pt).shown.1] := rfl

theorem sources_signal (s : MeshNode S) (c : Call) {fp : Fingerprint} {kind : UInt8} (h : .signal fp kind ∈ s.sources c) :
    kind = dmKindVerifyNotice ∨ kind = dmKindVerifyAck := by
  rcases List.mem_append.mp h with htyped | hnoted
  · unfold typed at htyped
    split at htyped
    · simp at htyped
    · obtain ⟨e, -, he⟩ := List.mem_map.mp htyped
      cases he
  · obtain ⟨o, -, ho⟩ := List.mem_filterMap.mp hnoted
    unfold Obs.source at ho
    split at ho
    · split_ifs at ho with hkind
      cases ho
      exact hkind
    all_goals cases ho

/-- Over every run, the rows handed to `put_dm` are read back as what they were sent or surfaced as, and
clearing a thread of its control rows spares its texts, exactly as long as no text that is sent,
delivered or decrypted is a single byte 1, 2 or 3. -/
theorem rows_keep_kind_iff [Shelf S] (s₀ : MeshNode S) (calls : List Call) :
    (s₀.rowsPut calls).Perm (Runs.outputs exec sourceRows s₀ calls) ∧
      ((∀ pre c post, calls = pre ++ c :: post → ∀ src ∈ (Runs.run exec s₀ pre).sources c, src.Kept c.now) ↔
        ∀ pre c post, calls = pre ++ c :: post → ∀ src ∈ (Runs.run exec s₀ pre).sources c, ¬ src.Ambiguous) ∧
      (∀ (s : MemoryStore) fp, ∀ dm ∈ s.thread fp, dm ∈ (s.deleteDms fp true).thread fp ↔ isControlDm dm.body = false) ∧
      ∀ (s : SqliteStore) fp, ∀ dm ∈ s.thread fp, dm ∈ (s.deleteDms fp true).thread fp ↔ isControlDm dm.body = false := by
  refine ⟨rowsPut_perm s₀ calls, ?_, fun s fp dm => s.mem_cleared fp, fun s fp dm => s.mem_cleared fp⟩
  have hone : ∀ (s : MeshNode S) (c : Call) (src : Source), src ∈ s.sources c → (src.Kept c.now ↔ ¬ src.Ambiguous) := by
    intro s c src hsrc
    refine Source.kept_iff c.now fun fp kind heq => ?_
    rw [heq] at hsrc
    exact sources_signal s c hsrc
  constructor
  · intro h pre c post hsplit src hsrc
    exact (hone _ c src hsrc).mp (h pre c post hsplit src hsrc)
  · intro h pre c post hsplit src hsrc
    exact (hone _ c src hsrc).mpr (h pre c post hsplit src hsrc)

end MeshNode

end CockroachChat

namespace CockroachChat.Reference

attribute [local instance] prims

instance (s : Node) (calls : List Call) (fp : Fingerprint) : Decidable (s.OneRowPerSend calls fp) := inferInstanceAs (Decidable (_ = _))

/-- Node 1 writes to node 2 before it has heard of it, and then hears its announce. -/
def early : List Call := [up 0 0, ⟨0, .sendDm (fpOf 2) "first"⟩] ++ arriving 1 0 (framesFrom 0 (linked 2))

/-- The text is sent once and stored twice. -/
theorem early_text_twice : ¬ ∀ (calls : List Call) (fp : Fingerprint), (node 1 {}).OneRowPerSend calls fp := by
  intro h
  exact absurd (h early (fpOf 2)) (by decide +kernel)

/-- The other way round. -/
def late : List Call := [up 0 0] ++ arriving 0 0 (framesFrom 0 (linked 2)) ++ [⟨1, .sendDm (fpOf 2) "first"⟩, ⟨3000, .tick⟩]

theorem late_text_once : (node 1 {}).OneRowPerSend late (fpOf 2) :=
  (MeshNode.one_row_per_send_iff (node_initial 1 {}) late (fpOf 2)).mpr
    (Runs.Guarded.at MeshNode.exec
      (by decide +kernel : Runs.Guarded MeshNode.exec (fun s c => ∀ e ∈ MeshNode.released s c, e.1 ≠ fpOf 2) (node 1 {}) late))
    late List.prefix_rfl

/-- A text of one control character is stored like a notice. -/
def shortest : List Call := [⟨0, .sendDm (fpOf 2) "\x01"⟩]

theorem control_text_misread :
    (¬ ∀ (calls pre : List Call) (c : Call) (post : List Call), calls = pre ++ c :: post →
      ∀ src ∈ (Runs.run MeshNode.exec (node 1 {}) pre).sources c, src.Kept c.now) ∧
      ¬ (Source.heard (fpOf 2) [0, 3]).Kept 0 := by
  constructor
  · intro h
    have hkept := h shortest [] ⟨0, .sendDm (fpOf 2) "\x01"⟩ [] rfl (.typed (fpOf 2) "\x01") List.mem_cons_self
    exact absurd hkept.read (by decide +kernel)
  · intro h
    exact absurd h.read (by decide +kernel)

/-- The text of the run leaves a row that reads back as that text. -/
theorem late_rows_kept : (Source.typed (fpOf 2) "first").Kept 1 :=
  haveI : Engine := ⟨fun _ rows => rows, fun _ _ => List.Perm.refl _, id, fun _ => List.Perm.refl _⟩
  have hcalls : late = (up 0 0 :: arriving 0 0 (framesFrom 0 (linked 2))) ++ ⟨1, .sendDm (fpOf 2) "first"⟩ :: [⟨3000, .tick⟩] := by
    rw [late, List.singleton_append]
  (MeshNode.rows_keep_kind_iff (node 1 {}) late).2.1.mpr
    (Runs.Guarded.at MeshNode.exec
      (by decide +kernel : Runs.Guarded MeshNode.exec (fun s c => ∀ src ∈ MeshNode.sources s c, ¬ src.Ambiguous) (node 1 {}) late))
    _ ⟨1, .sendDm (fpOf 2) "first"⟩ _ hcalls _ List.mem_cons_self

end CockroachChat.Reference
