import CockroachChat.Core.Reference
import CockroachChat.Core.Noise
import CockroachChat.Foundations.Runs

/-! # The receive window of a session

A session is called in any order: it encrypts, and it is handed payloads that its peer wrote, that
were lost or repeated on the way, or that somebody made up. -/
namespace CockroachChat
set_option autoImplicit false

inductive SessionCall where
  | encrypt (plaintext : Bytes)
  | decrypt (payload : Bytes)

/-- The nonce a payload travels with. -/
def payloadNonce (payload : Bytes) : ℕ := ofBe (payload.take 8)

theorem payloadNonce_beBytes {n : ℕ} (hn : n < 2 ^ 64) (c : Bytes) : payloadNonce (beBytes 8 n ++ c) = n := by
  rw [payloadNonce, List.take_left' (beBytes_length 8 n)]
  exact ofBe_beBytes_of_lt (by omega)

theorem payloadNonce_lt (payload : Bytes) : payloadNonce payload < 2 ^ 64 := by
  have hlt := ofBe_lt (payload.take 8)
  have hpow : 256 ^ (payload.take 8).length ≤ 256 ^ 8 := Nat.pow_le_pow_right (by omega) (List.length_take_le 8 payload)
  unfold payloadNonce
  omega

theorem payload_split {payload : Bytes} (h : 8 ≤ payload.length) :
    beBytes 8 (payloadNonce payload) ++ payload.drop 8 = payload := by
  have hlen : (payload.take 8).length = 8 := by
    rw [List.length_take]
    omega
  have hhead := beBytes_ofBe (payload.take 8)
  rw [hlen] at hhead
  rw [payloadNonce, hhead, List.take_append_drop]

variable [P : Prims]

namespace NoiseSession

/-- What the `encrypt` calls of a session put out, each payload under its plaintext. -/
def sent (τ : NoiseSession) : List Bytes → List (Bytes × Bytes)
  | [] => []
  | m :: ms => match τ.encrypt m with
    | .ok (τ', payload) => (m, payload) :: sent τ' ms
    | .error _ => sent τ ms

def serve (σ : NoiseSession) : SessionCall → NoiseSession
  | .encrypt m => match σ.encrypt m with
    | .ok (σ', _) => σ'
    | .error _ => σ
  | .decrypt payload => (σ.decrypt payload).1

/-- The plaintext that a call delivers, with the payload it came in. -/
def delivers (σ : NoiseSession) : SessionCall → Option (Bytes × Bytes)
  | .encrypt _ => none
  | .decrypt payload => (σ.decrypt payload).2.toOption.map fun m => (m, payload)

/-- What a sequence of calls delivers, in order. -/
def accepted (σ : NoiseSession) : List SessionCall → List (Bytes × Bytes)
  | [] => []
  | c :: calls => (σ.delivers c).toList ++ accepted (σ.serve c) calls

/-- snow's writing rule: each message takes the next nonce, and the last nonce is never used. -/
def WritesInTurn : Prop :=
  ∀ ts m ts' c, P.tsWriteMessage ts m = .ok (ts', c) →
    P.sendingNonce ts < 2 ^ 64 - 1 ∧ P.sendingNonce ts' = P.sendingNonce ts + 1

/-- snow's reading rules, for the transport states of one end of a channel whose other end put out
`genuine`. -/
structure Listens (Mine : P.TransportState → Prop) (genuine : List (Bytes × Bytes)) : Prop where
  set_nonce : ∀ ts n, Mine ts → Mine (P.setReceivingNonce ts n) ∧ P.receivingNonce (P.setReceivingNonce ts n) = n
  write : ∀ ts m ts' c, Mine ts → P.tsWriteMessage ts m = .ok (ts', c) →
    Mine ts' ∧ P.receivingNonce ts' = P.receivingNonce ts
  /-- A read succeeds exactly on the ciphertext that was written at the nonce. -/
  read_iff : ∀ ts m c, Mine ts → P.receivingNonce ts < 2 ^ 64 - 1 →
    ((∃ ts', P.tsReadMessage ts c = .ok (ts', m)) ↔ (m, beBytes 8 (P.receivingNonce ts) ++ c) ∈ genuine)
  read_next : ∀ ts m c ts', Mine ts → P.tsReadMessage ts c = .ok (ts', m) →
    Mine ts' ∧ P.receivingNonce ts' = P.receivingNonce ts + 1
  exhausted : ∀ ts c, Mine ts → P.receivingNonce ts = 2 ^ 64 - 1 → ∃ e, P.tsReadMessage ts c = .error e

/-- A ready session at this end of the channel. -/
def Ready (Mine : P.TransportState → Prop) (σ : NoiseSession) : Prop := ∃ ts, σ.inner = .transport ts ∧ Mine ts

/-! ## What was sent -/

theorem encrypt_ok {τ τ' : NoiseSession} {m payload : Bytes} (h : τ.encrypt m = .ok (τ', payload)) :
    ∃ ts ts' c, τ.inner = .transport ts ∧ P.tsWriteMessage ts m = .ok (ts', c) ∧ τ' = { τ with inner := .transport ts' } ∧
      payload = beBytes 8 (P.sendingNonce ts) ++ c := by
  unfold encrypt at h
  split at h
  · rename_i ts hinner
    cases hwrite : P.tsWriteMessage ts m with
    | error e =>
      rw [hwrite] at h
      cases h
    | ok r =>
      rw [hwrite] at h
      cases h
      exact ⟨ts, r.1, r.2, hinner, hwrite, rfl, rfl⟩
  · cases h

/-- Payloads are numbered in the order they were sent. -/
theorem sent_numbered (snow : WritesInTurn) (τ : NoiseSession) (ms : List Bytes) :
    (τ.sent ms).Pairwise (fun a b => payloadNonce a.2 < payloadNonce b.2) ∧
      ∀ e ∈ τ.sent ms, τ.sendNonce ≤ payloadNonce e.2 ∧ payloadNonce e.2 < 2 ^ 64 - 1 ∧ 8 ≤ e.2.length := by
  induction ms generalizing τ with
  | nil => exact ⟨.nil, fun e he => by cases he⟩
  | cons m ms ih =>
    cases henc : τ.encrypt m with
    | error e => simpa only [sent, henc] using ih τ
    | ok r =>
      obtain ⟨τ', payload⟩ := r
      obtain ⟨ts, ts', c, hinner, hwrite, rfl, rfl⟩ := encrypt_ok henc
      obtain ⟨hbound, hnext⟩ := snow ts m ts' c hwrite
      obtain ⟨hpairs, hall⟩ := ih { τ with inner := .transport ts' }
      have hnow : τ.sendNonce = P.sendingNonce ts := by rw [sendNonce, hinner]
      have hthen : sendNonce { τ with inner := .transport ts' } = P.sendingNonce ts + 1 := hnext
      have hnonce : payloadNonce (beBytes 8 (P.sendingNonce ts) ++ c) = P.sendingNonce ts :=
        payloadNonce_beBytes (by omega) c
      simp only [sent, henc]
      constructor
      · refine List.pairwise_cons.mpr ⟨fun e he => ?_, hpairs⟩
        have := (hall e he).1
        dsimp only
        omega
      · intro e he
        rcases List.mem_cons.mp he with rfl | he
        · exact ⟨hnow.trans_le hnonce.ge, hnonce.trans_lt hbound, by simp⟩
        · have := hall e he
          exact ⟨by omega, this.2.1, this.2.2⟩

/-! ## One call -/

section Receiving
variable {Mine : P.TransportState → Prop} {genuine : List (Bytes × Bytes)}

/-- A read at a nonce of the peer's choosing, from any state of the window. -/
theorem read_at (snow : Listens Mine genuine) {ts : P.TransportState} (hts : Mine ts) {payload : Bytes}
    (hlen : 8 ≤ payload.length) (bounded : ∀ e ∈ genuine, payloadNonce e.2 < 2 ^ 64 - 1) (m : Bytes) :
    (∃ ts', P.tsReadMessage (P.setReceivingNonce ts (payloadNonce payload)) (payload.drop 8) = .ok (ts', m)) ↔
      (m, payload) ∈ genuine := by
  obtain ⟨hmine, hset⟩ := snow.set_nonce ts (payloadNonce payload) hts
  have hlt := payloadNonce_lt payload
  by_cases hlast : payloadNonce payload < 2 ^ 64 - 1
  · rw [snow.read_iff _ m _ hmine (by rw [hset]; exact hlast), hset, payload_split hlen]
  · refine iff_of_false ?_ fun hgenuine => hlast (bounded _ hgenuine)
    rintro ⟨ts', hread⟩
    obtain ⟨e, herror⟩ := snow.exhausted _ (payload.drop 8) hmine (by rw [hset]; omega)
    rw [herror] at hread
    cases hread

/-- The outcomes of a `decrypt` call: delivered, and the window is past the nonce; or refused, and
the window is where it was. -/
theorem decrypt_cases (snow : Listens Mine genuine) (bounded : ∀ e ∈ genuine, payloadNonce e.2 < 2 ^ 64 - 1 ∧ 8 ≤ e.2.length)
    {σ : NoiseSession} (hσ : σ.Ready Mine) (payload : Bytes) :
    (σ.decrypt payload).1.Ready Mine ∧
      ((∃ m, (σ.decrypt payload).2 = .ok m ∧ (∀ m', (m', payload) ∈ genuine ↔ m' = m) ∧
          σ.recvNonce ≤ payloadNonce payload ∧ (σ.decrypt payload).1.recvNonce = payloadNonce payload + 1) ∨
        (∃ e, (σ.decrypt payload).2 = .error e) ∧ (σ.decrypt payload).1.recvNonce = σ.recvNonce ∧
          ∀ m, ¬((m, payload) ∈ genuine ∧ σ.recvNonce ≤ payloadNonce payload)) := by
  obtain ⟨ts, hinner, hts⟩ := hσ
  have hwindow : σ.recvNonce = P.receivingNonce ts := by rw [recvNonce, hinner]
  unfold decrypt
  simp only [hinner]
  by_cases hshort : payload.length < 8
  · rw [if_pos hshort]
    refine ⟨⟨ts, hinner, hts⟩, .inr ⟨⟨_, rfl⟩, rfl, fun m h => ?_⟩⟩
    have := (bounded _ h.1).2
    dsimp only at this
    omega
  · rw [if_neg hshort]
    by_cases hold : ofBe (payload.take 8) < P.receivingNonce ts
    · rw [if_pos hold]
      refine ⟨⟨ts, hinner, hts⟩, .inr ⟨⟨_, rfl⟩, rfl, fun m h => ?_⟩⟩
      rw [hwindow] at h
      exact absurd h.2 (Nat.not_le.mpr hold)
    · rw [if_neg hold]
      obtain ⟨hmine, hset⟩ := snow.set_nonce ts (payloadNonce payload) hts
      have hread := read_at snow hts (Nat.not_lt.mp hshort) fun e he => (bounded e he).1
      cases hres : P.tsReadMessage (P.setReceivingNonce ts (payloadNonce payload)) (payload.drop 8) with
      | ok r =>
        obtain ⟨ts', m⟩ := r
        have hnext := snow.read_next _ m _ ts' hmine hres
        have hgenuine : ∀ m', (m', payload) ∈ genuine ↔ m' = m := by
          intro m'
          rw [← hread m', hres]
          exact ⟨fun ⟨_, h⟩ => by cases h; rfl, fun h => ⟨ts', by rw [h]⟩⟩
        unfold payloadNonce at hres
        rw [hres]
        refine ⟨⟨ts', rfl, hnext.1⟩, .inl ⟨m, rfl, hgenuine, ?_, ?_⟩⟩
        · rw [hwindow]
          exact Nat.not_lt.mp hold
        · exact hnext.2.trans (by rw [hset])
      | error e =>
        -- the window was moved before the read and is moved back
        obtain ⟨hback, hrestored⟩ := snow.set_nonce _ (P.receivingNonce ts) hmine
        have hforged : ∀ m, (m, payload) ∉ genuine := by
          intro m hm
          obtain ⟨ts', hok⟩ := (hread m).mpr hm
          rw [hres] at hok
          cases hok
        unfold payloadNonce at hres hback hrestored
        rw [hres]
        exact ⟨⟨_, rfl, hback⟩, .inr ⟨⟨_, rfl⟩, hrestored.trans hwindow.symm, fun m h => hforged m h.1⟩⟩

theorem decrypt_ok_iff (snow : Listens Mine genuine)
    (bounded : ∀ e ∈ genuine, payloadNonce e.2 < 2 ^ 64 - 1 ∧ 8 ≤ e.2.length) {σ : NoiseSession} (hσ : σ.Ready Mine)
    (payload m : Bytes) :
    (σ.decrypt payload).2 = .ok m ↔ (m, payload) ∈ genuine ∧ σ.recvNonce ≤ payloadNonce payload := by
  obtain ⟨-, ⟨m', hok, hgenuine, hle, -⟩ | ⟨⟨e, herror⟩, -, hnone⟩⟩ := decrypt_cases snow bounded hσ payload
  · rw [hok, hgenuine, Except.ok.injEq]
    exact ⟨fun h => ⟨h.symm, hle⟩, fun h => h.1.symm⟩
  · rw [herror]
    exact iff_of_false (fun h => by cases h) (hnone m)

/-- A call moves the window past what it delivers, and nowhere else. -/
theorem serve_window (snow : Listens Mine genuine)
    (bounded : ∀ e ∈ genuine, payloadNonce e.2 < 2 ^ 64 - 1 ∧ 8 ≤ e.2.length) {σ : NoiseSession} (hσ : σ.Ready Mine)
    (c : SessionCall) :
    (σ.serve c).Ready Mine ∧ (∀ e ∈ (σ.delivers c).toList, e ∈ genuine ∧ σ.recvNonce ≤ payloadNonce e.2) ∧
      ∀ n, (σ.serve c).recvNonce ≤ n ↔ σ.recvNonce ≤ n ∧ ∀ e ∈ (σ.delivers c).toList, payloadNonce e.2 < n := by
  cases c with
  | encrypt m =>
    have hkept : (σ.serve (.encrypt m)).Ready Mine ∧ (σ.serve (.encrypt m)).recvNonce = σ.recvNonce := by
      cases henc : σ.encrypt m with
      | error e => simpa only [serve, henc, and_true] using hσ
      | ok r =>
        simp only [serve, henc]
        obtain ⟨ts, ts', c, hinner, hwrite, heq, -⟩ := encrypt_ok henc
        obtain ⟨ts₀, hinner₀, hts⟩ := hσ
        obtain rfl : ts₀ = ts := Inner.transport.inj (hinner₀.symm.trans hinner)
        obtain ⟨hmine, hsame⟩ := snow.write _ m ts' c hts hwrite
        refine ⟨⟨ts', by rw [heq], hmine⟩, ?_⟩
        rw [heq, recvNonce, recvNonce, hinner]
        exact hsame
    refine ⟨hkept.1, by simp [delivers], fun n => ?_⟩
    rw [hkept.2]
    simp [delivers]
  | decrypt payload =>
    unfold serve delivers
    obtain ⟨hready, ⟨m, hok, hgenuine, hle, hnext⟩ | ⟨⟨e, herror⟩, hsame, -⟩⟩ := decrypt_cases snow bounded hσ payload
    · refine ⟨hready, ?_, fun n => ?_⟩
      · simpa [hok, Except.toOption] using ⟨(hgenuine m).mpr rfl, hle⟩
      · simp only [hok, hnext, Except.toOption, Option.map_some, Option.toList_some, List.mem_singleton, forall_eq]
        omega
    · refine ⟨hready, ?_, fun n => ?_⟩ <;> simp [herror, hsame, Except.toOption]

/-! ## Every sequence of calls -/

theorem run_window (snow : Listens Mine genuine)
    (bounded : ∀ e ∈ genuine, payloadNonce e.2 < 2 ^ 64 - 1 ∧ 8 ≤ e.2.length) {σ : NoiseSession} (hσ : σ.Ready Mine)
    (calls : List SessionCall) :
    (Runs.run serve σ calls).Ready Mine ∧ (∀ e ∈ σ.accepted calls, e ∈ genuine ∧ σ.recvNonce ≤ payloadNonce e.2) ∧
      ∀ n, (Runs.run serve σ calls).recvNonce ≤ n ↔ σ.recvNonce ≤ n ∧ ∀ e ∈ σ.accepted calls, payloadNonce e.2 < n := by
  induction calls generalizing σ with
  | nil => exact ⟨hσ, by simp [accepted], by simp [accepted]⟩
  | cons c calls ih =>
    obtain ⟨hready, hnow, hwindow⟩ := serve_window snow bounded hσ c
    obtain ⟨hend, hlater, hrest⟩ := ih hready
    rw [Runs.run_cons]
    refine ⟨hend, fun e he => ?_, fun n => ?_⟩
    · rcases List.mem_append.mp he with he | he
      · exact hnow e he
      · exact ⟨(hlater e he).1, ((hwindow _).mp (hlater e he).2).1⟩
    · rw [hrest, hwindow, accepted, List.forall_mem_append, and_assoc]

/-- Deliveries come in the order of their nonces. -/
theorem accepted_pairwise (snow : Listens Mine genuine)
    (bounded : ∀ e ∈ genuine, payloadNonce e.2 < 2 ^ 64 - 1 ∧ 8 ≤ e.2.length) {σ : NoiseSession} (hσ : σ.Ready Mine)
    (calls : List SessionCall) :
    (σ.accepted calls).Pairwise (fun a b => payloadNonce a.2 < payloadNonce b.2) := by
  induction calls generalizing σ with
  | nil => exact .nil
  | cons c calls ih =>
    obtain ⟨hready, -, hwindow⟩ := serve_window snow bounded hσ c
    refine List.pairwise_append.mpr ⟨?_, ih hready, fun a ha b hb => ?_⟩
    · cases σ.delivers c with
      | none => exact .nil
      | some e => exact List.pairwise_singleton _ e
    · have hpast := ((run_window snow bounded hready calls).2.1 b hb).2
      exact ((hwindow _).mp hpast).2 a ha

end Receiving

/-- The window over any calls, in any order, on genuine, repeated and made-up payloads: a payload is
accepted exactly when the peer sent it and its nonce is past every nonce accepted before; a refusal
leaves the window where it was; and what was delivered is a subsequence of what was sent. -/
theorem window_exact (writes : WritesInTurn) (τ : NoiseSession) (ms : List Bytes) {Mine : P.TransportState → Prop}
    (snow : Listens Mine (τ.sent ms)) (σ : NoiseSession) (hσ : σ.Ready Mine) (calls : List SessionCall) :
    (∀ pre payload post, calls = pre ++ .decrypt payload :: post →
      (∀ m, ((Runs.run serve σ pre).decrypt payload).2 = .ok m ↔ (m, payload) ∈ τ.sent ms ∧
        σ.recvNonce ≤ payloadNonce payload ∧ ∀ e ∈ σ.accepted pre, payloadNonce e.2 < payloadNonce payload) ∧
      ∀ e, ((Runs.run serve σ pre).decrypt payload).2 = .error e →
        ((Runs.run serve σ pre).decrypt payload).1.recvNonce = (Runs.run serve σ pre).recvNonce) ∧
    (∀ n, (Runs.run serve σ calls).recvNonce ≤ n ↔ σ.recvNonce ≤ n ∧ ∀ e ∈ σ.accepted calls, payloadNonce e.2 < n) ∧
    (σ.accepted calls).Sublist (τ.sent ms) ∧ (τ.sent ms).Nodup := by
  obtain ⟨hpairs, hall⟩ := sent_numbered writes τ ms
  have bounded : ∀ e ∈ τ.sent ms, payloadNonce e.2 < 2 ^ 64 - 1 ∧ 8 ≤ e.2.length := fun e he => (hall e he).2
  refine ⟨fun pre payload post _ => ?_, (run_window snow bounded hσ calls).2.2, ?_, ?_⟩
  · obtain ⟨hready, -, hwindow⟩ := run_window snow bounded hσ pre
    refine ⟨fun m => by rw [decrypt_ok_iff snow bounded hready, hwindow], fun e herror => ?_⟩
    obtain ⟨-, ⟨m, hok, -⟩ | ⟨-, hsame, -⟩⟩ := decrypt_cases snow bounded hready payload
    · rw [hok] at herror
      cases herror
    · exact hsame
  · have hordered := accepted_pairwise snow bounded hσ calls
    have hirrefl : ∀ a b : Bytes × Bytes, payloadNonce a.2 < payloadNonce b.2 → a ≠ b := by
      rintro a b hlt rfl
      exact Nat.lt_irrefl _ hlt
    have hnodup : (σ.accepted calls).Nodup := hordered.imp (hirrefl _ _)
    have hsubset := hnodup.subperm fun e he => ((run_window snow bounded hσ calls).2.1 e he).1
    have : Std.Antisymm fun a b : Bytes × Bytes => payloadNonce a.2 < payloadNonce b.2 :=
      ⟨fun a b hab hba => absurd hba (Nat.lt_asymm hab)⟩
    exact List.sublist_of_subperm_of_pairwise hsubset hordered hpairs
  · refine hpairs.imp fun {a b} hlt => ?_
    rintro rfl
    exact Nat.lt_irrefl _ hlt

end NoiseSession
end CockroachChat

namespace CockroachChat.Reference

/-- The reference operations with an engine that opens nothing but what is in a book. -/
@[reducible] def booked (book : List (Bytes × Bytes)) : Prims :=
  { prims with
    tsReadMessage := fun ts c =>
      match book.find? fun e => e.2 = beBytes 8 ts.receiving ++ c with
      | some e => .ok ({ ts with receiving := ts.receiving + 1 }, e.1)
      | none => .error "decrypt error" }

/-- A transport state at the start of a session. -/
def opening (initiator : Bool) : Transport :=
  { initiator, transcript := [], remote := none, sending := 0, receiving := 0 }

/-- Three letters as the initiator seals them. -/
def sealedLetters : List (Bytes × Bytes) :=
  (List.range 3).map fun n => ([UInt8.ofNat n], beBytes 8 n ++ [UInt8.ofNat n] ++ tag [] true n [UInt8.ofNat n])

theorem find_entry {book : List (Bytes × Bytes)} (nodup : (book.map Prod.snd).Nodup) (m payload : Bytes) :
    book.find? (fun e => e.2 = payload) = some (m, payload) ↔ (m, payload) ∈ book := by
  induction book with
  | nil => simp
  | cons e book ih =>
    obtain ⟨hfresh, hrest⟩ := List.nodup_cons.mp nodup
    by_cases he : e.2 = payload
    · subst he
      rw [List.find?_cons_of_pos (by simp), List.mem_cons, Option.some.injEq]
      refine ⟨fun h => .inl h.symm, ?_⟩
      rintro (h | h)
      · exact h.symm
      · exact absurd (List.mem_map.mpr ⟨_, h, rfl⟩) hfresh
    · rw [List.find?_cons_of_neg (by simpa using he), ih hrest, List.mem_cons]
      refine ⟨.inr, ?_⟩
      rintro (rfl | h)
      · exact absurd rfl he
      · exact h

@[reducible] def letterbox : Prims := booked sealedLetters

attribute [local instance] letterbox

def writer : NoiseSession := { inner := .transport (opening true), initiator := true }

def reader : NoiseSession := { inner := .transport (opening false), initiator := false }

theorem letterbox_writes : NoiseSession.WritesInTurn := by
  intro ts m ts' c h
  obtain rfl := sealBox_ok h
  refine ⟨?_, rfl⟩
  by_contra hlast
  have herror : sealBox ts m = .error "state error" := if_neg hlast
  have hok : sealBox ts m = .ok ({ ts with sending := ts.sending + 1 }, c) := h
  rw [herror] at hok
  cases hok

theorem writer_sent : writer.sent [[0], [1], [2]] = sealedLetters := by decide +kernel

theorem letterbox_read (ts : Transport) (m c : Bytes) (ts' : Transport) :
    letterbox.tsReadMessage ts c = .ok (ts', m) ↔
      ts' = { ts with receiving := ts.receiving + 1 } ∧ (m, beBytes 8 ts.receiving ++ c) ∈ sealedLetters := by
  rw [← find_entry (by decide +kernel)]
  show (match sealedLetters.find? fun e => e.2 = beBytes 8 ts.receiving ++ c with
    | some e => Except.ok ({ ts with receiving := ts.receiving + 1 }, e.1)
    | none => .error "decrypt error") = .ok (ts', m) ↔ _
  cases hfind : sealedLetters.find? fun e => e.2 = beBytes 8 ts.receiving ++ c with
  | none => simp
  | some e =>
    have hkey : e.2 = beBytes 8 ts.receiving ++ c := by simpa using List.find?_some hfind
    obtain ⟨m', p⟩ := e
    dsimp only at hkey
    simp only [Except.ok.injEq, Prod.mk.injEq, Option.some.injEq, hkey, and_true]
    exact and_congr_left' eq_comm

theorem letterbox_listens : NoiseSession.Listens (fun _ => True) (writer.sent [[0], [1], [2]]) := by
  rw [writer_sent]
  refine ⟨fun _ _ _ => ⟨trivial, rfl⟩, ?_, ?_, ?_, ?_⟩
  · intro ts m ts' c _ h
    obtain rfl := sealBox_ok h
    exact ⟨trivial, rfl⟩
  · intro ts m c _ _
    exact ⟨fun ⟨ts', h⟩ => ((letterbox_read ts m c ts').mp h).2, fun h => ⟨_, (letterbox_read ts m c _).mpr ⟨rfl, h⟩⟩⟩
  · intro ts m c ts' _ h
    obtain ⟨rfl, -⟩ := (letterbox_read ts m c ts').mp h
    exact ⟨trivial, rfl⟩
  · intro ts c _ hlast
    have hnone : ∀ e ∈ sealedLetters, payloadNonce e.2 < 3 := by decide +kernel
    cases hread : letterbox.tsReadMessage ts c with
    | error e => exact ⟨e, rfl⟩
    | ok r =>
      obtain ⟨-, hmem⟩ := (letterbox_read ts r.2 c r.1).mp hread
      have hlast' : ts.receiving = 2 ^ 64 - 1 := hlast
      have hnonce := hnone _ hmem
      rw [payloadNonce_beBytes (by omega)] at hnonce
      omega

/-- The second letter, the first one late, the second again, one that nobody wrote, the third. -/
def postbag : List SessionCall :=
  [.decrypt (sealedLetters.getD 1 default).2, .decrypt (sealedLetters.getD 0 default).2, .decrypt (sealedLetters.getD 1 default).2,
    .decrypt (beBytes 8 (2 ^ 64 - 1) ++ [7]), .decrypt (sealedLetters.getD 2 default).2]

/-- Of the postbag the second and the third letter are accepted, in that order. -/
theorem letters_accepted :
    reader.accepted postbag = [sealedLetters.getD 1 default, sealedLetters.getD 2 default] ∧
      (reader.accepted postbag).Sublist (writer.sent [[0], [1], [2]]) :=
  ⟨by decide +kernel, (NoiseSession.window_exact letterbox_writes writer [[0], [1], [2]] letterbox_listens reader
    ⟨opening false, rfl, trivial⟩ postbag).2.2.1⟩

end CockroachChat.Reference
