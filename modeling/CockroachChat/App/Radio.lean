import CockroachChat.App.LinkAgreement

/-! # What a phone does on the air

Which connections a phone tries, and when it tries again: scan results that are too far, too many, known or
just closed as redundant are left alone, and a failing connection is retried five times. -/
namespace CockroachChat
set_option autoImplicit false

variable [P : Prims] {S : Type}

/-- Requests of no interest here. -/
def Request.plain : Request → Bool
  | .connectGatt .. | .requestMtu .. | .unknownLink _ => false
  | _ => true

namespace BleMeshTransport

/-- Asks for nothing of interest, and leaves the retries and the cooldowns alone. -/
structure Calm (t t' : BleMeshTransport) : Prop where
  asks : Asks (·.plain = true) t t'
  retries : t'.retryCount = t.retryCount
  cooldowns : t'.recentlyDeduped = t.recentlyDeduped

section Calm
variable {t t₁ t₂ : BleMeshTransport} (os : Platform)

omit P in
theorem Calm.refl (t : BleMeshTransport) : Calm t t := ⟨.refl t, rfl, rfl⟩

omit P in
theorem Calm.trans (h₁ : Calm t t₁) (h₂ : Calm t₁ t₂) : Calm t t₂ :=
  ⟨h₁.asks.trans h₂.asks, h₂.retries.trans h₁.retries, h₂.cooldowns.trans h₁.cooldowns⟩

omit P in
theorem Calm.ask (t : BleMeshTransport) {r : Request} (h : r.plain = true) : Calm t (t.ask r) := ⟨.ask h, rfl, rfl⟩

omit P in
/-- Other fields do not matter. -/
theorem Calm.of_eq (asked : t₁.asked = t.asked) (retries : t₁.retryCount = t.retryCount)
    (cooldowns : t₁.recentlyDeduped = t.recentlyDeduped) : Calm t t₁ := ⟨.of_asked asked, retries, cooldowns⟩

variable (t)

omit P in
theorem startGattServer_calm : Calm t (t.startGattServer os) := by
  unfold startGattServer
  simp only
  split_ifs
  · exact (Calm.ask t rfl).trans (.of_eq rfl rfl rfl)
  · exact .ask t rfl

omit P in
theorem startAdvertising_calm : Calm t (t.startAdvertising os) := by
  unfold startAdvertising
  split_ifs
  · exact .ask t rfl
  · exact .refl t

omit P in
theorem startScanning_calm : Calm t (t.startScanning os) := by
  unfold startScanning
  split_ifs
  · exact .ask t rfl
  · exact .refl t

omit P in
theorem stopAdvertising_calm : Calm t (t.stopAdvertising os) := by
  unfold stopAdvertising
  split_ifs
  · exact .ask t rfl
  · exact .refl t

omit P in
theorem stopScan_calm : Calm t (t.stopScan os) := by
  unfold stopScan
  split_ifs
  · exact .ask t rfl
  · exact .refl t

omit P in
theorem closeServer_calm : Calm t t.closeServer := by
  unfold closeServer
  simp only
  split_ifs
  · exact (Calm.ask t rfl).trans (.of_eq rfl rfl rfl)
  · exact .of_eq rfl rfl rfl

omit P in
theorem closeIfCentral_calm (ep : Endpoint) : Calm t (t.closeIfCentral ep) := by
  cases ep with
  | central gatt => exact .ask t rfl
  | peripheral device => exact .refl t

omit P in
theorem setLowPower_calm (low : Bool) : Calm t (t.setLowPower os low) := by
  unfold setLowPower
  split_ifs
  · exact .refl t
  · have hmode : Calm t { t with lowPower := low } := .of_eq rfl rfl rfl
    have hscan := (stopScan_calm { t with lowPower := low } os).trans (startScanning_calm _ os)
    exact hmode.trans ((hscan.trans (stopAdvertising_calm _ os)).trans (startAdvertising_calm _ os))

omit P in
theorem start_calm (interactive : Bool) : Calm t (t.start os interactive) := by
  unfold start
  split_ifs
  · exact .refl t
  · have hmode : Calm t { t with lowPower := !interactive } := .of_eq rfl rfl rfl
    have hserver := (startGattServer_calm { t with lowPower := !interactive } os).trans (startAdvertising_calm _ os)
    exact hmode.trans (hserver.trans (startScanning_calm _ os))

end Calm
end BleMeshTransport

namespace Phone
open BleMeshTransport

variable {p : Phone S}

/-! ## Calls of the node -/

omit P in
theorem close_asks (t : BleMeshTransport) (now : Millis) (link : LinkId) :
    Asks (·.plain = true) t (t.close now link) ∧ (t.close now link).retryCount = t.retryCount := by
  unfold BleMeshTransport.close
  cases t.links[link]? with
  | none => exact ⟨.of_asked rfl, rfl⟩
  | some ep =>
    cases ep with
    | central gatt => exact ⟨⟨[.closeGatt gatt], rfl, by simp [Request.plain]⟩, rfl⟩
    | peripheral device =>
      simp only
      split_ifs
      · exact ⟨⟨[.cancelConnection device], rfl, by simp [Request.plain]⟩, rfl⟩
      · exact ⟨.of_asked rfl, rfl⟩

omit P in
theorem send_asks (t : BleMeshTransport) (link : LinkId) (frame : Bytes) :
    Asks (fun r => r.plain = true ∨ r = .unknownLink link ∧ t.links[link]? = none) t (t.send link frame) ∧
      (t.send link frame).retryCount = t.retryCount ∧ (t.send link frame).recentlyDeduped = t.recentlyDeduped := by
  unfold BleMeshTransport.send
  cases hlink : t.links[link]? with
  | none => exact ⟨.ask (.inr ⟨rfl, rfl⟩), rfl, rfl⟩
  | some ep =>
    cases ep with
    | central gatt => exact ⟨.ask (.inl rfl), rfl, rfl⟩
    | peripheral device =>
      simp only
      split_ifs
      · exact ⟨.refl t, rfl, rfl⟩
      · exact ⟨.ask (.inl rfl), rfl, rfl⟩
      · exact ⟨.refl t, rfl, rfl⟩

omit P in
/-- The links that the transport does not know are those of frames sent on `other`, and closed by then. -/
theorem obeyAll_asks (now : Millis) (other : Option LinkId) (os : List Obs) (t : BleMeshTransport)
    (hsend : ∀ pre link f post, os = pre ++ .send link f :: post → (t.links[link]? ≠ none ∧ .close link ∉ pre) ∨ other = some link) :
    Asks (fun r => r.plain = true ∨ ∃ link, r = .unknownLink link ∧ other = some link ∧ (os.foldl (obey now) t).links[link]? = none)
        t (os.foldl (obey now) t) ∧
      (os.foldl (obey now) t).retryCount = t.retryCount := by
  induction os generalizing t with
  | nil => exact ⟨.refl t, rfl⟩
  | cons o os ih =>
    cases o with
    | send link frame =>
      obtain ⟨hasks, hretries, -⟩ := send_asks t link frame
      have hlinks := (send_fixed t link frame).1
      obtain ⟨hrest, hretries'⟩ := ih (t.send link frame) fun pre l f post hsplit => by
        rw [hlinks]
        refine (hsend (.send link frame :: pre) l f post (by rw [hsplit, List.cons_append])).imp (fun h => ⟨h.1, fun hmem => h.2 ?_⟩) id
        exact List.mem_cons_of_mem _ hmem
      refine ⟨.trans (hasks.mono fun r hr => hr.imp id ?_) hrest, hretries'.trans hretries⟩
      rintro ⟨rfl, hnone⟩
      refine ⟨link, rfl, ((hsend [] link frame os rfl).resolve_left fun h => h.1 hnone), ?_⟩
      rw [(obeyAll_links now (.send link frame :: os) t).1, hnone, ite_self]
    | close link =>
      obtain ⟨hasks, hretries⟩ := close_asks t now link
      have hlinks := (close_fixed t now link).1
      obtain ⟨hrest, hretries'⟩ := ih (t.close now link) fun pre l f post hsplit => by
        refine (hsend (.close link :: pre) l f post (by rw [hsplit, List.cons_append])).imp (fun h => ⟨?_, fun hmem => h.2 ?_⟩) id
        · have hne : l ≠ link := fun heq => h.2 (by rw [heq]; exact List.mem_cons_self)
          rw [hlinks, Std.ExtTreeMap.getElem?_erase, if_neg fun hcmp => hne (Std.compare_eq_iff_eq.mp hcmp).symm]
          exact h.1
        · exact List.mem_cons_of_mem _ hmem
      exact ⟨.trans (hasks.mono fun r hr => .inl hr) hrest, hretries'.trans hretries⟩
    | _ =>
      exact ih t fun pre l f post hsplit =>
        (hsend (_ :: pre) l f post (by rw [hsplit, List.cons_append])).imp (fun h => ⟨h.1, fun hmem => h.2 (List.mem_cons_of_mem _ hmem)⟩) id

/-- Some link of the device is among those closed. -/
def closesDevice (t : BleMeshTransport) (closed : List LinkId) (d : Address) : Bool :=
  closed.any fun link => t.links[link]?.map deviceOf = some d

omit P in
theorem close_cooldown (t : BleMeshTransport) (now : Millis) (link : LinkId) (d : Address) :
    (t.close now link).recentlyDeduped[d]? =
      if t.links[link]?.map deviceOf = some d then some (now + 30000) else t.recentlyDeduped[d]? := by
  have hinsert : ∀ address, (t.recentlyDeduped.insert address (now + 30000))[d]? =
      if address = d then some (now + 30000) else t.recentlyDeduped[d]? := by
    intro address
    simp only [Std.ExtTreeMap.getElem?_insert, Std.compare_eq_iff_eq]
  unfold BleMeshTransport.close
  cases t.links[link]? with
  | none => simp
  | some ep =>
    cases ep with
    | central gatt =>
      refine (hinsert gatt).trans ?_
      simp [deviceOf]
    | peripheral device =>
      simp only
      split_ifs <;> exact (hinsert device).trans (by simp_all [deviceOf])

omit P in
/-- The cooldowns after a call: those of the devices whose links it closed run from now. -/
theorem obeyAll_cooldowns (now : Millis) (os : List Obs) (t : BleMeshTransport) (d : Address) :
    (os.foldl (obey now) t).recentlyDeduped[d]? =
      if closesDevice t (os.filterMap Obs.closing) d then some (now + 30000) else t.recentlyDeduped[d]? := by
  induction os generalizing t with
  | nil => rfl
  | cons o os ih =>
    rw [List.foldl_cons, ih]
    cases o with
    | send link frame =>
      obtain ⟨-, -, hcooldowns⟩ := send_asks t link frame
      have hlinks := (send_fixed t link frame).1
      simp only [obey, closesDevice, hlinks, hcooldowns]
      rfl
    | close link =>
      have hlinks := (close_fixed t now link).1
      have hclosing : (Obs.close link :: os).filterMap Obs.closing = link :: os.filterMap Obs.closing := rfl
      rw [hclosing, obey, close_cooldown]
      generalize os.filterMap Obs.closing = closed
      have hcons : closesDevice t (link :: closed) d = (decide (t.links[link]?.map deviceOf = some d) || closesDevice t closed d) := rfl
      by_cases hlink : t.links[link]?.map deviceOf = some d
      · rw [hcons, if_pos hlink, ite_self, decide_eq_true hlink, Bool.true_or, if_pos rfl]
      · have hrest : closesDevice (t.close now link) closed d = closesDevice t closed d := by
          refine List.any_congr rfl fun l => ?_
          rw [hlinks, Std.ExtTreeMap.getElem?_erase]
          split_ifs with hcmp
          · obtain rfl := Std.compare_eq_iff_eq.mp hcmp
            simp [hlink]
          · rfl
        rw [hcons, hrest, if_neg hlink, decide_eq_false hlink, Bool.false_or]
    | _ => rfl

/-! ## Callbacks -/

/-- A step with nothing of interest, in which the node closes no link. -/
structure Quiet (p p' : Phone S) : Prop where
  calm : Calm p.transport p'.transport
  closing : ∃ os, p'.node.trace = p.node.trace ++ os ∧ os.filterMap Obs.closing = []

section Quiet
variable {p₁ p₂ : Phone S}

theorem Quiet.of_node (calm : Calm p.transport p₁.transport) (node : p₁.node = p.node) : Quiet p p₁ :=
  ⟨calm, [], by rw [node, List.append_nil], rfl⟩

theorem Quiet.refl (p : Phone S) : Quiet p p := .of_node (.refl _) rfl

theorem Quiet.ask (p : Phone S) (r : Request) (h : r.plain = true) : Quiet p (p.onTransport (·.ask r)) :=
  .of_node (.ask p.transport h) rfl

theorem Quiet.trans (h₁ : Quiet p p₁) (h₂ : Quiet p₁ p₂) : Quiet p p₂ := by
  obtain ⟨os₁, htr₁, hos₁⟩ := h₁.closing
  obtain ⟨os₂, htr₂, hos₂⟩ := h₂.closing
  refine ⟨h₁.calm.trans h₂.calm, os₁ ++ os₂, by rw [htr₂, htr₁, List.append_assoc], ?_⟩
  rw [List.filterMap_append, hos₁, hos₂, List.append_nil]

end Quiet

variable [Store S]

/-- A call that closes nothing, and sends on the links it was told of. -/
theorem call_quiet (now : Millis) (a : Action) {s₀ : MeshNode S} (hair : MeshNode.Airs none s₀ (MeshNode.exec p.node ⟨now, a⟩))
    (htr : s₀.trace = p.node.trace) (hheld : ∀ id : LinkId, s₀.links[id]? ≠ none → p.transport.links[id]? ≠ none) :
    Quiet p (p.call now a) := by
  obtain ⟨os, hos, hclosing⟩ := hair.closing
  obtain ⟨-, os', hos', hover⟩ := hair
  obtain rfl : os' = os := List.append_cancel_left (hos'.symm.trans hos)
  rw [htr] at hos
  have hcall : (p.call now a).transport = os'.foldl (obey now) p.transport := by
    rw [call, hos, List.drop_left]
  obtain ⟨hasks, hretries⟩ := obeyAll_asks now none os' p.transport fun pre link f post hsplit => by
    have hsend : Obs.Over s₀.links none (.send link f) := hover _ (by rw [hsplit]; simp)
    refine .inl ⟨hheld link (hsend.resolve_right (by simp)), fun hpre => ?_⟩
    exact (hover (.close link) (by rw [hsplit]; simp [hpre])).elim
  refine ⟨?_, os', hos, hclosing⟩
  rw [hcall]
  refine ⟨hasks.mono fun r hr => hr.resolve_right ?_, hretries, ?_⟩
  · rintro ⟨link, -, hother, -⟩
    cases hother
  · refine Std.ExtTreeMap.ext_getElem? fun d => ?_
    rw [obeyAll_cooldowns, hclosing]
    rfl

theorem acted_quiet (h : Agree p) (now : Millis) {a : Action} (ha : ∀ ev, a ≠ .transport ev) : Quiet p (p.call now a) := by
  refine call_quiet now a (MeshNode.act_airs (p.node.at_ now) ha) rfl fun id hid => ?_
  have hheld : p.node.held id ≠ none := MeshNode.held_ne_none.mpr hid
  rw [h.held id] at hheld
  simpa using hheld

theorem addLink_quiet (h : Agree p) (now : Millis) (ep : Endpoint) : Quiet p (p.addLink now ep) := by
  let p₁ : Phone S := p.onTransport fun t => { t with nextLink := p.transport.nextLink + 1, links := t.links.insert p.transport.nextLink ep }
  have hadded : Quiet p p₁ := .of_node (.of_eq rfl rfl rfl) rfl
  refine hadded.trans (call_quiet (p := p₁) now _ (MeshNode.linkUp_airs (p.node.at_ now) p.transport.nextLink 182) rfl fun id hid => ?_)
  show (p.transport.links.insert p.transport.nextLink ep)[id]? ≠ none
  rw [Std.ExtTreeMap.getElem?_insert] at hid ⊢
  split_ifs at hid ⊢ with hcmp
  · simp
  · have hheld : p.node.held id ≠ none := MeshNode.held_ne_none.mpr hid
    rw [h.held id] at hheld
    simpa using hheld

theorem dropLink_quiet (p : Phone S) (now : Millis) (id : LinkId) : Quiet p (dropLink now p id) := by
  rw [dropLink_eq]
  exact ⟨.of_eq rfl rfl rfl, [.event (.peerLost id) none], rfl, rfl⟩

theorem dropLinksForDevice_quiet (p : Phone S) (now : Millis) (device : Address) : Quiet p (p.dropLinksForDevice now device) := by
  have hall : ∀ (ids : List LinkId) (p : Phone S), Quiet p (ids.foldl (dropLink now) p) := by
    intro ids
    induction ids with
    | nil => exact fun p => .refl _
    | cons id ids ih => exact fun p => (dropLink_quiet p now id).trans (ih _)
  exact hall _ p

theorem dropAllLinks_quiet (p : Phone S) (now : Millis) : Quiet p (p.dropAllLinks now) := by
  have hall : ∀ (es : List (LinkId × Endpoint)) (p : Phone S), Quiet p (es.foldl (dropEntry now) p) := by
    intro es
    induction es with
    | nil => exact fun p => .refl _
    | cons e es ih =>
      intro p
      have hclosed : Quiet p (p.onTransport (·.closeIfCentral e.2)) := .of_node (closeIfCentral_calm p.transport e.2) rfl
      exact (hclosed.trans (dropLink_quiet _ now e.1)).trans (ih _)
  exact hall _ p

omit [Store S] in
theorem respond_quiet (p : Phone S) (device : Address) (needed : Bool) :
    Quiet p (if needed && p.transport.gattServer then p.onTransport (·.ask (.sendResponse device)) else p) := by
  split_ifs
  · exact .ask p _ rfl
  · exact .refl _

/-- What a frame makes a phone do: it may ask for a link that the node has just closed, and the devices of
the links closed cool down. -/
theorem heard_spec (h : Agree p) (now : Millis) (link : LinkId) (value : Bytes) :
    let p' := p.call now (.transport (.frameReceived link value))
    Asks (fun r => r.plain = true ∨ r = .unknownLink link ∧ p'.transport.links[link]? = none) p.transport p'.transport ∧
      p'.transport.retryCount = p.transport.retryCount ∧
      ∀ d, p'.transport.recentlyDeduped[d]? =
        if closesDevice p.transport ((p'.node.trace.drop p.node.trace.length).filterMap Obs.closing) d then some (now + 30000)
        else p.transport.recentlyDeduped[d]? := by
  intro p'
  obtain ⟨os, hos, -, hsend⟩ := (MeshNode.onFrame_onAir (p.node.at_ now) link value).did
  have htr : p'.node.trace = p.node.trace ++ os := hos
  have hcall : p'.transport = os.foldl (obey now) p.transport := by
    show (p'.node.trace.drop p.node.trace.length).foldl (obey now) p.transport = _
    rw [htr, List.drop_left]
  obtain ⟨hasks, hretries⟩ := obeyAll_asks now (some link) os p.transport fun pre l f post hsplit => by
    refine (hsend pre l f post hsplit).imp (fun hheld => ⟨?_, hheld.2⟩) id
    have hne : p.node.held l ≠ none := MeshNode.held_ne_none.mpr hheld.1
    rw [h.held l] at hne
    simpa using hne
  refine ⟨?_, by rw [hcall, hretries], fun d => by rw [hcall, htr, List.drop_left, obeyAll_cooldowns]⟩
  rw [hcall]
  refine hasks.mono fun r hr => hr.imp id ?_
  rintro ⟨l, rfl, hother, hnone⟩
  cases hother
  exact ⟨rfl, hnone⟩

/-- The link on which a callback brings the node a frame. -/
def incoming (p : Phone S) (os : Platform) : Callback → Option LinkId
  | .characteristicWriteRequest device true _ _ => p.transport.linkFor device os.pick
  | .characteristicChanged gatt true _ => p.transport.linkFor gatt os.pick
  | _ => none

/-- Whether a phone connects to a device that it scanned. -/
def wanted (p : Phone S) (now : Millis) (device : Address) (rssi : ℤ) : Prop :=
  BleConstants.RSSI_GATE_DBM ≤ rssi ∧ p.transport.links.size < BleConstants.MAX_LINKS ∧
    p.transport.isConnected device = false ∧ ∀ expiry, p.transport.recentlyDeduped[device]? = some expiry → expiry < now

/-- What a callback makes a phone ask for. -/
def Allowed (p : Phone S) (e : Platform × Callback) (p' : Phone S) : Request → Prop
  | .connectGatt device false => ∃ rssi, e.2 = .scanResult device rssi ∧ wanted p e.1.now device rssi
  | .connectGatt device true => ∃ newState, e.2 = .clientState device BleConstants.GATT_STATUS_133 newState
  | .requestMtu device _ => ∃ status, e.2 = .clientState device status .connected
  | .unknownLink link => incoming p e.1 e.2 = some link ∧ p'.transport.links[link]? = none
  | _ => True

omit [Store S] in
theorem allowed_of_plain {e : Platform × Callback} {p' : Phone S} {r : Request} (h : r.plain = true) : Allowed p e p' r := by
  cases r <;> trivial

omit [Store S] in
theorem allowed_of_calm {e : Platform × Callback} {p' : Phone S} (h : Calm p.transport p'.transport) :
    Asks (Allowed p e p') p.transport p'.transport := h.asks.mono fun _ hr => allowed_of_plain hr

omit [Store S] in
theorem scanResult_spec (p : Phone S) (os : Platform) (device : Address) (rssi : ℤ) :
    let t' := p.transport.onScanResult os device rssi
    Asks (fun r => r = .connectGatt device false ∧ wanted p os.now device rssi) p.transport t' ∧
      t'.retryCount = p.transport.retryCount ∧
      ∀ (d : Address) (expiry : Millis), p.transport.recentlyDeduped[d]? = some expiry → os.now ≤ expiry →
        t'.recentlyDeduped[d]? = some expiry := by
  simp only [onScanResult]
  by_cases hnear : rssi < BleConstants.RSSI_GATE_DBM
  · rw [if_pos hnear]
    exact ⟨.refl _, rfl, fun _ _ h _ => h⟩
  by_cases hfull : p.transport.links.size ≥ BleConstants.MAX_LINKS
  · rw [if_neg hnear, if_pos hfull]
    exact ⟨.refl _, rfl, fun _ _ h _ => h⟩
  cases hconnected : p.transport.isConnected device with
  | true =>
    rw [if_neg hnear, if_neg hfull, if_pos rfl]
    exact ⟨.refl _, rfl, fun _ _ h _ => h⟩
  | false =>
    rw [if_neg hnear, if_neg hfull, if_neg Bool.false_ne_true]
    have hwanted : (∀ expiry, p.transport.recentlyDeduped[device]? = some expiry → expiry < os.now) → wanted p os.now device rssi :=
      fun hcool => ⟨not_lt.mp hnear, not_le.mp hfull, hconnected, hcool⟩
    unfold inCooldown
    cases hcool : p.transport.recentlyDeduped[device]? with
    | none => exact ⟨.ask ⟨rfl, hwanted (by simp [hcool])⟩, rfl, fun _ _ h _ => h⟩
    | some until_ =>
      simp only
      by_cases hover : os.now > until_
      · simp only [if_pos hover, Bool.false_eq_true, if_false]
        refine ⟨⟨[.connectGatt device false], rfl, ?_⟩, rfl, fun d expiry h hlive => ?_⟩
        · simp only [List.mem_singleton, forall_eq, true_and]
          refine hwanted fun expiry hexpiry => ?_
          rw [hcool] at hexpiry
          rwa [← Option.some.inj hexpiry]
        · have hne : d ≠ device := by
            rintro rfl
            rw [hcool] at h
            exact absurd hover (not_lt.mpr (by rwa [Option.some.inj h]))
          show (p.transport.recentlyDeduped.erase device)[d]? = some expiry
          rw [Std.ExtTreeMap.getElem?_erase, if_neg fun hcmp => hne (Std.compare_eq_iff_eq.mp hcmp).symm]
          exact h
      · simp only [if_neg hover, if_true]
        exact ⟨.refl _, trivial, fun _ _ h _ => h⟩

omit P in
theorem linkFor_mem {t : BleMeshTransport} {device : Address} {pick : ℕ} {link : LinkId} (h : t.linkFor device pick = some link) :
    t.links[link]?.map deviceOf = some device := by
  obtain ⟨e, he, rfl⟩ := List.mem_map.mp (List.mem_of_getElem? h)
  obtain ⟨hmem, hdevice⟩ := List.mem_filter.mp he
  rw [Std.ExtTreeMap.mem_toList_iff_getElem?_eq_some.mp hmem]
  simpa using hdevice

/-- Callbacks that ask for nothing of interest. -/
def Callback.isCalm : Callback → Bool
  | .characteristicWriteRequest _ true _ _ => false
  | .characteristicChanged _ true _ => false
  | .scanResult .. => false
  | .clientState .. => false
  | _ => true

theorem step_quiet (h : Agree p) (os : Platform) (c : Callback) (hc : Callback.isCalm c = true) : Quiet p (p.step (os, c)) := by
  cases c with
  | screen on => exact .of_node (setLowPower_calm p.transport os _) rfl
  | bluetooth on =>
    refine (dropAllLinks_quiet p os.now).trans (.of_node ?_ (by cases on <;> rfl))
    cases on with
    | true =>
      have hserver := (closeServer_calm (p.dropAllLinks os.now).transport).trans (startGattServer_calm _ os)
      exact (hserver.trans (startAdvertising_calm _ os)).trans (startScanning_calm _ os)
    | false => exact closeServer_calm _
  | serverState device newState =>
    cases newState with
    | connected => exact addLink_quiet h os.now _
    | disconnected => exact dropLinksForDevice_quiet p os.now device
    | changing => exact .refl _
  | characteristicWriteRequest device rx responseNeeded value =>
    cases rx with
    | true => cases hc
    | false => exact respond_quiet p device responseNeeded
  | descriptorWriteRequest device responseNeeded => exact respond_quiet p device responseNeeded
  | scanResult device rssi => cases hc
  | clientState gatt status newState => cases hc
  | mtuChanged gatt => exact .ask p _ rfl
  | servicesDiscovered gatt complete =>
    cases complete with
    | true =>
      refine (Quiet.ask p (.enableNotification gatt) rfl).trans ?_
      exact addLink_quiet (h.of_links (f := (·.ask (.enableNotification gatt))) rfl ⟨rfl, rfl⟩) os.now _
    | false => exact .refl _
  | characteristicChanged gatt tx value =>
    cases tx with
    | true => cases hc
    | false => exact .refl _
  | user a =>
    cases a with
    | transport ev => exact .refl _
    | _ => exact acted_quiet h os.now (by simp)

/-- A frame, and what it makes the node do. -/
theorem frameFrom_spec (h : Agree p) (os : Platform) (device : Address) (value : Bytes) :
    let p' := p.frameFrom os device value
    Asks (fun r => r.plain = true ∨ ∃ link, r = .unknownLink link ∧ p.transport.linkFor device os.pick = some link ∧
        p'.transport.links[link]? = none) p.transport p'.transport ∧
      p'.transport.retryCount = p.transport.retryCount ∧
      ∀ d, p'.transport.recentlyDeduped[d]? =
        if closesDevice p.transport ((p'.node.trace.drop p.node.trace.length).filterMap Obs.closing) d then some (os.now + 30000)
        else p.transport.recentlyDeduped[d]? := by
  unfold frameFrom
  cases hlink : p.transport.linkFor device os.pick with
  | none =>
    refine ⟨.refl _, rfl, fun d => ?_⟩
    rw [List.drop_length]
    rfl
  | some link =>
    obtain ⟨hasks, hretries, hcool⟩ := heard_spec h os.now link value
    refine ⟨hasks.mono fun r hr => hr.imp id ?_, hretries, hcool⟩
    rintro ⟨rfl, hnone⟩
    exact ⟨link, rfl, rfl, hnone⟩

omit [Store S] in
theorem respond_node (p : Phone S) (device : Address) (needed : Bool) :
    (if needed && p.transport.gattServer then p.onTransport (·.ask (.sendResponse device)) else p).node = p.node ∧
      (if needed && p.transport.gattServer then p.onTransport (·.ask (.sendResponse device)) else p).transport.links =
        p.transport.links := by
  split_ifs <;> exact ⟨rfl, rfl⟩

/-- The devices whose links the node closes in a step. -/
def closes (p : Phone S) (e : Platform × Callback) (d : Address) : Bool :=
  closesDevice p.transport (((p.step e).node.trace.drop p.node.trace.length).filterMap Obs.closing) d

/-- A failing connection is counted, and tried again if it has not failed too often; one that comes up is
no longer counted. -/
theorem onClientState_cases (p : Phone S) (now : Millis) (gatt : Address) (status : ℕ) (newState : ConnectionState) :
    ∃ p₁, Quiet p p₁ ∧ (p.onClientState now gatt status newState).node = p₁.node ∧
      let t' := (p.onClientState now gatt status newState).transport
      let n := (p.transport.retryCount[gatt]?).getD 0 + 1
      ((status = BleConstants.GATT_STATUS_133 ∧ t' =
          if n ≤ 5 then { p₁.transport with retryCount := p₁.transport.retryCount.insert gatt n }.ask (.connectGatt gatt true)
          else { p₁.transport with retryCount := p₁.transport.retryCount.insert gatt n }) ∨
        (newState = .connected ∧ t' = { p₁.transport with retryCount := p₁.transport.retryCount.erase gatt }.ask (.requestMtu gatt 517)) ∨
        t' = p₁.transport) := by
  have hdropped : Quiet p ((p.onTransport (·.ask (.closeGatt gatt))).dropLinksForDevice now gatt) :=
    (Quiet.ask p (.closeGatt gatt) rfl).trans (dropLinksForDevice_quiet _ now gatt)
  unfold onClientState
  split_ifs with hend hstatus hup
  · refine ⟨_, hdropped, rfl, .inl ⟨hstatus, ?_⟩⟩
    simp only [onTransport]
    rw [← show _ = p.transport.retryCount from hdropped.calm.retries]
    rfl
  · exact ⟨_, hdropped, rfl, .inr (.inr rfl)⟩
  · exact ⟨p, .refl p, rfl, .inr (.inl ⟨hup, rfl⟩)⟩
  · exact ⟨p, .refl p, rfl, .inr (.inr rfl)⟩

theorem step_asks (h : Agree p) (e : Platform × Callback) :
    Asks (Allowed p e (p.step e)) p.transport (p.step e).transport := by
  obtain ⟨os, c⟩ := e
  cases hc : Callback.isCalm c with
  | true => exact allowed_of_calm (step_quiet h os c hc).calm
  | false =>
    cases c with
    | scanResult device rssi =>
      refine (scanResult_spec p os device rssi).1.mono ?_
      rintro r ⟨rfl, hwanted⟩
      exact ⟨rssi, rfl, hwanted⟩
    | clientState gatt status newState =>
      obtain ⟨p₁, hquiet, -, hcases⟩ := onClientState_cases p os.now gatt status newState
      refine .trans (hquiet.calm.asks.mono fun r hr => allowed_of_plain hr) ?_
      rcases hcases with ⟨rfl, ht'⟩ | ⟨rfl, ht'⟩ | ht'
      · rw [show (p.step (os, .clientState gatt BleConstants.GATT_STATUS_133 newState)).transport = _ from ht']
        split_ifs
        · exact ⟨[.connectGatt gatt true], rfl, by simp [Allowed]⟩
        · exact .of_asked rfl
      · rw [show (p.step (os, .clientState gatt status .connected)).transport = _ from ht']
        exact ⟨[.requestMtu gatt 517], rfl, by simp [Allowed]⟩
      · rw [show (p.step (os, .clientState gatt status newState)).transport = _ from ht']
        exact .refl _
    | characteristicWriteRequest device rx responseNeeded value =>
      cases rx with
      | false => cases hc
      | true =>
        obtain ⟨hasks, -, -⟩ := frameFrom_spec h os device value
        have hlinks := (respond_node (p.frameFrom os device value) device responseNeeded).2
        refine (hasks.mono fun r hr => ?_).trans ((respond_quiet _ device responseNeeded).calm.asks.mono fun r hr => allowed_of_plain hr)
        rcases hr with hplain | ⟨link, rfl, hlink, hnone⟩
        · exact allowed_of_plain hplain
        · exact ⟨hlink, (congrArg (·[link]?) hlinks).trans hnone⟩
    | characteristicChanged gatt tx value =>
      cases tx with
      | false => cases hc
      | true =>
        refine (frameFrom_spec h os gatt value).1.mono fun r hr => ?_
        rcases hr with hplain | ⟨link, rfl, hlink, hnone⟩
        · exact allowed_of_plain hplain
        · exact ⟨hlink, hnone⟩
    | _ => cases hc

omit [Store S] in
theorem closesDevice_quiet {p₁ : Phone S} (h : Quiet p p₁) (d : Address) :
    closesDevice p.transport ((p₁.node.trace.drop p.node.trace.length).filterMap Obs.closing) d = false := by
  obtain ⟨os, htr, hos⟩ := h.closing
  rw [htr, List.drop_left, hos]
  rfl

/-- A device cools down from when a link of its is closed, and is forgotten only when that is over. -/
theorem step_cooldowns (h : Agree p) (e : Platform × Callback) (d : Address) :
    if closes p e d then (p.step e).transport.recentlyDeduped[d]? = some (e.1.now + 30000)
    else ∀ expiry : Millis, p.transport.recentlyDeduped[d]? = some expiry → e.1.now ≤ expiry →
      (p.step e).transport.recentlyDeduped[d]? = some expiry := by
  obtain ⟨os, c⟩ := e
  have hquiet : ∀ {p₁ : Phone S}, Quiet p p₁ → (p.step (os, c)).node = p₁.node →
      (∀ expiry : Millis, p.transport.recentlyDeduped[d]? = some expiry → os.now ≤ expiry →
        (p.step (os, c)).transport.recentlyDeduped[d]? = some expiry) →
      if closes p (os, c) d then (p.step (os, c)).transport.recentlyDeduped[d]? = some (os.now + 30000)
      else ∀ expiry : Millis, p.transport.recentlyDeduped[d]? = some expiry → os.now ≤ expiry →
        (p.step (os, c)).transport.recentlyDeduped[d]? = some expiry := by
    intro p₁ hq hnode hkeep
    rw [if_neg (by rw [closes, hnode, closesDevice_quiet hq]; exact Bool.false_ne_true)]
    exact hkeep
  have hframe : ∀ (device : Address) (value : Bytes), (p.step (os, c)).node = (p.frameFrom os device value).node →
      (p.step (os, c)).transport.recentlyDeduped = (p.frameFrom os device value).transport.recentlyDeduped →
      if closes p (os, c) d then (p.step (os, c)).transport.recentlyDeduped[d]? = some (os.now + 30000)
      else ∀ expiry : Millis, p.transport.recentlyDeduped[d]? = some expiry → os.now ≤ expiry →
        (p.step (os, c)).transport.recentlyDeduped[d]? = some expiry := by
    intro device value hnode hcool
    rw [closes, hnode, hcool, (frameFrom_spec h os device value).2.2 d]
    split_ifs
    · rfl
    · exact fun _ hexpiry _ => hexpiry
  cases hc : Callback.isCalm c with
  | true =>
    have hq := step_quiet h os c hc
    exact hquiet hq rfl fun expiry hexpiry _ => by rw [hq.calm.cooldowns, hexpiry]
  | false =>
    cases c with
    | scanResult device rssi =>
      exact hquiet (.refl p) rfl ((scanResult_spec p os device rssi).2.2 d)
    | clientState gatt status newState =>
      obtain ⟨p₁, hq, hnode, hcases⟩ := onClientState_cases p os.now gatt status newState
      refine hquiet hq hnode fun expiry hexpiry _ => ?_
      have hsame : (p.step (os, .clientState gatt status newState)).transport.recentlyDeduped = p₁.transport.recentlyDeduped := by
        rcases hcases with ⟨-, ht'⟩ | ⟨-, ht'⟩ | ht'
        · refine (congrArg BleMeshTransport.recentlyDeduped ht').trans ?_
          split_ifs <;> rfl
        · exact (congrArg BleMeshTransport.recentlyDeduped ht').trans rfl
        · exact congrArg BleMeshTransport.recentlyDeduped ht'
      rw [hsame, hq.calm.cooldowns, hexpiry]
    | characteristicWriteRequest device rx responseNeeded value =>
      cases rx with
      | false => cases hc
      | true =>
        have hq := respond_quiet (p.frameFrom os device value) device responseNeeded
        exact hframe device value (respond_node (p.frameFrom os device value) device responseNeeded).1 hq.calm.cooldowns
    | characteristicChanged gatt tx value =>
      cases tx with
      | false => cases hc
      | true => exact hframe gatt value rfl rfl
    | _ => cases hc

/-! ## Runs -/

/-- A device whose link was closed at `closedAt` is cooling down, or that is over. -/
def Cooling (d : Address) (closedAt now : Millis) (p : Phone S) : Prop :=
  (∃ expiry : Millis, p.transport.recentlyDeduped[d]? = some expiry ∧ closedAt + 30000 ≤ expiry) ∨ closedAt + 30000 < now

theorem step_cooling (h : Agree p) {d : Address} {closedAt now : Millis} (hcool : Cooling d closedAt now p)
    (e : Platform × Callback) (hlater : closedAt ≤ e.1.now) (hnow : now ≤ e.1.now) : Cooling d closedAt e.1.now (p.step e) := by
  have hstep := step_cooldowns h e d
  rcases hcool with ⟨expiry, hexpiry, hend⟩ | hover
  · split_ifs at hstep
    · exact .inl ⟨_, hstep, Nat.add_le_add_right hlater _⟩
    · by_cases hlive : e.1.now ≤ expiry
      · exact .inl ⟨expiry, hstep expiry hexpiry hlive, hend⟩
      · exact .inr (hend.trans_lt (not_le.mp hlive))
  · exact .inr (hover.trans_le hnow)

theorem run_cooling {d : Address} {closedAt : Millis} (callbacks : List (Platform × Callback)) {p : Phone S} {now : Millis}
    (h : Agree p) (hcool : Cooling d closedAt now p) (hlater : closedAt ≤ now)
    (hordered : (now :: callbacks.map fun e => e.1.now).Pairwise (· ≤ ·)) :
    ∃ last, Cooling d closedAt last (Runs.run step p callbacks) ∧ ∀ t, (∀ e ∈ callbacks, e.1.now ≤ t) → now ≤ t → last ≤ t := by
  induction callbacks generalizing p now with
  | nil => exact ⟨now, hcool, fun _ _ h => h⟩
  | cons e callbacks ih =>
    obtain ⟨hfirst, hrest⟩ := List.pairwise_cons.mp hordered
    have hnow : now ≤ e.1.now := hfirst _ (by simp)
    obtain ⟨last, hlast, hle⟩ := ih (step_agree h e) (step_cooling h hcool e (hlater.trans hnow) hnow) (hlater.trans hnow) hrest
    exact ⟨last, hlast, fun t ht _ => hle t (fun e' he' => ht e' (List.mem_cons_of_mem e he')) (ht e List.mem_cons_self)⟩

/-- What a phone scans and connects to is near; it is below the limit of links and holds none to the device;
and while the clock goes forward it has closed no link to the device as redundant for thirty seconds. -/
theorem scanned_device_is_wanted {p₀ : Phone S} (fresh : Fresh p₀) (callbacks : List (Platform × Callback))
    (e : Platform × Callback) (d : Address) :
    let p := Runs.run step p₀ callbacks
    .connectGatt d false ∈ (p.step e).transport.asked.drop p.transport.asked.length →
      (∃ rssi, e.2 = .scanResult d rssi ∧ BleConstants.RSSI_GATE_DBM ≤ rssi) ∧ p.transport.links.size < BleConstants.MAX_LINKS ∧
      (∀ (id : LinkId) ep, p.transport.links[id]? = some ep → deviceOf ep ≠ d) ∧
      ∀ before closing between, callbacks = before ++ closing :: between →
        ((closing :: between ++ [e]).map fun e => e.1.now).Pairwise (· ≤ ·) → closes (Runs.run step p₀ before) closing d = true →
        closing.1.now + 30000 < e.1.now := by
  intro p hasked
  obtain ⟨rssi, hscan, hnear, hroom, hnew, hcold⟩ : Allowed p e (p.step e) (.connectGatt d false) :=
    (step_asks (fresh.agree.run callbacks) e).drop hasked
  refine ⟨⟨rssi, hscan, hnear⟩, hroom, fun id ep hid hd => ?_, fun before closing between hsplit hordered hclosed => ?_⟩
  · have hmem := Std.ExtTreeMap.mem_toList_iff_getElem?_eq_some.mpr hid
    rw [isConnected, List.any_eq_false] at hnew
    exact hnew _ hmem (by simpa using hd)
  · have hagree := fresh.agree.run before
    have hstep := step_cooldowns hagree closing d
    rw [if_pos hclosed] at hstep
    rw [List.cons_append, List.map_cons] at hordered
    obtain ⟨hfirst, hrest⟩ := List.pairwise_cons.mp hordered
    obtain ⟨last, hcooling, hlast⟩ := run_cooling between (step_agree hagree closing)
      (.inl ⟨_, hstep, le_rfl⟩ : Cooling d closing.1.now closing.1.now _) le_rfl
      (hordered.sublist (((List.sublist_append_left between [e]).map _).cons_cons _))
    have hp : Runs.run step ((Runs.run step p₀ before).step closing) between = p := by
      show _ = Runs.run step p₀ callbacks
      rw [hsplit, Runs.run_append, Runs.run_cons]
    rw [hp] at hcooling
    have hle : last ≤ e.1.now := by
      refine hlast _ (fun e' he' => ?_) (hfirst _ (by simp))
      rw [List.map_append, List.pairwise_append] at hrest
      exact hrest.2.2 _ (List.mem_map_of_mem he') _ (by simp)
    rcases hcooling with ⟨expiry, hexpiry, hend⟩ | hover
    · exact hend.trans_lt (hcold expiry hexpiry)
    · exact hover.trans_le hle

/-! ## Retries -/

/-- The retries of a device since it last came up. -/
def streak (d : Address) (asked : List Request) : ℕ :=
  asked.foldl (fun n r => if r = .connectGatt d true then n + 1 else if r = .requestMtu d 517 then 0 else n) 0

omit P in
theorem streak_snoc (d : Address) (asked : List Request) (r : Request) : streak d (asked ++ [r]) =
    if r = .connectGatt d true then streak d asked + 1 else if r = .requestMtu d 517 then 0 else streak d asked := by
  rw [streak, List.foldl_append]
  rfl

/-- The retries counted are those asked for, and are never more than five. -/
structure Tally (d : Address) (t : BleMeshTransport) : Prop where
  count : streak d t.asked = min (t.retryCount[d]?.getD 0) 5
  past : ∀ pre, pre <+: t.asked → streak d pre ≤ 5

omit P in
theorem Tally.ask {d : Address} {t : BleMeshTransport} (h : Tally d t) (r : Request) {t' : BleMeshTransport}
    (hasked : t'.asked = t.asked ++ [r])
    (hcount : streak d (t.asked ++ [r]) = min (t'.retryCount[d]?.getD 0) 5) : Tally d t' := by
  refine ⟨by rw [hasked, hcount], fun pre hpre => ?_⟩
  rw [hasked] at hpre
  rcases List.prefix_concat_iff.mp hpre with rfl | hold
  · rw [hcount]
    exact min_le_right _ _
  · exact h.past pre hold

omit P in
/-- Requests of no interest do not count. -/
theorem Tally.asks {d : Address} {t t' : BleMeshTransport} (h : Tally d t)
    (hasks : Asks (fun r => r ≠ .connectGatt d true ∧ r ≠ .requestMtu d 517) t t')
    (hretries : t'.retryCount[d]? = t.retryCount[d]?) : Tally d t' := by
  obtain ⟨new, heq, hnew⟩ := hasks
  induction new using List.reverseRecOn generalizing t' with
  | nil =>
    rw [List.append_nil] at heq
    refine ⟨by rw [heq, hretries, h.count], ?_⟩
    rw [heq]
    exact h.past
  | append_singleton new r ih =>
    have hbefore : Tally d { t' with asked := t.asked ++ new } :=
      ih hretries rfl fun r' hr' => hnew r' (List.mem_append_left _ hr')
    obtain ⟨hconnect, hmtu⟩ := hnew r (by simp)
    refine hbefore.ask r (by rw [heq, List.append_assoc]) ?_
    rw [streak_snoc, if_neg hconnect, if_neg hmtu]
    exact hbefore.count

omit P in
/-- A connection fails: it is tried again, unless that would be the sixth time. -/
theorem Tally.failed {d : Address} {t : BleMeshTransport} (h : Tally d t) (gatt : Address) :
    let n := (t.retryCount[gatt]?).getD 0 + 1
    Tally d (if n ≤ 5 then { t with retryCount := t.retryCount.insert gatt n }.ask (.connectGatt gatt true)
      else { t with retryCount := t.retryCount.insert gatt n }) := by
  intro n
  have hother : gatt ≠ d → (t.retryCount.insert gatt n)[d]? = t.retryCount[d]? := fun hne => by
    rw [Std.ExtTreeMap.getElem?_insert, if_neg fun hcmp => hne (Std.compare_eq_iff_eq.mp hcmp)]
  have hcount := h.count
  by_cases hd : gatt = d
  · subst hd
    have hself : (t.retryCount.insert gatt n)[gatt]? = some n := by simp
    split_ifs with hn
    · refine h.ask (.connectGatt gatt true) rfl ?_
      show _ = min ((t.retryCount.insert gatt n)[gatt]?.getD 0) 5
      rw [streak_snoc, if_pos rfl, hself, hcount, Option.getD_some]
      simp only [n] at hn ⊢
      omega
    · refine ⟨?_, h.past⟩
      show streak gatt t.asked = min ((t.retryCount.insert gatt n)[gatt]?.getD 0) 5
      rw [hself, hcount, Option.getD_some]
      simp only [n] at hn ⊢
      omega
  · split_ifs with hn
    · refine h.ask (.connectGatt gatt true) rfl ?_
      show _ = min ((t.retryCount.insert gatt n)[d]?.getD 0) 5
      rw [streak_snoc, if_neg (by simp [hd]), if_neg (by simp), hother hd, hcount]
    · exact h.asks (.of_asked rfl) (hother hd)

omit P in
/-- A connection comes up. -/
theorem Tally.cameUp {d : Address} {t : BleMeshTransport} (h : Tally d t) (gatt : Address) :
    Tally d ({ t with retryCount := t.retryCount.erase gatt }.ask (.requestMtu gatt 517)) := by
  refine h.ask (.requestMtu gatt 517) rfl ?_
  show _ = min ((t.retryCount.erase gatt)[d]?.getD 0) 5
  rw [streak_snoc, if_neg (by simp), Std.ExtTreeMap.getElem?_erase]
  by_cases hd : gatt = d
  · subst hd
    simp
  · rw [if_neg (by simp [hd]), if_neg fun hcmp => hd (Std.compare_eq_iff_eq.mp hcmp), h.count]

theorem step_tally (h : Agree p) {d : Address} (ht : Tally d p.transport) (e : Platform × Callback) :
    Tally d (p.step e).transport := by
  obtain ⟨os, c⟩ := e
  have hplain : ∀ {r : Request}, r.plain = true → r ≠ .connectGatt d true ∧ r ≠ .requestMtu d 517 := by
    intro r hr
    constructor <;> rintro rfl <;> cases hr
  cases hc : Callback.isCalm c with
  | true =>
    have hcalm := (step_quiet h os c hc).calm
    exact ht.asks (hcalm.asks.mono fun _ => hplain) (by rw [hcalm.retries])
  | false =>
    cases c with
    | scanResult device rssi =>
      obtain ⟨hasks, hretries, -⟩ := scanResult_spec p os device rssi
      refine ht.asks (hasks.mono ?_) (congrArg (·[d]?) hretries)
      rintro r ⟨rfl, -⟩
      simp
    | clientState gatt status newState =>
      obtain ⟨p₁, hq, -, hcases⟩ := onClientState_cases p os.now gatt status newState
      have h₁ : Tally d p₁.transport := ht.asks (hq.calm.asks.mono fun _ => hplain) (by rw [hq.calm.retries])
      have hn : p₁.transport.retryCount = p.transport.retryCount := hq.calm.retries
      show Tally d (p.onClientState os.now gatt status newState).transport
      rcases hcases with ⟨-, ht'⟩ | ⟨-, ht'⟩ | ht'
      · rw [ht', ← hn]
        exact h₁.failed gatt
      · rw [ht']
        exact h₁.cameUp gatt
      · rw [ht']
        exact h₁
    | characteristicWriteRequest device rx responseNeeded value =>
      cases rx with
      | false => cases hc
      | true =>
        obtain ⟨hasks, hretries, -⟩ := frameFrom_spec h os device value
        have hq := (respond_quiet (p.frameFrom os device value) device responseNeeded).calm
        refine (ht.asks (hasks.mono ?_) (congrArg (·[d]?) hretries)).asks (hq.asks.mono fun _ => hplain) (congrArg (·[d]?) hq.retries)
        rintro r (hr | ⟨link, rfl, -⟩)
        · exact hplain hr
        · simp
    | characteristicChanged gatt tx value =>
      cases tx with
      | false => cases hc
      | true =>
        obtain ⟨hasks, hretries, -⟩ := frameFrom_spec h os gatt value
        refine ht.asks (hasks.mono ?_) (congrArg (·[d]?) hretries)
        rintro r (hr | ⟨link, rfl, -⟩)
        · exact hplain hr
        · simp
    | _ => cases hc

omit P in
/-- The retries since some point are no more than those since the device last came up before it. -/
theorem count_le_streak (d : Address) (pre mid : List Request) (down : .requestMtu d 517 ∉ mid) :
    mid.count (.connectGatt d true) ≤ streak d (pre ++ mid) := by
  induction mid using List.reverseRecOn with
  | nil => exact Nat.zero_le _
  | append_singleton mid r ih =>
    have ih := ih fun hmem => down (List.mem_append_left _ hmem)
    have hr : r ≠ .requestMtu d 517 := fun heq => down (by simp [heq])
    rw [← List.append_assoc, streak_snoc, if_neg hr, List.count_append]
    by_cases hconnect : r = .connectGatt d true
    · subst hconnect
      rw [if_pos rfl, List.count_singleton_self]
      exact Nat.add_le_add_right ih 1
    · have hnone : [r].count (.connectGatt d true) = 0 := List.count_eq_zero.mpr (by simpa using Ne.symm hconnect)
      rw [if_neg hconnect, hnone]
      exact ih

/-- However often the connections to a device fail, they are tried again five times at most before one of
them comes up. -/
theorem five_retries {p₀ : Phone S} (fresh : Fresh p₀) (callbacks : List (Platform × Callback)) (d : Address)
    (pre mid post : List Request) (split : (Runs.run step p₀ callbacks).transport.asked = pre ++ mid ++ post)
    (down : .requestMtu d 517 ∉ mid) : mid.count (.connectGatt d true) ≤ 5 := by
  have htally : Agree (Runs.run step p₀ callbacks) ∧ Tally d (Runs.run step p₀ callbacks).transport := by
    refine Runs.run_invariant step (fun p => Agree p ∧ Tally d p.transport) (fun p e h => ⟨step_agree h.1 e, step_tally h.1 h.2 e⟩)
      p₀ ⟨fresh.agree, ?_⟩ callbacks
    obtain ⟨identity, cfg, clock, store, nickname, rngSeed, entropy, os, interactive, rfl⟩ := fresh
    have hempty : Tally d {} := ⟨rfl, fun pre hpre => by rw [List.prefix_nil.mp hpre]; exact Nat.zero_le _⟩
    have hcalm := start_calm {} os interactive
    refine hempty.asks (hcalm.asks.mono fun r hr => ?_) (by rw [started, hcalm.retries])
    constructor <;> rintro rfl <;> cases hr
  refine (count_le_streak d pre mid down).trans (htally.2.past _ ?_)
  rw [split]
  exact List.prefix_append _ _

end Phone
end CockroachChat

namespace CockroachChat.Reference
open BleMeshTransport Phone

attribute [local instance] prims

/-- A phone that has just started. -/
def phone (k : UInt8) : Phone MemoryStore := started (node k {}) { now := 0, enabled := true, serverOpens := true, pick := 0 } true

theorem phone_fresh (k : UInt8) : (phone k).Fresh := ⟨_, _, _, _, _, _, _, _, _, rfl⟩

def callback (now : Millis) (c : Callback) : Platform × Callback := ({ now, enabled := true, serverOpens := true, pick := 0 }, c)

/-- Two connections from one peer, which has said on the first who it is. -/
def twoLinks : List (Platform × Callback) :=
  [callback 1 (.serverState 7 .connected), callback 2 (.serverState 8 .connected),
    callback 3 (.user (.sendChannelMessage "#general" "hi"))] ++
  (framesFrom 0 (linked 2)).map fun frame => callback 3 (.characteristicWriteRequest 7 true false frame)

/-- Its next sync request comes on the second, which is closed before the answer goes out. -/
def onTheSecond : Platform × Callback := callback 4 (.characteristicWriteRequest 8 true false
  ((framesFrom (linked 2).trace.length (run (linked 2) [up 5 1])).getLastD []))

/-- Half a minute after the second link was closed its device is seen again, and connected to. -/
theorem scanned_device_is_wanted_again :
    let p := Runs.run Phone.step (phone 1) (twoLinks ++ [onTheSecond])
    let e := callback 30005 (.scanResult 8 (-60))
    (∃ rssi, e.2 = .scanResult 8 rssi ∧ BleConstants.RSSI_GATE_DBM ≤ rssi) ∧ p.transport.links.size < BleConstants.MAX_LINKS ∧
      (∀ (id : LinkId) ep, p.transport.links[id]? = some ep → deviceOf ep ≠ 8) ∧
      ∀ before closing between, twoLinks ++ [onTheSecond] = before ++ closing :: between →
        ((closing :: between ++ [e]).map fun e => e.1.now).Pairwise (· ≤ ·) → closes (Runs.run Phone.step (phone 1) before) closing 8 = true →
        closing.1.now + 30000 < e.1.now :=
  scanned_device_is_wanted (phone_fresh 1) (twoLinks ++ [onTheSecond]) (callback 30005 (.scanResult 8 (-60))) 8 (by decide +kernel)

/-- A connection that fails twice is tried twice again. -/
theorem five_retries_two : [Request.connectGatt 7 true, .closeGatt 7, .connectGatt 7 true].count (.connectGatt 7 true) ≤ 5 :=
  five_retries (phone_fresh 1) [callback 1 (.clientState 7 133 .disconnected), callback 2 (.clientState 7 133 .disconnected)] 7
    [.openGattServer, .startAdvertising false, .startScan false, .closeGatt 7]
    [.connectGatt 7 true, .closeGatt 7, .connectGatt 7 true] [] (by decide +kernel) (by decide)

end CockroachChat.Reference
