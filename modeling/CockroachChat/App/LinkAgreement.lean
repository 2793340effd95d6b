import CockroachChat.App.BleMeshTransport

/-! # The node and its transport agree on the links

After every callback the node holds exactly the links of the transport, and what it sends finds them,
unless it has closed the link it is answering on. -/
namespace CockroachChat
set_option autoImplicit false

variable [P : Prims] {S : Type}

/-! ## What the transport asks for -/

namespace BleMeshTransport

/-- What a step of the transport adds to what it has asked for. -/
def Asks (allowed : Request → Prop) (t t' : BleMeshTransport) : Prop :=
  ∃ new, t'.asked = t.asked ++ new ∧ ∀ r ∈ new, allowed r

section Asks
variable {allowed : Request → Prop} {t t₁ t₂ : BleMeshTransport}

omit P in
theorem Asks.of_asked (h : t₁.asked = t.asked) : Asks allowed t t₁ := ⟨[], by rw [h, List.append_nil], by simp⟩

omit P in
theorem Asks.refl (t : BleMeshTransport) : Asks allowed t t := .of_asked rfl

omit P in
theorem Asks.trans (h₁ : Asks allowed t t₁) (h₂ : Asks allowed t₁ t₂) : Asks allowed t t₂ := by
  obtain ⟨new₁, heq₁, hnew₁⟩ := h₁
  obtain ⟨new₂, heq₂, hnew₂⟩ := h₂
  refine ⟨new₁ ++ new₂, by rw [heq₂, heq₁, List.append_assoc], fun r hr => ?_⟩
  exact (List.mem_append.mp hr).elim (hnew₁ r) (hnew₂ r)

omit P in
theorem Asks.ask {r : Request} (h : allowed r) : Asks allowed t (t.ask r) := ⟨[r], rfl, by simpa using h⟩

omit P in
theorem Asks.mono {allowed' : Request → Prop} (h : Asks allowed t t₁) (imp : ∀ r, allowed r → allowed' r) : Asks allowed' t t₁ := by
  obtain ⟨new, heq, hnew⟩ := h
  exact ⟨new, heq, fun r hr => imp r (hnew r hr)⟩

omit P in
/-- What was asked in the step itself. -/
theorem Asks.drop (h : Asks allowed t t₁) {r : Request} (hr : r ∈ t₁.asked.drop t.asked.length) : allowed r := by
  obtain ⟨new, heq, hnew⟩ := h
  rw [heq, List.drop_left] at hr
  exact hnew r hr

end Asks

end BleMeshTransport

/-! ## What leaves the links alone -/

namespace BleMeshTransport

def SameLinks (t t' : BleMeshTransport) : Prop := t'.links = t.links ∧ t'.nextLink = t.nextLink

section SameLinks
variable {t t₁ t₂ : BleMeshTransport} (os : Platform)

omit P in
theorem SameLinks.trans (h₁ : SameLinks t t₁) (h₂ : SameLinks t₁ t₂) : SameLinks t t₂ := ⟨h₂.1.trans h₁.1, h₂.2.trans h₁.2⟩

variable (t)

omit P in
theorem startGattServer_same : SameLinks t (t.startGattServer os) := by
  unfold startGattServer
  simp only
  split_ifs <;> exact ⟨rfl, rfl⟩

omit P in
theorem startAdvertising_same : SameLinks t (t.startAdvertising os) := by
  unfold startAdvertising
  split_ifs <;> exact ⟨rfl, rfl⟩

omit P in
theorem startScanning_same : SameLinks t (t.startScanning os) := by
  unfold startScanning
  split_ifs <;> exact ⟨rfl, rfl⟩

omit P in
theorem stopAdvertising_same : SameLinks t (t.stopAdvertising os) := by
  unfold stopAdvertising
  split_ifs <;> exact ⟨rfl, rfl⟩

omit P in
theorem stopScan_same : SameLinks t (t.stopScan os) := by
  unfold stopScan
  split_ifs <;> exact ⟨rfl, rfl⟩

omit P in
theorem closeServer_same : SameLinks t t.closeServer := by
  unfold closeServer
  split_ifs <;> exact ⟨rfl, rfl⟩

omit P in
theorem start_same (interactive : Bool) : SameLinks t (t.start os interactive) := by
  unfold start
  split_ifs
  · exact ⟨rfl, rfl⟩
  · have hserver := startGattServer_same { t with lowPower := !interactive } os
    exact (hserver.trans (startAdvertising_same _ os)).trans (startScanning_same _ os)

omit P in
theorem setLowPower_same (low : Bool) : SameLinks t (t.setLowPower os low) := by
  unfold setLowPower
  split_ifs
  · exact ⟨rfl, rfl⟩
  · have hscan := (stopScan_same { t with lowPower := low } os).trans (startScanning_same _ os)
    exact (hscan.trans (stopAdvertising_same _ os)).trans (startAdvertising_same _ os)

omit P in
theorem inCooldown_same (now : Millis) (address : Address) : SameLinks t (t.inCooldown now address).1 := by
  unfold inCooldown
  split
  · exact ⟨rfl, rfl⟩
  · split_ifs <;> exact ⟨rfl, rfl⟩

omit P in
theorem onScanResult_same (device : Address) (rssi : ℤ) : SameLinks t (t.onScanResult os device rssi) := by
  unfold onScanResult
  split_ifs
  · exact ⟨rfl, rfl⟩
  · exact ⟨rfl, rfl⟩
  · exact ⟨rfl, rfl⟩
  · simp only
    split_ifs <;> exact inCooldown_same t os.now device

end SameLinks

end BleMeshTransport

/-! ## What a node does on its transport -/

namespace Phone

omit P in
theorem send_fixed (t : BleMeshTransport) (link : LinkId) (frame : Bytes) :
    (t.send link frame).links = t.links ∧ (t.send link frame).nextLink = t.nextLink := by
  unfold BleMeshTransport.send
  split
  · exact ⟨rfl, rfl⟩
  · split_ifs <;> exact ⟨rfl, rfl⟩
  · exact ⟨rfl, rfl⟩

omit P in
theorem close_fixed (t : BleMeshTransport) (now : Millis) (link : LinkId) :
    (t.close now link).links = t.links.erase link ∧ (t.close now link).nextLink = t.nextLink := by
  unfold BleMeshTransport.close
  cases t.links[link]? with
  | none => exact ⟨rfl, rfl⟩
  | some ep =>
    cases ep with
    | central gatt => exact ⟨rfl, rfl⟩
    | peripheral device =>
      simp only
      split_ifs <;> exact ⟨rfl, rfl⟩

omit P in
/-- The links closed are gone, and the others are as they were. -/
theorem obeyAll_links (now : Millis) (os : List Obs) (t : BleMeshTransport) :
    (∀ id, (os.foldl (obey now) t).links[id]? = if id ∈ os.filterMap Obs.closing then none else t.links[id]?) ∧
      (os.foldl (obey now) t).nextLink = t.nextLink := by
  induction os generalizing t with
  | nil => exact ⟨fun id => by simp, rfl⟩
  | cons o os ih =>
    obtain ⟨hlinks, hnext⟩ := ih (obey now t o)
    cases o with
    | send link frame =>
      obtain ⟨hsame, hcount⟩ := send_fixed t link frame
      refine ⟨fun id => ?_, hnext.trans hcount⟩
      rw [List.foldl_cons, hlinks, show (obey now t (.send link frame)).links = t.links from hsame]
      rfl
    | close link =>
      obtain ⟨herased, hcount⟩ := close_fixed t now link
      refine ⟨fun id => ?_, hnext.trans hcount⟩
      rw [List.foldl_cons, hlinks, show (obey now t (.close link)).links = t.links.erase link from herased,
        Std.ExtTreeMap.getElem?_erase]
      have hclosing : (Obs.close link :: os).filterMap Obs.closing = link :: os.filterMap Obs.closing := rfl
      rw [hclosing]
      by_cases hid : id = link
      · subst hid
        simp
      · have hcmp : compare link id ≠ .eq := fun h => hid (Std.compare_eq_iff_eq.mp h).symm
        simp [hid, hcmp]
    | _ => exact ⟨hlinks, hnext⟩

/-- The node and the transport have the same links, of 182 bytes each, under numbers given out before. -/
structure Agree (p : Phone S) : Prop where
  held : ∀ id, p.node.held id = p.transport.links[id]?.map fun _ => 182
  issued : ∀ id, p.transport.links[id]? ≠ none → 0 < id ∧ id < p.transport.nextLink
  counting : 0 < p.transport.nextLink

variable [Store S] {p : Phone S}

/-- A call of a node that starts, as far as links go, in `s₀`. -/
theorem call_agree (now : Millis) (a : Action) {s₀ : MeshNode S} {other : Option LinkId}
    (hair : MeshNode.OnAir other s₀ (MeshNode.exec p.node ⟨now, a⟩)) (htr : s₀.trace = p.node.trace)
    (h : Agree { p with node := s₀ }) : Agree (p.call now a) := by
  obtain ⟨os, hos, hafter⟩ := hair.held
  rw [htr] at hos
  have hcall : (p.call now a).transport = os.foldl (obey now) p.transport := by
    rw [call, hos, List.drop_left]
  obtain ⟨hlinks, hnext⟩ := obeyAll_links now os p.transport
  refine ⟨fun id => ?_, fun id hid => ?_, by rw [hcall, hnext]; exact h.counting⟩
  · rw [hcall, hlinks]
    refine (hafter id).trans ?_
    rw [h.held id]
    split_ifs <;> rfl
  · rw [hcall] at hid ⊢
    rw [hnext]
    refine h.issued id fun hnone => hid ?_
    rw [hlinks, hnone, ite_self]

omit [Store S] in
theorem Agree.at_ (h : Agree p) (now : Millis) : Agree { p with node := p.node.at_ now } := ⟨h.held, h.issued, h.counting⟩

theorem Agree.acted (h : Agree p) (now : Millis) {a : Action} (ha : ∀ ev, a ≠ .transport ev) : Agree (p.call now a) :=
  call_agree now a (MeshNode.act_airs (p.node.at_ now) ha).onAir rfl (h.at_ now)

theorem Agree.heard (h : Agree p) (now : Millis) (link : LinkId) (frame : Bytes) :
    Agree (p.call now (.transport (.frameReceived link frame))) :=
  call_agree now _ (MeshNode.onFrame_onAir (p.node.at_ now) link frame) rfl (h.at_ now)

omit [Store S] in
/-- Requests, and what is only the transport's, do not matter. -/
theorem Agree.of_links (h : Agree p) {f : BleMeshTransport → BleMeshTransport} {p' : Phone S} (heq : p' = p.onTransport f)
    (hf : BleMeshTransport.SameLinks p.transport (f p.transport)) : Agree p' := by
  subst heq
  refine ⟨fun id => ?_, fun id hid => ?_, ?_⟩
  · show p.node.held id = (f p.transport).links[id]?.map _
    rw [hf.1]
    exact h.held id
  · change (f p.transport).links[id]? ≠ none at hid
    rw [hf.1] at hid
    show 0 < id ∧ id < (f p.transport).nextLink
    rw [hf.2]
    exact h.issued id hid
  · show 0 < (f p.transport).nextLink
    rw [hf.2]
    exact h.counting

theorem Agree.addLink (h : Agree p) (now : Millis) (ep : Endpoint) : Agree (p.addLink now ep) := by
  refine call_agree (p := p.onTransport fun t => { t with nextLink := p.transport.nextLink + 1, links := t.links.insert p.transport.nextLink ep })
    now _ (MeshNode.linkUp_airs (p.node.at_ now) p.transport.nextLink 182).onAir rfl ⟨fun id => ?_, fun id hid => ?_, Nat.succ_pos _⟩
  · show Option.map _ _ = Option.map _ ((p.transport.links.insert p.transport.nextLink ep)[id]?)
    rw [Std.ExtTreeMap.getElem?_insert, Std.ExtTreeMap.getElem?_insert]
    have hbefore := h.held id
    split_ifs
    · rfl
    · exact hbefore
  · change (p.transport.links.insert p.transport.nextLink ep)[id]? ≠ none at hid
    show 0 < id ∧ id < p.transport.nextLink + 1
    rw [Std.ExtTreeMap.getElem?_insert] at hid
    split_ifs at hid with hcmp
    · rw [← Std.compare_eq_iff_eq.mp hcmp]
      exact ⟨h.counting, Nat.lt_succ_self _⟩
    · exact ⟨(h.issued id hid).1, Nat.lt_succ_of_lt (h.issued id hid).2⟩

theorem dropLink_eq (p : Phone S) (now : Millis) (id : LinkId) : dropLink now p id =
    { node := (p.node.at_ now).onTransportEvent (.linkDown id), transport := { p.transport with links := p.transport.links.erase id } } := by
  have htr : ((p.node.at_ now).onTransportEvent (.linkDown id)).trace = p.node.trace ++ [.event (.peerLost id) none] := rfl
  simp only [dropLink, call, onTransport, MeshNode.exec, MeshNode.act, htr, List.drop_left]
  rfl

theorem Agree.dropLink (h : Agree p) (now : Millis) (id : LinkId) : Agree (dropLink now p id) := by
  rw [dropLink_eq]
  refine ⟨fun id' => ?_, fun id' hid => ?_, h.counting⟩
  · rw [MeshNode.linkDown_held]
    show _ = Option.map _ ((p.transport.links.erase id)[id']?)
    rw [Std.ExtTreeMap.getElem?_erase]
    by_cases hid : id' = id
    · subst hid
      simp
    · rw [Function.update_of_ne hid, if_neg fun hcmp => hid (Std.compare_eq_iff_eq.mp hcmp).symm]
      exact h.held id'
  · change (p.transport.links.erase id)[id']? ≠ none at hid
    refine h.issued id' fun hnone => hid ?_
    rw [Std.ExtTreeMap.getElem?_erase, hnone, ite_self]

theorem Agree.dropLinksForDevice (h : Agree p) (now : Millis) (device : Address) : Agree (p.dropLinksForDevice now device) := by
  have hall : ∀ (ids : List LinkId) {p : Phone S}, Agree p → Agree (ids.foldl (Phone.dropLink now) p) := by
    intro ids
    induction ids with
    | nil => exact fun h => h
    | cons id ids ih => exact fun h => ih (h.dropLink now id)
  exact hall _ h

theorem Agree.dropAllLinks (h : Agree p) (now : Millis) : Agree (p.dropAllLinks now) := by
  have hall : ∀ (es : List (LinkId × Endpoint)) {p : Phone S}, Agree p → Agree (es.foldl (dropEntry now) p) := by
    intro es
    induction es with
    | nil => exact fun h => h
    | cons e es ih =>
      intro p h
      refine ih (Agree.dropLink (h.of_links rfl ?_) now e.1)
      cases e.2 <;> exact ⟨rfl, rfl⟩
  exact hall _ h

theorem Agree.onBluetoothOff (h : Agree p) (now : Millis) : Agree (p.onBluetoothOff now) :=
  (h.dropAllLinks now).of_links rfl (BleMeshTransport.closeServer_same _)

theorem Agree.onBluetoothOn (h : Agree p) (os : BleMeshTransport.Platform) : Agree (p.onBluetoothOn os) := by
  refine (h.dropAllLinks os.now).of_links rfl ?_
  exact (((BleMeshTransport.closeServer_same _).trans (BleMeshTransport.startGattServer_same _ os)).trans
    (BleMeshTransport.startAdvertising_same _ os)).trans (BleMeshTransport.startScanning_same _ os)

theorem Agree.frameFrom (h : Agree p) (os : BleMeshTransport.Platform) (device : Address) (value : Bytes) :
    Agree (p.frameFrom os device value) := by
  unfold Phone.frameFrom
  split
  · exact h.heard os.now _ value
  · exact h

theorem Agree.onClientState (h : Agree p) (now : Millis) (gatt : Address) (status : ℕ) (newState : ConnectionState) :
    Agree (p.onClientState now gatt status newState) := by
  unfold Phone.onClientState
  split_ifs
  · refine Agree.of_links ((h.of_links rfl ⟨rfl, rfl⟩).dropLinksForDevice now gatt) rfl ?_
    simp only
    split_ifs <;> exact ⟨rfl, rfl⟩
  · exact (h.of_links rfl ⟨rfl, rfl⟩).dropLinksForDevice now gatt
  · exact h.of_links rfl ⟨rfl, rfl⟩
  · exact h

omit [Store S] in
theorem Agree.respond (h : Agree p) (device : Address) (needed : Bool) :
    Agree (if needed && p.transport.gattServer then p.onTransport (·.ask (.sendResponse device)) else p) := by
  split_ifs
  · exact h.of_links rfl ⟨rfl, rfl⟩
  · exact h

theorem step_agree (h : Agree p) (e : BleMeshTransport.Platform × Callback) : Agree (p.step e) := by
  obtain ⟨os, c⟩ := e
  cases c with
  | screen on => exact h.of_links (f := (·.setLowPower os !on)) rfl (BleMeshTransport.setLowPower_same _ os _)
  | bluetooth on =>
    cases on with
    | true => exact h.onBluetoothOn os
    | false => exact h.onBluetoothOff os.now
  | serverState device newState =>
    cases newState with
    | connected => exact h.addLink os.now _
    | disconnected => exact h.dropLinksForDevice os.now device
    | changing => exact h
  | characteristicWriteRequest device rx responseNeeded value =>
    cases rx with
    | true => exact (h.frameFrom os device value).respond device responseNeeded
    | false => exact h.respond device responseNeeded
  | descriptorWriteRequest device responseNeeded => exact h.respond device responseNeeded
  | scanResult device rssi => exact h.of_links (f := (·.onScanResult os device rssi)) rfl (BleMeshTransport.onScanResult_same _ os device rssi)
  | clientState gatt status newState => exact h.onClientState os.now gatt status newState
  | mtuChanged gatt => exact h.of_links (f := (·.ask (.discoverServices gatt))) rfl ⟨rfl, rfl⟩
  | servicesDiscovered gatt complete =>
    cases complete with
    | true => exact Agree.addLink (h.of_links rfl ⟨rfl, rfl⟩) os.now _
    | false => exact h
  | characteristicChanged gatt tx value =>
    cases tx with
    | true => exact h.frameFrom os gatt value
    | false => exact h
  | user a =>
    cases a with
    | transport ev => exact h
    | _ => exact h.acted os.now (by simp)

/-- A phone as it starts. -/
def Fresh (p : Phone S) : Prop :=
  ∃ identity cfg clock store nickname rngSeed entropy os interactive,
    p = started (MeshNode.new identity cfg clock store nickname rngSeed entropy) os interactive

omit [Store S] in
theorem Fresh.agree (h : Fresh p) : Agree p := by
  obtain ⟨identity, cfg, clock, store, nickname, rngSeed, entropy, os, interactive, rfl⟩ := h
  obtain ⟨hlinks, hnext⟩ := BleMeshTransport.start_same {} os interactive
  refine ⟨fun id => ?_, fun id hid => ?_, ?_⟩
  · show none = Option.map _ _
    rw [started, hlinks]
    rfl
  · rw [started, hlinks] at hid
    exact absurd rfl hid
  · rw [started, hnext]
    exact Nat.one_pos

theorem Agree.run (h : Agree p) (callbacks : List (BleMeshTransport.Platform × Callback)) : Agree (Runs.run step p callbacks) :=
  Runs.run_invariant step Agree (fun _ e h => step_agree h e) p h callbacks

end Phone
end CockroachChat
