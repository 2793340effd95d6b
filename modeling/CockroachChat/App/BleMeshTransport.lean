import CockroachChat.Peers.OnAir

/-! # The Bluetooth transport and its node

A phone is a GATT server to some peers and a GATT client to others; each connection, in either role, is a
link under a number of its own. The platform calls back, one call at a time, and the node sends and closes
on the links it was told of. -/
namespace CockroachChat
set_option autoImplicit false

namespace BleConstants

def RSSI_GATE_DBM : ℤ := -85
def MAX_LINKS : ℕ := 5
def GATT_STATUS_133 : ℕ := 133

end BleConstants

/-- A Bluetooth device is known by its address. -/
abbrev Address : Type := ℕ

/-- A live connection, in either role. -/
inductive Endpoint where
  | central (gatt : Address)
  | peripheral (device : Address)
  deriving DecidableEq

def deviceOf : Endpoint → Address
  | .central gatt => gatt
  | .peripheral device => device

inductive ConnectionState where
  | connected
  | disconnected
  | changing
  deriving DecidableEq

/-- What the transport asks of the platform (an observer). -/
inductive Request where
  | openGattServer
  | closeGattServer
  | startAdvertising (lowPower : Bool)
  | stopAdvertising
  | startScan (lowPower : Bool)
  | stopScan
  | connectGatt (device : Address) (again : Bool)
  | closeGatt (device : Address)
  | cancelConnection (device : Address)
  | requestMtu (device : Address) (mtu : ℕ)
  | discoverServices (device : Address)
  | enableNotification (device : Address)
  | writeCharacteristic (device : Address) (frame : Bytes)
  | notifyCharacteristicChanged (device : Address) (frame : Bytes)
  | sendResponse (device : Address)
  /-- Not a request: `send on unknown link`, in the log. -/
  | unknownLink (link : LinkId)
  deriving DecidableEq

structure BleMeshTransport where
  nextLink : LinkId := 1
  links : Std.ExtTreeMap LinkId Endpoint := ∅
  retryCount : Std.ExtTreeMap Address ℕ := ∅
  recentlyDeduped : Std.ExtTreeMap Address Millis := ∅
  gattServer : Bool := false
  txChar : Bool := false
  lowPower : Bool := false
  asked : List Request := []

namespace BleMeshTransport

def ask (t : BleMeshTransport) (r : Request) : BleMeshTransport := { t with asked := t.asked ++ [r] }

/-! ## Outbound -/

def send (t : BleMeshTransport) (link : LinkId) (frame : Bytes) : BleMeshTransport :=
  match t.links[link]? with
  | some (.central gatt) => t.ask (.writeCharacteristic gatt frame)
  | some (.peripheral device) =>
      if !t.txChar then t
      else if t.gattServer then t.ask (.notifyCharacteristicChanged device frame)
      else t
  | none => t.ask (.unknownLink link)

def cooldown (t : BleMeshTransport) (now : Millis) (address : Address) : BleMeshTransport :=
  { t with recentlyDeduped := t.recentlyDeduped.insert address (now + 30000) }

/-- The core deduped this link to another connection with the same peer. -/
def close (t : BleMeshTransport) (now : Millis) (link : LinkId) : BleMeshTransport :=
  let ep := t.links[link]?
  let t := { t with links := t.links.erase link }
  match ep with
  | some (.central gatt) => (t.cooldown now gatt).ask (.closeGatt gatt)
  | some (.peripheral device) =>
      let t := t.cooldown now device
      if t.gattServer then t.ask (.cancelConnection device) else t
  | none => t

def inCooldown (t : BleMeshTransport) (now : Millis) (address : Address) : BleMeshTransport × Bool :=
  match t.recentlyDeduped[address]? with
  | none => (t, false)
  | some expiry =>
      if now > expiry then ({ t with recentlyDeduped := t.recentlyDeduped.erase address }, false)
      else (t, true)

/-! ## Helpers -/

def linksOf (t : BleMeshTransport) (device : Address) : List LinkId :=
  (t.links.toList.filter fun e => deviceOf e.2 = device).map Prod.fst

def isConnected (t : BleMeshTransport) (device : Address) : Bool :=
  t.links.toList.any fun e => deviceOf e.2 = device

/-- The first of a device's links, in an order that the map does not fix: `pick` stands for it. -/
def linkFor (t : BleMeshTransport) (device : Address) (pick : ℕ) : Option LinkId :=
  (t.linksOf device)[pick % (t.linksOf device).length]?

/-! ## Radio -/

/-- What the platform has to say when it is asked: whether Bluetooth is on, and whether a server opens. -/
structure Platform where
  now : Millis
  enabled : Bool
  serverOpens : Bool
  pick : ℕ

def startGattServer (t : BleMeshTransport) (os : Platform) : BleMeshTransport :=
  let t := t.ask .openGattServer
  if os.serverOpens then { t with gattServer := true, txChar := true } else t

def startAdvertising (t : BleMeshTransport) (os : Platform) : BleMeshTransport :=
  if os.enabled then t.ask (.startAdvertising t.lowPower) else t

def startScanning (t : BleMeshTransport) (os : Platform) : BleMeshTransport :=
  if os.enabled then t.ask (.startScan t.lowPower) else t

def stopAdvertising (t : BleMeshTransport) (os : Platform) : BleMeshTransport :=
  if os.enabled then t.ask .stopAdvertising else t

def stopScan (t : BleMeshTransport) (os : Platform) : BleMeshTransport :=
  if os.enabled then t.ask .stopScan else t

def start (t : BleMeshTransport) (os : Platform) (interactive : Bool) : BleMeshTransport :=
  if !os.enabled then t
  else
    let t := { t with lowPower := !interactive }
    ((t.startGattServer os).startAdvertising os).startScanning os

def setLowPower (t : BleMeshTransport) (os : Platform) (low : Bool) : BleMeshTransport :=
  if low = t.lowPower then t
  else
    let t := { t with lowPower := low }
    (((t.stopScan os).startScanning os).stopAdvertising os).startAdvertising os

def closeIfCentral (t : BleMeshTransport) : Endpoint → BleMeshTransport
  | .central gatt => t.ask (.closeGatt gatt)
  | .peripheral _ => t

def closeServer (t : BleMeshTransport) : BleMeshTransport :=
  let t := if t.gattServer then t.ask .closeGattServer else t
  { t with gattServer := false }

/-- A scan result: connect to what is near, new and wanted. -/
def onScanResult (t : BleMeshTransport) (os : Platform) (device : Address) (rssi : ℤ) : BleMeshTransport :=
  if rssi < BleConstants.RSSI_GATE_DBM then t
  else if t.links.size ≥ BleConstants.MAX_LINKS then t
  else if t.isConnected device then t
  else
    let (t, cooling) := t.inCooldown os.now device
    if cooling then t
    else t.ask (.connectGatt device false)

end BleMeshTransport

/-! ## A phone -/

variable [P : Prims] {S : Type}

/-- A node, and the transport that it was made with. -/
structure Phone (S : Type) where
  node : MeshNode S
  transport : BleMeshTransport

/-- A call of the platform, or of the phone's user. -/
inductive Callback where
  | screen (on : Bool)
  | bluetooth (on : Bool)
  /-- The server's `onConnectionStateChange`. -/
  | serverState (device : Address) (newState : ConnectionState)
  /-- A write to the server's RX characteristic (or to another). -/
  | characteristicWriteRequest (device : Address) (rx responseNeeded : Bool) (value : Bytes)
  | descriptorWriteRequest (device : Address) (responseNeeded : Bool)
  | scanResult (device : Address) (rssi : ℤ)
  /-- The client's `onConnectionStateChange`. -/
  | clientState (gatt : Address) (status : ℕ) (newState : ConnectionState)
  | mtuChanged (gatt : Address)
  /-- `complete`: the service and both of its characteristics are there. -/
  | servicesDiscovered (gatt : Address) (complete : Bool)
  | characteristicChanged (gatt : Address) (tx : Bool) (value : Bytes)
  | user (a : Action)

namespace Phone
variable [Store S]

/-- What a node does on its transport. -/
def obey (now : Millis) (t : BleMeshTransport) : Obs → BleMeshTransport
  | .send link frame => t.send link frame
  | .close link => t.close now link
  | _ => t

def call (p : Phone S) (now : Millis) (a : Action) : Phone S :=
  let node := MeshNode.exec p.node ⟨now, a⟩
  { node, transport := (node.trace.drop p.node.trace.length).foldl (obey now) p.transport }

def onTransport (p : Phone S) (f : BleMeshTransport → BleMeshTransport) : Phone S := { p with transport := f p.transport }

/-- A new link, of 182 bytes whatever MTU was agreed. -/
def addLink (p : Phone S) (now : Millis) (ep : Endpoint) : Phone S :=
  let id := p.transport.nextLink
  let p := p.onTransport fun t => { t with nextLink := id + 1, links := t.links.insert id ep }
  p.call now (.transport (.linkUp id 182))

def dropLink (now : Millis) (p : Phone S) (id : LinkId) : Phone S :=
  let p := p.onTransport fun t => { t with links := t.links.erase id }
  p.call now (.transport (.linkDown id))

def dropLinksForDevice (p : Phone S) (now : Millis) (device : Address) : Phone S :=
  (p.transport.linksOf device).foldl (dropLink now) p

/-- Close and forget a link. -/
def dropEntry (now : Millis) (p : Phone S) (e : LinkId × Endpoint) : Phone S :=
  dropLink now (p.onTransport (·.closeIfCentral e.2)) e.1

def dropAllLinks (p : Phone S) (now : Millis) : Phone S := p.transport.links.toList.foldl (dropEntry now) p

def onBluetoothOff (p : Phone S) (now : Millis) : Phone S := (p.dropAllLinks now).onTransport (·.closeServer)

def onBluetoothOn (p : Phone S) (os : BleMeshTransport.Platform) : Phone S :=
  (p.dropAllLinks os.now).onTransport fun t =>
    ((t.closeServer.startGattServer os).startAdvertising os).startScanning os

def frameFrom (p : Phone S) (os : BleMeshTransport.Platform) (device : Address) (value : Bytes) : Phone S :=
  match p.transport.linkFor device os.pick with
  | some link => p.call os.now (.transport (.frameReceived link value))
  | none => p

/-- The client's side of a connection: status 133 is tried again, five times at most. -/
def onClientState (p : Phone S) (now : Millis) (gatt : Address) (status : ℕ) (newState : ConnectionState) : Phone S :=
  if status = BleConstants.GATT_STATUS_133 ∨ newState = .disconnected then
    let p := p.onTransport (·.ask (.closeGatt gatt)) -- always close, never just disconnect
    let p := p.dropLinksForDevice now gatt
    if status = BleConstants.GATT_STATUS_133 then
      p.onTransport fun t =>
        let n := (t.retryCount[gatt]?).getD 0 + 1
        let t := { t with retryCount := t.retryCount.insert gatt n }
        if n ≤ 5 then t.ask (.connectGatt gatt true) else t
    else p
  else if newState = .connected then
    p.onTransport fun t => { t with retryCount := t.retryCount.erase gatt }.ask (.requestMtu gatt 517)
  else p

def step (p : Phone S) (e : BleMeshTransport.Platform × Callback) : Phone S :=
  let os := e.1
  match e.2 with
  | .screen on => p.onTransport (·.setLowPower os !on)
  | .bluetooth true => p.onBluetoothOn os
  | .bluetooth false => p.onBluetoothOff os.now
  | .serverState device .connected => p.addLink os.now (.peripheral device)
  | .serverState device .disconnected => p.dropLinksForDevice os.now device
  | .serverState _ .changing => p
  | .characteristicWriteRequest device rx responseNeeded value =>
      let p := if rx then p.frameFrom os device value else p
      if responseNeeded && p.transport.gattServer then p.onTransport (·.ask (.sendResponse device)) else p
  | .descriptorWriteRequest device responseNeeded =>
      if responseNeeded && p.transport.gattServer then p.onTransport (·.ask (.sendResponse device)) else p
  | .scanResult device rssi => p.onTransport (·.onScanResult os device rssi)
  | .clientState gatt status newState => p.onClientState os.now gatt status newState
  | .mtuChanged gatt => p.onTransport (·.ask (.discoverServices gatt))
  | .servicesDiscovered gatt complete =>
      if complete then (p.onTransport (·.ask (.enableNotification gatt))).addLink os.now (.central gatt) else p
  | .characteristicChanged gatt tx value => if tx then p.frameFrom os gatt value else p
  | .user (.transport _) => p -- links and frames are the transport's
  | .user a => p.call os.now a

/-- The phone as `startBle` leaves it: a new node, a new transport, started. -/
def started (node : MeshNode S) (os : BleMeshTransport.Platform) (interactive : Bool) : Phone S :=
  { node, transport := BleMeshTransport.start {} os interactive }

end Phone
end CockroachChat
