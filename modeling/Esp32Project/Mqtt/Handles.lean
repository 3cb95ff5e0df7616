import Esp32Project.Lib.CString
import Mathlib.Logic.Function.Basic

/-!
The handle table of modules/mqtt.c over the clients of espmqtt. Blocks and
registry references are numbered as they are made. A step is `none` if it reads
outside of the table, uses a block or a reference that is gone, or follows NULL.
-/

set_option autoImplicit false

namespace Esp32Project.Mqtt
open Esp32Project.Lib

def maxMqttNum : Nat := 3

/-- The callbacks of a handle, one reference for each. -/
inductive Method where
  | data
  | connect
  | disconnect
  | publish
  | reconnect
  | subscribe
  deriving DecidableEq, Repr

structure Slot where
  pClient : Option Nat
  refs : Method → Option Nat

/-- What mqtt_subscribe, mqtt_unsubscribe and mqtt_publish put into a client. -/
inductive Request where
  | subscribe (topic : List UInt8) (qos : UInt32)
  | unsubscribe (topic : List UInt8)
  | publish (topic data : List UInt8)
  deriving DecidableEq, Repr

structure Table where
  handle : Fin maxMqttNum → Slot
  registry : List Nat
  /-- The client blocks, each with its settings. -/
  clients : List (Nat × Nat)
  settings : List Nat
  /-- Whether the handle of the task is set; nothing clears it. -/
  xMqttTask : Bool
  /-- The client that `mqtt_task` runs for. -/
  running : Option Nat
  /-- The client that `mqtt_sending_task` runs for. -/
  sending : Option Nat
  requests : List (Nat × Request)
  fresh : Nat

def Table.start : Table where
  handle _ := ⟨none, fun _ => none⟩
  registry := []
  clients := []
  settings := []
  xMqttTask := false
  running := none
  sending := none
  requests := []
  fresh := 0

inductive Outcome where
  | error (text : String)
  | done
  | id (i : Fin maxMqttNum)
  deriving DecidableEq, Repr

def Table.setSlot (s : Table) (i : Fin maxMqttNum) (slot : Slot) : Table :=
  { s with handle := Function.update s.handle i slot }

def Table.setRef (s : Table) (i : Fin maxMqttNum) (m : Method) (r : Option Nat) : Table :=
  s.setSlot i { s.handle i with refs := Function.update (s.handle i).refs m r }

/-- `luaL_ref`, into a field of a handle. -/
def Table.takeRef (s : Table) (i : Fin maxMqttNum) (m : Method) : Table :=
  { s with registry := s.fresh :: s.registry, fresh := s.fresh + 1 }.setRef i m (some s.fresh)

/-- `luaL_unref` of a field other than LUA_NOREF, which it becomes. -/
def Table.dropRef (s : Table) (i : Fin maxMqttNum) (m : Method) : Option Table :=
  match (s.handle i).refs m with
  | none => some s
  | some r =>
    if r ∈ s.registry then some ({ s with registry := s.registry.erase r }.setRef i m none)
    else none

def Table.useClient (s : Table) (c : Nat) : Option Nat := s.clients.lookup c

/-! ## mqtt.c of espmqtt -/

/-- The allocations of a call of `mqtt.new`, and whether they succeed. -/
structure Resources where
  settings : Bool
  client : Bool
  ring : Bool
  task : Bool
  deriving Repr

/-- The pointer that is returned; a client without its ring stays allocated. -/
def mqttStart (s : Table) (settings : Nat) (r : Resources) : Option Nat × Table :=
  if s.xMqttTask then (none, s)
  else if r.client = false then (none, s)
  else
    let client := s.fresh
    let s := { s with clients := (client, settings) :: s.clients, fresh := s.fresh + 1 }
    if r.ring = false then (none, s)
    else if r.task = false then (some client, s)
    else (some client, { s with xMqttTask := true, running := some client })

/-- The client with its buffers is freed; without a task the calling one is deleted. -/
def mqttDestroy (s : Table) (c : Nat) : Option Table := do
  let _ ← s.useClient c
  if s.xMqttTask then
    return { s with clients := s.clients.filter (·.1 ≠ c), running := none }
  else none

/-! ## modules/mqtt.c -/

def findFree (s : Table) : Option (Fin maxMqttNum) :=
  (List.finRange maxMqttNum).find? fun i => (s.handle i).pClient.isNone

example : (findFree Table.start).map (·.val) = some 0 := by decide +kernel

/-- Which arguments of `mqtt.new` are as they should be. -/
structure NewArgs where
  /-- Host, client id and keepalive. -/
  required : Bool
  /-- The fourth is a function. -/
  connect : Bool
  /-- There are more than four. -/
  more : Bool
  /-- User and password. -/
  credentials : Bool
  deriving Repr

def lmqttNew (s : Table) (args : NewArgs) (r : Resources) : Option (Table × Outcome) :=
  if args.required = false then some (s, .error "bad argument") else
    match findFree s with
    | none => some (s, .error "Max MQTT Number is reached")
    | some idx =>
      let s := s.setSlot idx { s.handle idx with refs := fun _ => none }
      let s := if args.connect then s.takeRef idx .connect else s
      if args.more ∧ args.credentials = false then some (s, .error "bad argument")
      -- the second search for a free handle finds the same one
      else if r.settings = false then none
      else
        let settings := s.fresh
        let s := { s with settings := settings :: s.settings, fresh := s.fresh + 1 }
        let (client, s) := mqttStart s settings r
        some (s.setSlot idx { s.handle idx with pClient := client }, .id idx)

/-- The order in which `lmqtt_close` releases the references. -/
def closeOrder : List Method := [.data, .disconnect, .reconnect, .publish, .connect, .subscribe]

def dropRefs (i : Fin maxMqttNum) : Table → List Method → Option Table
  | s, [] => some s
  | s, m :: ms => (s.dropRef i m).bind (dropRefs i · ms)

def lmqttClose (s : Table) (id : UInt32) : Option (Table × Outcome) :=
  if h : id.toNat < maxMqttNum then
    match (s.handle ⟨id.toNat, h⟩).pClient with
    | none => some (s, .done)
    | some c => do
      let s ← dropRefs ⟨id.toNat, h⟩ s closeOrder
      let settings ← s.useClient c
      if settings ∈ s.settings then do
        let s ← mqttDestroy { s with settings := s.settings.erase settings } c
        return (s, .done)
      else none
  else some (s, .error "mqttClt arg is wrong!")

/-- The test that the other calls begin with: it reads the handle before it looks at the bound. -/
def withClient (s : Table) (id : UInt32)
    (call : Fin maxMqttNum → Nat → Option (Table × Outcome)) : Option (Table × Outcome) :=
  if h : id.toNat < maxMqttNum then
    match (s.handle ⟨id.toNat, h⟩).pClient with
    | none => some (s, .error "mqttClt arg is wrong!")
    | some c => call ⟨id.toNat, h⟩ c
  else none

def request (s : Table) (c : Nat) (q : Request) : Option (Table × Outcome) := do
  let _ ← s.useClient c
  return ({ s with requests := (c, q) :: s.requests }, .done)

/-- A string argument is `none` if it is of another type. -/
def lmqttSubscribe (s : Table) (id : UInt32) (topic : Option (List UInt8)) (qos : UInt32) :
    Option (Table × Outcome) :=
  withClient s id fun _ c =>
    match topic with
    | none => some (s, .error "bad argument")
    | some topic =>
      if qos = 0 ∨ qos = 1 ∨ qos = 2 then request s c (.subscribe (cString topic) qos)
      else some (s, .error "QoS wrong arg type")

def lmqttUnsubscribe (s : Table) (id : UInt32) (topic : Option (List UInt8)) :
    Option (Table × Outcome) :=
  withClient s id fun _ c =>
    match topic with
    | none => some (s, .error "bad argument")
    | some topic => request s c (.unsubscribe (cString topic))

def lmqttPublish (s : Table) (id : UInt32) (topic data : Option (List UInt8)) :
    Option (Table × Outcome) :=
  withClient s id fun _ c =>
    match topic, data with
    | some topic, some data => request s c (.publish (cString topic) (cString data))
    | _, _ => some (s, .error "bad argument")

def methodOf (name : String) : Option Method :=
  if name = "data" then some .data
  else if name = "disconnect" then some .disconnect
  else if name = "publish" then some .publish
  else if name = "reconnect" then some .reconnect
  else if name = "connect" then some .connect
  else if name = "subscribe" then some .subscribe
  else none

def lmqttOn (s : Table) (id : UInt32) (method : Option String) (isFunction : Bool) :
    Option (Table × Outcome) :=
  withClient s id fun i _ =>
    match method with
    | none => some (s, .error "bad argument")
    | some name =>
      if isFunction = false then some (s, .error "callback function needed") else
        match methodOf name with
        | none => some (s, .error "wrong method")
        | some m => do
          let s ← s.dropRef i m
          return (s.takeRef i m, .done)

/-! ## The tasks of a client -/

/-- The handle that a callback finds for its client. -/
def slotOf (s : Table) (c : Nat) : Option (Fin maxMqttNum) :=
  (List.finRange maxMqttNum).find? fun i => (s.handle i).pClient = some c

/-- A callback of the client's settings: the function registered for it is called. -/
def callback (s : Table) (m : Method) (c : Nat) : Option (Table × Outcome) := do
  let settings ← s.useClient c
  if settings ∈ s.settings then
    match (slotOf s c).bind fun i => (s.handle i).refs m with
    | none => some (s, .done)
    | some r => if r ∈ s.registry then some (s, .done) else none
  else none

inductive Event where
  | new (args : NewArgs) (r : Resources)
  | on (id : UInt32) (method : Option String) (isFunction : Bool)
  | subscribe (id : UInt32) (topic : Option (List UInt8)) (qos : UInt32)
  | unsubscribe (id : UInt32) (topic : Option (List UInt8))
  | publish (id : UInt32) (topic data : Option (List UInt8))
  | close (id : UInt32)
  /-- `mqtt_task` makes the sending task and calls connected_cb. -/
  | connected
  /-- The connection ends, and with it the sending task. -/
  | disconnected
  | callback (m : Method)
  /-- A round of `mqtt_sending_task`. -/
  | sendingRound
  deriving Repr

def step (s : Table) : Event → Option (Table × Outcome)
  | .new args r => lmqttNew s args r
  | .on id method isFunction => lmqttOn s id method isFunction
  | .subscribe id topic qos => lmqttSubscribe s id topic qos
  | .unsubscribe id topic => lmqttUnsubscribe s id topic
  | .publish id topic data => lmqttPublish s id topic data
  | .close id => lmqttClose s id
  | .connected =>
    match s.running with
    | none => some (s, .done)
    | some c => callback { s with sending := some c } .connect c
  | .disconnected =>
    match s.running with
    | none => some (s, .done)
    | some _ => some ({ s with sending := none }, .done)
  | .callback m =>
    match s.running with
    | none => some (s, .done)
    | some c => callback s m c
  | .sendingRound =>
    match s.sending with
    | none => some (s, .done)
    | some c => do
      let settings ← s.useClient c
      if settings ∈ s.settings then some (s, .done) else none

end Esp32Project.Mqtt
