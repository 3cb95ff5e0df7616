import Esp32Project.Lib.Reach
import Esp32Project.Mqtt.MessageId
import Esp32Project.Mqtt.Ring
import Mathlib.Data.List.ReduceOption

/-!
The way of a message to the socket in mqtt.c: `mqtt_queue` copies it from the
buffer of the connection to the ring buffer and puts its length to a queue, from
which `mqtt_sending_task` takes it. The same buffer serves the task for what it
takes out of the ring buffer. A call of a builder with `mqtt_queue` and a round
of the task are steps here: that they do not overlap is an assumption, which no
lock in mqtt.c sees to, and a call that has to wait for room in the ring buffer
has no result. A write to the socket takes all that it is given.
-/

set_option autoImplicit false

namespace Esp32Project.Mqtt
open Esp32Project.Lib

structure ClientConfig where
  protocol : Protocol
  /-- CONFIG_MQTT_BUFFER_SIZE_BYTE. -/
  bufferSize : Nat
  /-- CONFIG_MQTT_QUEUE_BUFFER_SIZE_WORD * 4. -/
  ringSize : Nat
  /-- `settings->keepalive`. -/
  keepalive : Nat
  bufferSize_ge : 128 ≤ bufferSize
  bufferSize_le : bufferSize ≤ 4096
  ringSize_ge : 2 ≤ ringSize

def sendingQueueLength : Nat := 64

inductive Write where
  | chunk (bytes : List UInt8)
  | ping (bytes : List UInt8)
  deriving DecidableEq, Repr

def Write.bytes : Write → List UInt8
  | .chunk bytes | .ping bytes => bytes

/-- mqtt_client, with the writes to its socket so far. -/
structure Client where
  conn : Connection
  sendRb : RingBuf
  xSendingQueue : List Nat
  keepaliveTick : Nat
  pendingMsgType : UInt8
  pendingMsgId : Nat
  written : List Write

/-- What `mqtt_start` sets up of a client. -/
def startClient (cfg : ClientConfig) (outBuffer ringMem : List UInt8) : Option Client := do
  let sendRb ← rbInit ringMem 1
  return ⟨mqttMsgInit outBuffer, sendRb, [], cfg.keepalive / 2, 0, 0, []⟩

def sampleConfig : ClientConfig := ⟨.v311, 128, 16, 2, by decide, by decide, by decide⟩

def sampleClient : Client :=
  ⟨mqttMsgInit (List.replicate 128 0), ⟨List.replicate 16 0, 0, 0, 0, 1⟩, [], 1, 0, 0, []⟩

theorem startClient_sample : startClient sampleConfig (List.replicate 128 0)
    (List.replicate 16 0) = some sampleClient := by
  simp [startClient, rbInit, sampleClient, sampleConfig]

/-- `rb_write`. It does not return while a byte finds no room. -/
def rbWrite : RingBuf → List UInt8 → Option RingBuf
  | r, [] => some r
  | r, b :: bs => do
    let (r, ok) ← rbPut r [b]
    if ok then rbWrite r bs else none

/-- `rb_read`. It does not return while there is no byte. -/
def rbRead : RingBuf → Nat → Option (RingBuf × List UInt8)
  | r, 0 => some (r, [])
  | r, n + 1 =>
    match rbGet r with
    | (_, none) => none
    | (r, some block) => do
      let (r, bytes) ← rbRead r n
      return (r, block ++ bytes)

/-- `xQueueSend` with no time to wait: a length that finds the queue full is lost. -/
def xQueueSend (queue : List Nat) (n : Nat) : List Nat :=
  if queue.length < sendingQueueLength then queue ++ [n] else queue

def mqttQueue (c : Client) : Option Client := do
  let sendRb ← rbWrite c.sendRb c.conn.message
  return { c with sendRb, xSendingQueue := xQueueSend c.xSendingQueue c.conn.message.length }

/-- A builder, with the identifier that mqtt_publish, mqtt_subscribe and mqtt_unsubscribe have
it store. -/
def Client.build (p : Protocol) (c : Client) (r : Outgoing) : Option Client :=
  let stored (built : Option (Connection × UInt16)) : Option Client :=
    built.map fun (conn, messageId) => { c with conn, pendingMsgId := messageId.toNat }
  let messageId := UInt16.ofNat c.pendingMsgId
  match r with
  | .publish topic data qos retain => stored (mqttMsgPublish c.conn topic data qos retain messageId)
  | .subscribe topic qos => stored (mqttMsgSubscribe c.conn topic qos messageId)
  | .unsubscribe topic => stored (mqttMsgUnsubscribe c.conn topic messageId)
  | r => (Mqtt.build p c.conn r).map fun conn => { c with conn }

def Client.setPending (c : Client) (bytes : List UInt8) (length : Nat) : Option Client := do
  let first ← bytes[0]?
  let id ← mqttGetId bytes length
  return { c with pendingMsgType := mqttGetType first, pendingMsgId := id }

/-- One pass of the loop of `mqtt_sending_task` over the bytes of a message. -/
def sendChunk (c : Client) (sendLen : Nat) : Option Client := do
  let (sendRb, bytes) ← rbRead c.sendRb sendLen
  let buffer ← storeAll c.conn.buffer 0 bytes
  let c ← { c with sendRb, conn.buffer := buffer }.setPending buffer sendLen
  return { c with written := c.written ++ [.chunk (buffer.take sendLen)] }

/-- The loop, for which `fuel` passes are enough. -/
def sendChunks (cfg : ClientConfig) : Nat → Client → Nat → Option Client
  | 0, c, msgLen => if msgLen = 0 then some c else none
  | fuel + 1, c, msgLen =>
    if msgLen = 0 then some c else do
      let c ← sendChunk c (min msgLen cfg.bufferSize)
      sendChunks cfg fuel c (msgLen - min msgLen cfg.bufferSize)

/-- A round of `mqtt_sending_task` in which the queue has a length. -/
def sendMessage (cfg : ClientConfig) (c : Client) : Option Client :=
  match c.xSendingQueue with
  | [] => none
  | msgLen :: queue => do
    let c ← sendChunks cfg msgLen { c with xSendingQueue := queue } msgLen
    return { c with keepaliveTick := cfg.keepalive / 2 }

/-- A round in which a second has gone by and the queue was empty. -/
def sendNothing (cfg : ClientConfig) (c : Client) : Option Client :=
  if c.xSendingQueue ≠ [] then none
  else if c.keepaliveTick > 0 then some { c with keepaliveTick := c.keepaliveTick - 1 }
  else do
    let conn ← mqttMsgPingreq c.conn
    let c ← { c with conn, keepaliveTick := cfg.keepalive / 2 }.setPending
      (conn.buffer.drop conn.data) conn.length
    return { c with written := c.written ++ [.ping conn.message] }

/-- What `mqtt_publish`, `mqtt_subscribe` and the receive loop queue. -/
def Outgoing.queued : Outgoing → Bool
  | .connect _ | .unsubscribe _ | .pingreq | .disconnect => false
  | _ => true

inductive Call where
  | queue (r : { r : Outgoing // r.queued = true })
  /-- `mqtt_unsubscribe`, which builds a message and leaves it at that. -/
  | unsubscribe (topic : List UInt8)
  | send
  | timeout

def samplePublish : Call := .queue ⟨.publish [0x74] [0x31] 0 0, rfl⟩

def clientStep (cfg : ClientConfig) (c : Client) : Call → Option Client
  | .queue r => do
    let c ← c.build cfg.protocol r.1
    mqttQueue c
  | .unsubscribe topic => c.build cfg.protocol (.unsubscribe topic)
  | .send => sendMessage cfg c
  | .timeout => sendNothing cfg c

/-- A run, `none` once a call does not return. -/
def clientRun (cfg : ClientConfig) : Client → List Call → Option Client
  | c, [] => some c
  | c, call :: calls => (clientStep cfg c call).bind (clientRun cfg · calls)

section

variable {size : Nat} {r : RingBuf} {q : List UInt8}

theorem rbWrite_queues (h : Queues size 1 r q) {bytes : List UInt8}
    (hroom : q.length + bytes.length ≤ size) :
    ∃ r', rbWrite r bytes = some r' ∧ Queues size 1 r' (q ++ bytes) := by
  induction bytes generalizing r q with
  | nil => exact ⟨r, rfl, by rwa [List.append_nil]⟩
  | cons b bs ih =>
    rw [List.length_cons] at hroom
    have hput := rbPut_queues h [b] rfl
    rw [if_pos (by omega)] at hput
    obtain ⟨r₁, h₁, hq₁⟩ := hput
    obtain ⟨r₂, h₂, hq₂⟩ := ih hq₁ (by rw [List.length_append, List.length_singleton]; omega)
    refine ⟨r₂, ?_, by rwa [List.append_assoc, List.singleton_append] at hq₂⟩
    rw [rbWrite, h₁, Option.bind_eq_bind, Option.bind_some]
    exact h₂

theorem rbWrite_full (h : Queues size 1 r q) {bytes : List UInt8}
    (hfull : size < q.length + bytes.length) : rbWrite r bytes = none := by
  induction bytes generalizing r q with
  | nil =>
    have := h.room
    rw [List.length_nil] at hfull
    omega
  | cons b bs ih =>
    rw [List.length_cons] at hfull
    have hput := rbPut_queues h [b] rfl
    rw [rbWrite]
    split at hput
    next hlt =>
      obtain ⟨r₁, h₁, hq₁⟩ := hput
      rw [h₁, Option.bind_eq_bind, Option.bind_some]
      exact ih hq₁ (by rw [List.length_append, List.length_singleton]; omega)
    next =>
      rw [hput]
      rfl

theorem rbRead_queues (h : Queues size 1 r q) {n : Nat} (hn : n ≤ q.length) :
    ∃ r', rbRead r n = some (r', q.take n) ∧ Queues size 1 r' (q.drop n) := by
  induction n generalizing r q with
  | zero => exact ⟨r, rfl, h⟩
  | succ n ih =>
    obtain ⟨b, q, rfl⟩ := List.exists_cons_of_length_pos (Nat.lt_of_lt_of_le n.succ_pos hn)
    have hget := rbGet_queues h
    rw [if_neg (List.cons_ne_nil b q)] at hget
    obtain ⟨r₁, h₁, hq₁⟩ := hget
    obtain ⟨r₂, h₂, hq₂⟩ := ih hq₁ (by rw [List.length_cons] at hn; simpa using hn)
    refine ⟨r₂, ?_, hq₂⟩
    simp only [rbRead, h₁]
    rw [h₂]
    rfl

end

/-- A client with the counter `id` whose ring buffer holds the bytes `q`. -/
structure Steady (cfg : ClientConfig) (id : UInt16) (q : List UInt8) (c : Client) : Prop where
  buffer : c.conn.buffer.length = cfg.bufferSize
  id : c.conn.messageId = id
  ring : Queues cfg.ringSize 1 c.sendRb q

section

variable {cfg : ClientConfig} {id : UInt16} {q : List UInt8} {c c' : Client}

theorem startClient_steady {outBuffer ringMem : List UInt8}
    (hout : outBuffer.length = cfg.bufferSize) (hring : ringMem.length = cfg.ringSize)
    (h : startClient cfg outBuffer ringMem = some c) : Steady cfg 0 [] c ∧
      c.written = [] ∧ c.xSendingQueue = [] ∧ c.keepaliveTick = cfg.keepalive / 2 := by
  unfold startClient at h
  obtain ⟨rb, hrb, hc⟩ := Option.bind_eq_some_iff.mp h
  obtain rfl := Option.some.inj hc
  exact ⟨⟨hout, rfl, hring ▸ rbInit_queues hrb Nat.one_pos⟩, rfl, rfl, rfl⟩

theorem setPending_eq (c : Client) (bytes : List UInt8) (n : Nat) (hpos : 0 < bytes.length)
    (hn : n ≤ bytes.length) : ∃ type msgId, c.setPending bytes n =
      some { c with pendingMsgType := type, pendingMsgId := msgId } := by
  obtain ⟨msgId, hid⟩ := mqttGetId_isSome hn
  refine ⟨mqttGetType bytes[0], msgId, ?_⟩
  rw [Client.setPending, List.getElem?_eq_getElem hpos, hid]
  rfl

theorem sendChunk_steady (h : Steady cfg id q c) {n : Nat} (hn : n ≤ q.length)
    (hsize : n ≤ cfg.bufferSize) : ∃ c', sendChunk c n = some c' ∧
      Steady cfg id (q.drop n) c' ∧ c'.xSendingQueue = c.xSendingQueue ∧
      c'.written = c.written ++ [.chunk (q.take n)] := by
  obtain ⟨rb, hrb, hq⟩ := rbRead_queues h.ring hn
  have hlen : (q.take n).length = n := List.length_take_of_le hn
  have hbuffer := h.buffer
  have hpos := cfg.bufferSize_ge
  have hstore : storeAll c.conn.buffer 0 (q.take n) = _ := storeAll_eq (by omega)
  rw [List.take_zero, List.nil_append, Nat.zero_add, hlen] at hstore
  have hnew : (q.take n ++ c.conn.buffer.drop n).length = cfg.bufferSize := by
    rw [List.length_append, List.length_drop, hlen]
    omega
  let c₁ : Client := { c with sendRb := rb, conn.buffer := q.take n ++ c.conn.buffer.drop n }
  obtain ⟨type, msgId, hpending⟩ := setPending_eq c₁ (q.take n ++ c.conn.buffer.drop n) n
    (by omega) (by omega)
  have hwritten : (q.take n ++ c.conn.buffer.drop n).take n = q.take n := by
    rw [List.take_append_of_le_length (Nat.le_of_eq hlen.symm), List.take_take, Nat.min_self]
  refine ⟨{ c₁ with
    pendingMsgType := type
    pendingMsgId := msgId
    written := c.written ++ [.chunk (q.take n)] }, ?_, ⟨hnew, h.id, hq⟩, rfl, rfl⟩
  simp only [sendChunk, hrb, hstore, Option.bind_eq_bind, Option.bind_some]
  change (c₁.setPending _ n).bind _ = _
  simp only [hpending, Option.bind_some, hwritten]
  rfl

theorem sendChunks_steady (h : Steady cfg id q c) {fuel n : Nat} (hfuel : n ≤ fuel)
    (hn : n ≤ q.length) : ∃ c' chunks, sendChunks cfg fuel c n = some c' ∧
      Steady cfg id (q.drop n) c' ∧ c'.xSendingQueue = c.xSendingQueue ∧
      c'.written = c.written ++ chunks.map Write.chunk ∧ chunks.flatten = q.take n ∧
      (n ≤ cfg.bufferSize → chunks = if n = 0 then [] else [q.take n]) := by
  have hsize := cfg.bufferSize_ge
  induction fuel generalizing c q n with
  | zero =>
    obtain rfl : n = 0 := by omega
    exact ⟨c, [], rfl, h, rfl, (List.append_nil _).symm, rfl, fun _ => rfl⟩
  | succ fuel ih =>
    by_cases hzero : n = 0
    · subst hzero
      exact ⟨c, [], rfl, h, rfl, (List.append_nil _).symm, rfl, fun _ => rfl⟩
    · obtain ⟨c₁, h₁, hsteady₁, hqueue₁, hwritten₁⟩ :=
        sendChunk_steady h (n := min n cfg.bufferSize) (by omega) (by omega)
      obtain ⟨c₂, chunks, h₂, hsteady₂, hqueue₂, hwritten₂, hflat, hone⟩ :=
        ih hsteady₁ (n := n - min n cfg.bufferSize) (by omega)
          (by rw [List.length_drop]; omega)
      refine ⟨c₂, q.take (min n cfg.bufferSize) :: chunks, ?_, ?_, hqueue₂.trans hqueue₁, ?_, ?_,
        ?_⟩
      · rw [sendChunks, if_neg hzero, h₁]
        exact h₂
      · rwa [List.drop_drop, Nat.add_sub_cancel' (Nat.min_le_left ..)] at hsteady₂
      · rw [hwritten₂, hwritten₁, List.append_assoc]
        rfl
      · rw [List.flatten_cons, hflat, ← List.take_add, Nat.add_sub_cancel' (Nat.min_le_left ..)]
      · intro hle
        have hmin : min n cfg.bufferSize = n := Nat.min_eq_left hle
        rw [hmin, Nat.sub_self] at hone
        rw [if_neg hzero, hmin, hone (Nat.zero_le _), if_pos rfl]

theorem pingreq_sent (h : Steady cfg id q c) (hqueue : c.xSendingQueue = [])
    (htick : c.keepaliveTick = 0) : ∃ c', sendNothing cfg c = some c' ∧ Steady cfg id q c' ∧
      c'.xSendingQueue = [] ∧ c'.keepaliveTick = cfg.keepalive / 2 ∧
      c'.written = c.written ++ [.ping (packet 0xc0 [])] := by
  have hsize := cfg.bufferSize_ge
  have hlen := h.buffer
  have hstore : storeAll c.conn.buffer 1 [0xc0, 0] = _ :=
    storeAll_eq (by simp only [List.length_cons, List.length_nil]; omega)
  generalize hnew : c.conn.buffer.take 1 ++ [0xc0, 0] ++ c.conn.buffer.drop (1 + [0xc0, 0].length) =
    buffer at hstore
  have hnewLength : buffer.length = cfg.bufferSize := by
    rw [← hnew]
    simp only [List.length_append, List.length_take, List.length_drop, List.length_cons,
      List.length_nil]
    omega
  have hmessage : (buffer.drop 1).take 2 = packet 0xc0 [] := by
    obtain ⟨b, rest, hrest⟩ := List.exists_cons_of_length_pos
      (Nat.lt_of_lt_of_le (by decide) (hlen.symm ▸ hsize) : 0 < c.conn.buffer.length)
    rw [← hnew, hrest]
    rfl
  let conn : Connection := { c.conn with buffer := buffer, data := 1, length := 2 }
  have hping : mqttMsgPingreq c.conn = some conn := by
    change (storeAll c.conn.buffer 1 [0xc0, 0]).bind _ = _
    rw [hstore]
    rfl
  let c₁ : Client := { c with conn := conn, keepaliveTick := cfg.keepalive / 2 }
  obtain ⟨type, msgId, hpending⟩ := setPending_eq c₁ (buffer.drop 1) 2
    (by rw [List.length_drop]; omega) (by rw [List.length_drop]; omega)
  refine ⟨{ c₁ with
    pendingMsgType := type
    pendingMsgId := msgId
    written := c.written ++ [.ping (packet 0xc0 [])] }, ?_, ⟨hnewLength, h.id, h.ring⟩, hqueue, rfl,
    rfl⟩
  rw [sendNothing, if_neg (not_not.mpr hqueue), if_neg (by omega), hping]
  change (c₁.setPending (buffer.drop 1) 2).bind _ = _
  rw [hpending, ← hmessage]
  rfl

end

def Call.counter (cfg : ClientConfig) (id : UInt16) : Call → UInt16
  | .queue r => r.1.counter cfg.bufferSize id
  | .unsubscribe topic => (Outgoing.unsubscribe topic).counter cfg.bufferSize id
  | .send | .timeout => id

/-- What a call queues: a packet, or nothing in the place of one. -/
def Call.parts (cfg : ClientConfig) (id : UInt16) : Call → List (Option (UInt8 × List UInt8))
  | .queue r => [fitting cfg.bufferSize (r.1.parts cfg.protocol id)]
  | .unsubscribe _ | .send | .timeout => []

def queuedParts (cfg : ClientConfig) : UInt16 → List Call → List (Option (UInt8 × List UInt8))
  | _, [] => []
  | id, call :: calls => call.parts cfg id ++ queuedParts cfg (call.counter cfg id) calls

def carried (writes : List Write) : List UInt8 :=
  writes.flatMap fun
    | .chunk bytes => bytes
    | .ping _ => []

theorem carried_append (v w : List Write) : carried (v ++ w) = carried v ++ carried w :=
  List.flatMap_append

theorem carried_chunks (chunks : List (List UInt8)) :
    carried (chunks.map Write.chunk) = chunks.flatten := by
  rw [carried, List.flatMap_map]
  exact List.flatMap_id

section

variable {cfg : ClientConfig} {id : UInt16} {q : List UInt8} {c c' : Client}

/-- The identifier stored does not go into the message. -/
theorem Client.build_eq (c : Client) {p : Protocol} {r : Outgoing} {conn : Connection}
    (h : Mqtt.build p c.conn r = some conn) :
    ∃ messageId, c.build p r = some { c with conn, pendingMsgId := messageId } := by
  have hstored : ∀ built : Option (Connection × UInt16), built.map Prod.fst = some conn →
      ∃ messageId, (built.map fun b => { c with conn := b.1, pendingMsgId := b.2.toNat }) =
        some { c with conn, pendingMsgId := messageId } := by
    intro built hbuilt
    obtain ⟨⟨conn', messageId⟩, rfl, rfl⟩ := Option.map_eq_some_iff.mp hbuilt
    exact ⟨messageId.toNat, rfl⟩
  cases r with
  | publish topic data qos retain =>
    exact hstored _ ((mqttMsgPublish_conn ..).trans h)
  | subscribe topic qos =>
    exact hstored _ ((mqttMsgSubscribe_conn ..).trans h)
  | unsubscribe topic =>
    exact hstored _ ((mqttMsgUnsubscribe_conn ..).trans h)
  | _ => exact ⟨c.pendingMsgId, congrArg (Option.map fun conn => ({ c with conn } : Client)) h⟩

theorem build_steady (h : Steady cfg id q c) (r : Outgoing) : ∃ conn messageId,
    c.build cfg.protocol r = some { c with conn, pendingMsgId := messageId } ∧
      conn.buffer.length = cfg.bufferSize ∧ conn.messageId = r.counter cfg.bufferSize id ∧
      conn.message = wire (fitting cfg.bufferSize (r.parts cfg.protocol id)) := by
  have hge := cfg.bufferSize_ge
  have hle := cfg.bufferSize_le
  obtain ⟨conn, hbuild, hsends⟩ := build_sends (p := cfg.protocol) h.buffer h.id
    (by omega) (by omega) r
  obtain ⟨messageId, hstored⟩ := c.build_eq hbuild
  exact ⟨conn, messageId, hstored, hsends.cap, hsends.id, hsends.message.trans (sent_eq ..)⟩

/-- A message is queued if its bytes find room. -/
theorem queue_steady (h : Steady cfg id q c) (r : { r : Outgoing // r.queued = true })
    {m : List UInt8} (hm : m = wire (fitting cfg.bufferSize (r.1.parts cfg.protocol id))) :
    if q.length + m.length ≤ cfg.ringSize then
      ∃ c', clientStep cfg c (.queue r) = some c' ∧
        Steady cfg (r.1.counter cfg.bufferSize id) (q ++ m) c' ∧
        c'.xSendingQueue = xQueueSend c.xSendingQueue m.length ∧
        c'.keepaliveTick = c.keepaliveTick ∧ c'.written = c.written
    else clientStep cfg c (.queue r) = none := by
  obtain ⟨conn, messageId, hbuild, hcap, hid, hmessage⟩ := build_steady h r.1
  rw [← hm] at hmessage
  split
  next hroom =>
    obtain ⟨rb, hrb, hq⟩ := rbWrite_queues h.ring hroom
    refine ⟨{ c with
      conn := conn
      pendingMsgId := messageId
      sendRb := rb
      xSendingQueue := xQueueSend c.xSendingQueue m.length }, ?_, ⟨hcap, hid, hq⟩, rfl, rfl, rfl⟩
    rw [clientStep, hbuild, Option.bind_eq_bind, Option.bind_some, mqttQueue, hmessage, hrb]
    rfl
  next hfull =>
    rw [clientStep, hbuild, Option.bind_eq_bind, Option.bind_some, mqttQueue, hmessage,
      rbWrite_full h.ring (Nat.lt_of_not_le hfull)]
    rfl

/-- What one call does to the bytes in the ring buffer and on the socket. -/
theorem clientStep_carried (h : Steady cfg id q c) (henough : c.xSendingQueue.sum ≤ q.length)
    {call : Call} (hstep : clientStep cfg c call = some c') :
    ∃ q', Steady cfg (call.counter cfg id) q' c' ∧ c'.xSendingQueue.sum ≤ q'.length ∧
      carried c'.written ++ q' = carried c.written ++ q ++ (call.parts cfg id).flatMap wire := by
  cases call with
  | queue r =>
    have hqueue := queue_steady h r rfl
    split at hqueue
    next =>
      obtain ⟨c₁, h₁, hsteady, hlengths, -, hwritten⟩ := hqueue
      obtain rfl := Option.some.inj (h₁.symm.trans hstep)
      refine ⟨_, hsteady, ?_, ?_⟩
      · rw [hlengths, List.length_append, xQueueSend]
        split
        · rw [List.sum_append, List.sum_singleton]
          omega
        · omega
      · rw [hwritten, Call.parts, List.flatMap_singleton, List.append_assoc]
    next => rw [hqueue] at hstep; cases hstep
  | unsubscribe topic =>
    obtain ⟨conn, messageId, hbuild, hcap, hid, -⟩ := build_steady h (.unsubscribe topic)
    rw [clientStep, hbuild] at hstep
    obtain rfl := Option.some.inj hstep
    exact ⟨q, ⟨hcap, hid, h.ring⟩, henough, (List.append_nil _).symm⟩
  | send =>
    rw [clientStep, sendMessage] at hstep
    split at hstep
    · cases hstep
    next msgLen queue hlengths =>
      rw [hlengths, List.sum_cons] at henough
      obtain ⟨c₁, chunks, h₁, hsteady, hqueue, hwritten, hflat, -⟩ :=
        sendChunks_steady (c := { c with xSendingQueue := queue }) ⟨h.buffer, h.id, h.ring⟩
          (Nat.le_refl msgLen) (by omega)
      rw [h₁] at hstep
      obtain rfl := Option.some.inj hstep
      refine ⟨q.drop msgLen, ⟨hsteady.buffer, hsteady.id, hsteady.ring⟩, ?_, ?_⟩
      · simp only [hqueue, List.length_drop]
        omega
      · simp only [hwritten, carried_append, carried_chunks, hflat, Call.parts, List.flatMap_nil,
          List.append_nil, List.append_assoc, List.take_append_drop]
  | timeout =>
    rw [clientStep] at hstep
    by_cases hqueue : c.xSendingQueue = []
    · by_cases htick : c.keepaliveTick > 0
      · rw [sendNothing, if_neg (not_not.mpr hqueue), if_pos htick] at hstep
        obtain rfl := Option.some.inj hstep
        exact ⟨q, ⟨h.buffer, h.id, h.ring⟩, henough, (List.append_nil _).symm⟩
      · obtain ⟨c₁, h₁, hsteady, hempty, -, hwritten⟩ := pingreq_sent h hqueue (by omega)
        obtain rfl := Option.some.inj (h₁.symm.trans hstep)
        refine ⟨q, hsteady, by rw [hempty]; exact Nat.zero_le _, ?_⟩
        rw [hwritten, carried_append]
        simp [carried, Call.parts]
    · rw [sendNothing, if_pos hqueue] at hstep
      cases hstep

/-- Lost lengths or not: what is on the socket, pings apart, and what is in the ring buffer are
the queued messages, each byte once and in order. -/
theorem clientRun_carried (h : Steady cfg id q c) (henough : c.xSendingQueue.sum ≤ q.length)
    {calls : List Call} (hrun : clientRun cfg c calls = some c') :
    ∃ id' q', Steady cfg id' q' c' ∧ c'.xSendingQueue.sum ≤ q'.length ∧
      carried c'.written ++ q' =
        carried c.written ++ q ++ (queuedParts cfg id calls).flatMap wire := by
  induction calls generalizing c id q with
  | nil =>
    obtain rfl := Option.some.inj hrun
    exact ⟨id, q, h, henough, (List.append_nil _).symm⟩
  | cons call calls ih =>
    obtain ⟨c₁, hstep, hrest⟩ := Option.bind_eq_some_iff.mp hrun
    obtain ⟨q₁, hsteady, henough₁, hbytes⟩ := clientStep_carried h henough hstep
    obtain ⟨id', q', hsteady', henough', hbytes'⟩ := ih hsteady henough₁ hrest
    refine ⟨id', q', hsteady', henough', ?_⟩
    rw [hbytes', hbytes, queuedParts, List.flatMap_append, List.append_assoc]

end

/-- A call whose length, if it has one, finds a place in the queue. -/
def Call.hasSlot (c : Client) : Call → Prop
  | .queue _ => c.xSendingQueue.length < sendingQueueLength
  | .unsubscribe _ | .send | .timeout => True

instance (c : Client) (call : Call) : Decidable (call.hasSlot c) :=
  match call with
  | .queue _ => inferInstanceAs (Decidable (c.xSendingQueue.length < sendingQueueLength))
  | .unsubscribe _ | .send | .timeout => inferInstanceAs (Decidable True)

def pingPart : UInt8 × List UInt8 := (0xc0, [])

theorem packet_length_le {cap : Nat} {first : UInt8} {body : List UInt8}
    (h : 3 + body.length ≤ cap) (hlarge : cap < 128 ^ 2 + 3) :
    (packet first body).length ≤ cap := by
  have hvar : (varInt 3 body.length).length ≤ 2 := by
    rcases Nat.lt_or_ge body.length 128 with hs | hl
    · simp [varInt_small _ hs]
    · simp [varInt_large _ hl, varInt_small _ (show body.length / 128 < 128 by omega)]
  rw [packet, List.length_cons, List.length_append]
  omega

theorem queued_ne_ping {p : Protocol} {id : UInt16} {r : Outgoing} (hr : r.queued = true)
    {part : UInt8 × List UInt8} (hpart : r.parts p id = some part) : part ≠ pingPart := by
  have publish (q : Fin 4) (t : Fin 2) : UInt8.ofNat ((msgPublish % 16).toNat <<< 4 |||
      ((0 : Int) % 2).toNat <<< 3 ||| q.val <<< 1 ||| t.val) ≠ 0xc0 := by
    revert q t
    decide
  rintro rfl
  cases r with
  | publish topic data qos retain =>
    simp only [Outgoing.parts, pingPart] at hpart
    split at hpart
    · cases hpart
    · exact publish ⟨(qos % 4).toNat, by omega⟩ ⟨(retain % 2).toNat, by omega⟩
        (Prod.mk.inj (Option.some.inj hpart)).1
  | subscribe topic qos =>
    simp only [Outgoing.parts, pingPart] at hpart
    split at hpart
    · cases hpart
    · exact absurd (Prod.mk.inj (Option.some.inj hpart)).1 (by decide)
  | connect => cases hr
  | unsubscribe => cases hr
  | pingreq => cases hr
  | disconnect => cases hr
  | _ => exact absurd (Prod.mk.inj (Option.some.inj hpart)).1 (by decide)

/-- A client whose queue has the lengths of what `pending` stands for, and whose socket got the
packets `ps`. -/
structure Framed (cfg : ClientConfig) (id : UInt16) (pending : List (Option (UInt8 × List UInt8)))
    (ps : List (UInt8 × List UInt8)) (c : Client) : Prop where
  steady : Steady cfg id (pending.flatMap wire) c
  lengths : c.xSendingQueue = pending.map fun part => (wire part).length
  packets : ∀ part, some part ∈ pending → 3 + part.2.length ≤ cfg.bufferSize ∧ part ≠ pingPart
  written : c.written.flatMap Write.bytes = ps.flatMap fun part => packet part.1 part.2
  fits : ∀ part ∈ ps, 3 + part.2.length ≤ cfg.bufferSize

section

variable {cfg : ClientConfig} {id : UInt16} {c c' : Client}
  {pending : List (Option (UInt8 × List UInt8))} {ps : List (UInt8 × List UInt8)}

theorem Framed.packet_le (h : Framed cfg id pending ps c) {part : Option (UInt8 × List UInt8)}
    (hpart : part ∈ pending) : (wire part).length ≤ cfg.bufferSize := by
  have hle := cfg.bufferSize_le
  cases part with
  | none => exact Nat.zero_le _
  | some part => exact packet_length_le (h.packets part hpart).1 (by omega)

theorem Framed.read (h : Framed cfg id pending ps c) :
    readStream readPacket (c.written.flatMap Write.bytes) = some ps := by
  have hle := cfg.bufferSize_le
  rw [h.written]
  refine readStream_flatMap (fun part hpart rest => ?_) (fun part _ => List.cons_ne_nil _ _)
  have := h.fits part hpart
  exact readPacket_packet (by omega) part.1 rest

theorem send_framed {part : Option (UInt8 × List UInt8)}
    (h : Framed cfg id (part :: pending) ps c) :
    ∃ c', clientStep cfg c .send = some c' ∧ Framed cfg id pending (ps ++ part.toList) c' ∧
      c'.keepaliveTick = cfg.keepalive / 2 ∧
      c'.written = c.written ++ (part.toList.map fun part => .chunk (packet part.1 part.2)) := by
  have hlengths := h.lengths
  rw [List.map_cons] at hlengths
  have hring := h.steady.ring
  rw [List.flatMap_cons] at hring
  obtain ⟨c₁, chunks, h₁, hsteady, hqueue, hwritten, -, hone⟩ :=
    sendChunks_steady (c := { c with xSendingQueue := pending.map fun part => (wire part).length })
      (q := wire part ++ pending.flatMap wire) ⟨h.steady.buffer, h.steady.id, hring⟩
      (Nat.le_refl (wire part).length) (by rw [List.length_append]; exact Nat.le_add_right _ _)
  have hchunks : chunks = part.toList.map fun part => packet part.1 part.2 := by
    rw [hone (h.packet_le List.mem_cons_self), List.take_left]
    cases part <;> rfl
  rw [List.drop_left] at hsteady
  have hnew : c₁.written =
      c.written ++ (part.toList.map fun part => .chunk (packet part.1 part.2)) := by
    rw [hwritten, hchunks, List.map_map]
    rfl
  refine ⟨{ c₁ with keepaliveTick := cfg.keepalive / 2 }, ?_, ?_, rfl, hnew⟩
  · rw [clientStep, sendMessage, hlengths]
    change (sendChunks cfg _ _ _).bind _ = _
    rw [h₁]
    rfl
  · refine ⟨⟨hsteady.buffer, hsteady.id, hsteady.ring⟩, hqueue,
      fun p hp => h.packets p (List.mem_cons_of_mem _ hp), ?_, ?_⟩
    · simp only [hnew, List.flatMap_append, h.written]
      cases part <;> simp [Write.bytes]
    · intro p hp
      rw [List.mem_append] at hp
      obtain hp | hp := hp
      · exact h.fits p hp
      · obtain rfl := Option.mem_toList.mp hp
        exact (h.packets p List.mem_cons_self).1

/-- One call whose length is not lost. -/
theorem clientStep_framed (h : Framed cfg id pending ps c) {call : Call} (hslot : call.hasSlot c)
    (hstep : clientStep cfg c call = some c') : ∃ done pending' new,
      pending ++ call.parts cfg id = done ++ pending' ∧
      Framed cfg (call.counter cfg id) pending' (ps ++ new) c' ∧
      (new.filter fun part => part ≠ pingPart) = done.reduceOption := by
  cases call with
  | queue r =>
    have hqueue := queue_steady h.steady r rfl
    split at hqueue
    next =>
      obtain ⟨c₁, h₁, hsteady, hlengths, -, hwritten⟩ := hqueue
      obtain rfl := Option.some.inj (h₁.symm.trans hstep)
      have hroom : c.xSendingQueue.length < sendingQueueLength := hslot
      refine ⟨[], _, [], (List.nil_append _).symm, ⟨?_, ?_, ?_, ?_, ?_⟩, rfl⟩
      · rwa [Call.parts, List.flatMap_append, List.flatMap_singleton]
      · rw [hlengths, xQueueSend, if_pos hroom, h.lengths, Call.parts, List.map_append]
        rfl
      · intro part hpart
        rw [Call.parts, List.mem_append, List.mem_singleton] at hpart
        obtain hpart | hpart := hpart
        · exact h.packets part hpart
        · obtain ⟨hparts, hfits⟩ := Option.filter_eq_some_iff.mp hpart.symm
          exact ⟨by simpa using hfits, queued_ne_ping r.2 hparts⟩
      · rw [hwritten, List.append_nil, h.written]
      · rw [List.append_nil]
        exact h.fits
    next => rw [hqueue] at hstep; cases hstep
  | unsubscribe topic =>
    obtain ⟨conn, messageId, hbuild, hcap, hid, -⟩ := build_steady h.steady (.unsubscribe topic)
    rw [clientStep, hbuild] at hstep
    obtain rfl := Option.some.inj hstep
    refine ⟨[], pending, [], List.append_nil _, ?_, rfl⟩
    rw [List.append_nil]
    exact ⟨⟨hcap, hid, h.steady.ring⟩, h.lengths, h.packets, h.written, h.fits⟩
  | send =>
    cases pending with
    | nil => rw [clientStep, sendMessage, h.lengths] at hstep; cases hstep
    | cons part pending =>
      obtain ⟨c₁, h₁, hframed, -⟩ := send_framed h
      obtain rfl := Option.some.inj (h₁.symm.trans hstep)
      refine ⟨[part], pending, part.toList, List.append_nil _, hframed, ?_⟩
      cases part with
      | none => rfl
      | some part =>
        have hne := (h.packets part List.mem_cons_self).2
        simp [hne]
  | timeout =>
    rw [clientStep] at hstep
    by_cases hqueue : c.xSendingQueue = []
    · by_cases htick : c.keepaliveTick > 0
      · rw [sendNothing, if_neg (not_not.mpr hqueue), if_pos htick] at hstep
        obtain rfl := Option.some.inj hstep
        refine ⟨[], pending, [], List.append_nil _, ?_, rfl⟩
        rw [List.append_nil]
        exact ⟨⟨h.steady.buffer, h.steady.id, h.steady.ring⟩, h.lengths, h.packets, h.written,
          h.fits⟩
      · obtain ⟨c₁, h₁, hsteady, hempty, -, hwritten⟩ := pingreq_sent h.steady hqueue (by omega)
        obtain rfl := Option.some.inj (h₁.symm.trans hstep)
        refine ⟨[], pending, [pingPart], List.append_nil _, ⟨hsteady, ?_, h.packets, ?_, ?_⟩, ?_⟩
        · rw [hempty, ← hqueue, h.lengths]
        · rw [hwritten, List.flatMap_append, List.flatMap_append, h.written]
          rfl
        · intro p hp
          rw [List.mem_append, List.mem_singleton] at hp
          obtain hp | rfl := hp
          · exact h.fits p hp
          · exact Nat.le_trans (by decide) cfg.bufferSize_ge
        · simp
    · rw [sendNothing, if_pos hqueue] at hstep
      cases hstep

theorem clientRun_framed (h : Framed cfg id pending ps c) {calls : List Call}
    (hslots : Along (clientStep cfg) (fun c call => call.hasSlot c) c calls)
    (hrun : clientRun cfg c calls = some c') : ∃ id' done pending' new,
      pending ++ queuedParts cfg id calls = done ++ pending' ∧
      Framed cfg id' pending' (ps ++ new) c' ∧
      (new.filter fun part => part ≠ pingPart) = done.reduceOption := by
  induction calls generalizing c id pending ps with
  | nil =>
    obtain rfl := Option.some.inj hrun
    exact ⟨id, [], pending, [], List.append_nil _, by rwa [List.append_nil], rfl⟩
  | cons call calls ih =>
    obtain ⟨c₁, hstep, hrest⟩ := Option.bind_eq_some_iff.mp hrun
    obtain ⟨done₁, pending₁, new₁, hparts₁, hframed₁, hnew₁⟩ := clientStep_framed h hslots.1 hstep
    obtain ⟨id', done₂, pending₂, new₂, hparts₂, hframed₂, hnew₂⟩ :=
      ih hframed₁ (hslots.2 c₁ hstep) hrest
    refine ⟨id', done₁ ++ done₂, pending₂, new₁ ++ new₂, ?_, ?_, ?_⟩
    · rw [queuedParts, ← List.append_assoc, hparts₁, List.append_assoc, hparts₂, List.append_assoc]
    · rwa [← List.append_assoc]
    · rw [List.filter_append, hnew₁, hnew₂, List.reduceOption_append]

theorem clientRun_append (calls more : List Call) :
    clientRun cfg c (calls ++ more) = (clientRun cfg c calls).bind (clientRun cfg · more) := by
  induction calls generalizing c with
  | nil => rfl
  | cons call calls ih =>
    simp only [List.cons_append, clientRun, Option.bind_assoc]
    congr 1
    funext c₁
    exact ih

/-- As many rounds of the sending task as there are lengths empty the queue and the ring buffer. -/
theorem drain_framed (h : Framed cfg id pending ps c) : ∃ c',
    clientRun cfg c (List.replicate c.xSendingQueue.length .send) = some c' ∧
      Framed cfg id [] (ps ++ pending.reduceOption) c' := by
  rw [h.lengths, List.length_map]
  induction pending generalizing c ps with
  | nil =>
    refine ⟨c, rfl, ?_⟩
    rwa [List.reduceOption_nil, List.append_nil]
  | cons part pending ih =>
    obtain ⟨c₁, h₁, hframed, -⟩ := send_framed h
    obtain ⟨c₂, h₂, hframed₂⟩ := ih hframed
    refine ⟨c₂, ?_, ?_⟩
    · rw [List.length_cons, List.replicate_succ, clientRun, h₁]
      exact h₂
    · rw [List.append_assoc] at hframed₂
      cases part <;> exact hframed₂

end

section

variable {cfg : ClientConfig} {c c' : Client} {outBuffer ringMem : List UInt8} {calls : List Call}

/-- Whatever happens to the lengths, no byte is lost, doubled or out of its place. -/
theorem clientRun_bytes (hout : outBuffer.length = cfg.bufferSize)
    (hring : ringMem.length = cfg.ringSize) (hstart : startClient cfg outBuffer ringMem = some c)
    (hrun : clientRun cfg c calls = some c') : ∃ waiting,
      Queues cfg.ringSize 1 c'.sendRb waiting ∧ c'.xSendingQueue.sum ≤ waiting.length ∧
      carried c'.written ++ waiting = (queuedParts cfg 0 calls).flatMap wire := by
  obtain ⟨hsteady, hwritten, hqueue, -⟩ := startClient_steady hout hring hstart
  obtain ⟨id', waiting, hsteady', henough, hbytes⟩ :=
    clientRun_carried hsteady (by rw [hqueue]; exact Nat.le_refl _) hrun
  refine ⟨waiting, hsteady'.ring, henough, ?_⟩
  rw [hbytes, hwritten]
  rfl

theorem clientRun_bytes_sample : ∃ c' waiting,
    clientRun sampleConfig sampleClient [samplePublish, samplePublish, .send] = some c' ∧
      Queues 16 1 c'.sendRb waiting ∧ c'.xSendingQueue.sum ≤ waiting.length ∧
      carried c'.written ++ waiting =
        (queuedParts sampleConfig 0 [samplePublish, samplePublish, .send]).flatMap wire := by
  obtain ⟨c', hrun⟩ : ∃ c',
      clientRun sampleConfig sampleClient [samplePublish, samplePublish, .send] = some c' :=
    Option.isSome_iff_exists.mp (by decide +kernel)
  obtain ⟨waiting, h⟩ := clientRun_bytes List.length_replicate List.length_replicate
    startClient_sample hrun
  exact ⟨c', waiting, hrun, h⟩

theorem clientRun_packets (hout : outBuffer.length = cfg.bufferSize)
    (hring : ringMem.length = cfg.ringSize) (hstart : startClient cfg outBuffer ringMem = some c)
    (hslots : Along (clientStep cfg) (fun c call => call.hasSlot c) c calls)
    (hrun : clientRun cfg c calls = some c') : ∃ ps done waiting,
      readStream readPacket (c'.written.flatMap Write.bytes) = some ps ∧
      queuedParts cfg 0 calls = done ++ waiting ∧ waiting.length = c'.xSendingQueue.length ∧
      (ps.filter fun part => part ≠ pingPart) = done.reduceOption ∧
      ∃ id', Framed cfg id' waiting ps c' := by
  obtain ⟨hsteady, hwritten, hqueue, -⟩ := startClient_steady hout hring hstart
  have hstartFramed : Framed cfg 0 [] [] c :=
    ⟨hsteady, hqueue, fun _ h => absurd h List.not_mem_nil, by rw [hwritten]; rfl,
      fun _ h => absurd h List.not_mem_nil⟩
  obtain ⟨id', done, waiting, ps, hparts, hframed, hpings⟩ :=
    clientRun_framed hstartFramed hslots hrun
  have hlength : waiting.length = c'.xSendingQueue.length := by
    rw [hframed.lengths, List.length_map]
  exact ⟨ps, done, waiting, hframed.read, hparts, hlength, hpings, id', hframed⟩

/-- The broker reads the packets of the calls in order, some pings among them, up to those that
wait; and the sending task alone sends these too. -/
theorem clientRun_stream (hout : outBuffer.length = cfg.bufferSize)
    (hring : ringMem.length = cfg.ringSize) (hstart : startClient cfg outBuffer ringMem = some c)
    (hslots : Along (clientStep cfg) (fun c call => call.hasSlot c) c calls)
    (hrun : clientRun cfg c calls = some c') : ∃ ps done waiting,
      readStream readPacket (c'.written.flatMap Write.bytes) = some ps ∧
      queuedParts cfg 0 calls = done ++ waiting ∧ waiting.length = c'.xSendingQueue.length ∧
      (ps.filter fun part => part ≠ pingPart) = done.reduceOption ∧
      ∃ c'', clientRun cfg c (calls ++ List.replicate waiting.length .send) = some c'' ∧
        readStream readPacket (c''.written.flatMap Write.bytes) =
          some (ps ++ waiting.reduceOption) := by
  obtain ⟨ps, done, waiting, hread, hparts, hlength, hpings, id', hframed⟩ :=
    clientRun_packets hout hring hstart hslots hrun
  obtain ⟨c'', hdrain, hframed'⟩ := drain_framed hframed
  refine ⟨ps, done, waiting, hread, hparts, hlength, hpings, c'', ?_, hframed'.read⟩
  rw [clientRun_append, hrun, hlength]
  exact hdrain

theorem clientRun_stream_sample : ∃ c' ps done waiting,
    clientRun sampleConfig sampleClient [.timeout, .timeout, samplePublish] = some c' ∧
      readStream readPacket (c'.written.flatMap Write.bytes) = some ps ∧
      queuedParts sampleConfig 0 [.timeout, .timeout, samplePublish] = done ++ waiting ∧
      (ps.filter fun part => part ≠ pingPart) = done.reduceOption := by
  obtain ⟨c', hrun⟩ : ∃ c',
      clientRun sampleConfig sampleClient [.timeout, .timeout, samplePublish] = some c' :=
    Option.isSome_iff_exists.mp (by decide +kernel)
  obtain ⟨t, ht⟩ : ∃ t, runScript (clientStep sampleConfig) (fun c call => decide (call.hasSlot c))
      sampleClient [.timeout, .timeout, samplePublish] = some t :=
    Option.isSome_iff_exists.mp (by decide +kernel)
  obtain ⟨ps, done, waiting, hread, hparts, -, hpings, -⟩ :=
    clientRun_stream List.length_replicate List.length_replicate startClient_sample
      (along_of_script (fun _ _ => of_decide_eq_true) ht) hrun
  exact ⟨c', ps, done, waiting, hrun, hread, hparts, hpings⟩

end

def Call.isTimeout : Call → Bool
  | .timeout => true
  | .queue _ | .unsubscribe _ | .send => false

/-- A client that has something to write for every length in its queue. -/
structure Alive (cfg : ClientConfig) (id : UInt16) (q : List UInt8) (c : Client) : Prop where
  steady : Steady cfg id q c
  enough : c.xSendingQueue.sum ≤ q.length
  nonzero : ∀ n ∈ c.xSendingQueue, n ≠ 0
  tick : c.keepaliveTick ≤ cfg.keepalive / 2

section

variable {cfg : ClientConfig} {id : UInt16} {q : List UInt8} {c c' : Client}

theorem clientStep_alive (h : Alive cfg id q c) {call : Call}
    (hparts : ∀ part ∈ call.parts cfg id, part ≠ none) (hstep : clientStep cfg c call = some c') :
    (∃ q', Alive cfg (call.counter cfg id) q' c') ∧
      (c'.written = c.written ∧ c'.keepaliveTick + call.isTimeout.toNat = c.keepaliveTick ∨
        ∃ w ws, c'.written = c.written ++ w :: ws) := by
  obtain ⟨q', hsteady', henough', -⟩ := clientStep_carried h.steady h.enough hstep
  cases call with
  | queue r =>
    have hqueue := queue_steady h.steady r rfl
    split at hqueue
    next =>
      obtain ⟨c₁, h₁, -, hlengths, htick, hwritten⟩ := hqueue
      obtain rfl := Option.some.inj (h₁.symm.trans hstep)
      refine ⟨⟨q', hsteady', henough', fun n hn => ?_, htick ▸ h.tick⟩, .inl ⟨hwritten, htick⟩⟩
      rw [hlengths, xQueueSend] at hn
      split at hn
      · rw [List.mem_append, List.mem_singleton] at hn
        obtain hn | rfl := hn
        · exact h.nonzero n hn
        · obtain ⟨part, hpart⟩ := Option.ne_none_iff_exists'.mp
            (hparts _ (List.mem_singleton_self _))
          rw [hpart]
          exact Nat.succ_ne_zero _
      · exact h.nonzero n hn
    next => rw [hqueue] at hstep; cases hstep
  | unsubscribe topic =>
    obtain ⟨conn, messageId, hbuild, -⟩ := build_steady h.steady (.unsubscribe topic)
    rw [clientStep, hbuild] at hstep
    obtain rfl := Option.some.inj hstep
    exact ⟨⟨q', hsteady', henough', h.nonzero, h.tick⟩, .inl ⟨rfl, rfl⟩⟩
  | send =>
    rw [clientStep, sendMessage] at hstep
    split at hstep
    · cases hstep
    next msgLen queue hlengths =>
      have henough := h.enough
      have hnonzero := h.nonzero
      rw [hlengths] at hnonzero
      rw [hlengths, List.sum_cons] at henough
      obtain ⟨c₁, chunks, h₁, -, hqueue, hwritten, hflat, -⟩ :=
        sendChunks_steady (c := { c with xSendingQueue := queue })
          ⟨h.steady.buffer, h.steady.id, h.steady.ring⟩ (Nat.le_refl msgLen) (by omega)
      rw [h₁] at hstep
      obtain rfl := Option.some.inj hstep
      refine ⟨⟨q', hsteady', henough', fun n hn => ?_, Nat.le_refl _⟩, .inr ?_⟩
      · simp only [hqueue] at hn
        exact hnonzero n (List.mem_cons_of_mem _ hn)
      · cases chunks with
        | nil =>
          have := congrArg List.length hflat
          have hpos := hnonzero msgLen List.mem_cons_self
          rw [List.flatten_nil, List.length_nil, List.length_take] at this
          omega
        | cons chunk chunks => exact ⟨_, _, hwritten⟩
  | timeout =>
    rw [clientStep] at hstep
    by_cases hqueue : c.xSendingQueue = []
    · by_cases htick : c.keepaliveTick > 0
      · rw [sendNothing, if_neg (not_not.mpr hqueue), if_pos htick] at hstep
        obtain rfl := Option.some.inj hstep
        exact ⟨⟨q', hsteady', henough', h.nonzero, Nat.le_trans (Nat.sub_le _ _) h.tick⟩,
          .inl ⟨rfl, Nat.sub_add_cancel htick⟩⟩
      · obtain ⟨c₁, h₁, -, hempty, hnext, hwritten⟩ := pingreq_sent h.steady hqueue (by omega)
        obtain rfl := Option.some.inj (h₁.symm.trans hstep)
        refine ⟨⟨q', hsteady', henough', ?_, Nat.le_of_eq hnext⟩, .inr ⟨_, [], hwritten⟩⟩
        rw [hempty]
        exact fun n hn => absurd hn List.not_mem_nil
    · rw [sendNothing, if_pos hqueue] at hstep
      cases hstep

def counterBehind (cfg : ClientConfig) (id : UInt16) (calls : List Call) : UInt16 :=
  calls.foldl (fun id call => call.counter cfg id) id

theorem queuedParts_append (calls more : List Call) : queuedParts cfg id (calls ++ more) =
    queuedParts cfg id calls ++ queuedParts cfg (counterBehind cfg id calls) more := by
  induction calls generalizing id with
  | nil => rfl
  | cons call calls ih =>
    rw [List.cons_append, queuedParts, ih, queuedParts, List.append_assoc]
    rfl

theorem clientRun_alive (h : Alive cfg id q c) {calls : List Call}
    (hparts : ∀ part ∈ queuedParts cfg id calls, part ≠ none)
    (hrun : clientRun cfg c calls = some c') :
    (∃ q', Alive cfg (counterBehind cfg id calls) q' c') ∧ c.written <+: c'.written ∧
      (c'.written = c.written →
        calls.countP Call.isTimeout + c'.keepaliveTick = c.keepaliveTick) := by
  induction calls generalizing c id q with
  | nil =>
    obtain rfl := Option.some.inj hrun
    exact ⟨⟨q, h⟩, List.prefix_refl _, fun _ => Nat.zero_add _⟩
  | cons call calls ih =>
    obtain ⟨c₁, hstep, hrest⟩ := Option.bind_eq_some_iff.mp hrun
    rw [queuedParts] at hparts
    obtain ⟨⟨q₁, halive₁⟩, hcase⟩ := clientStep_alive h
      (fun part hp => hparts part (List.mem_append_left _ hp)) hstep
    obtain ⟨halive', hprefix, hsilent⟩ :=
      ih halive₁ (fun part hp => hparts part (List.mem_append_right _ hp)) hrest
    refine ⟨halive', ?_, fun hsame => ?_⟩
    · obtain ⟨hwritten, -⟩ | ⟨w, ws, hwritten⟩ := hcase
      · rwa [hwritten] at hprefix
      · exact (hwritten ▸ List.prefix_append _ _ : c.written <+: c₁.written).trans hprefix
    · obtain ⟨hwritten, htick⟩ | ⟨w, ws, hwritten⟩ := hcase
      · have := hsilent (hsame.trans hwritten.symm)
        rw [List.countP_cons]
        cases hcall : call.isTimeout
        · simp [hcall] at htick ⊢
          omega
        · simp [hcall] at htick ⊢
          omega
      · have := hprefix.length_le
        rw [hsame, hwritten, List.length_append, List.length_cons] at this
        omega

/-- The socket is never silent for longer than half the keepalive time, if every call had
something to send. -/
theorem silence_le {outBuffer ringMem : List UInt8} {calls more : List Call} {start : Client}
    (hout : outBuffer.length = cfg.bufferSize) (hring : ringMem.length = cfg.ringSize)
    (hstart : startClient cfg outBuffer ringMem = some start)
    (hparts : ∀ part ∈ queuedParts cfg 0 (calls ++ more), part ≠ none)
    (hrun : clientRun cfg start calls = some c) (hmore : clientRun cfg c more = some c')
    (hsilent : c'.written = c.written) : more.countP Call.isTimeout ≤ cfg.keepalive / 2 := by
  obtain ⟨hsteady, -, hqueue, htick⟩ := startClient_steady hout hring hstart
  have halive : Alive cfg 0 [] start := ⟨hsteady, by rw [hqueue]; exact Nat.le_refl _,
    by rw [hqueue]; exact fun n hn => absurd hn List.not_mem_nil, Nat.le_of_eq htick⟩
  rw [queuedParts_append] at hparts
  obtain ⟨⟨q', halive'⟩, -⟩ := clientRun_alive halive
    (fun part hp => hparts part (List.mem_append_left _ hp)) hrun
  obtain ⟨-, -, hcount⟩ := clientRun_alive halive'
    (fun part hp => hparts part (List.mem_append_right _ hp)) hmore
  have := hcount hsilent
  have := halive'.tick
  omega

/-- The ping comes with the second timeout. -/
theorem silence_le_sample : clientRun sampleConfig sampleClient [.timeout] =
      some { sampleClient with keepaliveTick := 0 } ∧
    [Call.timeout].countP Call.isTimeout ≤ sampleConfig.keepalive / 2 :=
  ⟨rfl, @silence_le sampleConfig sampleClient { sampleClient with keepaliveTick := 0 } _ _ [] _
    sampleClient List.length_replicate List.length_replicate startClient_sample
    (fun _ h => absurd h List.not_mem_nil) rfl rfl rfl⟩

end

end Esp32Project.Mqtt
