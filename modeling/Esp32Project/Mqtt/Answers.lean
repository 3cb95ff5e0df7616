import Esp32Project.Mqtt.Outbox

/-!
The answers of `mqtt_start_receive_schedule` to what a broker sends. The
identifier is looked for in the whole of `in_buffer`, whose end is what earlier
messages left there. A packet is dealt with before the next call or round begins.
-/

set_option autoImplicit false

namespace Esp32Project.Mqtt
open Esp32Project.Lib

/-- The request that the switch queues, if there is one. -/
def answerTo (type qos : UInt8) (msgId : UInt16) : Option { r : Outgoing // r.queued = true } :=
  if type = 3 then
    if qos = 1 then some ⟨.puback msgId, rfl⟩
    else if qos = 2 then some ⟨.pubrec msgId, rfl⟩
    else none
  else if type = 5 then some ⟨.pubrel msgId, rfl⟩
  else if type = 6 then some ⟨.pubcomp msgId, rfl⟩
  else if type = 12 then some ⟨.pingresp, rfl⟩
  else none

/-- A pass of the receive loop, `deliver_publish` apart, with whether `subscribe_cb` is called. -/
def receivePass (cfg : ClientConfig) (c : Client) (inBuffer : List UInt8) :
    Option (Client × Bool) := do
  let first ← inBuffer[0]?
  let msgId ← mqttGetId inBuffer cfg.bufferSize
  let subscribed := mqttGetType first = 9 ∧ c.pendingMsgType = 8 ∧ c.pendingMsgId = msgId
  match answerTo (mqttGetType first) (mqttGetQos first) (UInt16.ofNat msgId) with
  | none => return (c, subscribed)
  | some r => do
    let c ← clientStep cfg c (.queue r)
    return (c, subscribed)

inductive Incoming where
  | publish (s : Shape) (payload : s.Payload)
  | puback (id : UInt16)
  | pubrec (id : UInt16)
  | pubrel (id : UInt16)
  | pubcomp (id : UInt16)
  | unsuback (id : UInt16)
  | suback (id : UInt16) (code : UInt8)
  | pingreq
  | pingresp

def Incoming.bytes : Incoming → List UInt8
  | .publish s payload => s.encode payload
  | .puback id => packet 0x40 (twoBytes id.toNat)
  | .pubrec id => packet 0x50 (twoBytes id.toNat)
  | .pubrel id => packet 0x62 (twoBytes id.toNat)
  | .pubcomp id => packet 0x70 (twoBytes id.toNat)
  | .unsuback id => packet 0xb0 (twoBytes id.toNat)
  | .suback id code => packet 0x90 (twoBytes id.toNat ++ [code])
  | .pingreq => packet 0xc0 []
  | .pingresp => packet 0xd0 []

/-- What is queued. The identifier of a PUBLISH is missed where the payload begins at the end of
`in_buffer`. -/
def Incoming.asked (cfg : ClientConfig) : Incoming → Option { r : Outgoing // r.queued = true }
  | .publish s _ =>
    let id := if s.headerEnd < cfg.bufferSize then s.id else 0
    if s.qos.val = 1 then some ⟨.puback id, rfl⟩
    else if s.qos.val = 2 then some ⟨.pubrec id, rfl⟩
    else none
  | .pubrec id => some ⟨.pubrel id, rfl⟩
  | .pubrel id => some ⟨.pubcomp id, rfl⟩
  | .pingreq => some ⟨.pingresp, rfl⟩
  | .puback _ | .pubcomp _ | .unsuback _ | .suback _ _ | .pingresp => none

/-- A packet in `in_buffer` after a read of `readLen` of its bytes: a PUBLISH up to its payload at
least, the others whole. -/
structure Arrival (cfg : ClientConfig) where
  packet : Incoming
  readLen : Nat
  stale : List UInt8
  needed : (match packet with
    | .publish s _ => s.headerEnd
    | _ => packet.bytes.length) ≤ readLen
  size : (packet.bytes.take readLen ++ stale).length = cfg.bufferSize

def Arrival.inBuffer {cfg : ClientConfig} (a : Arrival cfg) : List UInt8 :=
  a.packet.bytes.take a.readLen ++ a.stale

theorem ackId_found {first : UInt8} {id : UInt16} {len : Nat} (hfirst : mqttGetType first ≠ 3)
    (htype : mqttGetType first ∈ shortIdTypes) (hlen : 4 ≤ len) (n : UInt8) (hn : n &&& 0x80 = 0)
    (rest : List UInt8) :
    mqttGetId (first :: n :: (twoBytes id.toNat ++ rest)) len = some id.toNat := by
  obtain ⟨hi, lo, htwo, hvalue⟩ := twoBytes_value id.toNat_lt
  have hget := topicLen_append [first, n] hi lo rest
  rw [mqttGetId, if_neg (by omega), List.getElem?_cons_zero, Option.bind_eq_bind, Option.bind_some,
    if_neg hfirst, if_pos htype, if_pos hlen, List.getElem?_cons_succ, List.getElem?_cons_zero,
    Option.bind_some, if_pos hn, htwo, ← hvalue]
  exact hget

theorem Shape.qos_eq (s : Shape) : mqttGetQos s.first = UInt8.ofNat s.qos := by
  have all : ∀ (d r : Bool) (q : Fin 3),
      mqttGetQos (UInt8.ofNat (48 + 8 * d.toNat + 2 * q + r.toNat)) = UInt8.ofNat q := by decide
  exact all s.dup s.retain s.qos

section

variable {cfg : ClientConfig} {c : Client}

theorem receivePass_of {inBuffer : List UInt8} (first : UInt8) (n : Nat)
    {asked : Option { r : Outgoing // r.queued = true }} (hfirst : inBuffer[0]? = some first)
    (hid : mqttGetId inBuffer cfg.bufferSize = some n)
    (hasked : answerTo (mqttGetType first) (mqttGetQos first) (UInt16.ofNat n) = asked) :
    ∃ subscribed, receivePass cfg c inBuffer =
      match asked with
      | none => some (c, subscribed)
      | some r => (clientStep cfg c (.queue r)).map fun c => (c, subscribed) := by
  refine ⟨decide (mqttGetType first = 9 ∧ c.pendingMsgType = 8 ∧ c.pendingMsgId = n), ?_⟩
  simp only [receivePass, hfirst, hid, hasked, Option.bind_eq_bind, Option.bind_some]
  cases asked with
  | none => rfl
  | some r => exact (Option.map_eq_bind ..).symm

theorem receivePass_ack {first : UInt8} {id : UInt16} (rest : List UInt8) {stale : List UInt8}
    {readLen : Nat} {asked : Option { r : Outgoing // r.queued = true }} (hrest : rest.length < 100)
    (hread : (packet first (twoBytes id.toNat ++ rest)).length ≤ readLen)
    (htype : mqttGetType first ≠ 3) (hshort : mqttGetType first ∈ shortIdTypes)
    (hasked : answerTo (mqttGetType first) (mqttGetQos first) id = asked) :
    ∃ subscribed,
      receivePass cfg c ((packet first (twoBytes id.toNat ++ rest)).take readLen ++ stale) =
      match asked with
      | none => some (c, subscribed)
      | some r => (clientStep cfg c (.queue r)).map fun c => (c, subscribed) := by
  have hsize := cfg.bufferSize_ge
  have hlen : (twoBytes id.toNat ++ rest).length = rest.length + 2 := by
    rw [List.length_append, twoBytes_length, Nat.add_comm]
  have hpacket : packet first (twoBytes id.toNat ++ rest) ++ stale =
      first :: UInt8.ofNat (rest.length + 2) :: (twoBytes id.toNat ++ (rest ++ stale)) := by
    rw [packet, varInt_small 3 (by omega), hlen]
    simp
  rw [List.take_of_length_le hread, hpacket]
  have hmark := (last_byte (show rest.length + 2 < 128 by omega)).2
  refine receivePass_of first id.toNat rfl (ackId_found htype hshort (by omega) _ hmark _) ?_
  rwa [UInt16.ofNat_toNat]

/-- The pass of the receive loop is a call with what is asked for, or nothing. -/
theorem receivePass_arrival (a : Arrival cfg) : ∃ subscribed, receivePass cfg c a.inBuffer =
    match a.packet.asked cfg with
    | none => some (c, subscribed)
    | some r => (clientStep cfg c (.queue r)).map fun c => (c, subscribed) := by
  obtain ⟨packet, readLen, stale, hneeded, hsize⟩ := a
  have hge := cfg.bufferSize_ge
  cases packet with
  | publish s payload =>
    have hfirst : ((s.encode payload).take readLen ++ stale)[0]? = some s.first := by
      obtain ⟨rest, hrest⟩ := s.take_encode payload hneeded
      rw [hrest]
      rfl
    refine receivePass_of s.first _ hfirst
      (s.id_found payload hneeded (Nat.le_trans s.topicStart_le (by omega)) stale) ?_
    have level : ∀ q : Fin 3, (UInt8.ofNat q = 1 ↔ q.val = 1) ∧ (UInt8.ofNat q = 2 ↔ q.val = 2) ∧
        (q.val ≠ 0 → q ≠ 0) := by decide
    obtain ⟨hone, htwo, hzero⟩ := level s.qos
    have hid (h : s.qos.val ≠ 0) : UInt16.ofNat
        (if s.qos = 0 ∨ cfg.bufferSize ≤ s.headerEnd then 0 else s.id.toNat) =
          if s.headerEnd < cfg.bufferSize then s.id else 0 := by
      by_cases hlt : s.headerEnd < cfg.bufferSize
      · rw [if_neg (by simp [hzero h, hlt]), if_pos hlt, UInt16.ofNat_toNat]
      · rw [if_pos (.inr (Nat.le_of_not_lt hlt)), if_neg hlt]
        rfl
    simp only [s.type_eq, s.qos_eq, answerTo, Incoming.asked, hone, htwo, if_true]
    by_cases h1 : s.qos.val = 1
    · simp only [h1, if_true]
      simp only [hid (by omega)]
    · by_cases h2 : s.qos.val = 2
      · simp only [if_neg h1, if_pos h2]
        simp only [hid (by omega)]
      · rw [if_neg h1, if_neg h2, if_neg h1, if_neg h2]
  | puback id =>
    exact receivePass_ack [] (by decide) hneeded (by decide) (by decide) rfl
  | pubrec id =>
    exact receivePass_ack [] (by decide) hneeded (by decide) (by decide) rfl
  | pubrel id =>
    exact receivePass_ack [] (by decide) hneeded (by decide) (by decide) rfl
  | pubcomp id =>
    exact receivePass_ack [] (by decide) hneeded (by decide) (by decide) rfl
  | unsuback id =>
    exact receivePass_ack [] (by decide) hneeded (by decide) (by decide) rfl
  | suback id code =>
    exact receivePass_ack [code] (by simp) hneeded (by decide) (by decide) rfl
  | pingreq =>
    rw [Arrival.inBuffer, List.take_of_length_le hneeded]
    refine receivePass_of 0xc0 0 rfl ?_ rfl
    rw [mqttGetId, if_neg (by omega)]
    rfl
  | pingresp =>
    rw [Arrival.inBuffer, List.take_of_length_le hneeded]
    refine receivePass_of 0xd0 0 rfl ?_ rfl
    rw [mqttGetId, if_neg (by omega)]
    rfl

end

/-- What happens to a client: a call of a Lua function or of the sending task, or a packet. -/
inductive ClientEvent (cfg : ClientConfig) where
  | call (call : Call)
  | arrive (arrival : Arrival cfg)

def eventStep (cfg : ClientConfig) (c : Client) : ClientEvent cfg → Option Client
  | .call call => clientStep cfg c call
  | .arrive a => (receivePass cfg c a.inBuffer).map Prod.fst

def eventRun (cfg : ClientConfig) : Client → List (ClientEvent cfg) → Option Client
  | c, [] => some c
  | c, event :: events => (eventStep cfg c event).bind (eventRun cfg · events)

def ClientEvent.calls {cfg : ClientConfig} : ClientEvent cfg → List Call
  | .call own => [own]
  | .arrive a => (a.packet.asked cfg).toList.map Call.queue

theorem clientRun_single {cfg : ClientConfig} (c : Client) (call : Call) :
    clientRun cfg c [call] = clientStep cfg c call := by
  rw [clientRun]
  cases clientStep cfg c call <;> rfl

theorem eventRun_eq {cfg : ClientConfig} (c : Client) (events : List (ClientEvent cfg)) :
    eventRun cfg c events = clientRun cfg c (events.flatMap ClientEvent.calls) := by
  induction events generalizing c with
  | nil => rfl
  | cons event events ih =>
    have hstep : eventStep cfg c event = clientRun cfg c event.calls := by
      cases event with
      | call call => exact (clientRun_single c call).symm
      | arrive a =>
        obtain ⟨subscribed, hpass⟩ := receivePass_arrival (c := c) a
        rw [eventStep, hpass, ClientEvent.calls]
        cases a.packet.asked cfg with
        | none => rfl
        | some r =>
          rw [Option.map_map, Option.toList_some, List.map_singleton, clientRun_single]
          exact Option.map_id'
    rw [List.flatMap_cons, clientRun_append, eventRun, hstep]
    congr 1
    funext c₁
    exact ih c₁

def answerBytes : List UInt8 := [0x40, 0x50, 0x62, 0x70, 0xd0]

/-- The answer that the protocol asks for. -/
def Incoming.due : Incoming → Option (UInt8 × List UInt8)
  | .publish s _ =>
    if s.qos.val = 1 then some (0x40, twoBytes s.id.toNat)
    else if s.qos.val = 2 then some (0x50, twoBytes s.id.toNat)
    else none
  | .pubrec id => some (0x62, twoBytes id.toNat)
  | .pubrel id => some (0x70, twoBytes id.toNat)
  | .pingreq => some (0xd0, [])
  | .puback _ | .pubcomp _ | .unsuback _ | .suback _ _ | .pingresp => none

/-- No identifier is 0, and that of a PUBLISH is found. -/
def Incoming.Regular (cfg : ClientConfig) : Incoming → Prop
  | .publish s _ => s.qos.val ≠ 0 → s.id ≠ 0 ∧ s.headerEnd < cfg.bufferSize
  | .pubrec id | .pubrel id => id ≠ 0
  | .puback _ | .pubcomp _ | .unsuback _ | .suback _ _ | .pingreq | .pingresp => True

def Call.Own : Call → Prop
  | .queue r => (∃ topic data qos retain, r.1 = .publish topic data qos retain) ∨
      ∃ topic qos, r.1 = .subscribe topic qos
  | .unsubscribe _ | .send | .timeout => True

def ClientEvent.Regular {cfg : ClientConfig} : ClientEvent cfg → Prop
  | .call own => own.Own
  | .arrive a => a.packet.Regular cfg

def ClientEvent.due {cfg : ClientConfig} : ClientEvent cfg → Option (UInt8 × List UInt8)
  | .call _ => none
  | .arrive a => a.packet.due

section

variable {cfg : ClientConfig}

theorem givenId_of_ne {counter id : UInt16} (h : id ≠ 0) : givenId counter id = id := if_neg h

theorem fitting_short {first : UInt8} {body : List UInt8} (h : body.length ≤ 2) :
    fitting cfg.bufferSize (some (first, body)) = some (first, body) := by
  have hge := cfg.bufferSize_ge
  rw [fitting, Option.filter_some, if_pos]
  simp only [decide_eq_true_eq]
  omega

theorem own_answers {id : UInt16} {call : Call} (h : call.Own) :
    ((queuedParts cfg id [call]).reduceOption.filter fun part => part.1 ∈ answerBytes) = [] := by
  have none_of {part : Option (UInt8 × List UInt8)}
      (hpart : ∀ p, part = some p → p.1 ∉ answerBytes) :
      (([fitting cfg.bufferSize part] ++ []).reduceOption.filter
        fun p : UInt8 × List UInt8 => p.1 ∈ answerBytes) = [] := by
    cases hfit : fitting cfg.bufferSize part with
    | none => rfl
    | some p =>
      have hp := hpart p (Option.filter_eq_some_iff.mp hfit).1
      simp [List.reduceOption, hp]
  have publish (q : Fin 4) (t : Fin 2) : UInt8.ofNat ((msgPublish % 16).toNat <<< 4 |||
      ((0 : Int) % 2).toNat <<< 3 ||| q.val <<< 1 ||| t.val) ∉ answerBytes := by
    revert q t
    decide
  cases call with
  | queue r =>
    obtain ⟨r, hr⟩ := r
    obtain ⟨topic, data, qos, retain, rfl⟩ | ⟨topic, qos, rfl⟩ := h
    · refine none_of fun p hp => ?_
      simp only [Outgoing.parts] at hp
      split at hp
      · cases hp
      · obtain rfl := Option.some.inj hp
        exact publish ⟨(qos % 4).toNat, by omega⟩ ⟨(retain % 2).toNat, by omega⟩
    · refine none_of fun p hp => ?_
      simp only [Outgoing.parts] at hp
      split at hp
      · cases hp
      · obtain rfl := Option.some.inj hp
        exact (by decide : (0x82 : UInt8) ∉ answerBytes)
  | unsubscribe topic => rfl
  | send => rfl
  | timeout => rfl

theorem arrival_answers {id : UInt16} {packet : Incoming} (h : packet.Regular cfg) :
    ((queuedParts cfg id ((packet.asked cfg).toList.map Call.queue)).reduceOption.filter
      fun part => part.1 ∈ answerBytes) = packet.due.toList := by
  have one {r : { r : Outgoing // r.queued = true }} {first : UInt8} {body : List UInt8}
      (hparts : r.1.parts cfg.protocol id = some (first, body)) (hfirst : first ∈ answerBytes)
      (hbody : body.length ≤ 2) :
      ((queuedParts cfg id ((some r).toList.map Call.queue)).reduceOption.filter
        fun part => part.1 ∈ answerBytes) = (some (first, body)).toList := by
    rw [Option.toList_some, List.map_singleton, queuedParts, Call.parts, hparts,
      fitting_short hbody]
    simp [queuedParts, List.reduceOption, hfirst]
  cases packet with
  | publish s payload =>
    simp only [Incoming.asked, Incoming.due]
    by_cases h1 : s.qos.val = 1
    · obtain ⟨hid, hend⟩ := h (by omega)
      rw [if_pos h1, if_pos h1, if_pos hend]
      exact one (by rw [Outgoing.parts, givenId_of_ne hid]) (by decide) (Nat.le_refl 2)
    · by_cases h2 : s.qos.val = 2
      · obtain ⟨hid, hend⟩ := h (by omega)
        rw [if_neg h1, if_neg h1, if_pos h2, if_pos h2, if_pos hend]
        exact one (by rw [Outgoing.parts, givenId_of_ne hid]) (by decide) (Nat.le_refl 2)
      · rw [if_neg h1, if_neg h1, if_neg h2, if_neg h2]
        rfl
  | pubrec m => exact one (by rw [Outgoing.parts, givenId_of_ne h]) (by decide) (Nat.le_refl 2)
  | pubrel m => exact one (by rw [Outgoing.parts, givenId_of_ne h]) (by decide) (Nat.le_refl 2)
  | pingreq => exact one rfl (by decide) (Nat.zero_le 2)
  | puback | pubcomp | unsuback | suback | pingresp => rfl

theorem events_answers {id : UInt16} {events : List (ClientEvent cfg)}
    (h : ∀ e ∈ events, e.Regular) :
    ((queuedParts cfg id (events.flatMap ClientEvent.calls)).reduceOption.filter
      fun part => part.1 ∈ answerBytes) = events.filterMap ClientEvent.due := by
  induction events generalizing id with
  | nil => rfl
  | cons event events ih =>
    have hone : ((queuedParts cfg id event.calls).reduceOption.filter
        fun part => part.1 ∈ answerBytes) = event.due.toList := by
      have hevent := h event List.mem_cons_self
      cases event with
      | call own => exact own_answers hevent
      | arrive a => exact arrival_answers hevent
    rw [List.flatMap_cons, queuedParts_append, List.reduceOption_append, List.filter_append, hone,
      ih fun e he => h e (List.mem_cons_of_mem _ he)]
    cases hdue : event.due <;> simp [hdue]

/-- Every packet that asks for an answer is answered once, in order and with its identifier, and
nothing else is answered; the answers that are not on the socket yet are in the queue. -/
theorem eventRun_answers {outBuffer ringMem : List UInt8} {c c' : Client}
    {events : List (ClientEvent cfg)} (hout : outBuffer.length = cfg.bufferSize)
    (hring : ringMem.length = cfg.ringSize) (hstart : startClient cfg outBuffer ringMem = some c)
    (hevents : ∀ e ∈ events, e.Regular)
    (hslots : Along (clientStep cfg) (fun c call => call.hasSlot c) c
      (events.flatMap ClientEvent.calls))
    (hrun : eventRun cfg c events = some c') : ∃ ps waiting,
      readStream readPacket (c'.written.flatMap Write.bytes) = some ps ∧
      waiting.length ≤ c'.xSendingQueue.length ∧
      (ps.filter fun part => part.1 ∈ answerBytes) ++ waiting =
        events.filterMap ClientEvent.due := by
  rw [eventRun_eq] at hrun
  obtain ⟨ps, done, pending, hread, hparts, hlength, hpings, -⟩ :=
    clientRun_packets hout hring hstart hslots hrun
  refine ⟨ps, pending.reduceOption.filter fun part => part.1 ∈ answerBytes, hread, ?_, ?_⟩
  · calc _ ≤ pending.reduceOption.length := List.length_filter_le _ _
      _ ≤ pending.length := List.reduceOption_length_le _
      _ = c'.xSendingQueue.length := hlength
  · have hsame : (ps.filter fun part => part.1 ∈ answerBytes) =
        (ps.filter fun part => part ≠ pingPart).filter fun part => part.1 ∈ answerBytes := by
      rw [List.filter_filter]
      refine List.filter_congr fun part _ => ?_
      by_cases hping : part = pingPart
      · subst hping
        decide
      · simp [hping]
    rw [hsame, hpings, ← List.filter_append, ← List.reduceOption_append, ← hparts,
      events_answers hevents]

end

theorem confirmed_fits : 2 + [(0x75 : UInt8)].length + 2 + 1 < 128 ^ 4 := by decide

def confirmedShape : Shape := ⟨false, false, ⟨1, by decide⟩, [0x75], 7, 1, by decide,
  confirmed_fits⟩

def confirmedPublish : Incoming := .publish confirmedShape ⟨[0x31], rfl⟩

theorem confirmedPublish_size :
    (confirmedPublish.bytes.take 8 ++ List.replicate 120 0).length = sampleConfig.bufferSize := by
  rw [List.length_append, List.length_replicate]
  rfl

def sampleArrival : Arrival sampleConfig :=
  ⟨confirmedPublish, 8, List.replicate 120 0, by decide, confirmedPublish_size⟩

theorem confirmedPublish_regular : confirmedPublish.Regular sampleConfig :=
  fun _ => ⟨by decide, by decide⟩

def sampleEvents : List (ClientEvent sampleConfig) := [.arrive sampleArrival, .call .send]

theorem sampleEvents_regular : ∀ e ∈ sampleEvents, e.Regular :=
  List.forall_mem_cons.mpr ⟨confirmedPublish_regular, List.forall_mem_singleton.mpr trivial⟩

theorem eventRun_answers_sample : ∃ c' ps waiting,
    eventRun sampleConfig sampleClient sampleEvents = some c' ∧
      readStream readPacket (c'.written.flatMap Write.bytes) = some ps ∧
      waiting.length ≤ c'.xSendingQueue.length ∧
      (ps.filter fun part => part.1 ∈ answerBytes) ++ waiting = [(0x40, [0, 7])] := by
  obtain ⟨c', hrun⟩ : ∃ c', eventRun sampleConfig sampleClient sampleEvents = some c' :=
    Option.isSome_iff_exists.mp (by decide +kernel)
  obtain ⟨t, ht⟩ : ∃ t, runScript (clientStep sampleConfig) (fun c call => decide (call.hasSlot c))
      sampleClient (sampleEvents.flatMap ClientEvent.calls) = some t :=
    Option.isSome_iff_exists.mp (by decide +kernel)
  obtain ⟨ps, waiting, h⟩ := eventRun_answers List.length_replicate List.length_replicate
    startClient_sample sampleEvents_regular (along_of_script (fun _ _ => of_decide_eq_true) ht) hrun
  exact ⟨c', ps, waiting, hrun, h⟩

end Esp32Project.Mqtt
