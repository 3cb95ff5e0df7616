import Esp32Project.Lib.Buffer
import Esp32Project.Mqtt.Packet
import Mathlib.Data.List.Basic

/-! Messages that mqtt_msg.c builds in the buffer of a connection. -/

set_option autoImplicit false

namespace Esp32Project.Mqtt
open Esp32Project.Lib

/-- mqtt_connection_t. `data` is the place in the buffer that `message.data` points to,
`buffer_length` is the length of the buffer. -/
structure Connection where
  data : Nat
  length : Nat
  messageId : UInt16
  buffer : List UInt8
  deriving DecidableEq, Repr

def mqttMaxFixedHeaderSize : Nat := 3

def Connection.append (c : Connection) (bytes : List UInt8) : Option Connection := do
  let buffer ← storeAll c.buffer c.length bytes
  return { c with buffer, length := c.length + bytes.length }

def twoBytes (n : Nat) : List UInt8 := [UInt8.ofNat (n >>> 8), UInt8.ofNat (n &&& 0xff)]

example : twoBytes 0x1234 = [0x12, 0x34] := by decide +kernel

/-- `false` is the result -1. -/
def appendString (c : Connection) (string : List UInt8) : Option (Connection × Bool) :=
  if c.length + string.length + 2 > c.buffer.length then return (c, false) else do
    let c ← c.append (twoBytes string.length)
    let c ← c.append string
    return (c, true)

/-- `message_id = ++connection->message_id`, once more where the counter wraps to 0. -/
def assignId (counter : UInt16) : UInt16 := if counter + 1 = 0 then counter + 2 else counter + 1

def appendMessageId (c : Connection) (messageId : UInt16) : Option (Connection × UInt16) :=
  let c := if messageId = 0 then { c with messageId := assignId c.messageId } else c
  let messageId := if messageId = 0 then c.messageId else messageId
  if c.length + 2 > c.buffer.length then return (c, 0) else do
    let c ← c.append (twoBytes messageId.toNat)
    return (c, messageId)

def initMessage (c : Connection) : Connection := { c with length := mqttMaxFixedHeaderSize }

def failMessage (c : Connection) : Connection := { c with data := 0, length := 0 }

def firstByte (type dup qos retain : Int) : UInt8 :=
  UInt8.ofNat ((type % 16).toNat <<< 4 ||| (dup % 2).toNat <<< 3 ||| (qos % 4).toNat <<< 1 |||
    (retain % 2).toNat)

def finiMessage (c : Connection) (type dup qos retain : Int) : Option Connection :=
  let remainingLength := c.length - mqttMaxFixedHeaderSize
  if remainingLength > 127 then do
    let buffer ← storeAll c.buffer 0 [firstByte type dup qos retain,
      UInt8.ofNat (0x80 ||| remainingLength % 128), UInt8.ofNat (remainingLength / 128)]
    return { c with buffer, data := 0, length := remainingLength + 3 }
  else do
    let buffer ← storeAll c.buffer 1 [firstByte type dup qos retain, UInt8.ofNat remainingLength]
    return { c with buffer, data := 1, length := remainingLength + 2 }

/-- The memset leaves `message.data` NULL, which no one reads before a message is built. -/
def mqttMsgInit (buffer : List UInt8) : Connection := ⟨0, 0, 0, buffer⟩

def Connection.message (c : Connection) : List UInt8 := (c.buffer.drop c.data).take c.length

/-! The message types of mqtt_msg.h. -/

def msgConnect : Int := 1
def msgPublish : Int := 3
def msgPuback : Int := 4
def msgPubrec : Int := 5
def msgPubrel : Int := 6
def msgPubcomp : Int := 7
def msgSubscribe : Int := 8
def msgUnsubscribe : Int := 10
def msgPingreq : Int := 12
def msgPingresp : Int := 13
def msgDisconnect : Int := 14

/-- What is stored to `*message_id`. -/
def publishId (c : Connection) (qos : Int) : Option (Connection × UInt16) :=
  if qos > 0 then appendMessageId c 0 else some (c, 0)

/-- The lines behind those on the identifier. -/
def publishData (c : Connection) (data : List UInt8) (qos retain : Int) : Option Connection :=
  if c.length + data.length > c.buffer.length then return failMessage c else do
    let c ← c.append data
    finiMessage c msgPublish 0 qos retain

/-- `*message_id` goes in and out. A topic that is NULL counts as an empty one. -/
def mqttMsgPublish (c : Connection) (topic data : List UInt8) (qos retain : Int)
    (messageId : UInt16) : Option (Connection × UInt16) := do
  let c := initMessage c
  if topic = [] then return (failMessage c, messageId) else do
    let (c, ok) ← appendString c topic
    if ok = false then return (failMessage c, messageId) else do
      let (c, messageId) ← publishId c qos
      if qos > 0 ∧ messageId = 0 then return (failMessage c, messageId) else do
        let c ← publishData c data qos retain
        return (c, messageId)

/-- mqtt_msg_puback, mqtt_msg_pubrec, mqtt_msg_pubrel and mqtt_msg_pubcomp. -/
def mqttMsgAck (type qos : Int) (c : Connection) (messageId : UInt16) : Option Connection := do
  let (c, id) ← appendMessageId (initMessage c) messageId
  if id = 0 then return failMessage c else finiMessage c type 0 qos 0

def mqttMsgPuback : Connection → UInt16 → Option Connection := mqttMsgAck msgPuback 0
def mqttMsgPubrec : Connection → UInt16 → Option Connection := mqttMsgAck msgPubrec 0
def mqttMsgPubrel : Connection → UInt16 → Option Connection := mqttMsgAck msgPubrel 1
def mqttMsgPubcomp : Connection → UInt16 → Option Connection := mqttMsgAck msgPubcomp 0

def mqttMsgSubscribe (c : Connection) (topic : List UInt8) (qos : Int) (messageId : UInt16) :
    Option (Connection × UInt16) := do
  let c := initMessage c
  if topic = [] then return (failMessage c, messageId) else do
    let (c, messageId) ← appendMessageId c 0
    if messageId = 0 then return (failMessage c, messageId) else do
      let (c, ok) ← appendString c topic
      if ok = false then return (failMessage c, messageId)
      else if c.length + 1 > c.buffer.length then return (failMessage c, messageId)
      else do
        let c ← c.append [UInt8.ofNat (qos % 256).toNat]
        let c ← finiMessage c msgSubscribe 0 1 0
        return (c, messageId)

def mqttMsgUnsubscribe (c : Connection) (topic : List UInt8) (messageId : UInt16) :
    Option (Connection × UInt16) := do
  let c := initMessage c
  if topic = [] then return (failMessage c, messageId) else do
    let (c, messageId) ← appendMessageId c 0
    if messageId = 0 then return (failMessage c, messageId) else do
      let (c, ok) ← appendString c topic
      if ok = false then return (failMessage c, messageId) else do
        let c ← finiMessage c msgUnsubscribe 0 1 0
        return (c, messageId)

/-! What `*message_id` was before does not go into a message. -/

theorem mqttMsgPublish_conn (c : Connection) (topic data : List UInt8) (qos retain : Int)
    (messageId : UInt16) : (mqttMsgPublish c topic data qos retain messageId).map Prod.fst =
      (mqttMsgPublish c topic data qos retain 0).map Prod.fst := by
  unfold mqttMsgPublish
  by_cases htopic : topic = []
  · simp [htopic]
  · cases hstring : appendString (initMessage c) topic with
    | none => simp [htopic, hstring]
    | some r => cases hok : r.2 <;> simp [htopic, hstring, hok]

theorem mqttMsgSubscribe_conn (c : Connection) (topic : List UInt8) (qos : Int)
    (messageId : UInt16) : (mqttMsgSubscribe c topic qos messageId).map Prod.fst =
      (mqttMsgSubscribe c topic qos 0).map Prod.fst := by
  unfold mqttMsgSubscribe
  by_cases htopic : topic = [] <;> simp [htopic]

theorem mqttMsgUnsubscribe_conn (c : Connection) (topic : List UInt8) (messageId : UInt16) :
    (mqttMsgUnsubscribe c topic messageId).map Prod.fst =
      (mqttMsgUnsubscribe c topic 0).map Prod.fst := by
  unfold mqttMsgUnsubscribe
  by_cases htopic : topic = [] <;> simp [htopic]

/-- mqtt_msg_pingreq, mqtt_msg_pingresp and mqtt_msg_disconnect. -/
def mqttMsgBare (type : Int) (c : Connection) : Option Connection :=
  finiMessage (initMessage c) type 0 0 0

def mqttMsgPingreq : Connection → Option Connection := mqttMsgBare msgPingreq
def mqttMsgPingresp : Connection → Option Connection := mqttMsgBare msgPingresp
def mqttMsgDisconnect : Connection → Option Connection := mqttMsgBare msgDisconnect

/-! What the builders leave behind the room for the fixed header. -/

/-- A packet of the protocol: its first byte, the remaining length, and so many bytes. -/
def packet (first : UInt8) (body : List UInt8) : List UInt8 :=
  first :: (varInt 3 body.length ++ body)

def field (string : List UInt8) : List UInt8 := twoBytes string.length ++ string

/-- A connection with a buffer of `cap` bytes and the counter `id`, `body` being built. -/
structure Holds (cap : Nat) (id : UInt16) (c : Connection) (body : List UInt8) : Prop where
  cap : c.buffer.length = cap
  id : c.messageId = id
  length : c.length = 3 + body.length
  buffer : ∃ header rest, header.length = 3 ∧ c.buffer = header ++ body ++ rest

structure Sends (cap : Nat) (id : UInt16) (c : Connection) (message : List UInt8) : Prop where
  cap : c.buffer.length = cap
  id : c.messageId = id
  message : c.message = message

variable {cap : Nat} {id : UInt16} {c : Connection} {body : List UInt8}

@[simp] theorem twoBytes_length (n : Nat) : (twoBytes n).length = 2 := rfl

@[simp] theorem field_length (string : List UInt8) : (field string).length = string.length + 2 := by
  rw [field, List.length_append, twoBytes_length, Nat.add_comm]

theorem initMessage_holds (hc : c.buffer.length = cap) (hid : c.messageId = id) (hcap : 3 ≤ cap) :
    Holds cap id (initMessage c) [] :=
  ⟨hc, hid, rfl, c.buffer.take 3, c.buffer.drop 3, List.length_take_of_le (hc ▸ hcap), by
    simp [initMessage]⟩

theorem Holds.within (h : Holds cap id c body) : 3 + body.length ≤ cap := by
  obtain ⟨hcap, -, -, header, rest, hheader, hbuffer⟩ := h
  have := congrArg List.length hbuffer
  simp only [List.length_append] at this
  omega

theorem Holds.append (h : Holds cap id c body) (bytes : List UInt8)
    (hfits : 3 + body.length + bytes.length ≤ cap) :
    ∃ c', c.append bytes = some c' ∧ Holds cap id c' (body ++ bytes) := by
  obtain ⟨hcap, hid, hlen, header, rest, hheader, hbuffer⟩ := h
  have hrest : bytes.length ≤ rest.length := by
    have := congrArg List.length hbuffer
    simp only [List.length_append] at this
    omega
  have hsplit : c.buffer = header ++ body ++ rest.take bytes.length ++ rest.drop bytes.length := by
    rw [List.append_assoc, List.take_append_drop, hbuffer]
  have hfront : c.length = (header ++ body).length := by
    rw [hlen, List.length_append, hheader]
  have hstore : storeAll c.buffer c.length bytes =
      some (header ++ body ++ bytes ++ rest.drop bytes.length) := by
    rw [hsplit, hfront]
    exact storeAll_of_fits _ _ (List.length_take_of_le hrest).symm
  refine ⟨{ c with
    buffer := header ++ body ++ bytes ++ rest.drop bytes.length
    length := c.length + bytes.length }, ?_, ?_, hid, ?_, header, rest.drop bytes.length, hheader,
      ?_⟩
  · rw [Connection.append, hstore]
    rfl
  · rw [← hcap, hbuffer]
    simp only [List.length_append, List.length_drop]
    omega
  · simp only [hlen, List.length_append, Nat.add_assoc]
  · simp only [List.append_assoc]

theorem appendString_holds (h : Holds cap id c body) (string : List UInt8) :
    if 3 + body.length + (field string).length ≤ cap then
      ∃ c', appendString c string = some (c', true) ∧ Holds cap id c' (body ++ field string)
    else appendString c string = some (c, false) := by
  have hlen := h.length
  have hcap := h.cap
  rw [field_length]
  split
  next hfits =>
    obtain ⟨c₁, h₁, hold₁⟩ := h.append (twoBytes string.length) (by simp; omega)
    obtain ⟨c₂, h₂, hold₂⟩ := hold₁.append string (by simp; omega)
    refine ⟨c₂, ?_, by rwa [List.append_assoc] at hold₂⟩
    rw [appendString, if_neg (by omega), h₁]
    simp [h₂]
  next hfull =>
    rw [appendString, if_pos (by omega)]
    rfl

theorem assignId_ne_zero (counter : UInt16) : assignId counter ≠ 0 := by
  unfold assignId
  split
  next h =>
    intro h'
    have : counter + 2 = counter + 1 := h'.trans h.symm
    simp at this
  next h => exact h

/-- The identifier and the counter behind a request for `messageId`. -/
def givenId (counter messageId : UInt16) : UInt16 :=
  if messageId = 0 then assignId counter else messageId

theorem givenId_ne_zero (counter messageId : UInt16) : givenId counter messageId ≠ 0 := by
  unfold givenId
  split
  · exact assignId_ne_zero counter
  · assumption

def counterAfter (counter messageId : UInt16) : UInt16 :=
  if messageId = 0 then assignId counter else counter

theorem appendMessageId_holds (h : Holds cap id c body) (messageId : UInt16) :
    if 3 + body.length + 2 ≤ cap then
      ∃ c', appendMessageId c messageId = some (c', givenId id messageId) ∧
        Holds cap (counterAfter id messageId) c' (body ++ twoBytes (givenId id messageId).toNat)
    else ∃ c', appendMessageId c messageId = some (c', 0) ∧
      Holds cap (counterAfter id messageId) c' body := by
  have hlen := h.length
  have hcap := h.cap
  obtain ⟨c₁, hc₁, hold⟩ : ∃ c₁, (if messageId = 0 then { c with messageId := assignId c.messageId }
      else c) = c₁ ∧ Holds cap (counterAfter id messageId) c₁ body := by
    refine ⟨_, rfl, ?_⟩
    unfold counterAfter
    split
    · exact ⟨h.cap, congrArg assignId h.id, h.length, h.buffer⟩
    · exact h
  have hid : (if messageId = 0 then c₁.messageId else messageId) = givenId id messageId := by
    rw [hold.id, counterAfter, givenId]
    split <;> rfl
  have hlen₁ := hold.length
  have hcap₁ := hold.cap
  simp only [appendMessageId, hc₁, hid]
  split
  next hfits =>
    obtain ⟨c₂, h₂, hold₂⟩ := hold.append (twoBytes (givenId id messageId).toNat)
      (by simp; omega)
    refine ⟨c₂, ?_, hold₂⟩
    rw [if_neg (by omega), h₂]
    rfl
  next hfull =>
    refine ⟨c₁, ?_, hold⟩
    rw [if_pos (by omega)]
    rfl

theorem failMessage_sends (h : Holds cap id c body) : Sends cap id (failMessage c) [] :=
  ⟨h.cap, h.id, List.take_zero⟩

theorem finiMessage_sends (h : Holds cap id c body) (hbody : body.length < 128 ^ 2)
    (type dup qos retain : Int) : ∃ c', finiMessage c type dup qos retain = some c' ∧
      Sends cap id c' (packet (firstByte type dup qos retain) body) := by
  obtain ⟨hcap, hid, hlen, header, rest, hheader, hbuffer⟩ := h
  have hremaining : c.length - mqttMaxFixedHeaderSize = body.length := by
    rw [hlen, mqttMaxFixedHeaderSize, Nat.add_sub_cancel_left]
  obtain ⟨h₀, h₁, h₂, rfl⟩ : ∃ h₀ h₁ h₂, header = [h₀, h₁, h₂] :=
    List.length_eq_three.mp hheader
  simp only [finiMessage, hremaining]
  by_cases hlarge : body.length > 127
  · have hbyte : 0x80 ||| body.length % 128 = body.length % 128 + 128 := by
      have hdigit : body.length % 128 < 2 ^ 7 := Nat.mod_lt _ (by decide)
      rw [Nat.add_comm]
      exact (Nat.two_pow_add_eq_or_of_lt hdigit 1).symm
    have hstore : storeAll ([] ++ [h₀, h₁, h₂] ++ (body ++ rest)) ([] : List UInt8).length
        [firstByte type dup qos retain, UInt8.ofNat (0x80 ||| body.length % 128),
          UInt8.ofNat (body.length / 128)] = _ := storeAll_of_fits [] (body ++ rest) rfl
    simp only [List.nil_append, List.length_nil, ← List.append_assoc] at hstore
    rw [if_pos hlarge, hbuffer, hstore]
    refine ⟨_, rfl, ?_, hid, ?_⟩
    · rw [← hcap, hbuffer]
      simp
    · simp only [Connection.message, packet, varInt_large _ (show 128 ≤ body.length by omega),
        varInt_small _ (show body.length / 128 < 128 by omega), hbyte]
      simp
  · have hstore : storeAll ([h₀] ++ [h₁, h₂] ++ (body ++ rest)) [h₀].length
        [firstByte type dup qos retain, UInt8.ofNat body.length] = _ :=
      storeAll_of_fits [h₀] (body ++ rest) rfl
    simp only [List.singleton_append, List.length_singleton, ← List.append_assoc] at hstore
    rw [if_neg hlarge, hbuffer, show [h₀, h₁, h₂] = h₀ :: [h₁, h₂] by rfl, hstore]
    refine ⟨_, rfl, ?_, hid, ?_⟩
    · rw [← hcap, hbuffer]
      simp
    · simp only [Connection.message, packet, varInt_small _ (show body.length < 128 by omega)]
      simp

end Esp32Project.Mqtt
