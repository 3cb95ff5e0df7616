import Esp32Project.Mqtt.Connect

/-!
Runs of builder calls on one connection. Of all that the connection keeps
between two calls, only the counter of the message identifiers matters.
-/

set_option autoImplicit false

namespace Esp32Project.Mqtt
open Esp32Project.Lib

inductive Outgoing where
  | connect (info : ConnectInfo)
  | publish (topic data : List UInt8) (qos retain : Int)
  | subscribe (topic : List UInt8) (qos : Int)
  | unsubscribe (topic : List UInt8)
  | puback (id : UInt16)
  | pubrec (id : UInt16)
  | pubrel (id : UInt16)
  | pubcomp (id : UInt16)
  | pingreq
  | pingresp
  | disconnect

/-- The value `*message_id` has before the call is of no consequence. -/
def build (p : Protocol) (c : Connection) : Outgoing → Option Connection
  | .connect info => mqttMsgConnect p c info
  | .publish topic data qos retain => (mqttMsgPublish c topic data qos retain 0).map Prod.fst
  | .subscribe topic qos => (mqttMsgSubscribe c topic qos 0).map Prod.fst
  | .unsubscribe topic => (mqttMsgUnsubscribe c topic 0).map Prod.fst
  | .puback id => mqttMsgPuback c id
  | .pubrec id => mqttMsgPubrec c id
  | .pubrel id => mqttMsgPubrel c id
  | .pubcomp id => mqttMsgPubcomp c id
  | .pingreq => mqttMsgPingreq c
  | .pingresp => mqttMsgPingresp c
  | .disconnect => mqttMsgDisconnect c

/-- The messages of a run, each as it is when its builder returns. -/
def buildAll (p : Protocol) : Connection → List Outgoing → Option (List (List UInt8))
  | _, [] => some []
  | c, r :: rs => do
    let c ← build p c r
    return c.message :: (← buildAll p c rs)

/-! The same from the counter alone. -/

def Outgoing.counter (cap : Nat) (id : UInt16) : Outgoing → UInt16
  | .publish topic _ qos _ =>
    if topic ≠ [] ∧ 3 + (field topic).length ≤ cap ∧ qos > 0 then assignId id else id
  | .subscribe topic _ | .unsubscribe topic => if topic ≠ [] then assignId id else id
  | .puback m | .pubrec m | .pubrel m | .pubcomp m => counterAfter id m
  | .connect _ | .pingreq | .pingresp | .disconnect => id

/-- The first byte and the body of what is asked for, if the strings that must not be empty are
not. -/
def Outgoing.parts (p : Protocol) (id : UInt16) : Outgoing → Option (UInt8 × List UInt8)
  | .connect info => if info.clientId = [] then none else some (0x10, info.body p)
  | .publish topic data qos retain =>
    if topic = [] then none
    else some (firstByte msgPublish 0 qos retain,
      field topic ++ (if qos > 0 then twoBytes (assignId id).toNat else []) ++ data)
  | .subscribe topic qos =>
    if topic = [] then none
    else some (0x82, twoBytes (assignId id).toNat ++ field topic ++ [UInt8.ofNat (qos % 256).toNat])
  | .unsubscribe topic =>
    if topic = [] then none else some (0xa2, twoBytes (assignId id).toNat ++ field topic)
  | .puback m => some (0x40, twoBytes (givenId id m).toNat)
  | .pubrec m => some (0x50, twoBytes (givenId id m).toNat)
  | .pubrel m => some (0x62, twoBytes (givenId id m).toNat)
  | .pubcomp m => some (0x70, twoBytes (givenId id m).toNat)
  | .pingreq => some (0xc0, [])
  | .pingresp => some (0xd0, [])
  | .disconnect => some (0xe0, [])

/-- What fits is sent, and nothing otherwise. -/
def sent (cap : Nat) : Option (UInt8 × List UInt8) → List UInt8
  | none => []
  | some (first, body) => if 3 + body.length ≤ cap then packet first body else []

def messages (p : Protocol) (cap : Nat) : UInt16 → List Outgoing → List (List UInt8)
  | _, [] => []
  | id, r :: rs => sent cap (r.parts p id) :: messages p cap (r.counter cap id) rs

variable {p : Protocol} {cap : Nat} {id : UInt16} {c : Connection}

theorem Sends.fits {c : Connection} {first : UInt8} {body : List UInt8}
    (h : Sends cap id c (packet first body)) (hfits : 3 + body.length ≤ cap) :
    Sends cap id c (sent cap (some (first, body))) := by
  rwa [sent, if_pos hfits]

theorem Holds.fails {first : UInt8} {body rest : List UInt8} (h : Holds cap id c body)
    (hfull : cap < 3 + rest.length) :
    Sends cap id (failMessage c) (sent cap (some (first, rest))) := by
  rw [sent, if_neg (Nat.not_le_of_lt hfull)]
  exact failMessage_sends h

theorem publishData_sends {body : List UInt8} (h : Holds cap id c body)
    (hlarge : cap < 128 ^ 2 + 3) (data : List UInt8) (qos retain : Int) :
    ∃ c', publishData c data qos retain = some c' ∧
      Sends cap id c' (sent cap (some (firstByte msgPublish 0 qos retain, body ++ data))) := by
  have hlen := h.length
  have hbuf := h.cap
  rw [publishData]
  by_cases hfull : c.length + data.length > c.buffer.length
  · rw [if_pos hfull]
    exact ⟨_, rfl, h.fails (by rw [List.length_append]; omega)⟩
  · rw [if_neg hfull]
    obtain ⟨c₁, h₁, hold₁⟩ := h.append data (by omega)
    obtain ⟨c₂, h₂, hold₂⟩ := finiMessage_sends hold₁ (by rw [List.length_append]; omega)
      msgPublish 0 qos retain
    refine ⟨c₂, ?_, hold₂.fits (by rw [List.length_append]; omega)⟩
    rw [h₁, Option.bind_eq_bind, Option.bind_some, h₂]

theorem mqttMsgPublish_sends (hc : c.buffer.length = cap) (hid : c.messageId = id) (hcap : 3 ≤ cap)
    (hlarge : cap < 128 ^ 2 + 3) (topic data : List UInt8) (qos retain : Int) (m : UInt16) :
    ∃ c' m', mqttMsgPublish c topic data qos retain m = some (c', m') ∧
      Sends cap (Outgoing.counter cap id (.publish topic data qos retain)) c'
        (sent cap (Outgoing.parts p id (.publish topic data qos retain))) := by
  have hinit := initMessage_holds hc hid hcap
  simp only [mqttMsgPublish, Outgoing.parts, Outgoing.counter]
  by_cases htopic : topic = []
  · rw [if_pos htopic, if_pos htopic, if_neg (fun h => h.1 htopic)]
    exact ⟨_, _, rfl, failMessage_sends hinit⟩
  rw [if_neg htopic, if_neg htopic]
  have happend := appendString_holds hinit topic
  simp only [List.length_nil, List.nil_append, Nat.add_zero] at happend
  split at happend
  next hfits =>
    obtain ⟨c₁, h₁, hold₁⟩ := happend
    simp only [h₁, Option.bind_eq_bind, Option.bind_some, Bool.true_eq_false, if_false, publishId]
    by_cases hqos : qos > 0
    · have hgive := appendMessageId_holds hold₁ 0
      rw [if_pos hqos, if_pos hqos, if_pos ⟨htopic, hfits, hqos⟩]
      split at hgive
      next hfits₂ =>
        obtain ⟨c₂, h₂, hold₂⟩ := hgive
        obtain ⟨c₃, h₃, hold₃⟩ := publishData_sends hold₂ hlarge data qos retain
        simp only [h₂, Option.bind_some, givenId_ne_zero, and_false, if_false, h₃]
        exact ⟨c₃, _, rfl, hold₃⟩
      next hfull =>
        obtain ⟨c₂, h₂, hold₂⟩ := hgive
        simp only [h₂, Option.bind_some, hqos, and_self, if_true]
        exact ⟨_, _, rfl, hold₂.fails (by simp only [List.length_append, twoBytes_length]; omega)⟩
    · obtain ⟨c₂, h₂, hold₂⟩ := publishData_sends hold₁ hlarge data qos retain
      simp only [hqos, if_false, Option.bind_some, false_and, and_false, h₂, List.append_nil]
      exact ⟨c₂, _, rfl, hold₂⟩
  next hfull =>
    simp only [happend, Option.bind_eq_bind, Option.bind_some, if_true]
    refine ⟨_, _, rfl, ?_⟩
    rw [if_neg (fun h => hfull h.2.1)]
    exact hinit.fails (by simp only [List.length_append]; omega)

theorem mqttMsgAck_sends (hc : c.buffer.length = cap) (hid : c.messageId = id) (hcap : 3 ≤ cap)
    (type qos : Int) (m : UInt16) :
    ∃ c', mqttMsgAck type qos c m = some c' ∧ Sends cap (counterAfter id m) c'
      (sent cap (some (firstByte type 0 qos 0, twoBytes (givenId id m).toNat))) := by
  have hinit := initMessage_holds hc hid hcap
  have hgive := appendMessageId_holds hinit m
  simp only [List.length_nil, List.nil_append, Nat.add_zero] at hgive
  unfold mqttMsgAck
  split at hgive
  next hfits =>
    obtain ⟨c₁, h₁, hold₁⟩ := hgive
    obtain ⟨c₂, h₂, hold₂⟩ := finiMessage_sends hold₁ (by rw [twoBytes_length]; decide) type 0 qos 0
    simp only [h₁, Option.bind_eq_bind, Option.bind_some, givenId_ne_zero, if_false]
    exact ⟨c₂, h₂, hold₂.fits hfits⟩
  next hfull =>
    obtain ⟨c₁, h₁, hold₁⟩ := hgive
    simp only [h₁, Option.bind_eq_bind, Option.bind_some, if_true]
    exact ⟨_, rfl, hold₁.fails (by rw [twoBytes_length]; omega)⟩

theorem identified_topic (h : Holds cap id c []) (topic : List UInt8) :
    (cap < 5 ∧ ∃ c₁, appendMessageId c 0 = some (c₁, 0) ∧ Holds cap (assignId id) c₁ []) ∨
    ∃ c₁, appendMessageId c 0 = some (c₁, assignId id) ∧
      (cap < 5 + (field topic).length ∧ appendString c₁ topic = some (c₁, false) ∧
          Holds cap (assignId id) c₁ (twoBytes (assignId id).toNat) ∨
        ∃ c₂, appendString c₁ topic = some (c₂, true) ∧
          Holds cap (assignId id) c₂ (twoBytes (assignId id).toNat ++ field topic)) := by
  have hgive := appendMessageId_holds h 0
  simp only [List.length_nil, List.nil_append, Nat.add_zero] at hgive
  split at hgive
  next hfits =>
    obtain ⟨c₁, h₁, hold₁⟩ := hgive
    refine .inr ⟨c₁, h₁, ?_⟩
    have happend := appendString_holds hold₁ topic
    by_cases hfits₂ : 5 + (field topic).length ≤ cap
    · rw [if_pos (by rw [twoBytes_length]; omega)] at happend
      exact .inr happend
    · rw [if_neg (by rw [twoBytes_length]; omega)] at happend
      exact .inl ⟨by omega, happend, hold₁⟩
  next hfull =>
    obtain ⟨c₁, h₁, hold₁⟩ := hgive
    exact .inl ⟨by omega, c₁, h₁, hold₁⟩

theorem mqttMsgSubscribe_sends (hc : c.buffer.length = cap) (hid : c.messageId = id)
    (hcap : 3 ≤ cap) (hlarge : cap < 128 ^ 2 + 3) (topic : List UInt8) (qos : Int) (m : UInt16) :
    ∃ c' m', mqttMsgSubscribe c topic qos m = some (c', m') ∧
      Sends cap (Outgoing.counter cap id (.subscribe topic qos)) c'
        (sent cap (Outgoing.parts p id (.subscribe topic qos))) := by
  have hinit := initMessage_holds hc hid hcap
  simp only [mqttMsgSubscribe, Outgoing.parts, Outgoing.counter]
  by_cases htopic : topic = []
  · rw [if_pos htopic, if_pos htopic, if_neg (fun h => h htopic)]
    exact ⟨_, _, rfl, failMessage_sends hinit⟩
  rw [if_neg htopic, if_neg htopic, if_pos htopic]
  obtain ⟨hfull, c₁, h₁, hold₁⟩ | ⟨c₁, h₁, ⟨hfull, h₂, hold₁⟩ | ⟨c₂, h₂, hold₂⟩⟩ :=
    identified_topic hinit topic
  · simp only [h₁, Option.bind_eq_bind, Option.bind_some, if_true]
    exact ⟨_, _, rfl, hold₁.fails (by simp only [List.length_append, twoBytes_length]; omega)⟩
  · simp only [h₁, h₂, Option.bind_eq_bind, Option.bind_some, assignId_ne_zero, if_false, if_true]
    exact ⟨_, _, rfl, hold₁.fails (by simp only [List.length_append, twoBytes_length]; omega)⟩
  · have hlen := hold₂.length
    have hbuf := hold₂.cap
    simp only [List.length_append, twoBytes_length] at hlen
    simp only [h₁, h₂, Option.bind_eq_bind, Option.bind_some, assignId_ne_zero, if_false,
      Bool.true_eq_false]
    by_cases hfull : c₂.length + 1 > c₂.buffer.length
    · rw [if_pos hfull]
      exact ⟨_, _, rfl, hold₂.fails (by
        simp only [List.length_append, twoBytes_length, List.length_singleton]; omega)⟩
    · rw [if_neg hfull]
      obtain ⟨c₃, h₃, hold₃⟩ := hold₂.append [UInt8.ofNat (qos % 256).toNat] (by
        simp only [List.length_append, twoBytes_length, List.length_singleton]; omega)
      obtain ⟨c₄, h₄, hold₄⟩ := finiMessage_sends hold₃ (by
        simp only [List.length_append, twoBytes_length, List.length_singleton]; omega)
        msgSubscribe 0 1 0
      simp only [h₃, h₄, Option.bind_some]
      exact ⟨c₄, _, rfl, hold₄.fits (by
        simp only [List.length_append, twoBytes_length, List.length_singleton]; omega)⟩

theorem mqttMsgUnsubscribe_sends (hc : c.buffer.length = cap) (hid : c.messageId = id)
    (hcap : 3 ≤ cap) (hlarge : cap < 128 ^ 2 + 3) (topic : List UInt8) (m : UInt16) :
    ∃ c' m', mqttMsgUnsubscribe c topic m = some (c', m') ∧
      Sends cap (Outgoing.counter cap id (.unsubscribe topic)) c'
        (sent cap (Outgoing.parts p id (.unsubscribe topic))) := by
  have hinit := initMessage_holds hc hid hcap
  simp only [mqttMsgUnsubscribe, Outgoing.parts, Outgoing.counter]
  by_cases htopic : topic = []
  · rw [if_pos htopic, if_pos htopic, if_neg (fun h => h htopic)]
    exact ⟨_, _, rfl, failMessage_sends hinit⟩
  rw [if_neg htopic, if_neg htopic, if_pos htopic]
  obtain ⟨hfull, c₁, h₁, hold₁⟩ | ⟨c₁, h₁, ⟨hfull, h₂, hold₁⟩ | ⟨c₂, h₂, hold₂⟩⟩ :=
    identified_topic hinit topic
  · simp only [h₁, Option.bind_eq_bind, Option.bind_some, if_true]
    exact ⟨_, _, rfl, hold₁.fails (by simp only [List.length_append, twoBytes_length]; omega)⟩
  · simp only [h₁, h₂, Option.bind_eq_bind, Option.bind_some, assignId_ne_zero, if_false, if_true]
    exact ⟨_, _, rfl, hold₁.fails (by simp only [List.length_append, twoBytes_length]; omega)⟩
  · have hfits := hold₂.within
    simp only [List.length_append, twoBytes_length] at hfits
    obtain ⟨c₃, h₃, hold₃⟩ := finiMessage_sends hold₂ (by
      simp only [List.length_append, twoBytes_length]; omega) msgUnsubscribe 0 1 0
    simp only [h₁, h₂, h₃, Option.bind_eq_bind, Option.bind_some, assignId_ne_zero, if_false,
      Bool.true_eq_false]
    exact ⟨c₃, _, rfl, hold₃.fits (by simp only [List.length_append, twoBytes_length]; omega)⟩

theorem mqttMsgBare_sends (hc : c.buffer.length = cap) (hid : c.messageId = id) (hcap : 3 ≤ cap)
    (type : Int) : ∃ c', mqttMsgBare type c = some c' ∧
      Sends cap id c' (sent cap (some (firstByte type 0 0 0, []))) := by
  obtain ⟨c₁, h₁, hold₁⟩ := finiMessage_sends (initMessage_holds hc hid hcap) (by decide) type 0 0 0
  exact ⟨c₁, h₁, hold₁.fits hcap⟩

/-- A call sends what the counter says, and leaves the counter as it should. -/
theorem build_sends (hc : c.buffer.length = cap) (hid : c.messageId = id) (hcap : 3 ≤ cap)
    (hlarge : cap < 128 ^ 2 + 3) (r : Outgoing) :
    ∃ c', build p c r = some c' ∧ Sends cap (r.counter cap id) c' (sent cap (r.parts p id)) := by
  have first {f : Connection → Option (Connection × UInt16)} {id' : UInt16} {message : List UInt8}
      (h : ∃ c' m', f c = some (c', m') ∧ Sends cap id' c' message) :
      ∃ c', (f c).map Prod.fst = some c' ∧ Sends cap id' c' message := by
    obtain ⟨c', m', hf, hs⟩ := h
    exact ⟨c', by rw [hf]; rfl, hs⟩
  cases r with
  | connect info =>
    obtain ⟨c', h, hs⟩ := mqttMsgConnect_sends (p := p) hc hid hcap hlarge info
    refine ⟨c', h, ?_⟩
    by_cases hclient : info.clientId = []
    · simpa [Outgoing.parts, Outgoing.counter, sent, hclient] using hs
    · simpa [Outgoing.parts, Outgoing.counter, sent, hclient] using hs
  | publish topic data qos retain =>
    exact first (f := (mqttMsgPublish · topic data qos retain 0))
      (mqttMsgPublish_sends hc hid hcap hlarge topic data qos retain 0)
  | subscribe topic qos =>
    exact first (f := (mqttMsgSubscribe · topic qos 0))
      (mqttMsgSubscribe_sends hc hid hcap hlarge topic qos 0)
  | unsubscribe topic =>
    exact first (f := (mqttMsgUnsubscribe · topic 0))
      (mqttMsgUnsubscribe_sends hc hid hcap hlarge topic 0)
  | puback m => exact mqttMsgAck_sends hc hid hcap msgPuback 0 m
  | pubrec m => exact mqttMsgAck_sends hc hid hcap msgPubrec 0 m
  | pubrel m => exact mqttMsgAck_sends hc hid hcap msgPubrel 1 m
  | pubcomp m => exact mqttMsgAck_sends hc hid hcap msgPubcomp 0 m
  | pingreq => exact mqttMsgBare_sends hc hid hcap msgPingreq
  | pingresp => exact mqttMsgBare_sends hc hid hcap msgPingresp
  | disconnect => exact mqttMsgBare_sends hc hid hcap msgDisconnect

/-- The buffer carries nothing from one call to the next. -/
theorem buildAll_eq (hc : c.buffer.length = cap) (hcap : 3 ≤ cap) (hlarge : cap < 128 ^ 2 + 3)
    (rs : List Outgoing) : buildAll p c rs = some (messages p cap c.messageId rs) := by
  induction rs generalizing c with
  | nil => rfl
  | cons r rs ih =>
    obtain ⟨c', h, hs⟩ := build_sends (p := p) hc rfl hcap hlarge r
    have hrest := ih hs.cap
    rw [buildAll, h, Option.bind_eq_bind, Option.bind_some, hrest, messages, hs.message, hs.id]
    rfl

end Esp32Project.Mqtt
