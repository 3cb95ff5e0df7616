import Esp32Project.Mqtt.Build

/-! The CONNECT message, and what a broker reads in it. -/

set_option autoImplicit false

namespace Esp32Project.Mqtt
open Esp32Project.Lib

/-- CONFIG_MQTT_PROTOCOL_311. -/
inductive Protocol where
  | v31
  | v311
  deriving DecidableEq, Repr

def Protocol.magic : Protocol → List UInt8
  | .v31 => [0x4d, 0x51, 0x49, 0x73, 0x64, 0x70]
  | .v311 => [0x4d, 0x51, 0x54, 0x54]

def Protocol.version : Protocol → UInt8
  | .v31 => 3
  | .v311 => 4

/-- mqtt_connect_info_t. A string that is NULL counts as an empty one. -/
structure ConnectInfo where
  clientId : List UInt8
  username : List UInt8
  password : List UInt8
  willTopic : List UInt8
  willMessage : List UInt8
  keepalive : Int
  willQos : Int
  willRetain : Bool
  cleanSession : Bool

def flagUsername : UInt8 := 0x80
def flagPassword : UInt8 := 0x40
def flagWillRetain : UInt8 := 0x20
def flagWill : UInt8 := 0x04
def flagCleanSession : UInt8 := 0x02

/-- struct mqtt_connect_variable_header. -/
def connectHeader (p : Protocol) (flags : UInt8) (keepalive : Int) : List UInt8 :=
  0 :: UInt8.ofNat p.magic.length :: (p.magic ++ [p.version, flags,
    UInt8.ofNat ((keepalive >>> (8 : Nat)) % 256).toNat, UInt8.ofNat (keepalive % 256).toNat])

def flagsAt (p : Protocol) : Nat := mqttMaxFixedHeaderSize + 2 + p.magic.length + 1

def orFlags (p : Protocol) (c : Connection) (flag : UInt8) : Option Connection := do
  let flags ← c.buffer[flagsAt p]?
  let buffer ← store c.buffer (flagsAt p) (flags ||| flag)
  return { c with buffer }

def orFlagsIf (p : Protocol) (c : Connection) (b : Bool) (flag : UInt8) : Option Connection :=
  if b then orFlags p c flag else some c

/-- The lines on the will. `false` leads to `fail_message`. -/
def appendWill (p : Protocol) (c : Connection) (info : ConnectInfo) :
    Option (Connection × Bool) :=
  if info.willTopic = [] then return (c, true) else do
    let (c, ok) ← appendString c info.willTopic
    if ok = false then return (c, false) else do
      let (c, ok) ← appendString c info.willMessage
      if ok = false then return (c, false) else do
        let c ← orFlags p c flagWill
        let c ← orFlagsIf p c info.willRetain flagWillRetain
        let c ← orFlags p c (UInt8.ofNat ((info.willQos % 4).toNat <<< 3))
        return (c, true)

/-- The lines on the user name, and those on the password. -/
def appendCredential (p : Protocol) (c : Connection) (string : List UInt8) (flag : UInt8) :
    Option (Connection × Bool) :=
  if string = [] then return (c, true) else do
    let (c, ok) ← appendString c string
    if ok = false then return (c, false) else do
      let c ← orFlags p c flag
      return (c, true)

def mqttMsgConnect (p : Protocol) (c : Connection) (info : ConnectInfo) : Option Connection :=
  let c := initMessage c
  if c.length + (connectHeader p 0 info.keepalive).length > c.buffer.length then
    return failMessage c
  else do
    let c ← c.append (connectHeader p 0 info.keepalive)
    let c ← orFlagsIf p c info.cleanSession flagCleanSession
    if info.clientId = [] then return failMessage c else do
      let (c, ok) ← appendString c info.clientId
      if ok = false then return failMessage c else do
        let (c, ok) ← appendWill p c info
        if ok = false then return failMessage c else do
          let (c, ok) ← appendCredential p c info.username flagUsername
          if ok = false then return failMessage c else do
            let (c, ok) ← appendCredential p c info.password flagPassword
            if ok = false then return failMessage c else finiMessage c msgConnect 0 0 0

/-! What is sent. -/

def ConnectInfo.willFlags (info : ConnectInfo) (flags : UInt8) : UInt8 :=
  if info.willTopic = [] then flags
  else (flags ||| flagWill ||| if info.willRetain then flagWillRetain else 0) |||
    UInt8.ofNat ((info.willQos % 4).toNat <<< 3)

def credentialFlags (string : List UInt8) (flag flags : UInt8) : UInt8 :=
  if string = [] then flags else flags ||| flag

def ConnectInfo.flags (info : ConnectInfo) : UInt8 :=
  credentialFlags info.password flagPassword (credentialFlags info.username flagUsername
    (info.willFlags (0 ||| if info.cleanSession then flagCleanSession else 0)))

def ConnectInfo.will (info : ConnectInfo) : List UInt8 :=
  if info.willTopic = [] then [] else field info.willTopic ++ field info.willMessage

def credential (string : List UInt8) : List UInt8 := if string = [] then [] else field string

def ConnectInfo.payload (info : ConnectInfo) : List UInt8 :=
  field info.clientId ++ info.will ++ credential info.username ++ credential info.password

/-- The message behind its fixed header. -/
def ConnectInfo.body (p : Protocol) (info : ConnectInfo) : List UInt8 :=
  connectHeader p info.flags info.keepalive ++ info.payload

variable {p : Protocol} {cap : Nat} {id : UInt16} {c : Connection} {payload : List UInt8}
  {flags : UInt8} {keepalive : Int}

theorem Holds.orFlags (h : Holds cap id c (connectHeader p flags keepalive ++ payload))
    (flag : UInt8) : ∃ c', orFlags p c flag = some c' ∧
      Holds cap id c' (connectHeader p (flags ||| flag) keepalive ++ payload) := by
  obtain ⟨hcap, hid, hlen, header, rest, hheader, hbuffer⟩ := h
  have hsplit (f : UInt8) : header ++ (connectHeader p f keepalive ++ payload) ++ rest =
      (header ++ 0 :: UInt8.ofNat p.magic.length :: (p.magic ++ [p.version])) ++
        f :: (UInt8.ofNat ((keepalive >>> (8 : Nat)) % 256).toNat ::
          UInt8.ofNat (keepalive % 256).toNat :: (payload ++ rest)) := by
    simp [connectHeader]
  have hfront : flagsAt p =
      (header ++ 0 :: UInt8.ofNat p.magic.length :: (p.magic ++ [p.version])).length := by
    simp [flagsAt, mqttMaxFixedHeaderSize, hheader]
    omega
  have hget : c.buffer[flagsAt p]? = some flags := by
    rw [hbuffer, hsplit, hfront, List.getElem?_append_right (Nat.le_refl _), Nat.sub_self]
    rfl
  have hset : c.buffer.set (flagsAt p) (flags ||| flag) =
      header ++ (connectHeader p (flags ||| flag) keepalive ++ payload) ++ rest := by
    rw [hbuffer, hsplit, hsplit, hfront, List.set_append_right _ _ (Nat.le_refl _), Nat.sub_self]
    rfl
  have hin : flagsAt p < c.buffer.length := by
    obtain ⟨hlt, -⟩ := List.getElem?_eq_some_iff.mp hget
    exact hlt
  refine ⟨{ c with buffer := c.buffer.set (flagsAt p) (flags ||| flag) }, ?_, ?_, hid, ?_, header,
    rest, hheader, hset⟩
  · rw [Mqtt.orFlags, hget, Option.bind_eq_bind, Option.bind_some, store, if_pos hin]
    rfl
  · rw [List.length_set, hcap]
  · rw [hlen]
    simp [connectHeader]

theorem Holds.orFlagsIf (h : Holds cap id c (connectHeader p flags keepalive ++ payload))
    (b : Bool) (flag : UInt8) : ∃ c', orFlagsIf p c b flag = some c' ∧
      Holds cap id c' (connectHeader p (flags ||| if b then flag else 0) keepalive ++ payload) := by
  cases b with
  | true => exact h.orFlags flag
  | false => exact ⟨c, rfl, by simpa using h⟩

@[simp] theorem connectHeader_length :
    (connectHeader p flags keepalive).length = p.magic.length + 6 := by
  simp [connectHeader]

/-- A part of the message that is appended where it fits. -/
def Step (p : Protocol) (keepalive : Int) (step : Connection → Option (Connection × Bool))
    (mark : UInt8 → UInt8) (part : List UInt8) : Prop :=
  ∀ cap id c flags payload, Holds cap id c (connectHeader p flags keepalive ++ payload) →
    if p.magic.length + 9 + payload.length + part.length ≤ cap then
      ∃ c', step c = some (c', true) ∧
        Holds cap id c' (connectHeader p (mark flags) keepalive ++ (payload ++ part))
    else ∃ c' body, step c = some (c', false) ∧ Holds cap id c' body

theorem Step.cases {step : Connection → Option (Connection × Bool)} {mark : UInt8 → UInt8}
    {part : List UInt8} (hstep : Step p keepalive step mark part)
    (h : Holds cap id c (connectHeader p flags keepalive ++ payload)) :
    (p.magic.length + 9 + payload.length + part.length ≤ cap ∧ ∃ c', step c = some (c', true) ∧
      Holds cap id c' (connectHeader p (mark flags) keepalive ++ (payload ++ part))) ∨
    (cap < p.magic.length + 9 + payload.length + part.length ∧
      ∃ c' body, step c = some (c', false) ∧ Holds cap id c' body) := by
  have := hstep cap id c flags payload h
  split at this
  next hfits => exact .inl ⟨hfits, this⟩
  next hfull => exact .inr ⟨Nat.lt_of_not_le hfull, this⟩

theorem appendString_step (p : Protocol) (keepalive : Int) (string : List UInt8) :
    Step p keepalive (appendString · string) (fun flags => flags) (field string) := by
  intro cap id c flags payload h
  have happend := appendString_holds h string
  simp only [List.length_append, connectHeader_length] at happend
  split
  next hfits =>
    rw [if_pos (by omega)] at happend
    simpa only [List.append_assoc] using happend
  next hfull =>
    rw [if_neg (by omega)] at happend
    exact ⟨c, _, happend, h⟩

theorem appendCredential_step (string : List UInt8) (flag : UInt8) :
    Step p keepalive (appendCredential p · string flag) (credentialFlags string flag)
      (credential string) := by
  intro cap id c flags payload h
  by_cases hempty : string = []
  · simp only [appendCredential, credentialFlags, credential, if_pos hempty]
    have hfits := h.within
    simp only [List.length_append, connectHeader_length] at hfits
    rw [List.length_nil, if_pos (by omega)]
    exact ⟨c, rfl, by rwa [List.append_nil]⟩
  · have happend := appendString_step p keepalive string cap id c flags payload h
    simp only [appendCredential, credentialFlags, credential, if_neg hempty]
    split at happend
    next hfits =>
      obtain ⟨c₁, h₁, hold₁⟩ := happend
      obtain ⟨c₂, h₂, hold₂⟩ := hold₁.orFlags flag
      rw [if_pos hfits]
      exact ⟨c₂, by simp [h₁, h₂], hold₂⟩
    next hfull =>
      obtain ⟨c₁, body, h₁, hold₁⟩ := happend
      rw [if_neg hfull]
      exact ⟨c₁, body, by simp [h₁], hold₁⟩

theorem appendWill_step (info : ConnectInfo) :
    Step p keepalive (appendWill p · info) info.willFlags info.will := by
  intro cap id c flags payload h
  by_cases hempty : info.willTopic = []
  · simp only [appendWill, ConnectInfo.willFlags, ConnectInfo.will, if_pos hempty]
    have hfits := h.within
    simp only [List.length_append, connectHeader_length] at hfits
    rw [List.length_nil, if_pos (by omega)]
    exact ⟨c, rfl, by rwa [List.append_nil]⟩
  · have htopic := appendString_step p keepalive info.willTopic cap id c flags payload h
    simp only [appendWill, ConnectInfo.willFlags, ConnectInfo.will, if_neg hempty,
      List.length_append]
    split at htopic
    next hfits =>
      obtain ⟨c₁, h₁, hold₁⟩ := htopic
      have hmessage := appendString_step p keepalive info.willMessage cap id c₁ flags _ hold₁
      simp only [List.length_append] at hmessage
      simp only [h₁]
      split at hmessage
      next hfits₂ =>
        obtain ⟨c₂, h₂, hold₂⟩ := hmessage
        obtain ⟨c₃, h₃, hold₃⟩ := hold₂.orFlags flagWill
        obtain ⟨c₄, h₄, hold₄⟩ := hold₃.orFlagsIf info.willRetain flagWillRetain
        obtain ⟨c₅, h₅, hold₅⟩ := hold₄.orFlags (UInt8.ofNat ((info.willQos % 4).toNat <<< 3))
        rw [if_pos (by omega)]
        refine ⟨c₅, ?_, by rwa [List.append_assoc payload] at hold₅⟩
        simp only [h₂, h₃, h₄, h₅, Option.bind_eq_bind, Option.bind_some]
        rfl
      next hfull =>
        obtain ⟨c₂, body, h₂, hold₂⟩ := hmessage
        rw [if_neg (by omega)]
        exact ⟨c₂, body, by simp [h₂], hold₂⟩
    next hfull =>
      obtain ⟨c₁, body, h₁, hold₁⟩ := htopic
      rw [if_neg (by omega)]
      exact ⟨c₁, body, by simp [h₁], hold₁⟩

theorem mqttMsgConnect_sends (hc : c.buffer.length = cap) (hid : c.messageId = id)
    (hcap : 3 ≤ cap) (hlarge : cap < 128 ^ 2 + 3) (info : ConnectInfo) :
    ∃ c', mqttMsgConnect p c info = some c' ∧
      Sends cap id c' (if info.clientId ≠ [] ∧ 3 + (info.body p).length ≤ cap
        then packet 0x10 (info.body p) else []) := by
  have hinit := initMessage_holds hc hid hcap
  have hlen : (initMessage c).length = 3 := rfl
  have hbuf : (initMessage c).buffer.length = cap := hc
  simp only [mqttMsgConnect, ConnectInfo.body, ConnectInfo.payload, List.length_append,
    connectHeader_length, hlen, hbuf]
  by_cases hheader : 3 + (p.magic.length + 6) > cap
  · rw [if_pos hheader]
    refine ⟨_, rfl, ?_⟩
    rw [if_neg (by omega)]
    exact failMessage_sends hinit
  · rw [if_neg hheader]
    obtain ⟨c₁, h₁, hold₁⟩ := hinit.append (connectHeader p 0 info.keepalive)
      (by simp; omega)
    rw [List.nil_append, ← List.append_nil (connectHeader p 0 info.keepalive)] at hold₁
    obtain ⟨c₂, h₂, hold₂⟩ := hold₁.orFlagsIf info.cleanSession flagCleanSession
    simp only [h₁, h₂, Option.bind_eq_bind, Option.bind_some]
    by_cases hclient : info.clientId = []
    · rw [if_pos hclient]
      exact ⟨_, rfl, by simpa [hclient] using failMessage_sends hold₂⟩
    rw [if_neg hclient]
    have fail {c : Connection} {body message : List UInt8} {P : Prop} [Decidable P]
        (h : Holds cap id c body) (hP : ¬ P) :
        Sends cap id (failMessage c) (if P then message else []) := by
      rw [if_neg hP]
      exact failMessage_sends h
    obtain ⟨-, c₃, h₃, hold₃⟩ | ⟨hfull, c₃, body, h₃, hold₃⟩ :=
      (appendString_step p info.keepalive info.clientId).cases hold₂
    · simp only [h₃, Option.bind_some, Bool.true_eq_false, if_false]
      obtain ⟨-, c₄, h₄, hold₄⟩ | ⟨hfull, c₄, body, h₄, hold₄⟩ :=
        (appendWill_step info).cases hold₃
      · simp only [h₄, Option.bind_some, Bool.true_eq_false, if_false]
        obtain ⟨-, c₅, h₅, hold₅⟩ | ⟨hfull, c₅, body, h₅, hold₅⟩ :=
          (appendCredential_step info.username flagUsername).cases hold₄
        · simp only [h₅, Option.bind_some, Bool.true_eq_false, if_false]
          obtain ⟨hfits, c₆, h₆, hold₆⟩ | ⟨hfull, c₆, body, h₆, hold₆⟩ :=
            (appendCredential_step info.password flagPassword).cases hold₅
          · simp only [List.length_append, List.length_nil] at hfits
            obtain ⟨c₇, h₇, sends₇⟩ := finiMessage_sends hold₆
              (by simp only [List.length_append, connectHeader_length, List.length_nil]; omega)
              msgConnect 0 0 0
            simp only [h₆, Option.bind_some, Bool.true_eq_false, if_false]
            refine ⟨c₇, h₇, ?_⟩
            rw [if_pos ⟨hclient, by omega⟩]
            exact sends₇
          · simp only [List.length_append, List.length_nil] at hfull
            simp only [h₆, Option.bind_some, if_true]
            exact ⟨_, rfl, fail hold₆ (by omega)⟩
        · simp only [List.length_append, List.length_nil] at hfull
          simp only [h₅, Option.bind_some, if_true]
          exact ⟨_, rfl, fail hold₅ (by omega)⟩
      · simp only [List.length_append, List.length_nil] at hfull
        simp only [h₄, Option.bind_some, if_true]
        exact ⟨_, rfl, fail hold₄ (by omega)⟩
    · rw [List.length_nil] at hfull
      simp only [h₃, Option.bind_some, if_true]
      exact ⟨_, rfl, fail hold₃ (by omega)⟩

/-! What a broker reads. -/

structure Will where
  topic : List UInt8
  message : List UInt8
  qos : Nat
  retain : Bool
  deriving DecidableEq, Repr

structure Connect where
  protocol : Protocol
  clean : Bool
  keepalive : Nat
  clientId : List UInt8
  will : Option Will
  username : Option (List UInt8)
  password : Option (List UInt8)
  deriving DecidableEq, Repr

def readField : List UInt8 → Option (List UInt8 × List UInt8)
  | hi :: lo :: rest =>
    if hi.toNat * 256 + lo.toNat ≤ rest.length then
      some (rest.take (hi.toNat * 256 + lo.toNat), rest.drop (hi.toNat * 256 + lo.toNat))
    else none
  | _ => none

def readPacket : List UInt8 → Option ((UInt8 × List UInt8) × List UInt8)
  | [] => none
  | first :: bytes => do
    let (n, bytes) ← readVarInt 3 bytes
    if n ≤ bytes.length then some ((first, bytes.take n), bytes.drop n) else none

def readProtocol (name : List UInt8) (version : UInt8) : Option Protocol :=
  if name = Protocol.v311.magic ∧ version = 4 then some .v311
  else if name = Protocol.v31.magic ∧ version = 3 then some .v31
  else none

/-- QoS level 3 does not exist, and without a will its flags are 0. -/
def readWill (flags : UInt8) (bytes : List UInt8) : Option (Option Will × List UInt8) :=
  if flags &&& 0x04 = 0 then
    if flags &&& 0x38 = 0 then some (none, bytes) else none
  else if (flags >>> 3) &&& 3 = 3 then none
  else do
    let (topic, bytes) ← readField bytes
    let (message, bytes) ← readField bytes
    return (some ⟨topic, message, ((flags >>> 3) &&& 3).toNat, flags &&& 0x20 ≠ 0⟩, bytes)

def readCredential (flags flag : UInt8) (bytes : List UInt8) :
    Option (Option (List UInt8) × List UInt8) :=
  if flags &&& flag = 0 then some (none, bytes) else do
    let (string, bytes) ← readField bytes
    return (some string, bytes)

/-- A password comes with a user name only, and the lowest flag is 0. -/
def decodeConnect (message : List UInt8) : Option Connect := do
  let ((first, bytes), behind) ← readPacket message
  let (name, bytes) ← readField bytes
  match bytes with
  | version :: flags :: hi :: lo :: bytes =>
    if first ≠ 0x10 ∨ behind ≠ [] ∨ flags &&& 1 ≠ 0 then none
    else if flags &&& 0x80 = 0 ∧ flags &&& 0x40 ≠ 0 then none
    else do
      let protocol ← readProtocol name version
      let (clientId, bytes) ← readField bytes
      let (will, bytes) ← readWill flags bytes
      let (username, bytes) ← readCredential flags 0x80 bytes
      let (password, bytes) ← readCredential flags 0x40 bytes
      if bytes = [] then
        some ⟨protocol, flags &&& 0x02 ≠ 0, hi.toNat * 256 + lo.toNat, clientId, will, username,
          password⟩
      else none
  | _ => none

def ConnectInfo.connect (p : Protocol) (info : ConnectInfo) : Connect where
  protocol := p
  clean := info.cleanSession
  keepalive := (info.keepalive % 65536).toNat
  clientId := info.clientId
  will := if info.willTopic = [] then none
    else some ⟨info.willTopic, info.willMessage, (info.willQos % 4).toNat, info.willRetain⟩
  username := if info.username = [] then none else some info.username
  password := if info.password = [] then none else some info.password

theorem twoBytes_value {n : Nat} (h : n < 65536) :
    ∃ hi lo, twoBytes n = [hi, lo] ∧ hi.toNat * 256 + lo.toNat = n := by
  refine ⟨_, _, rfl, ?_⟩
  have hlow : n &&& 0xff = n % 256 := Nat.and_two_pow_sub_one_eq_mod n 8
  rw [hlow, Nat.shiftRight_eq_div_pow, UInt8.toNat_ofNat', UInt8.toNat_ofNat']
  omega

theorem readField_field {string : List UInt8} (h : string.length < 65536) (rest : List UInt8) :
    readField (field string ++ rest) = some (string, rest) := by
  obtain ⟨hi, lo, htwo, hvalue⟩ := twoBytes_value h
  rw [field, htwo]
  simp [readField, hvalue]

theorem readPacket_packet {body : List UInt8} (h : body.length < 128 ^ 4) (first : UInt8)
    (rest : List UInt8) : readPacket (packet first body ++ rest) = some ((first, body), rest) := by
  rw [packet, List.cons_append, readPacket, List.append_assoc, readVarInt_varInt 3 h]
  simp

def flagBits (clean will retain user pass : Bool) (qos : Fin 4) : UInt8 :=
  let flags := 0 ||| if clean then flagCleanSession else 0
  let flags := if will then (flags ||| flagWill ||| if retain then flagWillRetain else 0) |||
    UInt8.ofNat (qos.val <<< 3) else flags
  let flags := if user then flags ||| flagUsername else flags
  if pass then flags ||| flagPassword else flags

theorem flagBits_read : ∀ (clean will retain user pass : Bool) (qos : Fin 4),
    let flags := flagBits clean will retain user pass qos
    flags &&& 1 = 0 ∧ (flags &&& 0x02 ≠ 0 ↔ clean = true) ∧ (flags &&& 0x80 = 0 ↔ user = false) ∧
    (flags &&& 0x40 = 0 ↔ pass = false) ∧ (flags &&& 0x04 = 0 ↔ will = false) ∧
    (will = false → flags &&& 0x38 = 0) ∧
    (will = true → ((flags >>> 3) &&& 3).toNat = qos ∧ (flags &&& 0x20 ≠ 0 ↔ retain = true)) := by
  decide +kernel

theorem willQos_lt (info : ConnectInfo) : (info.willQos % 4).toNat < 4 := by omega

theorem ConnectInfo.flags_eq (info : ConnectInfo) : info.flags =
    flagBits info.cleanSession (decide (info.willTopic ≠ [])) info.willRetain
      (decide (info.username ≠ [])) (decide (info.password ≠ []))
      ⟨(info.willQos % 4).toNat, willQos_lt info⟩ := by
  simp only [ConnectInfo.flags, ConnectInfo.willFlags, credentialFlags, flagBits, decide_eq_true_eq,
    ne_eq, ite_not]

theorem readCredential_credential {string : List UInt8} {flags flag : UInt8}
    (hflag : flags &&& flag = 0 ↔ string = []) (h : string.length < 65536) (rest : List UInt8) :
    readCredential flags flag (credential string ++ rest) =
      some (if string = [] then none else some string, rest) := by
  unfold readCredential credential
  by_cases hempty : string = []
  · rw [if_pos (hflag.mpr hempty), if_pos hempty, if_pos hempty, List.nil_append]
  · rw [if_neg (mt hflag.mp hempty), if_neg hempty, if_neg hempty, readField_field h]
    rfl

theorem readWill_will (info : ConnectInfo) (htopic : info.willTopic.length < 65536)
    (hmessage : info.willTopic ≠ [] → info.willMessage.length < 65536) (rest : List UInt8) :
    readWill info.flags (info.will ++ rest) =
      if info.willTopic ≠ [] ∧ (info.willQos % 4).toNat = 3 then none
      else some ((info.connect .v311).will, rest) := by
  obtain ⟨-, -, -, -, hwill, hnone, hsome⟩ := flagBits_read info.cleanSession
    (decide (info.willTopic ≠ [])) info.willRetain (decide (info.username ≠ []))
    (decide (info.password ≠ [])) ⟨(info.willQos % 4).toNat, willQos_lt info⟩
  rw [← info.flags_eq] at hwill hnone hsome
  by_cases hempty : info.willTopic = []
  · have hfalse : decide (info.willTopic ≠ []) = false := by simp [hempty]
    rw [readWill, if_pos (hwill.mpr hfalse), if_pos (hnone hfalse), if_neg (by simp [hempty]),
      ConnectInfo.will, if_pos hempty]
    simp [ConnectInfo.connect, hempty]
  · have htrue : decide (info.willTopic ≠ []) = true := by simp [hempty]
    obtain ⟨hqos, hretain⟩ := hsome htrue
    have hthree : (info.flags >>> 3) &&& 3 = 3 ↔ (info.willQos % 4).toNat = 3 := by
      rw [← UInt8.toNat_inj, hqos]
      rfl
    rw [readWill, if_neg (by simp [hwill, hempty])]
    by_cases hq : (info.willQos % 4).toNat = 3
    · rw [if_pos (hthree.mpr hq), if_pos ⟨hempty, hq⟩]
    · rw [if_neg (mt hthree.mp hq), if_neg (fun h => hq h.2), ConnectInfo.will, if_neg hempty,
        List.append_assoc, readField_field htopic]
      simp only [Option.bind_eq_bind, Option.bind_some, readField_field (hmessage hempty), hqos]
      simp [ConnectInfo.connect, hempty, hretain]

theorem keepalive_bytes (keepalive : Int) :
    (UInt8.ofNat ((keepalive >>> (8 : Nat)) % 256).toNat).toNat * 256 +
      (UInt8.ofNat (keepalive % 256).toNat).toNat = (keepalive % 65536).toNat := by
  have hpow : ((2 ^ 8 : Nat) : Int) = 256 := rfl
  rw [Int.shiftRight_eq_div_pow, UInt8.toNat_ofNat', UInt8.toNat_ofNat', hpow]
  omega

theorem decodeConnect_packet (p : Protocol) (info : ConnectInfo)
    (hbody : (info.body p).length < 128 ^ 2) :
    decodeConnect (packet 0x10 (info.body p)) =
      if info.willTopic ≠ [] ∧ (info.willQos % 4).toNat = 3 ∨
        info.password ≠ [] ∧ info.username = [] then none
      else some (info.connect p) := by
  obtain ⟨hlow, hclean, huser, hpass, -⟩ := flagBits_read info.cleanSession
    (decide (info.willTopic ≠ [])) info.willRetain (decide (info.username ≠ []))
    (decide (info.password ≠ [])) ⟨(info.willQos % 4).toNat, willQos_lt info⟩
  rw [← info.flags_eq] at hlow hclean huser hpass
  simp only [decide_eq_false_iff_not, not_not] at huser hpass
  have hpayload : info.payload.length < 128 ^ 2 := by
    rw [ConnectInfo.body, List.length_append] at hbody
    omega
  simp only [ConnectInfo.payload, List.length_append, field_length] at hpayload
  have hwill : info.willTopic ≠ [] →
      info.will.length = info.willTopic.length + info.willMessage.length + 4 := fun h => by
    rw [ConnectInfo.will, if_neg h, List.length_append, field_length, field_length]
    omega
  have htopic : info.willTopic.length < 65536 := by
    by_cases h : info.willTopic = []
    · simp [h]
    · have := hwill h
      omega
  have hcredential (s : List UInt8) (hs : (credential s).length < 128 ^ 2) : s.length < 65536 := by
    by_cases h : s = []
    · simp [h]
    · rw [credential, if_neg h, field_length] at hs
      omega
  have hparts : info.body p = field p.magic ++ (p.version :: info.flags ::
      UInt8.ofNat ((info.keepalive >>> (8 : Nat)) % 256).toNat ::
      UInt8.ofNat (info.keepalive % 256).toNat ::
        (field info.clientId ++ (info.will ++ (credential info.username ++
          (credential info.password ++ []))))) := by
    have hlength : twoBytes p.magic.length = [0, UInt8.ofNat p.magic.length] := by
      cases p <;> rfl
    simp [ConnectInfo.body, ConnectInfo.payload, connectHeader, field, hlength]
  have hmagic : p.magic.length < 65536 := by cases p <;> decide
  have hprotocol : readProtocol p.magic p.version = some p := by cases p <;> rfl
  have hpacket := readPacket_packet (Nat.lt_trans hbody (by decide)) 0x10 []
  rw [List.append_nil, hparts] at hpacket
  simp only [decodeConnect, hparts, hpacket, readField_field hmagic, Option.bind_eq_bind,
    Option.bind_some, hlow, ne_eq, not_true_eq_false, or_self, if_false]
  by_cases hcredentials : info.password ≠ [] ∧ info.username = []
  · rw [if_pos ⟨huser.mpr hcredentials.2, mt hpass.mp hcredentials.1⟩, if_pos (.inr hcredentials)]
  rw [if_neg (fun h => hcredentials ⟨mt hpass.mpr h.2, huser.mp h.1⟩)]
  simp only [hprotocol, readField_field (show info.clientId.length < 65536 by omega),
    Option.bind_some, readWill_will info htopic (fun h => by have := hwill h; omega)]
  by_cases hqos : info.willTopic ≠ [] ∧ (info.willQos % 4).toNat = 3
  · rw [if_pos hqos, if_pos (.inl hqos)]
    rfl
  · rw [if_neg hqos, if_neg (fun h => h.elim hqos hcredentials)]
    simp only [Option.bind_some, keepalive_bytes,
      readCredential_credential huser (hcredential info.username (by omega)),
      readCredential_credential hpass (hcredential info.password (by omega)), if_true]
    simp [ConnectInfo.connect, hclean]

/-- The message that is built is what a broker has to read of the settings, and there is none where
the client has no name or the buffer no room. -/
theorem mqttMsgConnect_decodes (p : Protocol) {c : Connection} (hcap : 3 ≤ c.buffer.length)
    (hlarge : c.buffer.length < 128 ^ 2 + 3) (info : ConnectInfo) :
    ∃ c', mqttMsgConnect p c info = some c' ∧
      (c'.message = [] ↔ info.clientId = [] ∨ c.buffer.length < 3 + (info.body p).length) ∧
      (c'.message ≠ [] → decodeConnect c'.message =
        if info.willTopic ≠ [] ∧ (info.willQos % 4).toNat = 3 ∨
          info.password ≠ [] ∧ info.username = [] then none
        else some (info.connect p)) := by
  obtain ⟨c', h, hsends⟩ := mqttMsgConnect_sends (p := p) rfl rfl hcap hlarge info
  refine ⟨c', h, ?_⟩
  rw [hsends.message]
  by_cases hsent : info.clientId ≠ [] ∧ 3 + (info.body p).length ≤ c.buffer.length
  · rw [if_pos hsent]
    refine ⟨iff_of_false (List.cons_ne_nil _ _) ?_, fun _ => decodeConnect_packet p info (by omega)⟩
    exact fun h => h.elim hsent.1 (Nat.not_lt_of_le hsent.2)
  · rw [if_neg hsent]
    refine ⟨iff_of_true rfl ?_, fun h => absurd rfl h⟩
    by_cases hclient : info.clientId = []
    · exact .inl hclient
    · exact .inr (Nat.lt_of_not_le fun hle => hsent ⟨hclient, hle⟩)

def sampleInfo : ConnectInfo :=
  ⟨[0x63], [0x75], [], [0x77], [0x6d], 120, 1, true, true⟩

theorem mqttMsgConnect_decodes_sample :
    ∃ c', mqttMsgConnect .v311 (mqttMsgInit (List.replicate 64 0)) sampleInfo = some c' ∧
      decodeConnect c'.message = some (sampleInfo.connect .v311) := by
  obtain ⟨c', h, hempty, hread⟩ := mqttMsgConnect_decodes .v311
    (c := mqttMsgInit (List.replicate 64 0)) (by decide) (by decide) sampleInfo
  refine ⟨c', h, (hread ?_).trans (if_neg (by decide))⟩
  rw [ne_eq, hempty]
  decide

end Esp32Project.Mqtt
