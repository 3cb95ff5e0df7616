import Esp32Project.Mqtt.Message

/-! PUBLISH packets as a broker sends them, and what mqtt_msg.c finds in their fronts. -/

set_option autoImplicit false

namespace Esp32Project.Mqtt
open Esp32Project.Lib

structure Shape where
  dup : Bool
  retain : Bool
  qos : Fin 3
  topic : List UInt8
  id : UInt16
  payloadLength : Nat
  topicFits : topic.length < 2 ^ 16
  fits : 2 + topic.length + (if qos = 0 then 0 else 2) + payloadLength < 128 ^ 4

abbrev Shape.Payload (s : Shape) := { bytes : List UInt8 // bytes.length = s.payloadLength }

def Shape.first (s : Shape) : UInt8 :=
  UInt8.ofNat (48 + 8 * s.dup.toNat + 2 * s.qos + s.retain.toNat)

/-- The packet identifier, which only the QoS levels above 0 have. -/
def Shape.idBytes (s : Shape) : List UInt8 :=
  if s.qos = 0 then [] else [UInt8.ofNat (s.id.toNat / 256), UInt8.ofNat (s.id.toNat % 256)]

def Shape.remaining (s : Shape) : Nat :=
  2 + s.topic.length + s.idBytes.length + s.payloadLength

def Shape.afterHeader (s : Shape) (payload : s.Payload) : List UInt8 :=
  UInt8.ofNat (s.topic.length / 256) :: UInt8.ofNat (s.topic.length % 256) ::
    (s.topic ++ (s.idBytes ++ payload))

def Shape.encode (s : Shape) (payload : s.Payload) : List UInt8 :=
  s.first :: (varInt 3 s.remaining ++ s.afterHeader payload)

def Shape.topicStart (s : Shape) : Nat := 1 + (varInt 3 s.remaining).length + 2

def Shape.topicEnd (s : Shape) : Nat := s.topicStart + s.topic.length

def Shape.headerEnd (s : Shape) : Nat := s.topicEnd + s.idBytes.length

def Shape.packetLength (s : Shape) : Nat := s.headerEnd + s.payloadLength

def sampleShape : Shape := ⟨false, false, 0, [0x74], 0, 4, by decide, by decide⟩

def samplePayload : sampleShape.Payload := ⟨[0x31, 0x32, 0x38, 0x39], rfl⟩

variable (s : Shape)

theorem Shape.idBytes_length : s.idBytes.length = if s.qos = 0 then 0 else 2 := by
  simp only [idBytes]
  split <;> rfl

theorem Shape.idBytes_length_le : s.idBytes.length ≤ 2 := by
  rw [idBytes_length]
  split <;> omega

theorem Shape.remaining_lt : s.remaining < 128 ^ 4 := by
  have := s.fits
  rwa [remaining, idBytes_length]

theorem Shape.four_le_topicStart : 4 ≤ s.topicStart := by
  have := varInt_length_pos 3 s.remaining
  rw [topicStart]
  omega

theorem Shape.topicStart_le : s.topicStart ≤ 7 := by
  have := varInt_length_le 3 s.remaining
  rw [topicStart]
  omega

theorem Shape.packetLength_eq :
    s.packetLength = s.remaining + (1 + (varInt 3 s.remaining).length) := by
  rw [packetLength, headerEnd, topicEnd, topicStart]
  simp only [remaining]
  omega

theorem Shape.encode_length (payload : s.Payload) : (s.encode payload).length = s.packetLength := by
  simp [encode, afterHeader, packetLength, headerEnd, topicEnd, topicStart, payload.2]
  omega

theorem Shape.type_first : (s.first &&& 0xf0) >>> 4 = 3 := by
  have all : ∀ (d r : Bool) (q : Fin 3),
      (UInt8.ofNat (48 + 8 * d.toNat + 2 * q + r.toNat) &&& 0xf0) >>> 4 = 3 := by decide
  exact all s.dup s.retain s.qos

theorem Shape.qos_first : mqttGetQos s.first > 0 ↔ s.qos ≠ 0 := by
  have all : ∀ (d r : Bool) (q : Fin 3),
      mqttGetQos (UInt8.ofNat (48 + 8 * d.toNat + 2 * q + r.toNat)) > 0 ↔ q ≠ 0 := by decide
  exact all s.dup s.retain s.qos

theorem Shape.topicLength_bytes :
    (UInt8.ofNat (s.topic.length / 256)).toNat * 256 +
      (UInt8.ofNat (s.topic.length % 256)).toNat = s.topic.length := by
  have := s.topicFits
  simp only [UInt8.toNat_ofNat']
  omega

theorem Shape.header_eq (payload : s.Payload) {len : Nat}
    (h : 1 + (varInt 3 s.remaining).length ≤ len) (more : List UInt8) :
    ∃ rest, (s.encode payload).take len ++ more =
      s.first :: (varInt 3 s.remaining ++ rest) := by
  obtain ⟨k, rfl⟩ : ∃ k, len = k + 1 := ⟨len - 1, by omega⟩
  refine ⟨(s.afterHeader payload).take (k - (varInt 3 s.remaining).length) ++ more, ?_⟩
  rw [encode, List.take_succ_cons, List.take_append, List.take_of_length_le (by omega)]
  simp

theorem Shape.buffer_eq (payload : s.Payload) {len : Nat} (h : s.topicStart ≤ len)
    (more : List UInt8) : ∃ rest, (s.encode payload).take len ++ more =
      s.first :: (varInt 3 s.remaining ++ UInt8.ofNat (s.topic.length / 256) ::
        UInt8.ofNat (s.topic.length % 256) :: rest) := by
  rw [topicStart] at h
  obtain ⟨k, rfl⟩ : ∃ k, len = (varInt 3 s.remaining).length + (k + 2) + 1 :=
    ⟨len - (1 + (varInt 3 s.remaining).length + 2), by omega⟩
  refine ⟨(s.topic ++ (s.idBytes ++ payload)).take k ++ more, ?_⟩
  rw [encode, List.take_succ_cons, List.take_append, List.take_of_length_le (by omega)]
  simp [afterHeader]

theorem Shape.topic_cut (payload : s.Payload) {len : Nat} (hpos : 0 < len)
    (hlen : len ≤ s.packetLength) (h : len < s.topicEnd ∨ len ≤ s.topicStart)
    {more : List UInt8} {r : Option Nat × Nat}
    (hrun : mqttGetPublishTopic ((s.encode payload).take len ++ more) len = some r) :
    r = (none, len) := by
  rcases Nat.lt_or_ge s.topicStart len with hlarge | hsmall
  · obtain ⟨rest, hrest⟩ := s.buffer_eq payload (Nat.le_of_lt hlarge) more
    rw [topicStart] at hlarge
    rw [hrest, mqttGetPublishTopic_eq s.remaining_lt s.topicLength_bytes _ _ hlarge] at hrun
    rw [topicEnd, topicStart] at h
    rw [if_pos (by omega)] at hrun
    exact (Option.some.inj hrun).symm
  · simp only [mqttGetPublishTopic, Option.bind_eq_bind, Option.bind_eq_some_iff] at hrun
    obtain ⟨p, hfixed, htopic⟩ := hrun
    have hshort : p.1 + 2 ≥ len := by
      rw [topicStart] at hsmall
      rcases Nat.lt_or_ge len (1 + (varInt 3 s.remaining).length) with hcut | hwhole
      · have htake : ((s.encode payload).take len ++ more).take len =
            (s.first :: (varInt 3 s.remaining ++ s.afterHeader payload)).take len := by
          rw [List.take_append_of_le_length (by simp [s.encode_length, hlen]), List.take_take,
            Nat.min_self, encode]
        have := fixedHeader_cut htake hpos (Nat.le_of_lt hcut) hfixed
        omega
      · obtain ⟨rest, hrest⟩ := s.header_eq payload hwhole more
        rw [hrest, fixedHeader_eq s.remaining_lt _ _ hwhole] at hfixed
        cases hfixed
        exact hsmall
    rw [if_pos hshort] at htopic
    exact (Option.some.inj htopic).symm

theorem Shape.topic_found (payload : s.Payload) {len : Nat} (h : s.topicEnd ≤ len)
    (hlen : s.topicStart < len) (more : List UInt8) :
    mqttGetPublishTopic ((s.encode payload).take len ++ more) len =
      some (some s.topicStart, s.topic.length) := by
  obtain ⟨rest, hrest⟩ := s.buffer_eq payload (Nat.le_of_lt hlen) more
  rw [topicEnd] at h
  rw [topicStart] at h hlen ⊢
  rw [hrest, mqttGetPublishTopic_eq s.remaining_lt s.topicLength_bytes _ _ hlen,
    if_neg (by omega)]

theorem Shape.totalLength_found (payload : s.Payload) {len : Nat} (h : s.topicStart ≤ len)
    (more : List UInt8) :
    mqttGetTotalLength ((s.encode payload).take len ++ more) len = some s.packetLength := by
  obtain ⟨rest, hrest⟩ := s.buffer_eq payload h more
  rw [topicStart] at h
  rw [hrest, mqttGetTotalLength, fixedHeader_eq s.remaining_lt _ _ (by omega), s.packetLength_eq]
  rfl

theorem Shape.data_found (payload : s.Payload) {len : Nat} (h : s.topicStart < len)
    (hlen : len ≤ s.packetLength) (more : List UInt8) :
    mqttGetPublishData ((s.encode payload).take len ++ more) len =
      some (if s.headerEnd ≥ len then none else some s.headerEnd, len - s.headerEnd) := by
  obtain ⟨rest, hrest⟩ := s.buffer_eq payload (Nat.le_of_lt h) more
  have hpacket := s.packetLength_eq
  have hstart : 1 + (varInt 3 s.remaining).length + 2 + s.topic.length +
      (if mqttGetQos s.first > 0 then 2 else 0) = s.headerEnd := by
    rw [headerEnd, topicEnd, topicStart, idBytes_length]
    by_cases hqos : s.qos = 0
    · rw [if_neg (by simp [s.qos_first, hqos]), if_pos hqos]
    · rw [if_pos (s.qos_first.mpr hqos), if_neg hqos]
  rw [topicStart] at h
  rw [hrest, mqttGetPublishData_eq s.remaining_lt s.topicLength_bytes _ _ h]
  simp only [hstart, ← hpacket]
  have : s.headerEnd ≤ s.packetLength := by simp [packetLength]
  by_cases hend : s.headerEnd ≥ len
  · rw [if_pos (.inl hend), if_pos hend, Nat.sub_eq_zero_of_le hend]
  · rw [if_neg (by omega), if_neg hend, Nat.min_eq_right hlen]

theorem take_window {l more : List UInt8} {a n len : Nat} (h : a + n ≤ len)
    (hlen : len ≤ l.length) : ((l.take len ++ more).drop a).take n = (l.drop a).take n := by
  have htake : (l.take len).length = len := List.length_take_of_le hlen
  rw [List.drop_append_of_le_length (by omega), List.take_append_of_le_length (by simp; omega),
    List.drop_take, List.take_take, Nat.min_eq_left (by omega)]

theorem Shape.encode_drop_topicStart (payload : s.Payload) :
    (s.encode payload).drop s.topicStart = s.topic ++ (s.idBytes ++ payload) := by
  have : s.topicStart = (varInt 3 s.remaining).length + 2 + 1 := by
    rw [topicStart]
    omega
  rw [encode, this, List.drop_succ_cons, List.drop_append]
  simp [afterHeader]

theorem Shape.encode_drop_headerEnd (payload : s.Payload) :
    (s.encode payload).drop s.headerEnd = payload := by
  rw [headerEnd, topicEnd, Nat.add_assoc, ← List.drop_drop, s.encode_drop_topicStart,
    ← List.drop_drop, List.drop_left, List.drop_left]

end Esp32Project.Mqtt
