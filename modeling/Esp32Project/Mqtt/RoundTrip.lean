import Esp32Project.Mqtt.MessageId

/-! What the parsers of mqtt_msg.c find in the messages of its builders. -/

set_option autoImplicit false

namespace Esp32Project.Mqtt
open Esp32Project.Lib

variable {p : Protocol} {cap : Nat} {c : Connection}

theorem twoBytes_eq {n : Nat} : twoBytes n = [UInt8.ofNat (n / 256), UInt8.ofNat (n % 256)] := by
  have hlow : n &&& 0xff = n % 256 := Nat.and_two_pow_sub_one_eq_mod n 8
  rw [twoBytes, hlow, Nat.shiftRight_eq_div_pow]

/-- A PUBLISH that is built is one that a broker could send. -/
theorem publish_shape {qos : Int} (hqos : 0 ≤ qos ∧ qos ≤ 2) (topic data : List UInt8)
    (retain : Int) (id : UInt16)
    (hfits : (field topic).length + (if qos > 0 then 2 else 0) + data.length < 128 ^ 2) :
    ∃ (s : Shape) (payload : s.Payload),
      packet (firstByte msgPublish 0 qos retain)
        (field topic ++ (if qos > 0 then twoBytes id.toNat else []) ++ data) = s.encode payload ∧
      s.topic = topic ∧ payload.val = data ∧ s.id = id ∧ (s.qos = 0 ↔ ¬ qos > 0) := by
  have hlevel : qos.toNat < 3 := by omega
  have hzero : (⟨qos.toNat, hlevel⟩ : Fin 3) = 0 ↔ ¬ qos > 0 := by
    rw [Fin.ext_iff]
    change qos.toNat = 0 ↔ _
    omega
  have hid : (if (⟨qos.toNat, hlevel⟩ : Fin 3) = 0 then 0 else 2) = if qos > 0 then 2 else 0 := by
    by_cases h : qos > 0
    · rw [if_pos h, if_neg (fun h0 => hzero.mp h0 h)]
    · rw [if_neg h, if_pos (hzero.mpr h)]
  rw [field_length] at hfits
  let s : Shape := ⟨false, decide (retain % 2 = 1), ⟨qos.toNat, hlevel⟩, topic, id, data.length,
    by omega, by rw [hid]; omega⟩
  refine ⟨s, ⟨data, rfl⟩, ?_, rfl, rfl, rfl, hzero⟩
  have hfirst : firstByte msgPublish 0 qos retain = s.first := by
    have all : ∀ (q : Fin 3) (r : Fin 2),
        UInt8.ofNat ((msgPublish % 16).toNat <<< 4 ||| ((0 : Int) % 2).toNat <<< 3 |||
          q.val <<< 1 ||| r.val) =
        UInt8.ofNat (48 + 8 * false.toNat + 2 * q + (decide (r.val = 1)).toNat) := by decide
    have hq : (qos % 4).toNat = qos.toNat := by omega
    have hr : decide (retain % 2 = 1) = decide ((retain % 2).toNat = 1) :=
      decide_eq_decide.mpr (by omega)
    have := all ⟨qos.toNat, hlevel⟩ ⟨(retain % 2).toNat, by omega⟩
    rw [firstByte, hq, this]
    simp only [Shape.first, s, hr]
  have hidBytes : s.idBytes = if qos > 0 then twoBytes id.toNat else [] := by
    by_cases h : qos > 0
    · rw [if_pos h, twoBytes_eq]
      exact if_neg (fun h0 => hzero.mp h0 h)
    · rw [if_neg h]
      exact if_pos (hzero.mpr h)
  have hbody : s.afterHeader ⟨data, rfl⟩ =
      field topic ++ (if qos > 0 then twoBytes id.toNat else []) ++ data := by
    rw [Shape.afterHeader, hidBytes, field, List.append_assoc, List.append_assoc,
      twoBytes_eq (n := topic.length)]
    rfl
  have hremaining : s.remaining = (s.afterHeader ⟨data, rfl⟩).length := by
    simp [Shape.remaining, Shape.afterHeader, s]
    omega
  rw [packet, Shape.encode, hremaining, hbody, hfirst]

/-- Topic, payload and identifier are found again, but not the identifier without a payload. -/
theorem publish_parsed (hc : c.buffer.length = cap) (hlarge : cap < 128 ^ 2 + 3)
    {topic data : List UInt8} {qos retain : Int} (hqos : 0 ≤ qos ∧ qos ≤ 2) (htopic : topic ≠ [])
    (hfits : topic.length + (if qos > 0 then 7 else 5) + data.length ≤ cap) :
    ∃ c' t d, build p c (.publish topic data qos retain) = some c' ∧
      mqttGetTotalLength c'.message c'.message.length = some c'.message.length ∧
      mqttGetPublishTopic c'.message c'.message.length = some (some t, topic.length) ∧
      (c'.message.drop t).take topic.length = topic ∧
      mqttGetPublishData c'.message c'.message.length =
        some (if data = [] then none else some d, data.length) ∧
      (c'.message.drop d).take data.length = data ∧
      mqttGetId c'.message c'.message.length =
        some (if qos > 0 ∧ data ≠ [] then c'.messageId.toNat else 0) := by
  have hbody : (field topic).length + (if qos > 0 then 2 else 0) + data.length + 3 ≤ cap := by
    rw [field_length]
    split at hfits <;> rename_i h <;> simp only [h, if_true, if_false] <;> omega
  obtain ⟨c', hbuild, hsends⟩ := build_sends (p := p) hc rfl (by omega) hlarge
    (.publish topic data qos retain)
  obtain ⟨s, payload, hencode, hst, hsp, hsid, hsq⟩ :=
    publish_shape hqos topic data retain (assignId c.messageId) (by omega)
  have hlength : (field topic ++ (if qos > 0 then twoBytes (assignId c.messageId).toNat else []) ++
      data).length = (field topic).length + (if qos > 0 then 2 else 0) + data.length := by
    rw [List.length_append, List.length_append]
    split <;> rfl
  have hmessage : c'.message = (s.encode payload).take s.packetLength ++ [] := by
    rw [hsends.message, Outgoing.parts, if_neg htopic, sent, if_pos (by rw [hlength]; omega),
      hencode, List.append_nil, List.take_of_length_le (Nat.le_of_eq (s.encode_length payload))]
  have hlen : c'.message.length = s.packetLength := by
    rw [hmessage, List.append_nil, List.length_take, s.encode_length, Nat.min_self]
  have hpos : 0 < topic.length := List.length_pos_iff.mpr htopic
  have hstart : s.topicStart < s.packetLength := by
    rw [Shape.packetLength, Shape.headerEnd, Shape.topicEnd, hst]
    omega
  have hend : s.headerEnd ≤ s.packetLength := Nat.le_add_right _ _
  have htopicEnd : s.topicEnd ≤ s.headerEnd := Nat.le_add_right _ _
  have hpayload : s.payloadLength = data.length := by rw [← payload.2, hsp]
  have hwhole : s.packetLength = s.headerEnd + data.length := by
    rw [Shape.packetLength, hpayload]
  refine ⟨c', s.topicStart, s.headerEnd, hbuild, ?_⟩
  rw [hlen, hmessage]
  refine ⟨s.totalLength_found payload (Nat.le_of_lt hstart) [],
    hst ▸ s.topic_found payload (Nat.le_trans htopicEnd hend) hstart [], ?_, ?_, ?_, ?_⟩
  · rw [take_window (by rw [← hst]; exact Nat.le_trans htopicEnd hend)
      (Nat.le_of_eq (s.encode_length payload).symm), s.encode_drop_topicStart, hst, List.take_left]
  · rw [s.data_found payload hstart (Nat.le_refl _) []]
    by_cases hdata : data = []
    · rw [if_pos hdata, if_pos (by rw [hwhole, hdata]; exact Nat.le_refl _), hwhole,
        Nat.add_sub_cancel_left]
    · have := List.length_pos_iff.mpr hdata
      rw [if_neg hdata, if_neg (by omega), hwhole, Nat.add_sub_cancel_left]
  · rw [take_window (by omega) (Nat.le_of_eq (s.encode_length payload).symm),
      s.encode_drop_headerEnd, hsp, List.take_length]
  · rw [s.id_found payload hend (Nat.le_of_lt hstart) [], hsends.id, hsid]
    by_cases h : qos > 0
    · have hcounter : Outgoing.counter cap c.messageId (.publish topic data qos retain) =
          assignId c.messageId := if_pos ⟨htopic, by omega, h⟩
      rw [hcounter]
      by_cases hdata : data = []
      · rw [if_pos (.inr (by rw [hwhole, hdata]; exact Nat.le_refl _)), if_neg (fun h => h.2 hdata)]
      · have := List.length_pos_iff.mpr hdata
        rw [if_neg (fun h' => h'.elim (fun h0 => hsq.mp h0 h) (by omega)), if_pos ⟨h, hdata⟩]
    · rw [if_pos (.inl (hsq.mpr h)), if_neg (fun h' => h h'.1)]

theorem publish_parsed_sample : ∃ c' t d,
    build .v311 (mqttMsgInit (List.replicate 16 0)) (.publish [0x61] [0x31, 0x32] 1 0) = some c' ∧
      mqttGetTotalLength c'.message c'.message.length = some c'.message.length ∧
      mqttGetPublishTopic c'.message c'.message.length = some (some t, 1) ∧
      (c'.message.drop t).take 1 = [0x61] ∧
      mqttGetPublishData c'.message c'.message.length = some (some d, 2) ∧
      (c'.message.drop d).take 2 = [0x31, 0x32] ∧
      mqttGetId c'.message c'.message.length = some c'.messageId.toNat := by
  have hfits : [(0x61 : UInt8)].length + (if (1 : Int) > 0 then 7 else 5) +
      [(0x31 : UInt8), 0x32].length ≤ 16 := by decide
  obtain ⟨c', t, d, h⟩ := publish_parsed (p := .v311) (c := mqttMsgInit (List.replicate 16 0))
    rfl (by decide) (by decide) (by decide) hfits
  exact ⟨c', t, d, h⟩

end Esp32Project.Mqtt
