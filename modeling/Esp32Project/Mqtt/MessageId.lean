import Esp32Project.Mqtt.Bounds
import Esp32Project.Mqtt.Stream

/-! `mqtt_get_id`, and what it finds in packets that come in and go out. -/

set_option autoImplicit false

namespace Esp32Project.Mqtt
open Esp32Project.Lib

/-- The loop over the remaining length, which is not added up here. -/
def skipLength (length : Nat) : List UInt8 → Nat → Option Nat
  | [], i => if i < length then none else some i
  | b :: bs, i =>
    if i < length then
      if b &&& 0x80 = 0 then some (i + 1) else skipLength length bs (i + 1)
    else some i

def getPublishId (buffer : List UInt8) (first : UInt8) (length : Nat) : Option Nat := do
  let i ← skipLength length buffer.tail 1
  if i + 2 ≥ length then return 0 else do
    let topiclen ← topicLen buffer i
    let i := i + 2
    if i + topiclen ≥ length then return 0 else
      let i := i + topiclen
      if mqttGetQos first > 0 then if i + 2 ≥ length then return 0 else topicLen buffer i
      else return 0

/-- The types whose identifier follows a remaining length of one byte. -/
def shortIdTypes : List UInt8 := [4, 5, 6, 7, 9, 11, 8]

def mqttGetId (buffer : List UInt8) (length : Nat) : Option Nat :=
  if length < 1 then some 0 else do
    let first ← buffer[0]?
    if mqttGetType first = 3 then getPublishId buffer first length
    else if mqttGetType first ∈ shortIdTypes then
      if length ≥ 4 then do
        let second ← buffer[1]?
        if second &&& 0x80 = 0 then topicLen buffer 2 else return 0
      else return 0
    else return 0

theorem skipLength_le {length i : Nat} {bytes : List UInt8} (h : length ≤ i + bytes.length)
    (hi : i ≤ length) : ∃ j, skipLength length bytes i = some j ∧ j ≤ length := by
  induction bytes generalizing i with
  | nil => exact ⟨i, if_neg (Nat.not_lt_of_le h), hi⟩
  | cons b bs ih =>
    rw [skipLength]
    split
    next hlt =>
      split
      · exact ⟨i + 1, rfl, hlt⟩
      · exact ih (by rw [List.length_cons] at h; omega) hlt
    next => exact ⟨i, rfl, hi⟩

/-- Nothing outside the `length` bytes is read, whatever they are. -/
theorem mqttGetId_isSome {buffer : List UInt8} {length : Nat} (h : length ≤ buffer.length) :
    ∃ n, mqttGetId buffer length = some n := by
  unfold mqttGetId
  split
  · exact ⟨0, rfl⟩
  next hlen =>
    rw [List.getElem?_eq_getElem (show 0 < buffer.length by omega), Option.bind_eq_bind,
      Option.bind_some]
    split
    · obtain ⟨i, hi, hle⟩ := @skipLength_le length 1 buffer.tail
        (by rw [List.length_tail]; omega) (by omega)
      rw [getPublishId, hi, Option.bind_eq_bind, Option.bind_some]
      split
      · exact ⟨0, rfl⟩
      · obtain ⟨n, hn⟩ := topicLen_isSome (show i + 2 ≤ buffer.length by omega)
        simp only [hn, Option.bind_some]
        split
        · exact ⟨0, rfl⟩
        · split
          · split
            · exact ⟨0, rfl⟩
            · exact topicLen_isSome (by omega)
          · exact ⟨0, rfl⟩
    · split
      · split
        · rw [List.getElem?_eq_getElem (show 1 < buffer.length by omega), Option.bind_some]
          split
          · exact topicLen_isSome (by omega)
          · exact ⟨0, rfl⟩
        · exact ⟨0, rfl⟩
      · exact ⟨0, rfl⟩

theorem skipLength_of_lengthLoop {length i t : Nat} {bytes : List UInt8} {r : Nat × Nat}
    (h : lengthLoop length bytes i t = some r) : skipLength length bytes i = some r.1 := by
  induction bytes generalizing i t with
  | nil =>
    rw [lengthLoop] at h
    rw [skipLength]
    split at h
    · cases h
    next hlt => rw [if_neg hlt, ← Option.some.inj h]
  | cons b bs ih =>
    rw [skipLength]
    by_cases hi : i < length
    · obtain ⟨b', bs', t', hcons, ⟨hmark, hr⟩ | ⟨hmark, hrest⟩⟩ := lengthLoop_some hi h
      · cases hcons
        rw [if_pos hi, if_pos hmark, hr]
      · cases hcons
        rw [if_pos hi, if_neg hmark, ih hrest]
    · rw [lengthLoop, if_neg hi] at h
      rw [if_neg hi, ← Option.some.inj h]

theorem skipLength_header {n : Nat} (hn : n < 128 ^ 4) (length : Nat) (rest : List UInt8)
    (h : 1 + (varInt 3 n).length ≤ length) :
    skipLength length (varInt 3 n ++ rest) 1 = some (1 + (varInt 3 n).length) := by
  have hloop : lengthLoop length (varInt 3 n ++ rest) (0 + 1) 0 = _ :=
    lengthLoop_varInt 3 hn (by omega) (by omega) rest (by omega)
  have := skipLength_of_lengthLoop hloop
  simpa only [Nat.zero_add] using this

theorem topicLen_append (front : List UInt8) (hi lo : UInt8) (rest : List UInt8) :
    topicLen (front ++ hi :: lo :: rest) front.length = some (hi.toNat * 256 + lo.toNat) := by
  have hor : hi.toNat <<< 8 ||| lo.toNat = hi.toNat * 256 + lo.toNat := by
    rw [← Nat.shiftLeft_add_eq_or_of_lt (UInt8.toNat_lt lo), Nat.shiftLeft_eq]
  have h0 : (front ++ hi :: lo :: rest)[front.length]? = some hi := by simp
  have h1 : (front ++ hi :: lo :: rest)[front.length + 1]? = some lo := by simp
  rw [topicLen, h0, h1]
  exact congrArg some hor

def Shape.front (s : Shape) : List UInt8 :=
  s.first :: (varInt 3 s.remaining ++ UInt8.ofNat (s.topic.length / 256) ::
    UInt8.ofNat (s.topic.length % 256) :: (s.topic ++ s.idBytes))

theorem Shape.front_length (s : Shape) : s.front.length = s.headerEnd := by
  simp [front, headerEnd, topicEnd, topicStart]
  omega

theorem Shape.take_encode (s : Shape) (payload : s.Payload) {readLen : Nat}
    (h : s.headerEnd ≤ readLen) : ∃ rest, (s.encode payload).take readLen = s.front ++ rest := by
  have hencode : s.encode payload = s.front ++ payload := by
    simp [encode, front, afterHeader]
  rw [hencode, List.take_append, List.take_of_length_le (by rw [s.front_length]; exact h)]
  exact ⟨_, rfl⟩

theorem Shape.type_eq (s : Shape) : mqttGetType s.first = 3 := s.type_first

/-- The identifier of a PUBLISH of which all up to the payload is there, whatever follows. -/
theorem Shape.id_found (s : Shape) (payload : s.Payload) {readLen len : Nat}
    (hread : s.headerEnd ≤ readLen) (h : s.topicStart ≤ len) (more : List UInt8) :
    mqttGetId ((s.encode payload).take readLen ++ more) len =
      some (if s.qos = 0 ∨ len ≤ s.headerEnd then 0 else s.id.toNat) := by
  obtain ⟨rest, hrest⟩ := s.take_encode payload hread
  have hstart := s.four_le_topicStart
  have hheader : 1 + (varInt 3 s.remaining).length + 2 = s.topicStart := rfl
  rw [hrest, List.append_assoc]
  generalize rest ++ more = rest
  have hskip := skipLength_header s.remaining_lt len
    (UInt8.ofNat (s.topic.length / 256) :: UInt8.ofNat (s.topic.length % 256) ::
      (s.topic ++ (s.idBytes ++ rest))) (by omega)
  have htopic := topicLen_eq s.topicLength_bytes s.first (s.topic ++ (s.idBytes ++ rest))
    (n := s.remaining)
  have hbuffer : s.front ++ rest = s.first :: (varInt 3 s.remaining ++
      UInt8.ofNat (s.topic.length / 256) :: UInt8.ofNat (s.topic.length % 256) ::
        (s.topic ++ (s.idBytes ++ rest))) := by
    simp [front]
  rw [mqttGetId, if_neg (by omega), hbuffer, List.getElem?_cons_zero, Option.bind_eq_bind,
    Option.bind_some, if_pos s.type_eq, getPublishId, List.tail_cons, hskip, Option.bind_eq_bind,
    Option.bind_some]
  simp only [hheader, htopic, Option.bind_some]
  have hend : s.topicStart + s.topic.length = s.topicEnd := rfl
  have hlen := s.idBytes_length
  have hheaderEnd : s.topicEnd + s.idBytes.length = s.headerEnd := rfl
  simp only [hend]
  by_cases hqos : s.qos = 0
  · rw [if_pos (Or.inl hqos : s.qos = 0 ∨ len ≤ s.headerEnd)]
    have hnot : ¬ mqttGetQos s.first > 0 := fun h => s.qos_first.mp h hqos
    rw [if_neg hnot]
    split
    · rfl
    · split <;> rfl
  · have hpos : mqttGetQos s.first > 0 := s.qos_first.mpr hqos
    rw [if_neg hqos] at hlen
    rw [if_pos hpos]
    by_cases hcut : len ≤ s.headerEnd
    · rw [if_pos (Or.inr hcut : s.qos = 0 ∨ len ≤ s.headerEnd)]
      split
      · rfl
      · split
        · rfl
        · rw [if_pos (by omega)]
          rfl
    · rw [if_neg (by omega), if_neg (by omega), if_neg (by omega),
        if_neg (by simp [hqos, Nat.lt_of_not_le hcut] : ¬ (s.qos = 0 ∨ len ≤ s.headerEnd))]
      have hfront : (s.first :: (varInt 3 s.remaining ++ UInt8.ofNat (s.topic.length / 256) ::
          UInt8.ofNat (s.topic.length % 256) :: s.topic)).length = s.topicEnd := by
        simp [topicEnd, topicStart]
        omega
      have hid : s.idBytes = [UInt8.ofNat (s.id.toNat / 256), UInt8.ofNat (s.id.toNat % 256)] :=
        if_neg hqos
      have hvalue : (UInt8.ofNat (s.id.toNat / 256)).toNat * 256 +
          (UInt8.ofNat (s.id.toNat % 256)).toNat = s.id.toNat := by
        have := s.id.toNat_lt
        simp only [UInt8.toNat_ofNat']
        omega
      have hget := topicLen_append (s.first :: (varInt 3 s.remaining ++
        UInt8.ofNat (s.topic.length / 256) :: UInt8.ofNat (s.topic.length % 256) :: s.topic))
        (UInt8.ofNat (s.id.toNat / 256)) (UInt8.ofNat (s.id.toNat % 256)) rest
      rw [hfront, hvalue] at hget
      rw [hid]
      simpa using hget

end Esp32Project.Mqtt
