import Esp32Project.Mqtt.Reassembly

/-!
The events that the receive path hands to the callbacks, for any bytes from the
wire in any reads. The callbacks copy what an event says without a look at the
sizes of their buffers or at its pointers.
-/

set_option autoImplicit false

namespace Esp32Project.Mqtt
open Esp32Project.Lib

/-- What a callback may be called with: no write behind its buffers, the terminator
included, and no read from NULL. -/
structure EventSafe (e : EventData) : Prop where
  topicFits : e.dataOffset = 0 → e.topicLength < topicBuffSize
  topicGiven : e.dataOffset = 0 → 0 < e.topicLength → e.topic ≠ none
  dataFits : e.dataLength < dataBuffSize
  dataGiven : 0 < e.dataLength → e.data ≠ none

/-- A callback that stays within its buffers and off NULL was called with such an event. -/
theorem safe_of_eventCb {set : Bool} {inBuffer : List UInt8} {m m' : Statics} {e : EventData}
    {chunks : List Chunk} (h : eventCb set inBuffer m e = some (m', chunks)) : EventSafe e := by
  obtain ⟨text, bytes, hbytes, hfits, -, htopic⟩ := eventCb_some h
  have hnull {src : Option Nat} {n : Nat} {copied : List UInt8}
      (hcopy : copyFrom inBuffer src n = some copied) (hn : 0 < n) : src ≠ none := by
    rintro rfl
    rw [copyFrom, if_neg (by omega)] at hcopy
    cases hcopy
  refine ⟨fun ho => ?_, fun ho => hnull (htopic ho).1, ?_, hnull hbytes⟩
  · rw [← copyFrom_length (htopic ho).1]
    exact (htopic ho).2
  · rwa [← copyFrom_length hbytes]

/-- The event of a round, and the progress behind it. -/
def roundEvent (length : Nat) (s : MqttState) (g : Progress) : Option (EventData × Progress) := do
  let (topic, topicLength) ← mqttGetPublishTopic s.inBuffer length
  let (data, dataLength) ← mqttGetPublishData s.inBuffer length
  let total : Int := if g.totalMqttLen = 0 then
      s.messageLength.toNat - s.messageLengthRead.toNat + dataLength
    else g.totalMqttLen
  let mqttLen := if g.totalMqttLen = 0 then dataLength else g.lenRead
  return (⟨topic, data, topicLength, mqttLen % 65536, g.mqttOffset % 65536⟩,
    ⟨g.lenRead, total, g.mqttOffset + mqttLen⟩)

/-- A round hands its event to the one callback and to the other. -/
theorem deliverRound_eq (publishSet : Bool) (length : Nat) (s : MqttState) (m : Statics)
    (g : Progress) :
    deliverRound publishSet length s m g = (roundEvent length s g).bind fun (e, g') =>
      (dataCb s.inBuffer m e).bind fun (m, chunks) =>
        (publishCb publishSet s.inBuffer m e).map fun (m, _) => (m, g', chunks) := by
  unfold deliverRound roundEvent
  cases mqttGetPublishTopic s.inBuffer length with
  | none => rfl
  | some topic =>
    cases mqttGetPublishData s.inBuffer length with
    | none => rfl
    | some data => simp [Option.map_eq_bind]

section

variable {buffer : List UInt8} {length : Nat}

theorem topicLen_isSome {i : Nat} (h : i + 2 ≤ buffer.length) :
    ∃ t, topicLen buffer i = some t := by
  have h₀ : buffer[i]? = some buffer[i] := List.getElem?_eq_getElem (by omega)
  have h₁ : buffer[i + 1]? = some buffer[i + 1] := List.getElem?_eq_getElem (by omega)
  simp [topicLen, h₀, h₁]

end

end Esp32Project.Mqtt
