import Esp32Project.Mqtt.Message

/-!
`deliver_publish` of mqtt.c and the callbacks of modules/mqtt.c below it. A run
is `none` once a copy leaves a buffer or follows NULL.
-/

set_option autoImplicit false

namespace Esp32Project.Mqtt
open Esp32Project.Lib

def topicBuffSize : Nat := 64

def dataBuffSize : Nat := 768

def msgTypePublish : UInt8 := 3

structure Buffer (n : Nat) where
  bytes : List UInt8
  size : bytes.length = n

def Buffer.zero (n : Nat) : Buffer n := ⟨List.replicate n 0, List.length_replicate⟩

/-- `memcpy` to the buffer and the terminator behind it. -/
def Buffer.fill {n : Nat} (b : Buffer n) (s : List UInt8) : Option (Buffer n) :=
  if h : s.length < n then
    some ⟨s ++ 0 :: b.bytes.drop (s.length + 1), by simp [b.size]; omega⟩
  else none

/-- The first `len` bytes, as `lua_pushlstring` reads them. -/
def Buffer.read {n : Nat} (b : Buffer n) (len : Nat) : Option (List UInt8) :=
  if len ≤ n then some (b.bytes.take len) else none

/-- The bytes that a `memcpy` from `src` reads; nothing is read of NULL for no bytes. -/
def copyFrom (inBuffer : List UInt8) (src : Option Nat) (n : Nat) : Option (List UInt8) :=
  match src with
  | none => if n = 0 then some [] else none
  | some p => if p + n ≤ inBuffer.length then some ((inBuffer.drop p).take n) else none

/-- mqtt_event_data_t, with the pointers as places in the client's buffer. -/
structure EventData where
  topic : Option Nat
  data : Option Nat
  topicLength : Nat
  dataLength : Nat
  dataOffset : Nat
  deriving Repr

structure Chunk where
  topic : List UInt8
  data : List UInt8
  deriving DecidableEq, Repr

structure Statics where
  topicBuf : Buffer topicBuffSize
  dataBuf : Buffer dataBuffSize

/-- The topic is copied with the first of the data only. -/
def fillTopic (inBuffer : List UInt8) (m : Statics) (e : EventData) :
    Option (Buffer topicBuffSize) :=
  if e.dataOffset = 0 then (copyFrom inBuffer e.topic e.topicLength).bind m.topicBuf.fill
  else some m.topicBuf

/-- The call of the Lua callback, if one is registered. -/
def pushChunk (set : Bool) (m : Statics) (e : EventData) : Option (List Chunk) :=
  if set then do
    let topic ← m.topicBuf.read e.topicLength
    let data ← m.dataBuf.read e.dataLength
    return [⟨topic, data⟩]
  else some []

/-- The body of `data_cb` and `publish_cb`; `set` is whether the Lua callback is registered. -/
def eventCb (set : Bool) (inBuffer : List UInt8) (m : Statics) (e : EventData) :
    Option (Statics × List Chunk) := do
  let topicBuf ← fillTopic inBuffer m e
  let bytes ← copyFrom inBuffer e.data e.dataLength
  let dataBuf ← m.dataBuf.fill bytes
  let chunks ← pushChunk set ⟨topicBuf, dataBuf⟩ e
  return (⟨topicBuf, dataBuf⟩, chunks)

/-- Its chunks are asked for, so its Lua callback is registered. -/
def dataCb : List UInt8 → Statics → EventData → Option (Statics × List Chunk) := eventCb true

def publishCb (set : Bool) : List UInt8 → Statics → EventData → Option (Statics × List Chunk) :=
  eventCb set

/-- The fields of mqtt_state_t that the receive loop uses. -/
structure MqttState where
  inBuffer : List UInt8
  messageLength : UInt16
  messageLengthRead : UInt16

def readInto (inBuffer bytes : List UInt8) : List UInt8 := bytes ++ inBuffer.drop bytes.length

/-- The state after one more read of the message. -/
def MqttState.readMore (s : MqttState) (bytes : List UInt8) : MqttState :=
  { s with
    inBuffer := readInto s.inBuffer bytes
    messageLengthRead := s.messageLengthRead + UInt16.ofNat bytes.length }

/-- The locals of `deliver_publish`. -/
structure Progress where
  lenRead : Nat
  totalMqttLen : Int
  mqttOffset : Nat

/-- The body of the loop up to its test; the chunks are those of the data callback. -/
def deliverRound (publishSet : Bool) (length : Nat) (s : MqttState) (m : Statics) (g : Progress) :
    Option (Statics × Progress × List Chunk) := do
  let (topic, topicLength) ← mqttGetPublishTopic s.inBuffer length
  let (data, dataLength) ← mqttGetPublishData s.inBuffer length
  let total : Int := if g.totalMqttLen = 0 then
      s.messageLength.toNat - s.messageLengthRead.toNat + dataLength
    else g.totalMqttLen
  let mqttLen := if g.totalMqttLen = 0 then dataLength else g.lenRead
  let event : EventData := ⟨topic, data, topicLength, mqttLen % 65536, g.mqttOffset % 65536⟩
  let (m, chunks) ← dataCb s.inBuffer m event
  let (m, _) ← publishCb publishSet s.inBuffer m event
  return (m, ⟨g.lenRead, total, g.mqttOffset + mqttLen⟩, chunks)

/-- The rounds, with the reads still to come; the loop waits once they are spent. -/
def deliverLoop (publishSet : Bool) (length : Nat) (reads : List (List UInt8)) (s : MqttState)
    (m : Statics) (g : Progress) : Option (List Chunk) := do
  let (m, g, chunks) ← deliverRound publishSet length s m g
  if s.messageLength ≤ s.messageLengthRead then return chunks else
    match reads with
    | [] => return chunks
    | bytes :: rest =>
      let g := { g with lenRead := bytes.length }
      let later ← deliverLoop publishSet length rest (s.readMore bytes) m g
      return chunks ++ later

def deliverPublish (publishSet : Bool) (reads : List (List UInt8)) (s : MqttState) (m : Statics)
    (length : Nat) : Option (List Chunk) :=
  deliverLoop publishSet length reads s m ⟨0, 0, 0⟩

/-- The PUBLISH case of `mqtt_start_receive_schedule`, its answer to the broker apart. -/
def receiveSchedule (publishSet : Bool) (inBuffer : List UInt8) (m : Statics) :
    List (List UInt8) → Option (List Chunk)
  | [] => some []
  | bytes :: reads => do
    let inBuffer := readInto inBuffer bytes
    let first ← inBuffer[0]?
    if mqttGetType first = msgTypePublish then do
      let read := UInt16.ofNat bytes.length
      let total ← mqttGetTotalLength inBuffer read.toNat
      deliverPublish publishSet reads ⟨inBuffer, UInt16.ofNat total, read⟩ m read.toNat
    else some []

theorem Buffer.fill_some {n : Nat} {b b' : Buffer n} {s : List UInt8} (h : b.fill s = some b') :
    s.length < n ∧ b'.read s.length = some s := by
  simp only [Buffer.fill] at h
  split at h
  next hlt =>
    cases h
    refine ⟨hlt, ?_⟩
    rw [Buffer.read, if_pos (Nat.le_of_lt hlt)]
    simp
  next => cases h

theorem Buffer.exists_fill {n : Nat} (b : Buffer n) {s : List UInt8} (h : s.length < n) :
    ∃ b', b.fill s = some b' := by
  simp [Buffer.fill, h]

theorem copyFrom_length {inBuffer s : List UInt8} {src : Option Nat} {n : Nat}
    (h : copyFrom inBuffer src n = some s) : s.length = n := by
  cases src with
  | none =>
    simp only [copyFrom] at h
    split at h <;> simp_all
  | some p =>
    simp only [copyFrom] at h
    split at h
    · cases h
      rw [List.length_take, List.length_drop]
      omega
    · cases h

theorem eventCb_some {set : Bool} {inBuffer : List UInt8} {m m' : Statics} {e : EventData}
    {chunks : List Chunk} (h : eventCb set inBuffer m e = some (m', chunks)) :
    ∃ text bytes, copyFrom inBuffer e.data e.dataLength = some bytes ∧
      bytes.length < dataBuffSize ∧ (set = true → chunks = [⟨text, bytes⟩]) ∧
      (e.dataOffset = 0 → copyFrom inBuffer e.topic e.topicLength = some text ∧
        text.length < topicBuffSize) := by
  simp only [eventCb, Option.bind_eq_bind, Option.bind_eq_some_iff] at h
  obtain ⟨topicBuf, htopic, bytes, hbytes, dataBuf, hdata, pushes, hpush, hrest⟩ := h
  cases hrest
  obtain ⟨hlt, hread⟩ := Buffer.fill_some hdata
  rw [copyFrom_length hbytes] at hread
  have hchunk : ∃ text, (set = true → chunks = [⟨text, bytes⟩]) ∧
      ∀ s, topicBuf.read e.topicLength = some s → s = text := by
    cases hset : set with
    | true =>
      simp only [pushChunk, hset, if_true, Option.bind_eq_bind, Option.bind_eq_some_iff,
        hread] at hpush
      obtain ⟨text, htext, data, hsame, hone⟩ := hpush
      cases hsame
      cases hone
      exact ⟨text, fun _ => rfl, fun s hs => Option.some.inj (hs.symm.trans htext)⟩
    | false =>
      cases hs : topicBuf.read e.topicLength with
      | none => exact ⟨[], nofun, nofun⟩
      | some s => exact ⟨s, nofun, fun _ h => (Option.some.inj h).symm⟩
  obtain ⟨text, hone, hsame⟩ := hchunk
  refine ⟨text, bytes, hbytes, hlt, hone, fun hoffset => ?_⟩
  rw [fillTopic, if_pos hoffset, Option.bind_eq_some_iff] at htopic
  obtain ⟨s, hcopy, hfill⟩ := htopic
  obtain ⟨hshort, hs⟩ := Buffer.fill_some hfill
  rw [copyFrom_length hcopy] at hs
  rw [← hsame s hs]
  exact ⟨hcopy, hshort⟩

theorem eventCb_eq (set : Bool) {inBuffer text bytes : List UInt8} (m : Statics) {e : EventData}
    (hoffset : e.dataOffset = 0) (htext : copyFrom inBuffer e.topic e.topicLength = some text)
    (hbytes : copyFrom inBuffer e.data e.dataLength = some bytes)
    (hshort : text.length < topicBuffSize) (hfits : bytes.length < dataBuffSize) :
    ∃ m', eventCb set inBuffer m e = some (m', if set then [⟨text, bytes⟩] else []) := by
  obtain ⟨topicBuf, htopic⟩ := m.topicBuf.exists_fill hshort
  obtain ⟨dataBuf, hdata⟩ := m.dataBuf.exists_fill hfits
  have hreads := (Buffer.fill_some htopic).2
  have hreadd := (Buffer.fill_some hdata).2
  rw [copyFrom_length htext] at hreads
  rw [copyFrom_length hbytes] at hreadd
  refine ⟨⟨topicBuf, dataBuf⟩, ?_⟩
  cases set <;>
    simp [eventCb, fillTopic, hoffset, htext, htopic, hbytes, hdata, pushChunk, hreads, hreadd]

theorem deliverRound_some {publishSet : Bool} {length : Nat} {s : MqttState} {m m' : Statics}
    {g g' : Progress} {chunks : List Chunk}
    (h : deliverRound publishSet length s m g = some (m', g', chunks)) :
    ∃ topic topicLength data dataLength text bytes,
      mqttGetPublishTopic s.inBuffer length = some (topic, topicLength) ∧
      mqttGetPublishData s.inBuffer length = some (data, dataLength) ∧
      chunks = [⟨text, bytes⟩] ∧ bytes.length < dataBuffSize ∧
      (g.mqttOffset % 65536 = 0 →
        copyFrom s.inBuffer topic topicLength = some text ∧ text.length < topicBuffSize) ∧
      (g.totalMqttLen = 0 → copyFrom s.inBuffer data (dataLength % 65536) = some bytes ∧
        g' = ⟨g.lenRead, s.messageLength.toNat - s.messageLengthRead.toNat + dataLength,
          g.mqttOffset + dataLength⟩) ∧
      (g.totalMqttLen ≠ 0 → copyFrom s.inBuffer data (g.lenRead % 65536) = some bytes ∧
        g' = ⟨g.lenRead, g.totalMqttLen, g.mqttOffset + g.lenRead⟩) := by
  simp only [deliverRound, Option.bind_eq_bind, Option.bind_eq_some_iff] at h
  obtain ⟨⟨topic, topicLength⟩, htopic, ⟨data, dataLength⟩, hdata, ⟨m₁, chunks₁⟩, hcb, p, -,
    hrest⟩ := h
  cases hrest
  obtain ⟨text, bytes, hbytes, hfits, hone, htext⟩ := eventCb_some hcb
  refine ⟨topic, topicLength, data, dataLength, text, bytes, htopic, hdata, hone rfl, hfits, htext,
    fun hfirst => ?_, fun hlater => ?_⟩
  · simp only [if_pos hfirst] at hbytes ⊢
    exact ⟨hbytes, trivial⟩
  · simp only [if_neg hlater] at hbytes ⊢
    exact ⟨hbytes, trivial⟩

theorem deliverLoop_some {publishSet : Bool} {length : Nat} {reads : List (List UInt8)}
    {s : MqttState} {m : Statics} {g : Progress} {out : List Chunk}
    (h : deliverLoop publishSet length reads s m g = some out) :
    ∃ m' g' chunks, deliverRound publishSet length s m g = some (m', g', chunks) ∧
      ((s.messageLength ≤ s.messageLengthRead ∨ reads = []) ∧ out = chunks ∨
        s.messageLengthRead < s.messageLength ∧ ∃ bytes rest later, reads = bytes :: rest ∧
          deliverLoop publishSet length rest (s.readMore bytes) m'
            { g' with lenRead := bytes.length } = some later ∧ out = chunks ++ later) := by
  rw [deliverLoop] at h
  simp only [Option.bind_eq_bind, Option.bind_eq_some_iff] at h
  obtain ⟨⟨m', g', chunks⟩, hround, hrest⟩ := h
  refine ⟨m', g', chunks, hround, ?_⟩
  simp only at hrest
  split at hrest
  next hdone => exact .inl ⟨.inl hdone, (Option.some.inj hrest).symm⟩
  next hmore =>
    cases reads with
    | nil => exact .inl ⟨.inr rfl, (Option.some.inj hrest).symm⟩
    | cons bytes rest =>
      simp only [Option.bind_eq_some_iff] at hrest
      obtain ⟨later, hlater, hout⟩ := hrest
      refine .inr ⟨?_, bytes, rest, later, rfl, hlater, (Option.some.inj hout).symm⟩
      exact UInt16.not_le.mp hmore

def dataOf (out : List Chunk) : List UInt8 := (out.map Chunk.data).flatten

theorem deliverLoop_length {publishSet : Bool} {length : Nat} {reads : List (List UInt8)}
    {s : MqttState} {m : Statics} {g : Progress} {out : List Chunk}
    (h : deliverLoop publishSet length reads s m g = some out) (hlater : g.totalMqttLen ≠ 0)
    (hread : g.lenRead < 65536) (hreads : ∀ bytes ∈ reads, bytes.length < 65536) :
    ∃ taken left, reads = taken ++ left ∧
      (dataOf out).length = g.lenRead + taken.flatten.length ∧
      (left = [] ∨
        s.messageLength ≤ s.messageLengthRead + UInt16.ofNat taken.flatten.length) := by
  induction reads generalizing s m g out with
  | nil =>
    obtain ⟨m', g', chunks, hround, ⟨-, rfl⟩ | ⟨-, bytes, rest, later, hnil, -⟩⟩ :=
      deliverLoop_some h
    · obtain ⟨_, _, _, _, text, bytes, -, -, rfl, -, -, -, hcopy⟩ := deliverRound_some hround
      have := copyFrom_length (hcopy hlater).1
      exact ⟨[], [], rfl, by simp [dataOf, this, Nat.mod_eq_of_lt hread], .inl rfl⟩
    · cases hnil
  | cons first rest ih =>
    obtain ⟨m', g', chunks, hround, hcase⟩ := deliverLoop_some h
    obtain ⟨_, _, _, _, text, bytes, -, -, rfl, -, -, -, hcopy⟩ := deliverRound_some hround
    have hlength := copyFrom_length (hcopy hlater).1
    rw [Nat.mod_eq_of_lt hread] at hlength
    rcases hcase with ⟨hdone, rfl⟩ | ⟨-, b, r, later, heq, hloop, rfl⟩
    · refine ⟨[], first :: rest, rfl, by simp [dataOf, hlength], .inr ?_⟩
      rcases hdone with hdone | hnil
      · simpa using hdone
      · cases hnil
    · cases heq
      obtain ⟨taken, left, hsplit, hsum, hstop⟩ := ih hloop
        (by simpa [(hcopy hlater).2] using hlater)
        (hreads first (by simp)) (fun b hb => hreads b (by simp [hb]))
      refine ⟨first :: taken, left, by simp [hsplit], ?_, ?_⟩
      · simp only [dataOf] at hsum ⊢
        simp [hlength, hsum]
      · rcases hstop with hstop | hstop
        · exact .inl hstop
        · refine .inr ?_
          simpa [MqttState.readMore, UInt16.add_assoc] using hstop

end Esp32Project.Mqtt
