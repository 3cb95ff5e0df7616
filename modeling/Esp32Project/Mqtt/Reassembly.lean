import Esp32Project.Mqtt.Packet
import Esp32Project.Mqtt.Receive
import Mathlib.Algebra.GroupWithZero.Nat

/-!
What the data callback gets of a PUBLISH packet that arrives in several reads.
After the first read the buffer no longer holds the header, yet every round
looks for the payload behind it.
-/

set_option autoImplicit false

namespace Esp32Project.Mqtt
open Esp32Project.Lib

/-- CONFIG_MQTT_BUFFER_SIZE_BYTE in its range. -/
structure BufferSize where
  bytes : Nat
  range : 128 ≤ bytes ∧ bytes ≤ 4096

structure Split (size : BufferSize) (packetLength : Nat) where
  sizes : List Nat
  nonempty : ∀ n ∈ sizes, 0 < n
  fits : ∀ n ∈ sizes, n ≤ size.bytes
  whole : sizes.sum = packetLength

def chop : List Nat → List UInt8 → List (List UInt8)
  | [], _ => []
  | n :: sizes, bytes => bytes.take n :: chop sizes (bytes.drop n)

/-- The chunks of one packet, from whatever the buffers hold before it. -/
def receivePublish {size : BufferSize} (publishSet : Bool) (inBuffer : Buffer size.bytes)
    (m : Statics) (s : Shape) (payload : s.Payload) (split : Split size s.packetLength) :
    Option (List Chunk) :=
  receiveSchedule publishSet inBuffer.bytes m (chop split.sizes (s.encode payload))

/-- The chunks make up the payload, and every one comes with the topic. -/
def Reassembled (run : Option (List Chunk)) (topic payload : List UInt8) : Prop :=
  ∃ out, run = some out ∧ dataOf out = payload ∧ ∀ c ∈ out, c.topic = topic

theorem chop_flatten (sizes : List Nat) (bytes : List UInt8) :
    (chop sizes bytes).flatten = bytes.take sizes.sum := by
  induction sizes generalizing bytes with
  | nil => rfl
  | cons n sizes ih => rw [chop, List.flatten_cons, ih, List.sum_cons, List.take_add]

theorem length_le_of_mem_chop {sizes : List Nat} {bytes read : List UInt8}
    (h : read ∈ chop sizes bytes) : ∃ n ∈ sizes, read.length ≤ n := by
  induction sizes generalizing bytes with
  | nil => cases h
  | cons n sizes ih =>
    rcases List.mem_cons.mp h with rfl | hrest
    · exact ⟨n, by simp, List.length_take_le _ _⟩
    · obtain ⟨k, hk, hle⟩ := ih hrest
      exact ⟨k, by simp [hk], hle⟩

/-- Behind a short second byte there is no payload. -/
theorem data_overwritten {x : UInt8} {rest : List UInt8} {length : Nat} (h : 1 < length)
    {r : Option Nat × Nat} (hrun : mqttGetPublishData (x :: 0 :: rest) length = some r) :
    r.1 = none := by
  have hfixed : fixedHeader (x :: 0 :: rest) length = some (2, 2) := by
    have hn : (0 : Nat) < 128 ^ 4 := by decide
    simpa [varInt] using fixedHeader_eq hn x rest (by simp [varInt]; omega)
  simp only [mqttGetPublishData, hfixed, Option.bind_eq_bind, Option.bind_some] at hrun
  split at hrun
  · cases hrun
    rfl
  · obtain ⟨topiclen, -, hrest⟩ := Option.bind_eq_some_iff.mp hrun
    split at hrest
    · cases hrest
      rfl
    · obtain ⟨first, -, hlast⟩ := Option.bind_eq_some_iff.mp hrest
      split at hlast
      · cases hlast
        rfl
      · rw [if_pos (by split <;> omega)] at hlast
        cases hlast
        rfl

theorem firstRound_some {publishSet : Bool} {s : Shape} (payload : s.Payload) {len : Nat}
    (hpos : 0 < len) (hsmall : len < 65536) (hlen : len ≤ s.packetLength) {more : List UInt8}
    {total read : UInt16} {m m' : Statics} {g' : Progress} {chunks : List Chunk}
    (h : deliverRound publishSet len ⟨(s.encode payload).take len ++ more, total, read⟩ m
      ⟨0, 0, 0⟩ = some (m', g', chunks)) :
    s.topicEnd ≤ len ∧ s.topicStart < len ∧ s.topic.length < topicBuffSize ∧
      len - s.headerEnd < dataBuffSize ∧
      (∃ text, chunks = [⟨text, payload.1.take (len - s.headerEnd)⟩]) ∧
      g'.totalMqttLen = total.toNat - read.toNat + (len - s.headerEnd : Nat) := by
  obtain ⟨topic, topicLength, data, dataLength, text, bytes, htopic, hdata, rfl, hfits, htext,
    hcopy, -⟩ := deliverRound_some h
  obtain ⟨hbytes, rfl⟩ := hcopy rfl
  obtain ⟨hcopied, hshort⟩ := htext rfl
  simp only at htopic hdata hbytes hcopied
  by_cases hcut : len < s.topicEnd ∨ len ≤ s.topicStart
  · have := s.topic_cut payload hpos hlen hcut htopic
    cases this
    simp [copyFrom] at hcopied
    omega
  · rw [not_or, Nat.not_lt, Nat.not_le] at hcut
    rw [s.topic_found payload hcut.1 hcut.2 more] at htopic
    rw [s.data_found payload hcut.2 hlen more] at hdata
    cases htopic
    cases hdata
    have htopicLength := copyFrom_length hcopied
    have hdataLength := copyFrom_length hbytes
    rw [Nat.mod_eq_of_lt (by omega)] at hdataLength hbytes
    refine ⟨hcut.1, hcut.2, by omega, by omega, ⟨text, ?_⟩, rfl⟩
    have hpayload : bytes = payload.1.take (len - s.headerEnd) := by
      rcases Nat.lt_or_ge s.headerEnd len with hlt | hge
      · rw [if_neg (by omega), copyFrom] at hbytes
        split at hbytes
        · rw [take_window (by omega) (by rwa [s.encode_length]), s.encode_drop_headerEnd] at hbytes
          exact (Option.some.inj hbytes).symm
        · cases hbytes
      · rw [Nat.sub_eq_zero_of_le hge] at hdataLength ⊢
        rw [List.take_zero, List.length_eq_zero_iff.mp hdataLength]
    rw [hpayload]

theorem laterRound_some {publishSet : Bool} {length : Nat} {reads : List (List UInt8)}
    {s : MqttState} {m : Statics} {g : Progress} {out : List Chunk}
    (h : deliverLoop publishSet length reads s m g = some out) (hlater : g.totalMqttLen ≠ 0)
    (hread : g.lenRead < 65536) :
    ∃ data dataLength bytes more, mqttGetPublishData s.inBuffer length = some (data, dataLength) ∧
      copyFrom s.inBuffer data g.lenRead = some bytes ∧ dataOf out = bytes ++ more := by
  obtain ⟨m', g', chunks, hround, hcase⟩ := deliverLoop_some h
  obtain ⟨topic, topicLength, data, dataLength, text, bytes, -, hdata, rfl, -, -, -, hcopy⟩ :=
    deliverRound_some hround
  have hbytes := (hcopy hlater).1
  rw [Nat.mod_eq_of_lt hread] at hbytes
  rcases hcase with ⟨-, rfl⟩ | ⟨-, _, _, later, -, -, rfl⟩
  · exact ⟨data, dataLength, bytes, [], hdata, hbytes, by simp [dataOf]⟩
  · exact ⟨data, dataLength, bytes, dataOf later, hdata, hbytes, by simp [dataOf]⟩

def spike (n k : Nat) : List UInt8 :=
  List.replicate k 0 ++ 0xff :: List.replicate (n - (k + 1)) 0

theorem spike_length {n k : Nat} (h : k < n) : (spike n k).length = n := by
  rw [spike, List.length_append, List.length_cons, List.length_replicate, List.length_replicate]
  omega

theorem spike_drop (n k : Nat) : (spike n k).drop k = 0xff :: List.replicate (n - (k + 1)) 0 :=
  List.drop_left' List.length_replicate

theorem spike_window {n k j : Nat} (h : j < k) : ((spike n k).drop j).take 1 = [0] := by
  obtain ⟨i, rfl⟩ : ∃ i, k = j + (i + 1) := ⟨k - j - 1, by omega⟩
  rw [spike, List.drop_append_of_le_length (by simp), List.drop_replicate,
    Nat.add_sub_cancel_left]
  rfl

/-- The second read of a spiked payload makes the round look at a zero, if at anything. -/
theorem secondRound_zero {s : Shape} (payload : s.Payload) {len n : Nat}
    (hstart : s.topicStart < len) (hheader : s.headerEnd ≤ len) (hn : 0 < n)
    (hfit : len + n ≤ s.packetLength)
    (hpayload : payload.1 = spike s.payloadLength (len - s.headerEnd))
    {more bytes : List UInt8} {data : Option Nat} {dataLength : Nat}
    (hdata : mqttGetPublishData (readInto ((s.encode payload).take len ++ more)
      (((s.encode payload).drop len).take n)) len = some (data, dataLength))
    (hbytes : copyFrom (readInto ((s.encode payload).take len ++ more)
      (((s.encode payload).drop len).take n)) data n = some bytes) :
    ∃ rest, bytes = 0 :: rest := by
  have hread : ((s.encode payload).drop len).take n =
      (0xff :: List.replicate (s.payloadLength - (len - s.headerEnd + 1)) 0).take n := by
    rw [← spike_drop, ← hpayload, ← s.encode_drop_headerEnd payload, List.drop_drop,
      Nat.add_sub_cancel' hheader]
  have hlen : len ≤ (s.encode payload).length := by
    rw [s.encode_length]
    omega
  have htotal : s.packetLength = s.headerEnd + s.payloadLength := rfl
  have hfour := s.four_le_topicStart
  rw [hread] at hdata hbytes
  rcases Nat.lt_or_ge 1 n with htwo | hone
  · obtain ⟨i, rfl⟩ : ∃ i, n = i + 2 := ⟨n - 2, by omega⟩
    obtain ⟨z, hz⟩ : ∃ z, s.payloadLength - (len - s.headerEnd + 1) = z + 1 :=
      ⟨s.payloadLength - (len - s.headerEnd + 1) - 1, by omega⟩
    rw [hz, List.replicate_succ, List.take_succ_cons, List.take_succ_cons, readInto] at hdata hbytes
    have hnone : data = none := data_overwritten (by omega) hdata
    rw [hnone, copyFrom, if_neg (by omega)] at hbytes
    cases hbytes
  · obtain rfl : n = 1 := by omega
    obtain ⟨rest, hrest⟩ := s.buffer_eq payload (Nat.le_of_lt hstart) more
    have hbuffer : readInto ((s.encode payload).take len ++ more) [0xff] =
        0xff :: (varInt 3 s.remaining ++ UInt8.ofNat (s.topic.length / 256) ::
          UInt8.ofNat (s.topic.length % 256) :: rest) := by
      rw [readInto, hrest]
      rfl
    have hqos : mqttGetQos 0xff > 0 := by decide
    have hplace : 1 + (varInt 3 s.remaining).length + 2 + s.topic.length + 2 = s.topicEnd + 2 := rfl
    rw [List.take_succ_cons, List.take_zero, hbuffer,
      mqttGetPublishData_eq s.remaining_lt s.topicLength_bytes _ _ hstart, if_pos hqos] at hdata
    simp only [hplace] at hdata
    split at hdata
    · cases hdata
      simp [copyFrom] at hbytes
    · next hdone =>
      cases hdata
      rw [not_or, Nat.not_le] at hdone
      have hid : s.headerEnd ≤ s.topicEnd + 2 := Nat.add_le_add_left s.idBytes_length_le _
      have hbyte : ((readInto ((s.encode payload).take len ++ more) [0xff]).drop
          (s.topicEnd + 2)).take 1 = [0] := by
        rw [readInto, List.singleton_append, List.drop_succ_cons, List.length_singleton,
          List.drop_drop, show 1 + (s.topicEnd + 1) = s.topicEnd + 2 by omega,
          take_window (by omega) hlen, ← Nat.add_sub_cancel' hid, ← List.drop_drop,
          s.encode_drop_headerEnd, hpayload]
        exact spike_window (by omega)
      simp only [copyFrom, List.take_succ_cons, List.take_zero, hbyte] at hbytes
      split at hbytes
      · exact ⟨[], (Option.some.inj hbytes).symm⟩
      · cases hbytes

theorem receiveSchedule_eq (publishSet : Bool) (inBuffer : List UInt8) (m : Statics) {s : Shape}
    (payload : s.Payload) {len : Nat} (hpos : 0 < len) (hsmall : len < 65536)
    (hlen : len ≤ s.packetLength) (reads : List (List UInt8)) :
    receiveSchedule publishSet inBuffer m ((s.encode payload).take len :: reads) =
      (mqttGetTotalLength ((s.encode payload).take len ++ inBuffer.drop len) len).bind fun total =>
        deliverLoop publishSet len reads ⟨(s.encode payload).take len ++ inBuffer.drop len,
          UInt16.ofNat total, UInt16.ofNat len⟩ m ⟨0, 0, 0⟩ := by
  have htake : ((s.encode payload).take len).length = len :=
    List.length_take_of_le (by rwa [s.encode_length])
  have hbuffer : readInto inBuffer ((s.encode payload).take len) =
      (s.encode payload).take len ++ inBuffer.drop len := by rw [readInto, htake]
  have hfirst : ((s.encode payload).take len ++ inBuffer.drop len)[0]? = some s.first := by
    obtain ⟨k, rfl⟩ : ∃ k, len = k + 1 := ⟨len - 1, by omega⟩
    rfl
  have htype : mqttGetType s.first = msgTypePublish := s.type_first
  have hread : (UInt16.ofNat len).toNat = len := by
    rw [UInt16.toNat_ofNat', Nat.mod_eq_of_lt hsmall]
  simp only [receiveSchedule, hbuffer, hfirst, Option.bind_eq_bind, Option.bind_some,
    if_pos htype, htake, hread]
  rfl

/-- A packet that arrives in several reads, with the worst payload for the first of them. -/
theorem not_reassembled (publishSet : Bool) (inBuffer : List UInt8) (m : Statics) {s : Shape}
    (payload : s.Payload) {len n : Nat} {rest : List Nat} (hpos : 0 < len) (hsmall : len ≤ 4096)
    (hn : 0 < n) (hfits : ∀ k ∈ n :: rest, k ≤ 4096)
    (hsum : len + (n + rest.sum) = s.packetLength)
    (hspike : s.headerEnd ≤ len → payload.1 = spike s.payloadLength (len - s.headerEnd)) :
    ¬Reassembled (receiveSchedule publishSet inBuffer m
      (chop (len :: n :: rest) (s.encode payload))) s.topic payload := by
  rintro ⟨out, hrun, hdata, -⟩
  rw [chop, receiveSchedule_eq publishSet inBuffer m payload hpos (by omega) (by omega)] at hrun
  obtain ⟨total, htotal, hloop⟩ := Option.bind_eq_some_iff.mp hrun
  obtain ⟨m', g', chunks, hround, hcase⟩ := deliverLoop_some hloop
  obtain ⟨htopic, hstart, hshort, hfit, ⟨text, rfl⟩, hg⟩ :=
    firstRound_some payload hpos (by omega) (by omega) hround
  have hwhole : some total = some s.packetLength := by
    rw [← htotal, s.totalLength_found payload (by omega)]
  cases hwhole
  have hpacket : s.packetLength = s.headerEnd + s.payloadLength := rfl
  have hheader : s.headerEnd = s.topicStart + s.topic.length + s.idBytes.length := rfl
  have hbounds := s.topicStart_le
  have hid := s.idBytes_length_le
  have hread : (UInt16.ofNat len).toNat = len := by
    rw [UInt16.toNat_ofNat', Nat.mod_eq_of_lt (by omega)]
  simp only [topicBuffSize] at hshort
  rcases hcase with ⟨hstop | hnil, rfl⟩ | ⟨hmore, bytes, reads, later, hreads, hlater, rfl⟩
  · -- the 16-bit length is reached: the payload is cut
    rw [UInt16.le_iff_toNat_le, hread, UInt16.toNat_ofNat'] at hstop
    have := congrArg List.length hdata
    simp [dataOf, payload.2] at this
    omega
  · cases hnil
  · rw [chop, List.cons.injEq] at hreads
    obtain ⟨rfl, rfl⟩ := hreads
    rw [UInt16.lt_iff_toNat_lt, hread] at hmore
    have hbytes : (((s.encode payload).drop len).take n).length = n := by
      rw [List.length_take, List.length_drop, s.encode_length]
      omega
    have hnlt : n < 65536 := by
      have := hfits n (by simp)
      omega
    have htotal : g'.totalMqttLen ≠ 0 := by
      rw [hg, hread]
      simp only at hmore
      omega
    have hparts : payload.1.take (len - s.headerEnd) ++ dataOf later = payload := by
      simpa [dataOf] using hdata
    rcases Nat.lt_or_ge len s.headerEnd with hid | hbehind
    · -- the identifier is cut: its rest counts as payload
      obtain ⟨taken, left, hsplit, hcount, hstop⟩ := deliverLoop_length hlater
        (by simpa using htotal) (by simpa [hbytes] using hnlt) fun read hmem => by
          obtain ⟨k, hk, hle⟩ := length_le_of_mem_chop hmem
          have := hfits k (by simp [hk])
          omega
      have hlength : n + taken.flatten.length = s.payloadLength := by
        have := congrArg List.length hparts
        rw [List.length_append, hcount, payload.2, Nat.sub_eq_zero_of_le (Nat.le_of_lt hid)] at this
        simpa [hbytes] using this
      rcases hstop with rfl | hstop
      · have hall : taken.flatten.length = rest.sum := by
          rw [List.append_nil] at hsplit
          rw [← hsplit, chop_flatten, List.length_take, List.length_drop, List.length_drop,
            s.encode_length]
          omega
        omega
      · have hwrapped : s.packetLength % 2 ^ 16 ≤ (len + s.payloadLength) % 2 ^ 16 := by
          simpa [MqttState.readMore, hbytes, UInt16.le_iff_toNat_le, ← Nat.add_mod, Nat.add_assoc,
            hlength, -List.length_flatten] using hstop
        rw [UInt16.toNat_ofNat'] at hmore
        have hend : s.headerEnd = s.topicEnd + s.idBytes.length := rfl
        omega
    · -- the payload is looked for behind a header that is gone
      obtain ⟨data, dataLength, found, more, hfound, hcopy, hhead⟩ :=
        laterRound_some hlater (by simpa using htotal) (by simpa [hbytes] using hnlt)
      simp only [hbytes, MqttState.readMore] at hfound hcopy
      obtain ⟨tail, rfl⟩ := secondRound_zero payload (by omega) hbehind hn (by omega)
        (hspike hbehind) hfound hcopy
      have hdrop := congrArg (List.drop (len - s.headerEnd)) hparts
      rw [List.drop_left' (by simp [payload.2]; omega), hhead, hspike hbehind, spike_drop] at hdrop
      cases hdrop

theorem wholeRound (publishSet : Bool) {s : Shape} (payload : s.Payload)
    (hsmall : s.packetLength < 65536) (hstart : s.topicStart < s.packetLength)
    (htopic : s.topic.length < topicBuffSize) (hdata : s.payloadLength < dataBuffSize)
    (more : List UInt8) (total read : UInt16) (m : Statics) :
    ∃ m' g', deliverRound publishSet s.packetLength
      ⟨(s.encode payload).take s.packetLength ++ more, total, read⟩ m ⟨0, 0, 0⟩ =
        some (m', g', [⟨s.topic, payload⟩]) := by
  have hpacket : s.packetLength = s.topicEnd + s.idBytes.length + s.payloadLength := rfl
  have hend : s.topicEnd = s.topicStart + s.topic.length := rfl
  have hheader : s.headerEnd = s.topicEnd + s.idBytes.length := rfl
  have hlen : s.packetLength ≤ (s.encode payload).length := Nat.le_of_eq (s.encode_length _).symm
  have hsize : ((s.encode payload).take s.packetLength ++ more).length =
      s.packetLength + more.length := by
    rw [List.length_append, List.length_take_of_le hlen]
  have htext : copyFrom ((s.encode payload).take s.packetLength ++ more) (some s.topicStart)
      s.topic.length = some s.topic := by
    rw [copyFrom, if_pos (by omega), take_window (by omega) hlen, s.encode_drop_topicStart,
      List.take_left]
  have hbytes : copyFrom ((s.encode payload).take s.packetLength ++ more)
      (if s.headerEnd ≥ s.packetLength then none else some s.headerEnd)
      ((s.packetLength - s.headerEnd) % 65536) = some payload.1 := by
    have hlength : s.packetLength - s.headerEnd = s.payloadLength := by omega
    rw [Nat.mod_eq_of_lt (by omega), hlength]
    split
    next hempty =>
      have hzero : s.payloadLength = 0 := by omega
      rw [copyFrom, if_pos hzero, List.eq_nil_of_length_eq_zero (payload.2.trans hzero)]
    next =>
      rw [copyFrom, if_pos (by omega), take_window (by omega) hlen, s.encode_drop_headerEnd,
        List.take_of_length_le (Nat.le_of_eq payload.2)]
  have hfits : payload.1.length < dataBuffSize := by rwa [payload.2]
  have hfound := s.data_found payload hstart (Nat.le_refl _) more
  generalize (if s.headerEnd ≥ s.packetLength then none else some s.headerEnd) = data
    at hfound hbytes
  obtain ⟨m₁, h₁⟩ := eventCb_eq true m (e := ⟨_, _, _, _, 0⟩) rfl htext hbytes htopic hfits
  obtain ⟨m₂, h₂⟩ := eventCb_eq publishSet m₁ (e := ⟨_, _, _, _, 0⟩) rfl htext hbytes htopic hfits
  refine ⟨m₂, ?_⟩
  simp [deliverRound, s.topic_found payload (by omega) hstart, hfound, dataCb, publishCb, h₁, h₂]

/-- Every payload of a packet comes out right exactly if the packet arrives in one read, fits the
buffers of the callbacks and does not end with the length of its topic. -/
theorem reassembled_iff (size : BufferSize) (publishSet : Bool) (inBuffer : Buffer size.bytes)
    (m : Statics) (s : Shape) (split : Split size s.packetLength) :
    (∀ payload : s.Payload, Reassembled
      (receivePublish publishSet inBuffer m s payload split) s.topic payload) ↔
      split.sizes.length = 1 ∧ s.topic.length < topicBuffSize ∧
        s.payloadLength < dataBuffSize ∧
        0 < s.topic.length + s.idBytes.length + s.payloadLength := by
  obtain ⟨sizes, hnonempty, hfits, hwhole⟩ := split
  have hpacket : s.packetLength =
    s.topicStart + s.topic.length + s.idBytes.length + s.payloadLength := rfl
  have hfour := s.four_le_topicStart
  have hrange := size.range
  simp only [receivePublish]
  constructor
  · intro h
    match sizes with
    | [] =>
      simp at hwhole
      omega
    | [len] =>
      obtain rfl : len = s.packetLength := by simpa using hwhole
      have hle := hfits s.packetLength (by simp)
      let payload : s.Payload := ⟨List.replicate s.payloadLength 0, List.length_replicate⟩
      obtain ⟨out, hrun, -, -⟩ := h payload
      rw [chop, receiveSchedule_eq publishSet _ m payload (by omega) (by omega)
        (Nat.le_refl _)] at hrun
      obtain ⟨total, -, hloop⟩ := Option.bind_eq_some_iff.mp hrun
      obtain ⟨m', g', chunks, hround, -⟩ := deliverLoop_some hloop
      obtain ⟨-, hstart, hshort, hfit, -⟩ :=
        firstRound_some payload (by omega) (by omega) (Nat.le_refl _) hround
      have hheader : s.headerEnd = s.topicStart + s.topic.length + s.idBytes.length := rfl
      exact ⟨rfl, hshort, by omega, by omega⟩
    | len :: n :: rest =>
      have hpos := hnonempty len (by simp)
      have hn := hnonempty n (by simp)
      have hle := hfits len (by simp)
      have hrest : ∀ k ∈ n :: rest, k ≤ 4096 := fun k hk =>
        Nat.le_trans (hfits k (List.mem_cons_of_mem _ hk)) hrange.2
      rw [List.sum_cons, List.sum_cons] at hwhole
      have hheader : s.packetLength = s.headerEnd + s.payloadLength := rfl
      rcases Nat.lt_or_ge len s.headerEnd with hcut | hbehind
      · let payload : s.Payload := ⟨List.replicate s.payloadLength 0, List.length_replicate⟩
        exact absurd (h payload) (not_reassembled publishSet _ m payload hpos (by omega) hn hrest
          hwhole fun hge => absurd hcut (Nat.not_lt.mpr hge))
      · let payload : s.Payload :=
          ⟨spike s.payloadLength (len - s.headerEnd), spike_length (by omega)⟩
        exact absurd (h payload) (not_reassembled publishSet _ m payload hpos (by omega) hn hrest
          hwhole fun _ => rfl)
  · rintro ⟨hone, htopic, hdata, hmore⟩ payload
    obtain ⟨len, rfl⟩ := List.length_eq_one_iff.mp hone
    obtain rfl : len = s.packetLength := by simpa using hwhole
    have hle := hfits s.packetLength (by simp)
    obtain ⟨m', g', hround⟩ := wholeRound publishSet payload (by omega) (by omega) htopic hdata
      (inBuffer.bytes.drop s.packetLength) (UInt16.ofNat s.packetLength)
      (UInt16.ofNat s.packetLength) m
    refine ⟨[⟨s.topic, payload⟩], ?_, by simp [dataOf], by simp⟩
    rw [chop, receiveSchedule_eq publishSet _ m payload (by omega) (by omega) (Nat.le_refl _),
      s.totalLength_found payload (by omega), Option.bind_some, deliverLoop, hround]
    exact if_pos (UInt16.le_refl _)

def sampleSplit : Split ⟨128, by decide⟩ sampleShape.packetLength :=
  ⟨[7, 2], by decide, by decide, by decide⟩

/-- The first two bytes are handed on twice, the last two never. -/
theorem chunk_repeated :
    ¬Reassembled (receivePublish false (Buffer.zero 128) ⟨Buffer.zero _, Buffer.zero _⟩
      sampleShape samplePayload sampleSplit) sampleShape.topic samplePayload := by
  have hrun : receivePublish false (Buffer.zero 128) ⟨Buffer.zero _, Buffer.zero _⟩
      sampleShape samplePayload sampleSplit =
        some [⟨[0x74], [0x31, 0x32]⟩, ⟨[0x74], [0x31, 0x32]⟩] := by decide +kernel
  rintro ⟨out, hout, hdata, -⟩
  rw [hrun] at hout
  cases hout
  revert hdata
  decide

end Esp32Project.Mqtt
