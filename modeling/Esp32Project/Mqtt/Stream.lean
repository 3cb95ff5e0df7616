import Esp32Project.Lib.Framing
import Esp32Project.Mqtt.Requests
import Mathlib.Data.List.Nodup

/-! What a broker finds in the messages of a run, and which identifiers they have. -/

set_option autoImplicit false

namespace Esp32Project.Mqtt
open Esp32Project.Lib

def wire (part : Option (UInt8 × List UInt8)) : List UInt8 :=
  part.elim [] fun part => packet part.1 part.2

def fitting (cap : Nat) (part : Option (UInt8 × List UInt8)) : Option (UInt8 × List UInt8) :=
  part.filter fun part => 3 + part.2.length ≤ cap

def packets (p : Protocol) (cap : Nat) : UInt16 → List Outgoing → List (UInt8 × List UInt8)
  | _, [] => []
  | id, r :: rs =>
    (fitting cap (r.parts p id)).toList ++ packets p cap (r.counter cap id) rs

/-- The identifier that a broker reads in a PUBLISH, SUBSCRIBE or UNSUBSCRIBE packet. -/
def requestId : UInt8 × List UInt8 → Option Nat
  | (first, body) =>
    let body := if first >>> 4 = 3 then (readField body).elim [] Prod.snd else body
    if first >>> 4 = 3 ∧ (first >>> 1) &&& 3 ≠ 0 ∨ first >>> 4 = 8 ∨ first >>> 4 = 10 then
      match body with
      | hi :: lo :: _ => some (hi.toNat * 256 + lo.toNat)
      | _ => none
    else none

variable {p : Protocol} {cap : Nat} {id : UInt16} {c : Connection}

theorem sent_eq (cap : Nat) (part : Option (UInt8 × List UInt8)) :
    sent cap part = wire (fitting cap part) := by
  cases part with
  | none => rfl
  | some part =>
    rw [sent, fitting, Option.filter_some]
    split <;> rename_i hfits <;> simp [hfits, wire]

theorem messages_flatten (rs : List Outgoing) : (messages p cap id rs).flatten =
    (packets p cap id rs).flatMap fun part => packet part.1 part.2 := by
  induction rs generalizing id with
  | nil => rfl
  | cons r rs ih =>
    have hsent : sent cap (r.parts p id) = ((fitting cap (r.parts p id)).toList.flatMap
        fun part => packet part.1 part.2) := by
      rw [sent_eq]
      cases fitting cap (r.parts p id) <;> simp [wire]
    rw [messages, List.flatten_cons, ih, packets, List.flatMap_append, hsent]

theorem packets_fit (rs : List Outgoing) :
    ∀ part ∈ packets p cap id rs, 3 + part.2.length ≤ cap := by
  induction rs generalizing id with
  | nil => intro part h; cases h
  | cons r rs ih =>
    intro part h
    rw [packets, List.mem_append] at h
    obtain h | h := h
    · simpa using (Option.filter_eq_some_iff.mp (Option.mem_toList.mp h)).2
    · exact ih part h

/-- However the calls follow each other, a broker reads one packet for each message. -/
theorem readStream_messages (hc : c.buffer.length = cap) (hcap : 3 ≤ cap)
    (hlarge : cap < 128 ^ 2 + 3) (rs : List Outgoing) :
    ∃ ms, buildAll p c rs = some ms ∧
      readStream readPacket ms.flatten = some (packets p cap c.messageId rs) := by
  refine ⟨_, buildAll_eq hc hcap hlarge rs, ?_⟩
  rw [messages_flatten]
  refine readStream_flatMap (fun part hpart rest => ?_) (fun part _ => List.cons_ne_nil _ _)
  have := packets_fit rs part hpart
  exact readPacket_packet (by omega) part.1 rest

theorem assignId_toNat (counter : UInt16) :
    (assignId counter).toNat = counter.toNat % 65535 + 1 := by
  have hone : (counter + 1).toNat = (counter.toNat + 1) % 65536 := UInt16.toNat_add counter 1
  have htwo : (counter + 2).toNat = (counter.toNat + 2) % 65536 := UInt16.toNat_add counter 2
  have hlt := UInt16.toNat_lt counter
  unfold assignId
  split
  next h =>
    have := congrArg UInt16.toNat h
    rw [hone, UInt16.toNat_zero] at this
    omega
  next h =>
    have : (counter + 1).toNat ≠ 0 := fun h0 => h (UInt16.toNat_inj.mp h0)
    omega

def nextIds (start n : Nat) : List Nat := (List.range' start n).map fun k => k % 65535 + 1

example : nextIds 65534 2 = [65535, 1] := by decide +kernel

theorem nextIds_nodup {start n : Nat} (h : n ≤ 65535) : (nextIds start n).Nodup := by
  refine List.Nodup.map_on ?_ List.nodup_range'
  intro i hi j hj hij
  rw [List.mem_range'_1] at hi hj
  omega

theorem nextIds_congr {a b : Nat} (h : a % 65535 = b % 65535) (n : Nat) :
    nextIds a n = nextIds b n := by
  refine List.ext_getElem (by simp [nextIds]) fun i _ _ => ?_
  simp only [nextIds, List.getElem_map, List.getElem_range']
  omega

theorem nextIds_succ (counter : UInt16) (n : Nat) : nextIds counter.toNat (n + 1) =
    (assignId counter).toNat :: nextIds (assignId counter).toNat n := by
  have hnext : nextIds (assignId counter).toNat n = nextIds (counter.toNat + 1) n :=
    nextIds_congr (by rw [assignId_toNat]; omega) n
  rw [hnext, assignId_toNat]
  rfl

/-- A request for one of the QoS levels that exist. -/
def Outgoing.Valid : Outgoing → Prop
  | .publish _ _ qos _ => 0 ≤ qos ∧ qos ≤ 2
  | _ => True

theorem firstByte_publish {qos : Int} (h : 0 ≤ qos ∧ qos ≤ 2) (retain : Int) :
    firstByte msgPublish 0 qos retain >>> 4 = 3 ∧
      (firstByte msgPublish 0 qos retain >>> 1) &&& 3 = UInt8.ofNat qos.toNat := by
  have all : ∀ (q : Fin 3) (r : Fin 2),
      let first := UInt8.ofNat ((msgPublish % 16).toNat <<< 4 ||| ((0 : Int) % 2).toNat <<< 3 |||
        q.val <<< 1 ||| r.val)
      first >>> 4 = 3 ∧ (first >>> 1) &&& 3 = UInt8.ofNat q := by decide
  have hqos : (qos % 4).toNat = qos.toNat := by omega
  have := all ⟨qos.toNat, by omega⟩ ⟨(retain % 2).toNat, by omega⟩
  rw [firstByte, hqos]
  exact this

theorem requestId_parts {r : Outgoing} (hr : r.Valid) (hlarge : cap < 128 ^ 2 + 3)
    {part : UInt8 × List UInt8} (hpart : r.parts p id = some part) (hfits : 3 + part.2.length ≤ cap)
    {n : Nat} (hn : requestId part = some n) :
    n = (assignId id).toNat ∧ r.counter cap id = assignId id := by
  obtain ⟨hi, lo, htwo, hvalue⟩ := twoBytes_value (assignId id).toNat_lt
  have subscription {first : UInt8} {body : List UInt8} (h3 : first >>> 4 ≠ 3)
      (hn : requestId (first, twoBytes (assignId id).toNat ++ body) = some n) :
      n = (assignId id).toNat := by
    rw [requestId, if_neg h3, htwo] at hn
    split at hn
    · exact (Option.some.inj hn).symm.trans hvalue
    · cases hn
  cases r with
  | publish topic data qos retain =>
    obtain ⟨htype, hlevel⟩ := firstByte_publish hr retain
    simp only [Outgoing.parts] at hpart
    by_cases htopic : topic = []
    · simp [htopic] at hpart
    rw [if_neg htopic] at hpart
    obtain rfl := Option.some.inj hpart
    simp only [List.length_append, field_length] at hfits
    simp only [requestId, htype, hlevel, List.append_assoc, if_true, true_and,
      readField_field (show topic.length < 65536 by omega)] at hn
    have hzero : UInt8.ofNat qos.toNat ≠ 0 ↔ qos > 0 := by
      have := hr.2
      rw [← UInt8.toNat_inj.ne, UInt8.toNat_ofNat', UInt8.toNat_zero]
      omega
    by_cases hqos : qos > 0
    · rw [if_pos (.inl (hzero.mpr hqos)), if_pos hqos, htwo] at hn
      refine ⟨(Option.some.inj hn).symm.trans hvalue, ?_⟩
      exact if_pos ⟨htopic, by rw [field_length]; omega, hqos⟩
    · rw [if_neg (by simp [mt hzero.mp hqos])] at hn
      cases hn
  | subscribe topic qos =>
    simp only [Outgoing.parts] at hpart
    by_cases htopic : topic = []
    · simp [htopic] at hpart
    rw [if_neg htopic] at hpart
    obtain rfl := Option.some.inj hpart
    rw [List.append_assoc] at hn
    exact ⟨subscription (by decide) hn, if_pos htopic⟩
  | unsubscribe topic =>
    simp only [Outgoing.parts] at hpart
    by_cases htopic : topic = []
    · simp [htopic] at hpart
    rw [if_neg htopic] at hpart
    obtain rfl := Option.some.inj hpart
    exact ⟨subscription (by decide) hn, if_pos htopic⟩
  | connect info =>
    simp only [Outgoing.parts] at hpart
    split at hpart
    · cases hpart
    · obtain rfl := Option.some.inj hpart
      cases hn
  | _ =>
    obtain rfl := Option.some.inj hpart
    cases hn

theorem counter_cases (cap : Nat) (id : UInt16) (r : Outgoing) :
    r.counter cap id = id ∨ r.counter cap id = assignId id := by
  cases r <;> simp only [Outgoing.counter, counterAfter] <;> (try split) <;> simp

theorem requestIds_sublist (p : Protocol) (id : UInt16) (rs : List Outgoing)
    (hrs : ∀ r ∈ rs, r.Valid) (hlarge : cap < 128 ^ 2 + 3) : ∃ n ≤ rs.length,
      ((packets p cap id rs).filterMap requestId).Sublist (nextIds id.toNat n) := by
  induction rs generalizing id with
  | nil => exact ⟨0, Nat.le_refl _, List.Sublist.refl _⟩
  | cons r rs ih =>
    obtain ⟨n, hn, hrest⟩ := @ih (r.counter cap id) fun r' h => hrs r' (List.mem_cons_of_mem r h)
    rw [packets, List.filterMap_append]
    -- the identifier of the packet of `r`, if there is one
    cases hone : (fitting cap (r.parts p id)).toList.filterMap requestId with
    | nil =>
      rw [List.nil_append]
      obtain hsame | hnext := counter_cases cap id r
      · rw [hsame] at hrest ⊢
        exact ⟨n, Nat.le_succ_of_le hn, hrest⟩
      · rw [hnext] at hrest ⊢
        exact ⟨n + 1, Nat.succ_le_succ hn, nextIds_succ id n ▸ hrest.cons _⟩
    | cons m ms =>
      have hm : m ∈ (fitting cap (r.parts p id)).toList.filterMap requestId :=
        hone ▸ List.mem_cons_self
      obtain ⟨part, hpart, hid⟩ := List.mem_filterMap.mp hm
      obtain ⟨hparts, hfits⟩ := Option.filter_eq_some_iff.mp (Option.mem_toList.mp hpart)
      obtain ⟨rfl, hnext⟩ := requestId_parts (hrs r List.mem_cons_self) hlarge hparts
        (by simpa using hfits) hid
      obtain rfl : ms = [] := by
        rw [Option.mem_toList.mp hpart] at hone
        simp only [Option.toList_some, List.filterMap_cons, hid, List.filterMap_nil] at hone
        exact (List.cons.inj hone).2.symm
      rw [hnext] at hrest ⊢
      exact ⟨n + 1, Nat.succ_le_succ hn, nextIds_succ id n ▸ hrest.cons_cons _⟩

/-- Up to 65535 calls: no identifier is 0, and none comes twice. -/
theorem requestIds_nodup (hc : c.buffer.length = cap) (hcap : 3 ≤ cap)
    (hlarge : cap < 128 ^ 2 + 3) {rs : List Outgoing} (hrs : ∀ r ∈ rs, r.Valid)
    (hlen : rs.length ≤ 65535) : ∃ ms ps, buildAll p c rs = some ms ∧
      readStream readPacket ms.flatten = some ps ∧
      (ps.filterMap requestId).Nodup ∧ 0 ∉ ps.filterMap requestId := by
  obtain ⟨ms, hms, hread⟩ := readStream_messages (p := p) hc hcap hlarge rs
  obtain ⟨n, hn, hsub⟩ := requestIds_sublist p c.messageId rs hrs hlarge
  refine ⟨ms, _, hms, hread, (nextIds_nodup (Nat.le_trans hn hlen)).sublist hsub, fun h => ?_⟩
  obtain ⟨k, -, hk⟩ := List.mem_map.mp (hsub.subset h)
  exact absurd hk (Nat.succ_ne_zero _)

theorem requestIds_nodup_sample : ∃ ms ps,
    buildAll .v311 (mqttMsgInit (List.replicate 32 0))
      [.subscribe [0x61] 1, .publish [0x61] [0x31] 1 0, .unsubscribe [0x61]] = some ms ∧
    readStream readPacket ms.flatten = some ps ∧
    (ps.filterMap requestId).Nodup ∧ 0 ∉ ps.filterMap requestId :=
  requestIds_nodup (c := mqttMsgInit (List.replicate 32 0)) rfl (by decide) (by decide)
    (by simp [Outgoing.Valid]) (by decide)

end Esp32Project.Mqtt
