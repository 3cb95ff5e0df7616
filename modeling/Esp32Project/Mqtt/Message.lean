import Esp32Project.Lib.VarInt
import Mathlib.Data.Option.Basic

/-! The parts of a PUBLISH message in a buffer, as mqtt_msg.c finds them. -/

set_option autoImplicit false

namespace Esp32Project.Mqtt
open Esp32Project.Lib

/-- A sum of type int, `none` where it overflows. -/
def addInt (a b : Nat) : Option Nat := if a + b < 2 ^ 31 then some (a + b) else none

/-- `totlen += (b & 0x7f) << (7 * (i - 1))`. -/
def addPart (totlen i : Nat) (b : UInt8) : Option Nat :=
  if 7 * (i - 1) < 32 then addInt totlen ((b &&& 0x7f).toNat <<< (7 * (i - 1))) else none

/-- The loop over the remaining length, with `buffer[i]` at the head of the list. -/
def lengthLoop (length : Nat) : List UInt8 → Nat → Nat → Option (Nat × Nat)
  | [], i, totlen => if i < length then none else some (i, totlen)
  | b :: bs, i, totlen =>
    if i < length then do
      let totlen ← addPart totlen i b
      if b &&& 0x80 = 0 then some (i + 1, totlen) else lengthLoop length bs (i + 1) totlen
    else some (i, totlen)

/-- `i` and `totlen` behind the loop that the three functions below begin with. -/
def fixedHeader (buffer : List UInt8) (length : Nat) : Option (Nat × Nat) := do
  let (i, totlen) ← lengthLoop length buffer.tail 1 0
  let totlen ← addInt totlen i
  return (i, totlen)

def mqttGetType (first : UInt8) : UInt8 := (first &&& 0xf0) >>> 4

def mqttGetQos (first : UInt8) : UInt8 := (first &&& 0x06) >>> 1

def mqttGetTotalLength (buffer : List UInt8) (length : Nat) : Option Nat :=
  (fixedHeader buffer length).map Prod.snd

def topicLen (buffer : List UInt8) (i : Nat) : Option Nat := do
  let hi ← buffer[i]?
  let lo ← buffer[i + 1]?
  return hi.toNat <<< 8 ||| lo.toNat

/-- The place of the topic in the buffer, `none` for NULL, and the new `*length`. -/
def mqttGetPublishTopic (buffer : List UInt8) (length : Nat) : Option (Option Nat × Nat) := do
  let (i, _) ← fixedHeader buffer length
  if i + 2 ≥ length then return (none, length) else
    let topiclen ← topicLen buffer i
    let i := i + 2
    if i + topiclen > length then return (none, length) else return (some i, topiclen)

/-- The place of the payload in the buffer, `none` for NULL, and the new `*length`. -/
def mqttGetPublishData (buffer : List UInt8) (length : Nat) : Option (Option Nat × Nat) := do
  let (i, totlen) ← fixedHeader buffer length
  if i + 2 ≥ length then return (none, 0) else
    let topiclen ← topicLen buffer i
    let i := i + 2
    if i + topiclen ≥ length then return (none, 0) else
      let i := i + topiclen
      let first ← buffer[0]?
      if mqttGetQos first > 0 ∧ i + 2 ≥ length then return (none, 0) else
        let i := if mqttGetQos first > 0 then i + 2 else i
        if totlen < i then return (none, 0)
        else if totlen ≤ length then return (some i, totlen - i)
        else return (some i, length - i)

theorem lengthLoop_cons {length i totlen : Nat} (b : UInt8) (bs : List UInt8) (h : i < length)
    (hi : i ≤ 4) (hsum : totlen + (b &&& 0x7f).toNat * 128 ^ (i - 1) < 2 ^ 31) :
    lengthLoop length (b :: bs) i totlen =
      if b &&& 0x80 = 0 then some (i + 1, totlen + (b &&& 0x7f).toNat * 128 ^ (i - 1))
      else lengthLoop length bs (i + 1) (totlen + (b &&& 0x7f).toNat * 128 ^ (i - 1)) := by
  have hpow : 2 ^ (7 * (i - 1)) = 128 ^ (i - 1) := by rw [Nat.pow_mul]
  have hpart : addPart totlen i b = some (totlen + (b &&& 0x7f).toNat * 128 ^ (i - 1)) := by
    rw [addPart, if_pos (by omega), addInt, Nat.shiftLeft_eq, hpow, if_pos hsum]
  simp [lengthLoop, h, hpart]

theorem part_lt {j d t : Nat} (hj : j ≤ 3) (hd : d < 128) (ht : t < 128 ^ j) :
    t + d * 128 ^ j < 128 ^ (j + 1) ∧ t + d * 128 ^ j < 2 ^ 31 := by
  have hstep : t + d * 128 ^ j < 128 ^ (j + 1) := by
    have := Nat.mul_le_mul_right (128 ^ j) hd
    rw [Nat.pow_succ]
    rw [Nat.succ_mul] at this
    omega
  have := Nat.pow_le_pow_right (n := 128) (by decide) (show j + 1 ≤ 4 by omega)
  omega

theorem lengthLoop_varInt {length : Nat} (k : Nat) {n j totlen : Nat} (hn : n < 128 ^ (k + 1))
    (hj : j + k ≤ 3) (htotlen : totlen < 128 ^ j) (rest : List UInt8)
    (h : j + 1 + (varInt k n).length ≤ length) :
    lengthLoop length (varInt k n ++ rest) (j + 1) totlen =
      some (j + 1 + (varInt k n).length, totlen + n * 128 ^ j) := by
  induction k generalizing n j totlen with
  | zero =>
    rw [varInt_small 0 (by omega)] at h ⊢
    obtain ⟨hlow, hmark⟩ := last_byte (show n < 128 by omega)
    simp only [List.length_singleton] at h
    rw [List.singleton_append, lengthLoop_cons _ _ (by omega) (by omega), if_pos hmark, hlow]
    · rfl
    · rw [hlow]
      exact (part_lt (by omega) (by omega) htotlen).2
  | succ k ih =>
    rcases Nat.lt_or_ge n 128 with hsmall | hlarge
    · rw [varInt_small _ hsmall] at h ⊢
      obtain ⟨hlow, hmark⟩ := last_byte hsmall
      simp only [List.length_singleton] at h
      rw [List.singleton_append, lengthLoop_cons _ _ (by omega) (by omega), if_pos hmark, hlow]
      · rfl
      · rw [hlow]
        exact (part_lt (by omega) hsmall htotlen).2
    · rw [varInt_large _ hlarge] at h ⊢
      have hdigit : n % 128 < 128 := Nat.mod_lt _ (by decide)
      obtain ⟨hlow, hmark⟩ := marked_byte hdigit
      obtain ⟨hnext, hsum⟩ := part_lt (by omega) hdigit htotlen
      simp only [List.length_cons] at h ⊢
      have hdiv : n / 128 < 128 ^ (k + 1) := by
        rw [Nat.div_lt_iff_lt_mul (by decide)]
        simpa [Nat.pow_succ] using hn
      rw [List.cons_append, lengthLoop_cons _ _ (by omega) (by omega) (by rwa [hlow]),
        if_neg hmark, hlow, Nat.add_sub_cancel,
        ih hdiv (by omega) hnext (by omega)]
      have hsplit : n * 128 ^ j = n % 128 * 128 ^ j + n / 128 * 128 ^ (j + 1) := calc
        n * 128 ^ j = (n % 128 + 128 * (n / 128)) * 128 ^ j := by rw [Nat.mod_add_div]
        _ = n % 128 * 128 ^ j + n / 128 * 128 ^ (j + 1) := by
          rw [Nat.add_mul, Nat.pow_succ, Nat.mul_comm 128, Nat.mul_assoc, Nat.mul_comm 128]
      rw [hsplit]
      congr 2 <;> omega

theorem lengthLoop_some {length i totlen : Nat} {bytes : List UInt8} {r : Nat × Nat}
    (h : i < length) (hrun : lengthLoop length bytes i totlen = some r) :
    ∃ b bs t, bytes = b :: bs ∧
      (b &&& 0x80 = 0 ∧ r = (i + 1, t) ∨
        b &&& 0x80 ≠ 0 ∧ lengthLoop length bs (i + 1) t = some r) := by
  cases bytes with
  | nil => simp [lengthLoop, h] at hrun
  | cons b bs =>
    simp only [lengthLoop, if_pos h, Option.bind_eq_bind, Option.bind_eq_some_iff] at hrun
    obtain ⟨t, -, ht⟩ := hrun
    refine ⟨b, bs, t, rfl, ?_⟩
    split at ht
    next hmark => exact .inl ⟨hmark, (Option.some.inj ht).symm⟩
    next hmark => exact .inr ⟨hmark, ht⟩

theorem lengthLoop_stop {length totlen : Nat} {bytes : List UInt8} {r : Nat × Nat}
    (hrun : lengthLoop length bytes length totlen = some r) : r.1 = length := by
  cases bytes <;> simp [lengthLoop] at hrun <;> simp [← hrun]

theorem lengthLoop_cut {length : Nat} (k : Nat) {n i totlen : Nat} {bytes : List UInt8}
    {r : Nat × Nat} (hbytes : bytes.take (length - i) = (varInt k n).take (length - i))
    (hi : i ≤ length) (h : length ≤ i + (varInt k n).length)
    (hrun : lengthLoop length bytes i totlen = some r) : r.1 = length := by
  have last {i t : Nat} {bytes : List UInt8} (hlast : i + 1 = length)
      (hrun : lengthLoop length bytes i t = some r) : r.1 = length := by
    obtain ⟨b, bs, t, -, ⟨-, hr⟩ | ⟨-, hrest⟩⟩ := lengthLoop_some (by omega) hrun
    · rw [hr, ← hlast]
    · exact lengthLoop_stop (hlast ▸ hrest)
  rcases Nat.eq_or_lt_of_le hi with rfl | hlt
  · exact lengthLoop_stop hrun
  induction k generalizing n i totlen bytes with
  | zero => exact last (by simp [varInt] at h; omega) hrun
  | succ k ih =>
    rcases Nat.lt_or_ge n 128 with hsmall | hlarge
    · exact last (by simp [varInt_small _ hsmall] at h; omega) hrun
    · obtain ⟨b, bs, t, rfl, hcase⟩ := lengthLoop_some hlt hrun
      rw [varInt_large _ hlarge] at hbytes h
      have hsucc : length - i = length - (i + 1) + 1 := by omega
      rw [hsucc, List.take_succ_cons, List.take_succ_cons, List.cons.injEq] at hbytes
      have hmark := (marked_byte (Nat.mod_lt n (show 0 < 128 by decide))).2
      rw [← hbytes.1] at hmark
      obtain ⟨hzero, -⟩ | ⟨-, hrest⟩ := hcase
      · exact absurd hzero hmark
      · rcases Nat.eq_or_lt_of_le hlt with heq | hnext
        · rw [show i + 1 = length from heq] at hrest
          exact lengthLoop_stop hrest
        · refine ih hbytes.2 (Nat.le_of_lt hnext) ?_ hrest hnext
          simp only [List.length_cons] at h
          omega

theorem fixedHeader_eq {n length : Nat} (hn : n < 128 ^ 4) (first : UInt8) (rest : List UInt8)
    (h : 1 + (varInt 3 n).length ≤ length) :
    fixedHeader (first :: (varInt 3 n ++ rest)) length =
      some (1 + (varInt 3 n).length, n + (1 + (varInt 3 n).length)) := by
  have hloop : lengthLoop length (varInt 3 n ++ rest) (0 + 1) 0 = _ :=
    lengthLoop_varInt 3 hn (by omega) (by omega) rest (by omega)
  have := varInt_length_le 3 n
  simp only [Nat.zero_add, Nat.pow_zero, Nat.mul_one] at hloop
  simp only [fixedHeader, List.tail_cons, hloop, addInt, Option.bind_eq_bind, Option.bind_some]
  rw [if_pos (by omega)]
  rfl

theorem fixedHeader_cut {n length : Nat} {buffer rest : List UInt8} {first : UInt8}
    {r : Nat × Nat} (hbuffer : buffer.take length = (first :: (varInt 3 n ++ rest)).take length)
    (hpos : 0 < length) (h : length ≤ 1 + (varInt 3 n).length)
    (hrun : fixedHeader buffer length = some r) : r.1 = length := by
  obtain ⟨k, rfl⟩ : ∃ k, length = k + 1 := ⟨length - 1, by omega⟩
  simp only [fixedHeader, Option.bind_eq_bind, Option.bind_eq_some_iff] at hrun
  obtain ⟨p, hloop, t, -, hr⟩ := hrun
  cases hr
  have htake : buffer.tail.take k = (varInt 3 n).take k := by
    have := congrArg List.tail hbuffer
    have hle : k ≤ (varInt 3 n).length := by omega
    cases buffer <;> simpa [List.take_append_of_le_length hle] using this
  have hend : p.1 = k + 1 := lengthLoop_cut 3 (i := 1) htake (by omega) (by omega) hloop
  exact hend

theorem topicLen_eq {n t : Nat} {hi lo : UInt8} (ht : hi.toNat * 256 + lo.toNat = t)
    (first : UInt8) (rest : List UInt8) :
    topicLen (first :: (varInt 3 n ++ hi :: lo :: rest)) (1 + (varInt 3 n).length) = some t := by
  have hor : hi.toNat <<< 8 ||| lo.toNat = t := by
    rw [← Nat.shiftLeft_add_eq_or_of_lt (UInt8.toNat_lt lo), Nat.shiftLeft_eq, ← ht]
  simp [topicLen, Nat.add_comm 1, hor]

theorem mqttGetPublishTopic_eq {n t length : Nat} {hi lo : UInt8} (hn : n < 128 ^ 4)
    (ht : hi.toNat * 256 + lo.toNat = t) (first : UInt8) (rest : List UInt8)
    (h : 1 + (varInt 3 n).length + 2 < length) :
    mqttGetPublishTopic (first :: (varInt 3 n ++ hi :: lo :: rest)) length =
      some (if 1 + (varInt 3 n).length + 2 + t > length then (none, length)
        else (some (1 + (varInt 3 n).length + 2), t)) := by
  simp only [mqttGetPublishTopic, fixedHeader_eq hn first _ (show _ ≤ length by omega),
    topicLen_eq ht, Option.bind_eq_bind, Option.bind_some]
  rw [if_neg (by omega)]
  split <;> rfl

def payloadStart (first : UInt8) (i t : Nat) : Nat :=
  i + 2 + t + if mqttGetQos first > 0 then 2 else 0

theorem mqttGetPublishData_parsed {buffer : List UInt8} {length i n t : Nat} {first : UInt8}
    (hheader : fixedHeader buffer length = some (i, n)) (h : i + 2 < length)
    (ht : topicLen buffer i = some t) (hfirst : buffer[0]? = some first) :
    mqttGetPublishData buffer length =
      some (if payloadStart first i t ≥ length ∨ n < payloadStart first i t then (none, 0)
        else (some (payloadStart first i t), min n length - payloadStart first i t)) := by
  simp only [mqttGetPublishData, hheader, ht, hfirst, Option.bind_eq_bind, Option.bind_some,
    payloadStart]
  rw [if_neg (by omega)]
  by_cases hqos : mqttGetQos first > 0
  · simp only [hqos, true_and, if_true, Nat.min_def, pure]
    grind
  · simp only [hqos, false_and, if_false, Nat.min_def, pure]
    grind

theorem mqttGetPublishData_eq {n t length : Nat} {hi lo : UInt8} (hn : n < 128 ^ 4)
    (ht : hi.toNat * 256 + lo.toNat = t) (first : UInt8) (rest : List UInt8)
    (h : 1 + (varInt 3 n).length + 2 < length) :
    mqttGetPublishData (first :: (varInt 3 n ++ hi :: lo :: rest)) length =
      let start := 1 + (varInt 3 n).length + 2 + t + if mqttGetQos first > 0 then 2 else 0
      some (if start ≥ length ∨ n + (1 + (varInt 3 n).length) < start then (none, 0)
        else (some start, min (n + (1 + (varInt 3 n).length)) length - start)) :=
  mqttGetPublishData_parsed (fixedHeader_eq hn first _ (show _ ≤ length by omega)) h
    (topicLen_eq ht first rest) rfl

end Esp32Project.Mqtt
