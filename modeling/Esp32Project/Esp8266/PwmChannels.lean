import Esp32Project.Lib.Packed
import Esp32Project.Esp8266.PwmTable
import Mathlib.Data.Finset.Card

/-!
The channels of the PWM driver (pwm.c) as its statics hold them: `pwm_out_io_num`
and `pwm.duty` are arrays, and the channels are at the front of both. LOCK_PWM,
the registers, and the frequency and the `pwm_start` of `pwm_init` are left
out. A result `none` is an access outside an array.
-/

set_option autoImplicit false

namespace Esp32Project.Esp8266.Channels
open Esp32Project.Lib

structure Statics where
  pwmOutIoNum : List Int8
  duty : List UInt16
  pwmGpio : UInt16
  pwmChannelNum : Nat
  deriving DecidableEq, Repr

def Statics.boot : Statics :=
  ⟨List.replicate pwmChannelMax (-1), List.replicate pwmChannelMax 0, 0, 0⟩

def pwmInit (s : Statics) : Statics :=
  { s with pwmGpio := 0, duty := List.replicate pwmChannelMax 0 }

/-- `pwm_out_io_num[i] == channel`, where both are promoted to int. -/
def isChannel (channel : UInt8) (io : Int8) : Bool := io.toInt == channel.toNat

def Statics.find (s : Statics) (channel : UInt8) : Option Nat :=
  (s.pwmOutIoNum.take s.pwmChannelNum).findIdx? (isChannel channel)

def clampDuty (duty : UInt16) : UInt16 :=
  if duty < 1 then 0 else if .ofNat pwmDepth ≤ duty then .ofNat pwmDepth else duty

def pwmSetDuty (duty : UInt16) (channel : UInt8) (s : Statics) : Option Statics :=
  match s.find channel with
  | none => some s
  | some i => (store s.duty i (clampDuty duty)).map fun duty => { s with duty }

def pwmGetDuty (channel : UInt8) (s : Statics) : Option UInt16 :=
  match s.find channel with
  | none => some 0
  | some i => s.duty[i]?

def pinMask (pinNum : UInt8 → Nat) (channel : UInt8) : UInt16 := .ofNat (2 ^ pinNum channel)

/-- The loop of `pwm_add`, with the places it has not come to yet. -/
def pwmAddFrom (pinNum : UInt8 → Nat) (channel : UInt8) (s : Statics) :
    List Int8 → Nat → Option (Bool × Statics)
  | [], _ => some (false, s)
  | io :: ios, i =>
    if isChannel channel io then some (true, s)
    else if io = -1 then do
      let pwmOutIoNum ← store s.pwmOutIoNum i channel.toInt8
      let duty ← store s.duty i 0
      return (true, ⟨pwmOutIoNum, duty, s.pwmGpio ||| pinMask pinNum channel,
        s.pwmChannelNum + 1⟩)
    else pwmAddFrom pinNum channel s ios (i + 1)

def pwmAdd (pinNum : UInt8 → Nat) (channel : UInt8) (s : Statics) : Option (Bool × Statics) :=
  pwmAddFrom pinNum channel s s.pwmOutIoNum 0

/-- The inner loop of `pwm_delete`, from `j` on. -/
def closeGap (pwmOutIoNum : List Int8) (duty : List UInt16) (j : Nat) :
    Nat → Option (List Int8 × List UInt16)
  | 0 => some (pwmOutIoNum, duty)
  | m + 1 => do
    let io ← pwmOutIoNum[j + 1]?
    let pwmOutIoNum ← store pwmOutIoNum j io
    let d ← duty[j + 1]?
    let duty ← store duty j d
    closeGap pwmOutIoNum duty (j + 1) m

def pwmDelete (pinNum : UInt8 → Nat) (channel : UInt8) (s : Statics) : Option (Bool × Statics) :=
  match s.find channel with
  | none => some (true, s)
  | some i => do
    let pwmOutIoNum ← store s.pwmOutIoNum i (-1)
    let (pwmOutIoNum, duty) ← closeGap pwmOutIoNum s.duty i (s.pwmChannelNum - 1 - i)
    let pwmOutIoNum ← store pwmOutIoNum (s.pwmChannelNum - 1) (-1)
    let duty ← store duty (s.pwmChannelNum - 1) 0
    return (true, ⟨pwmOutIoNum, duty, s.pwmGpio &&& ~~~ pinMask pinNum channel,
      s.pwmChannelNum - 1⟩)

/-- `pwm_exist` looks at all places. -/
def pwmExist (channel : UInt8) (s : Statics) : Bool := s.pwmOutIoNum.any (isChannel channel)

/-- The channels that are used, and `pin_num`. -/
structure PinMap where
  pinNum : UInt8 → Nat
  used : UInt8 → Prop
  channel_lt : ∀ c, used c → c < 128
  pin_lt : ∀ c, used c → pinNum c < 16
  pin_inj : ∀ c d, used c → used d → pinNum c = pinNum d → c = d

abbrev PinMap.Channel (m : PinMap) := { c : UInt8 // m.used c }

inductive Call (m : PinMap) where
  | add : m.Channel → Call m
  | delete : m.Channel → Call m
  | setDuty : UInt16 → m.Channel → Call m

def Statics.call {m : PinMap} (s : Statics) : Call m → Option Statics
  | .add c => (pwmAdd m.pinNum c.val s).map Prod.snd
  | .delete c => (pwmDelete m.pinNum c.val s).map Prod.snd
  | .setDuty duty c => pwmSetDuty duty c.val s

def heldAfter {m : PinMap} (held : Finset m.Channel) : Call m → Finset m.Channel
  | .add c => if c ∈ held ∨ held.card < pwmChannelMax then insert c held else held
  | .delete c => held.erase c
  | .setDuty _ _ => held

/-- What the driver is for: the channels that have been added and not deleted since, as
many as there is room for. -/
def held {m : PinMap} (ks : List (Call m)) : Finset m.Channel := ks.foldl heldAfter ∅

/-- The channels with their duties, in the order they were added in. -/
def entriesAfter {m : PinMap} (es : List (m.Channel × UInt16)) :
    Call m → List (m.Channel × UInt16)
  | .add c => if c ∈ es.map Prod.fst ∨ pwmChannelMax ≤ es.length then es else es ++ [(c, 0)]
  | .delete c => es.eraseP fun e => e.1 = c
  | .setDuty duty c => es.map fun e => if e.1 = c then (c, clampDuty duty) else e

section

variable {m : PinMap} {s s' : Statics} {es : List (m.Channel × UInt16)} {c d : m.Channel}

theorem toInt_io (c : m.Channel) : c.val.toInt8.toInt = c.val.toNat := by
  have hlt := UInt8.lt_iff_toNat_lt.mp (m.channel_lt c.val c.property)
  have hsmall : 2 * c.val.toBitVec.toNat < 2 ^ 8 := by
    change c.val.toNat < 128 at hlt
    change 2 * c.val.toNat < 2 ^ 8
    omega
  exact BitVec.toInt_eq_toNat_of_lt hsmall

theorem isChannel_io : isChannel d.val c.val.toInt8 = decide (c = d) := by
  rw [isChannel, toInt_io, Bool.eq_iff_iff, beq_iff_eq, decide_eq_true_iff, Int.natCast_inj,
    UInt8.toNat_inj, Subtype.ext_iff]

theorem io_ne (c : m.Channel) : c.val.toInt8 ≠ -1 := by
  intro heq
  have hio := toInt_io c
  rw [heq] at hio
  change (-1 : Int) = _ at hio
  omega

theorem isChannel_empty (c : m.Channel) : isChannel c.val (-1) = false := by
  rw [isChannel, Bool.eq_false_iff]
  intro heq
  have hio : (-1 : Int) = c.val.toNat := beq_iff_eq.mp heq
  omega

theorem hasBit_pinMask (c : m.Channel) (b : Nat) :
    hasBit (pinMask m.pinNum c.val) b = true ↔ m.pinNum c.val = b := by
  have hlt := m.pin_lt c.val c.property
  exact (hasBit_pow _ b).trans ⟨fun h => h.2, fun h => ⟨h ▸ hlt, h⟩⟩

theorem closeGap_eq {pwmOutIoNum io : List Int8} {duty d : List UInt16} {j n : Nat}
    (hio : shiftDown pwmOutIoNum j n = some io) (hd : shiftDown duty j n = some d) :
    closeGap pwmOutIoNum duty j n = some (io, d) := by
  induction n generalizing pwmOutIoNum duty j with
  | zero =>
    cases hio
    cases hd
    rfl
  | succ n ih =>
    simp only [shiftDown, Option.bind_eq_some_iff] at hio hd
    obtain ⟨a, ha, pwmOutIoNum', hput, hio⟩ := hio
    obtain ⟨b, hb, duty', hput', hd⟩ := hd
    simp [closeGap, ha, hb, hput, hput', ih hio hd]

theorem closeGap_packed {n i : Nat} {io : List Int8} {duty : List UInt16}
    (hlen : duty.length = io.length) (hn : io.length ≤ n) (hi : i < io.length) :
    ∃ io' duty', closeGap (packed n (-1) io) (packed n 0 duty) i (io.length - 1 - i) =
        some (io', duty') ∧
      store io' (io.length - 1) (-1) = some (packed n (-1) (io.eraseIdx i)) ∧
      store duty' (io.length - 1) 0 = some (packed n 0 (duty.eraseIdx i)) := by
  have hio : (shiftDown (packed n (-1) io) i (io.length - 1 - i)).bind
      (store · (io.length - 1) (-1)) = some (packed n (-1) (io.eraseIdx i)) :=
    shiftDown_packed hn hi
  have hduty : (shiftDown (packed n 0 duty) i (duty.length - 1 - i)).bind
      (store · (duty.length - 1) 0) = some (packed n 0 (duty.eraseIdx i)) :=
    shiftDown_packed (hlen ▸ hn) (hlen ▸ hi)
  rw [hlen] at hduty
  obtain ⟨io', hshift, hlast⟩ := Option.bind_eq_some_iff.mp hio
  obtain ⟨duty', hshift', hlast'⟩ := Option.bind_eq_some_iff.mp hduty
  exact ⟨io', duty', closeGap_eq hshift hshift', hlast, hlast'⟩

/-! The entries. -/

theorem mem_keys {v : UInt16} (h : (c, v) ∈ es) : c ∈ es.map Prod.fst :=
  List.mem_map_of_mem (f := Prod.fst) h

theorem entriesAfter_add (hc : c ∉ es.map Prod.fst) (hroom : es.length < pwmChannelMax) :
    entriesAfter es (.add c) = es ++ [(c, 0)] := by
  rw [entriesAfter, if_neg]
  rintro (hin | hfull)
  · exact hc hin
  · omega

theorem entriesAfter_same (h : c ∈ es.map Prod.fst ∨ pwmChannelMax ≤ es.length) :
    entriesAfter es (.add c) = es := if_pos h

theorem keys_delete (es : List (m.Channel × UInt16)) (c : m.Channel) :
    (entriesAfter es (.delete c)).map Prod.fst = (es.map Prod.fst).erase c := by
  rw [entriesAfter, List.erase_eq_eraseP', List.eraseP_map]
  congr 2
  funext e
  rw [Bool.eq_iff_iff, decide_eq_true_iff, Function.comp_apply, beq_iff_eq, eq_comm]

theorem keys_setDuty (es : List (m.Channel × UInt16)) (duty : UInt16) (c : m.Channel) :
    (entriesAfter es (.setDuty duty c)).map Prod.fst = es.map Prod.fst := by
  rw [entriesAfter, List.map_map]
  refine List.map_congr_left fun e _ => ?_
  by_cases he : e.1 = c <;> simp [he]

theorem entriesAfter_nodup (h : (es.map Prod.fst).Nodup) (k : Call m) :
    ((entriesAfter es k).map Prod.fst).Nodup := by
  cases k with
  | add c =>
    rw [entriesAfter]
    split
    · exact h
    · rename_i hnew
      rw [List.map_append]
      refine List.nodup_append.mpr ⟨h, List.nodup_singleton _, fun a ha b hb => ?_⟩
      obtain rfl : b = c := List.mem_singleton.mp hb
      rintro rfl
      exact hnew (.inl ha)
  | delete c =>
    rw [keys_delete]
    exact h.erase _
  | setDuty duty c =>
    rw [keys_setDuty]
    exact h

/-- The keys of the entries are the channels held. -/
theorem held_entriesAfter (h : (es.map Prod.fst).Nodup) (k : Call m) :
    ((entriesAfter es k).map Prod.fst).toFinset = heldAfter (es.map Prod.fst).toFinset k := by
  cases k with
  | add c =>
    simp only [heldAfter, List.toFinset_card_of_nodup h, List.length_map, List.mem_toFinset]
    by_cases hc : c ∈ es.map Prod.fst
    · rw [entriesAfter_same (.inl hc), if_pos (.inl hc),
        Finset.insert_eq_self.mpr (List.mem_toFinset.mpr hc)]
    by_cases hroom : es.length < pwmChannelMax
    · rw [entriesAfter_add hc hroom, if_pos (.inr hroom)]
      ext d
      rw [List.mem_toFinset, List.map_append, List.mem_append, Finset.mem_insert,
        List.mem_toFinset, or_comm]
      exact or_congr_left List.mem_singleton
    · rw [entriesAfter_same (.inr (Nat.le_of_not_lt hroom)), if_neg (by simp [hc, hroom])]
  | delete c =>
    rw [keys_delete, heldAfter]
    ext d
    rw [List.mem_toFinset, h.mem_erase_iff, Finset.mem_erase, List.mem_toFinset]
  | setDuty duty c => rw [keys_setDuty, heldAfter]

theorem mem_add_iff {v : UInt16} (hne : d ≠ c) :
    (d, v) ∈ entriesAfter es (.add c) ↔ (d, v) ∈ es := by
  rw [entriesAfter]
  split
  · exact Iff.rfl
  · rw [List.mem_append, List.mem_singleton, Prod.mk.injEq]
    exact or_iff_left fun h => hne h.1

theorem mem_delete_iff {v : UInt16} (hne : d ≠ c) :
    (d, v) ∈ entriesAfter es (.delete c) ↔ (d, v) ∈ es :=
  List.mem_eraseP_of_neg (by simpa using hne)

/-! The arrays. -/

def ios (es : List (m.Channel × UInt16)) : List Int8 := es.map fun e => e.1.val.toInt8

theorem length_ios : (ios es).length = es.length := List.length_map _

theorem ios_append {v : UInt16} : ios (es ++ [(c, v)]) = ios es ++ [c.val.toInt8] :=
  List.map_append ..

/-- The entries are at the front of the arrays, and the mask is that of their pins. -/
structure Rep (m : PinMap) (s : Statics) (es : List (m.Channel × UInt16)) : Prop where
  room : es.length ≤ pwmChannelMax
  io : s.pwmOutIoNum = packed pwmChannelMax (-1) (ios es)
  duty : s.duty = packed pwmChannelMax 0 (es.map Prod.snd)
  num : s.pwmChannelNum = es.length
  nodup : (es.map Prod.fst).Nodup
  gpio : ∀ b, hasBit s.pwmGpio b = true ↔ ∃ c ∈ es.map Prod.fst, m.pinNum c.val = b

theorem rep_pwmInit : Rep m (pwmInit .boot) [] where
  room := Nat.zero_le _
  io := rfl
  duty := rfl
  num := rfl
  nodup := List.nodup_nil
  gpio b := by simp [pwmInit]

theorem Rep.find (h : Rep m s es) (c : m.Channel) :
    s.find c.val = es.findIdx? fun e => e.1 = c := by
  rw [Statics.find, h.io, h.num, ← length_ios, take_packed, ios, List.findIdx?_map]
  congr 1
  funext e
  exact isChannel_io

theorem pwmAddFrom_entries (es : List (m.Channel × UInt16)) (rest : List Int8) (i : Nat) :
    pwmAddFrom m.pinNum c.val s (ios es ++ rest) i =
      if c ∈ es.map Prod.fst then some (true, s)
      else pwmAddFrom m.pinNum c.val s rest (i + es.length) := by
  induction es generalizing i with
  | nil => rfl
  | cons e es ih =>
    rw [ios, List.map_cons, List.cons_append, ← ios, pwmAddFrom, isChannel_io,
      if_neg (io_ne e.1), ih]
    by_cases he : e.1 = c
    · rw [if_pos (decide_eq_true he), if_pos (by simp [he])]
    · have hmem : c ∈ (e :: es).map Prod.fst ↔ c ∈ es.map Prod.fst := by simp [Ne.symm he]
      rw [if_neg (by simpa using he), if_congr hmem rfl rfl, List.length_cons, Nat.add_assoc,
        Nat.add_comm 1]

theorem Rep.push (h : Rep m s es) (hc : c ∉ es.map Prod.fst) (hroom : es.length < pwmChannelMax) :
    ∃ pwmOutIoNum duty, store s.pwmOutIoNum es.length c.val.toInt8 = some pwmOutIoNum ∧
      store s.duty es.length 0 = some duty ∧
      Rep m ⟨pwmOutIoNum, duty, s.pwmGpio ||| pinMask m.pinNum c.val, s.pwmChannelNum + 1⟩
        (entriesAfter es (.add c)) := by
  have hio : store (packed pwmChannelMax (-1) (ios es)) (ios es).length c.val.toInt8 =
      some (packed pwmChannelMax (-1) (ios es ++ [c.val.toInt8])) :=
    store_packed_end (length_ios ▸ hroom)
  have hduty : store (packed pwmChannelMax 0 (es.map Prod.snd)) (es.map Prod.snd).length 0 =
      some (packed pwmChannelMax 0 (es.map Prod.snd ++ [0])) :=
    store_packed_end (by rwa [List.length_map])
  rw [length_ios, ← h.io] at hio
  rw [List.length_map, ← h.duty] at hduty
  refine ⟨_, _, hio, hduty, ?_⟩
  have hnodup := entriesAfter_nodup h.nodup (.add c)
  rw [entriesAfter_add hc hroom] at hnodup ⊢
  refine ⟨?_, ?_, ?_, ?_, hnodup, fun b => ?_⟩
  · rw [List.length_append, List.length_singleton]
    exact hroom
  · rw [ios_append]
  · rw [List.map_append]
    rfl
  · rw [h.num, List.length_append, List.length_singleton]
  · rw [hasBit_or, Bool.or_eq_true, h.gpio, hasBit_pinMask, List.map_append]
    simp [or_and_right, exists_or]

theorem Rep.pwmAdd (h : Rep m s es) (c : m.Channel) :
    ∃ s', pwmAdd m.pinNum c.val s =
        some (decide (c ∈ es.map Prod.fst ∨ es.length < pwmChannelMax), s') ∧
      Rep m s' (entriesAfter es (.add c)) := by
  have hscan := pwmAddFrom_entries (c := c) (s := s) es
    (List.replicate (pwmChannelMax - (ios es).length) (-1)) 0
  rw [Channels.pwmAdd, h.io, packed, hscan, length_ios, Nat.zero_add]
  by_cases hc : c ∈ es.map Prod.fst
  · rw [if_pos hc, entriesAfter_same (.inl hc), decide_eq_true (.inl hc)]
    exact ⟨s, rfl, h⟩
  rw [if_neg hc]
  by_cases hroom : es.length < pwmChannelMax
  · obtain ⟨k, hk⟩ : ∃ k, pwmChannelMax - es.length = k + 1 :=
      ⟨pwmChannelMax - es.length - 1, by omega⟩
    obtain ⟨pwmOutIoNum, duty, hio, hduty, hrep⟩ := h.push hc hroom
    rw [hk, List.replicate_succ, pwmAddFrom, isChannel_empty, if_neg Bool.false_ne_true,
      if_pos rfl, hio, hduty, decide_eq_true (.inr hroom)]
    exact ⟨_, rfl, hrep⟩
  · have hfull : ¬ (c ∈ es.map Prod.fst ∨ es.length < pwmChannelMax) := by
      rintro (hin | hlt)
      · exact hc hin
      · exact hroom hlt
    have hle := Nat.le_of_not_lt hroom
    rw [Nat.sub_eq_zero_of_le hle, entriesAfter_same (.inr hle), decide_eq_false hfull]
    exact ⟨s, rfl, h⟩

theorem findIdx?_cases (es : List (m.Channel × UInt16)) (c : m.Channel) :
    (c ∉ es.map Prod.fst ∧ es.findIdx? (fun e => e.1 = c) = none) ∨
      ∃ i v, es.findIdx? (fun e => e.1 = c) = some i ∧ es[i]? = some (c, v) := by
  cases hf : es.findIdx? (fun e => e.1 = c) with
  | none =>
    refine .inl ⟨fun hc => ?_, rfl⟩
    obtain ⟨e, he, rfl⟩ := List.mem_map.mp hc
    simpa using List.findIdx?_eq_none_iff.mp hf e he
  | some i =>
    obtain ⟨hi, he, -⟩ := List.findIdx?_eq_some_iff_getElem.mp hf
    obtain rfl := of_decide_eq_true he
    exact .inr ⟨i, es[i].2, rfl, List.getElem?_eq_getElem hi⟩

theorem Rep.gpio_clear (h : Rep m s es) (c : m.Channel) (b : Nat) :
    hasBit (s.pwmGpio &&& ~~~ pinMask m.pinNum c.val) b = true ↔
      ∃ d ∈ (es.map Prod.fst).erase c, m.pinNum d.val = b := by
  have hlt (b : Nat) (d : m.Channel) : b < 16 ∧ m.pinNum d.val = b ↔ m.pinNum d.val = b :=
    and_iff_right_of_imp fun heq => heq ▸ m.pin_lt d.val d.property
  have herase := @hasBit_erase m.Channel _ _ (es.map Prod.fst) (fun d => m.pinNum d.val) s.pwmGpio c
    h.nodup (fun b => by simp only [hlt, h.gpio])
    (fun d _ heq => Subtype.ext (m.pin_inj _ _ d.property c.property heq)) b
  simp only [hlt] at herase
  exact herase

theorem Rep.pwmDelete (h : Rep m s es) (c : m.Channel) :
    ∃ s', pwmDelete m.pinNum c.val s = some (true, s') ∧
      Rep m s' (entriesAfter es (.delete c)) := by
  rw [Channels.pwmDelete, h.find]
  rcases findIdx?_cases es c with ⟨hc, hf⟩ | ⟨i, v, hf, hi⟩
  · have hsame : entriesAfter es (.delete c) = es := List.eraseP_of_forall_not fun e he => by
      simpa using List.findIdx?_eq_none_iff.mp hf e he
    rw [hf, hsame]
    exact ⟨s, rfl, h⟩
  · have hlt : i < es.length := (List.getElem?_eq_some_iff.mp hi).1
    have hafter : entriesAfter es (.delete c) = es.eraseIdx i := by
      rw [entriesAfter, List.eraseP_eq_eraseIdx, hf]
    have hlen : ((ios es).set i (-1)).length = es.length := by rw [List.length_set, length_ios]
    have hempty : store s.pwmOutIoNum i (-1) =
        some (packed pwmChannelMax (-1) ((ios es).set i (-1))) := by
      rw [h.io]
      exact store_packed (length_ios ▸ h.room) (length_ios ▸ hlt)
    -- the place is empty before both arrays close the gap
    obtain ⟨io, duty, hgap, hio, hduty⟩ := closeGap_packed (n := pwmChannelMax) (i := i)
      (show (es.map Prod.snd).length = ((ios es).set i (-1)).length by rw [hlen, List.length_map])
      (hlen ▸ h.room) (hlen ▸ hlt)
    rw [hlen] at hgap hio hduty
    have hnodup := entriesAfter_nodup h.nodup (.delete c)
    simp only [hf, hempty, h.num, h.duty, hgap, hio, hduty, Option.bind_eq_bind, Option.bind_some]
    refine ⟨_, rfl, ?_⟩
    rw [hafter] at hnodup ⊢
    refine ⟨Nat.le_trans (List.length_eraseIdx_le ..) h.room, ?_, ?_, ?_, hnodup, fun b => ?_⟩
    · simp only [List.eraseIdx_set_eq, ios, List.eraseIdx_map]
    · simp only [List.eraseIdx_map]
    · rw [List.length_eraseIdx_of_lt hlt]
    · rw [← hafter, keys_delete]
      exact h.gpio_clear c b

theorem setDuty_absent {duty : UInt16} (hc : c ∉ es.map Prod.fst) :
    entriesAfter es (.setDuty duty c) = es := by
  refine (List.map_congr_left fun e he => if_neg ?_).trans (List.map_id es)
  rintro rfl
  exact hc (List.mem_map_of_mem he)

theorem snd_setDuty {i : Nat} {v : UInt16} (h : (es.map Prod.fst).Nodup)
    (hi : es[i]? = some (c, v)) (duty : UInt16) :
    (entriesAfter es (.setDuty duty c)).map Prod.snd =
      (es.map Prod.snd).set i (clampDuty duty) := by
  obtain ⟨hlt, hat⟩ := List.getElem?_eq_some_iff.mp hi
  refine List.ext_getElem (by simp [entriesAfter]) fun j hj _ => ?_
  have hj' : j < es.length := by simpa [entriesAfter] using hj
  have hkey : es[j].1 = c ↔ i = j := by
    have hi' : i < (es.map Prod.fst).length := by rwa [List.length_map]
    have hj'' : j < (es.map Prod.fst).length := by rwa [List.length_map]
    have hinj : (es.map Prod.fst)[i] = (es.map Prod.fst)[j] ↔ i = j :=
      List.Nodup.getElem_inj_iff h
    rw [List.getElem_map, List.getElem_map, hat] at hinj
    rw [← hinj, eq_comm]
  simp only [entriesAfter, List.getElem_map, List.getElem_set]
  by_cases he : i = j
  · rw [if_pos (hkey.mpr he), if_pos he]
  · rw [if_neg (mt hkey.mp he), if_neg he]

theorem Rep.pwmSetDuty (h : Rep m s es) (duty : UInt16) (c : m.Channel) :
    ∃ s', pwmSetDuty duty c.val s = some s' ∧ Rep m s' (entriesAfter es (.setDuty duty c)) := by
  have hkeys := keys_setDuty es duty c
  rw [Channels.pwmSetDuty, h.find]
  rcases findIdx?_cases es c with ⟨hc, hf⟩ | ⟨i, v, hf, hi⟩
  · rw [hf, setDuty_absent hc]
    exact ⟨s, rfl, h⟩
  · have hlt : i < (es.map Prod.snd).length := by
      rw [List.length_map]
      exact (List.getElem?_eq_some_iff.mp hi).1
    have hput : store s.duty i (clampDuty duty) =
        some (packed pwmChannelMax 0 ((es.map Prod.snd).set i (clampDuty duty))) := by
      rw [h.duty]
      exact store_packed (by rw [List.length_map]; exact h.room) hlt
    have hlen : (entriesAfter es (.setDuty duty c)).length = es.length := List.length_map ..
    have hios : ios (entriesAfter es (.setDuty duty c)) = ios es := by
      have hmap := congrArg (List.map fun d : m.Channel => d.val.toInt8) hkeys
      rwa [List.map_map, List.map_map] at hmap
    simp only [hf, hput]
    refine ⟨_, rfl, hlen ▸ h.room, ?_, ?_, ?_, ?_, ?_⟩
    · rw [hios]
      exact h.io
    · rw [snd_setDuty h.nodup hi]
    · rw [hlen]
      exact h.num
    · rw [hkeys]
      exact h.nodup
    · rw [hkeys]
      exact h.gpio

theorem Rep.call (h : Rep m s es) (k : Call m) :
    ∃ s', s.call k = some s' ∧ Rep m s' (entriesAfter es k) := by
  cases k with
  | add c =>
    obtain ⟨s', hs, hrep⟩ := h.pwmAdd c
    exact ⟨s', by rw [Statics.call, hs, Option.map_some], hrep⟩
  | delete c =>
    obtain ⟨s', hs, hrep⟩ := h.pwmDelete c
    exact ⟨s', by rw [Statics.call, hs, Option.map_some], hrep⟩
  | setDuty duty c => exact h.pwmSetDuty duty c

/-- No call accesses anything outside the arrays, and the arrays follow the entries. -/
theorem Rep.calls (h : Rep m s es) (ks : List (Call m)) :
    ∃ s', ks.foldlM Statics.call s = some s' ∧ Rep m s' (ks.foldl entriesAfter es) := by
  induction ks generalizing s es with
  | nil => exact ⟨s, rfl, h⟩
  | cons k ks ih =>
    obtain ⟨s₁, hs, hrep⟩ := h.call k
    obtain ⟨s', hrun, hrep'⟩ := ih hrep
    exact ⟨s', by rw [List.foldlM_cons, hs]; exact hrun, hrep'⟩

theorem held_calls (h : (es.map Prod.fst).Nodup) (ks : List (Call m)) :
    ((ks.foldl entriesAfter es).map Prod.fst).toFinset =
      ks.foldl heldAfter (es.map Prod.fst).toFinset := by
  induction ks generalizing es with
  | nil => rfl
  | cons k ks ih =>
    rw [List.foldl_cons, List.foldl_cons, ih (entriesAfter_nodup h k), held_entriesAfter h]

theorem Rep.getDuty (h : Rep m s es) {v : UInt16} (hmem : (d, v) ∈ es) :
    pwmGetDuty d.val s = some v := by
  rw [pwmGetDuty, h.find]
  rcases findIdx?_cases es d with ⟨hc, -⟩ | ⟨i, w, hf, hi⟩
  · exact absurd (mem_keys hmem) hc
  · have hlt : i < (es.map Prod.snd).length := by
      rw [List.length_map]
      exact (List.getElem?_eq_some_iff.mp hi).1
    obtain rfl : v = w := (Prod.mk.inj
      (List.inj_on_of_nodup_map h.nodup hmem (List.mem_of_getElem? hi) rfl)).2
    simp only [hf, h.duty]
    rw [getElem?_packed hlt, List.getElem?_map, hi]
    rfl

theorem Rep.getDuty_absent (h : Rep m s es) (hd : d ∉ es.map Prod.fst) :
    pwmGetDuty d.val s = some 0 := by
  rw [pwmGetDuty, h.find]
  rcases findIdx?_cases es d with ⟨-, hf⟩ | ⟨i, w, -, hi⟩
  · rw [hf]
  · exact absurd (mem_keys (List.mem_of_getElem? hi)) hd

theorem Rep.getDuty_congr {es' : List (m.Channel × UInt16)} (h : Rep m s es) (h' : Rep m s' es')
    (hmem : ∀ v, (d, v) ∈ es' ↔ (d, v) ∈ es) : pwmGetDuty d.val s' = pwmGetDuty d.val s := by
  by_cases hd : d ∈ es.map Prod.fst
  · obtain ⟨⟨_, v⟩, hv, rfl⟩ := List.mem_map.mp hd
    rw [h.getDuty hv, h'.getDuty ((hmem v).mpr hv)]
  · have hd' : d ∉ es'.map Prod.fst := fun hin => by
      obtain ⟨⟨_, v⟩, hv, rfl⟩ := List.mem_map.mp hin
      exact hd (mem_keys ((hmem v).mp hv))
    rw [h.getDuty_absent hd, h'.getDuty_absent hd']

theorem Rep.pwmExist (h : Rep m s es) (c : m.Channel) :
    pwmExist c.val s = decide (c ∈ es.map Prod.fst) := by
  rw [Bool.eq_iff_iff, decide_eq_true_iff, Channels.pwmExist, h.io, packed, List.any_append,
    Bool.or_eq_true, ios, List.any_map]
  constructor
  · rintro (hin | hempty)
    · obtain ⟨e, he, heq⟩ := List.any_eq_true.mp hin
      rw [Function.comp_apply, isChannel_io, decide_eq_true_iff] at heq
      exact List.mem_map.mpr ⟨e, he, heq⟩
    · obtain ⟨io, hio, heq⟩ := List.any_eq_true.mp hempty
      rw [List.eq_of_mem_replicate hio, isChannel_empty] at heq
      cases heq
  · intro hc
    obtain ⟨e, he, rfl⟩ := List.mem_map.mp hc
    exact .inl (List.any_eq_true.mpr ⟨e, he, isChannel_io.trans (decide_eq_true rfl)⟩)

end

/-- The statics hold these channels and no others. -/
structure Table (m : PinMap) (s : Statics) (held : Finset m.Channel) : Prop where
  length : s.pwmOutIoNum.length = pwmChannelMax
  room : s.pwmChannelNum ≤ pwmChannelMax
  distinct : (s.pwmOutIoNum.take s.pwmChannelNum).Nodup
  channels : ∀ io, io ∈ s.pwmOutIoNum.take s.pwmChannelNum ↔
    ∃ c ∈ held, io.toInt = c.val.toNat
  rest : ∀ io ∈ s.pwmOutIoNum.drop s.pwmChannelNum, io = -1
  gpio : ∀ b, hasBit s.pwmGpio b = true ↔ ∃ c ∈ held, m.pinNum c.val = b

theorem Rep.table {m : PinMap} {s : Statics} {es : List (m.Channel × UInt16)} (h : Rep m s es) :
    Table m s (es.map Prod.fst).toFinset := by
  have hnum : s.pwmChannelNum = (ios es).length := by rw [h.num, length_ios]
  have hios : ios es = (es.map Prod.fst).map fun c => c.val.toInt8 := by
    rw [List.map_map]
    rfl
  refine ⟨?_, h.num ▸ h.room, ?_, fun io => ?_, fun io hio => ?_, fun b => ?_⟩
  · rw [h.io, length_packed (length_ios ▸ h.room)]
  · rw [h.io, hnum, take_packed, hios]
    refine h.nodup.map fun c d hcd => Subtype.ext (UInt8.toNat_inj.mp ?_)
    have hint := congrArg Int8.toInt hcd
    rwa [toInt_io, toInt_io, Int.natCast_inj] at hint
  · rw [h.io, hnum, take_packed, hios, List.mem_map]
    constructor
    · rintro ⟨c, hc, rfl⟩
      exact ⟨c, List.mem_toFinset.mpr hc, toInt_io c⟩
    · rintro ⟨c, hc, hio⟩
      exact ⟨c, List.mem_toFinset.mp hc, Int8.toInt_inj.mp ((toInt_io c).trans hio.symm)⟩
  · rw [h.io, hnum, drop_packed] at hio
    exact List.eq_of_mem_replicate hio
  · simp only [h.gpio, List.mem_toFinset]

/-- After any calls the statics hold the channels that have been added and not deleted
since, and a call for one channel leaves the duties of the others. -/
theorem channel_table (m : PinMap) (ks : List (Call m)) :
    ∃ s, ks.foldlM Statics.call (pwmInit .boot) = some s ∧ Table m s (held ks) ∧
      ∀ c : m.Channel,
        (∃ s', pwmAdd m.pinNum c.val s =
            some (decide (c ∈ held ks ∨ (held ks).card < pwmChannelMax), s') ∧
          ∀ d : m.Channel, d ≠ c → pwmGetDuty d.val s' = pwmGetDuty d.val s) ∧
        ∃ s', pwmDelete m.pinNum c.val s = some (true, s') ∧
          ∀ d : m.Channel, d ≠ c → pwmGetDuty d.val s' = pwmGetDuty d.val s := by
  obtain ⟨s, hrun, hrep⟩ := (rep_pwmInit (m := m)).calls ks
  have hheld : ((ks.foldl entriesAfter []).map Prod.fst).toFinset = held ks :=
    held_calls rep_pwmInit.nodup ks
  rw [← hheld, List.toFinset_card_of_nodup hrep.nodup, List.length_map]
  refine ⟨s, hrun, hrep.table, fun c => ⟨?_, ?_⟩⟩
  · obtain ⟨s', hadd, hrep'⟩ := hrep.pwmAdd c
    simp only [List.mem_toFinset]
    exact ⟨s', hadd, fun d hne => hrep.getDuty_congr hrep' fun v => mem_add_iff hne⟩
  · obtain ⟨s', hdelete, hrep'⟩ := hrep.pwmDelete c
    exact ⟨s', hdelete, fun d hne => hrep.getDuty_congr hrep' fun v => mem_delete_iff hne⟩

end Esp32Project.Esp8266.Channels
