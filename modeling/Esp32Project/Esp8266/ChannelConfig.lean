import Esp32Project.Esp8266.PwmChannels
import Esp32Project.Esp8266.Waveform

/-!
The channels as `pwm_start` reads them. On the pins of pin_map.c, where D0 is
GPIO16 and is left out, the calls change the arrays of pwm.c as they change the
lists of a `PwmConfig`.
-/

set_option autoImplicit false

namespace Esp32Project.Esp8266.Channels
open Esp32Project.Lib

def onTable (c : UInt8) : Prop := 0 < c.toNat ∧ c.toNat < pinNum.length

theorem channel_lt_onTable (c : UInt8) (h : onTable c) : c < 128 := by
  have hlen : pinNum.length = 13 := rfl
  have hlt : c.toNat < 128 := by
    have := h.2
    omega
  exact UInt8.lt_iff_toNat_lt.mpr hlt

theorem pin_lt_onTable (c : UInt8) (h : onTable c) : pinNum.getD c.toNat 0 < 16 := by
  have hall : ∀ i < pinNum.length, 0 < i → pinNum.getD i 0 < 16 := by decide
  exact hall c.toNat h.2 h.1

theorem pin_inj_onTable (c d : UInt8) (hc : onTable c) (hd : onTable d)
    (heq : pinNum.getD c.toNat 0 = pinNum.getD d.toNat 0) : c = d :=
  UInt8.toNat_inj.mp (pinNum_inj hc.2 hd.2 heq)

def pinMap : PinMap where
  pinNum c := pinNum.getD c.toNat 0
  used := onTable
  channel_lt := channel_lt_onTable
  pin_lt := pin_lt_onTable
  pin_inj := pin_inj_onTable

def configCall (c : PwmConfig) : Call pinMap → PwmConfig
  | .add ch => (Esp8266.pwmAdd c ch.val.toNat).2
  | .delete ch => Esp8266.pwmDelete c ch.val.toNat
  | .setDuty duty ch => Esp8266.pwmSetDuty c duty.toNat ch.val.toNat

structure ConfigOf (es : List (pinMap.Channel × UInt16)) (c : PwmConfig) : Prop where
  io : c.pwmOutIoNum = es.map fun e => e.1.val.toNat
  duty : c.duty = packed pwmChannelMax 0 (es.map fun e => e.2.toNat)
  pins : c.Pins

section

variable {s : Statics} {es : List (pinMap.Channel × UInt16)} {c : PwmConfig}
  {ch : pinMap.Channel}

theorem ConfigOf.mem_iff (h : ConfigOf es c) :
    ch.val.toNat ∈ c.pwmOutIoNum ↔ ch ∈ es.map Prod.fst := by
  rw [h.io, List.mem_map, List.mem_map]
  refine exists_congr fun e => and_congr_right fun _ => ?_
  rw [UInt8.toNat_inj, Subtype.ext_iff]

theorem ConfigOf.keys_nodup (h : ConfigOf es c) : (es.map Prod.fst).Nodup := by
  have hnodup := h.pins.nodup
  rw [h.io] at hnodup
  refine List.Nodup.of_map (fun d : pinMap.Channel => d.val.toNat) ?_
  rwa [List.map_map]

theorem ConfigOf.idxOf (h : ConfigOf es c) {i : Nat} {v : UInt16} (hi : es[i]? = some (ch, v)) :
    c.pwmOutIoNum.idxOf ch.val.toNat = i := by
  obtain ⟨hlt, hat⟩ := List.getElem?_eq_some_iff.mp hi
  have hlt' : i < c.pwmOutIoNum.length := by rwa [h.io, List.length_map]
  have hio : c.pwmOutIoNum[i] = ch.val.toNat := by
    simp only [h.io, List.getElem_map, hat]
  rw [← hio]
  exact h.pins.nodup.idxOf_getElem i hlt'

theorem toNat_clampDuty (duty : UInt16) : (clampDuty duty).toNat =
    if duty.toNat < 1 then 0 else if pwmDepth ≤ duty.toNat then pwmDepth else duty.toNat := by
  have hone : duty < 1 ↔ duty.toNat < 1 := UInt16.lt_iff_toNat_lt
  have hdepth : UInt16.ofNat pwmDepth ≤ duty ↔ pwmDepth ≤ duty.toNat := UInt16.le_iff_toNat_le
  simp only [clampDuty, hone, hdepth]
  split
  · rfl
  split
  · rfl
  · rfl

theorem ConfigOf.add (h : ConfigOf es c) (ch : pinMap.Channel) :
    ConfigOf (entriesAfter es (.add ch)) (Esp8266.pwmAdd c ch.val.toNat).2 := by
  have hnum : c.pwmOutIoNum.length = es.length := by rw [h.io, List.length_map]
  have hpins : (Esp8266.pwmAdd c ch.val.toNat).2.Pins := pwmAdd_pins h.pins ch.property.2
  rw [Esp8266.pwmAdd] at hpins ⊢
  by_cases hc : ch ∈ es.map Prod.fst
  · rw [if_pos (h.mem_iff.mpr hc), entriesAfter_same (.inl hc)]
    exact h
  rw [if_neg (mt h.mem_iff.mp hc)] at hpins ⊢
  by_cases hroom : es.length < pwmChannelMax
  · rw [dif_pos (hnum ▸ hroom)] at hpins ⊢
    rw [entriesAfter_add hc hroom]
    refine ⟨?_, ?_, hpins⟩
    · simp only [h.io, List.map_append, List.map_cons, List.map_nil]
    · have hlen : (es.map fun e => e.2.toNat).length = es.length := List.length_map _
      simp only [hnum, h.duty, List.map_append]
      rw [← hlen]
      exact set_packed_end (hlen ▸ hroom)
  · rw [dif_neg (hnum ▸ hroom), entriesAfter_same (.inr (Nat.le_of_not_lt hroom))]
    exact h

theorem ConfigOf.delete (h : ConfigOf es c) (ch : pinMap.Channel) :
    ConfigOf (entriesAfter es (.delete ch)) (Esp8266.pwmDelete c ch.val.toNat) := by
  have hnum : c.pwmChannelNum = es.length := by rw [PwmConfig.pwmChannelNum, h.io, List.length_map]
  have hpins := pwmDelete_pins h.pins ch.val.toNat
  rw [entriesAfter, List.eraseP_eq_eraseIdx]
  rw [Esp8266.pwmDelete] at hpins ⊢
  rcases findIdx?_cases es ch with ⟨hc, hf⟩ | ⟨i, v, hf, hi⟩
  · rw [if_neg (mt h.mem_iff.mp hc), hf]
    exact h
  · rw [if_pos (h.mem_iff.mpr (mem_keys (List.mem_of_getElem? hi)))] at hpins ⊢
    rw [hf]
    refine ⟨?_, ?_, hpins⟩
    · exact (List.erase_eq_eraseIdx_of_idxOf (h.idxOf hi)).trans (by rw [h.io, List.eraseIdx_map])
    · have hlen : (es.map fun e => e.2.toNat).length = es.length := List.length_map _
      have hlt : i < es.length := (List.getElem?_eq_some_iff.mp hi).1
      have hroom : es.length ≤ pwmChannelMax := hnum ▸ c.channels_le
      simp only [h.idxOf hi, hnum, h.duty, ← List.eraseIdx_map]
      rw [← hlen]
      exact eraseIdx_packed (hlen ▸ hroom) (hlen ▸ hlt)

theorem ConfigOf.setDuty (h : ConfigOf es c) (duty : UInt16) (ch : pinMap.Channel) :
    ConfigOf (entriesAfter es (.setDuty duty ch))
      (Esp8266.pwmSetDuty c duty.toNat ch.val.toNat) := by
  have hkeys := keys_setDuty es duty ch
  have hpins := pwmSetDuty_pins h.pins duty.toNat ch.val.toNat
  have hio : (entriesAfter es (.setDuty duty ch)).map (fun e => e.1.val.toNat) =
      es.map fun e => e.1.val.toNat := by
    have hmap := congrArg (List.map fun d : pinMap.Channel => d.val.toNat) hkeys
    rwa [List.map_map, List.map_map] at hmap
  rw [Esp8266.pwmSetDuty] at hpins ⊢
  rcases findIdx?_cases es ch with ⟨hc, hf⟩ | ⟨i, v, hf, hi⟩
  · rw [if_neg (mt h.mem_iff.mp hc), setDuty_absent hc]
    exact h
  · rw [if_pos (h.mem_iff.mpr (mem_keys (List.mem_of_getElem? hi)))] at hpins ⊢
    refine ⟨h.io.trans hio.symm, ?_, hpins⟩
    have hlt : i < (es.map fun e => e.2.toNat).length := by
      rw [List.length_map]
      exact (List.getElem?_eq_some_iff.mp hi).1
    have hsnd := congrArg (List.map UInt16.toNat) (snd_setDuty (h.keys_nodup) hi duty)
    rw [List.map_map, List.map_set, List.map_map] at hsnd
    simp only [h.idxOf hi, h.duty, set_packed hlt, ← toNat_clampDuty]
    exact congrArg _ hsnd.symm

theorem ConfigOf.call (h : ConfigOf es c) (k : Call pinMap) :
    ConfigOf (entriesAfter es k) (configCall c k) := by
  cases k with
  | add ch => exact h.add ch
  | delete ch => exact h.delete ch
  | setDuty duty ch => exact h.setDuty duty ch

/-- What `pwm_start` reads in the arrays is the configuration. -/
theorem Rep.config (h : Rep pinMap s es) (hc : ConfigOf es c) :
    c.pwmOutIoNum = (s.pwmOutIoNum.take s.pwmChannelNum).map (fun io => io.toInt.toNat) ∧
      c.duty = s.duty.map UInt16.toNat ∧ c.pwmGpio = s.pwmGpio := by
  have hnum : s.pwmChannelNum = (ios es).length := by rw [h.num, length_ios]
  refine ⟨?_, ?_, ?_⟩
  · rw [h.io, hnum, take_packed, hc.io, ios, List.map_map]
    refine List.map_congr_left fun e _ => ?_
    rw [Function.comp_apply, toInt_io, Int.toNat_natCast]
  · rw [hc.duty, h.duty, packed, packed, List.map_append, List.map_map, List.map_replicate,
      List.length_map, List.length_map]
    rfl
  · refine UInt16.toBitVec_inj.mp (BitVec.eq_of_getLsbD_eq fun b _ => ?_)
    change hasBit c.pwmGpio b = hasBit s.pwmGpio b
    rw [Bool.eq_iff_iff, hc.pins.gpio, h.gpio, hc.io]
    simp only [List.mem_map, exists_exists_and_eq_and]
    exact exists_congr fun e => and_congr_right fun _ => hasBit_pinMask e.1 b

theorem ConfigOf.calls (h : ConfigOf es c) (ks : List (Call pinMap)) :
    ConfigOf (ks.foldl entriesAfter es) (ks.foldl configCall c) := by
  induction ks generalizing es c with
  | nil => exact h
  | cons k ks ih => exact ih (h.call k)

theorem exists_configOf_nil : ∃ c : PwmConfig, ConfigOf [] c := by
  refine ⟨{ halfConfig with
    duty := List.replicate pwmChannelMax 0
    pwmOutIoNum := []
    pwmGpio := 0
    duty_le := fun d hd => List.eq_of_mem_replicate hd ▸ Nat.zero_le _
    channels_le := Nat.zero_le _ }, rfl, rfl, List.nodup_nil, by simp, fun b => by simp⟩

/-- After any calls the configuration is what `pwm_start` reads in the statics. -/
theorem config_calls (h : ConfigOf [] c) (ks : List (Call pinMap)) :
    ∃ s, ks.foldlM Statics.call (pwmInit .boot) = some s ∧
      (ks.foldl configCall c).pwmOutIoNum =
        (s.pwmOutIoNum.take s.pwmChannelNum).map (fun io => io.toInt.toNat) ∧
      (ks.foldl configCall c).duty = s.duty.map UInt16.toNat ∧
      (ks.foldl configCall c).pwmGpio = s.pwmGpio := by
  obtain ⟨s, hrun, hrep⟩ := rep_pwmInit.calls ks
  exact ⟨s, hrun, hrep.config (h.calls ks)⟩

end

end Esp32Project.Esp8266.Channels
