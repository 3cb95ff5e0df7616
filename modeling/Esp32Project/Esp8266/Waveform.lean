import Esp32Project.Esp8266.PwmTable
import Mathlib.Data.List.GetD
import Mathlib.Data.List.InsertIdx
import Mathlib.Data.List.Nodup
import Mathlib.Algebra.GroupWithZero.Nat

/-!
What a pin does in a period that the PWM handler (pwm.c) runs with one table of
`pwm_start`: the handler sets and clears pins and loads the timer, and each load
lasts for that many ticks.
-/

set_option autoImplicit false

namespace Esp32Project.Esp8266
open Esp32Project.Lib

/-- The pins of the channels, and the mask of them that `pwm_add` and `pwm_delete` keep. -/
structure PwmConfig.Pins (c : PwmConfig) : Prop where
  nodup : c.pwmOutIoNum.Nodup
  exist : ∀ io ∈ c.pwmOutIoNum, io < pinNum.length
  gpio : ∀ b, hasBit c.pwmGpio b = true ↔ ∃ io ∈ c.pwmOutIoNum, hasBit (pinBit io) b = true

def PwmConfig.pin (c : PwmConfig) (i : Nat) : Nat := pinNum.getD (c.pwmOutIoNum.getD i 0) 0

theorem hasBit_pinBit (io b : Nat) :
    hasBit (pinBit io) b = true ↔ b < 16 ∧ pinNum.getD io 0 = b := hasBit_pow _ b

theorem pinNum_inj {a b : Nat} (ha : a < pinNum.length) (hb : b < pinNum.length)
    (heq : pinNum.getD a 0 = pinNum.getD b 0) : a = b := by
  have hpins : pinNum.Nodup := by decide
  rw [List.getD_eq_getElem _ _ ha, List.getD_eq_getElem _ _ hb] at heq
  exact (List.Nodup.getElem_inj_iff hpins).mp heq

section

variable {c : PwmConfig} {i j b : Nat}

theorem PwmConfig.getD_mem (hi : i < c.pwmChannelNum) :
    c.pwmOutIoNum.getD i 0 ∈ c.pwmOutIoNum := by
  rw [List.getD_eq_getElem _ _ hi]
  exact List.getElem_mem hi

theorem PwmConfig.Pins.pin_inj (h : c.Pins) (hi : i < c.pwmChannelNum) (hj : j < c.pwmChannelNum)
    (heq : c.pin i = c.pin j) : i = j := by
  have hio := pinNum_inj (h.exist _ (PwmConfig.getD_mem hi)) (h.exist _ (PwmConfig.getD_mem hj)) heq
  rw [List.getD_eq_getElem _ _ hi, List.getD_eq_getElem _ _ hj] at hio
  exact (List.Nodup.getElem_inj_iff h.nodup).mp hio

/-- The bit of a pin is that of its channel alone; GPIO16 has none. -/
theorem PwmConfig.Pins.hasBit_iff (h : c.Pins) (hi : i < c.pwmChannelNum)
    (hj : j < c.pwmChannelNum) (hpin : c.pin i < 16) :
    hasBit (pinBit (c.pwmOutIoNum.getD j 0)) (c.pin i) = true ↔ j = i := by
  rw [hasBit_pinBit]
  constructor
  · rintro ⟨-, heq⟩
    exact h.pin_inj hj hi heq
  · rintro rfl
    exact ⟨hpin, rfl⟩

theorem PwmConfig.Pins.hasBit_gpio (h : c.Pins) (hi : i < c.pwmChannelNum)
    (hpin : c.pin i < 16) : hasBit c.pwmGpio (c.pin i) = true :=
  (h.gpio _).mpr ⟨_, PwmConfig.getD_mem hi, (h.hasBit_iff hi hi hpin).mpr rfl⟩

end

/-! The calls that change the statics. -/

def pwmSetFreq (c : PwmConfig) (freq : Nat) : PwmConfig where
  __ := c
  freq := if pwmFreqMax < freq then pwmFreqMax else if freq < 1 then 1 else freq
  freq_pos := by
    split
    · decide
    · split <;> omega
  freq_le := by
    split
    · exact Nat.le_refl _
    · split
      · decide
      · omega

def pwmSetDuty (c : PwmConfig) (duty channel : Nat) : PwmConfig :=
  if channel ∈ c.pwmOutIoNum then
    { c with
      duty := c.duty.set (c.pwmOutIoNum.idxOf channel)
        (if duty < 1 then 0 else if pwmDepth ≤ duty then pwmDepth else duty)
      duty_le := fun d hd => by
        rcases List.mem_or_eq_of_mem_set hd with hd | rfl
        · exact c.duty_le d hd
        · split
          · exact Nat.zero_le _
          · split <;> omega }
  else c

def pwmAdd (c : PwmConfig) (channel : Nat) : Bool × PwmConfig :=
  if channel ∈ c.pwmOutIoNum then (true, c)
  else if h : c.pwmOutIoNum.length < pwmChannelMax then
    (true, { c with
      pwmOutIoNum := c.pwmOutIoNum ++ [channel]
      pwmGpio := c.pwmGpio ||| pinBit channel
      duty := c.duty.set c.pwmOutIoNum.length 0
      duty_le := fun d hd => by
        rcases List.mem_or_eq_of_mem_set hd with hd | rfl
        · exact c.duty_le d hd
        · exact Nat.zero_le _
      channels_le := by
        rw [List.length_append]
        exact h })
  else (false, c)

def pwmDelete (c : PwmConfig) (channel : Nat) : PwmConfig :=
  if channel ∈ c.pwmOutIoNum then
    { c with
      pwmOutIoNum := c.pwmOutIoNum.erase channel
      pwmGpio := c.pwmGpio &&& ~~~ pinBit channel
      duty := (c.duty.eraseIdx (c.pwmOutIoNum.idxOf channel)).insertIdx (c.pwmChannelNum - 1) 0
      duty_le := fun d hd => by
        rcases List.eq_or_mem_of_mem_insertIdx hd with rfl | hd
        · exact Nat.zero_le _
        · exact c.duty_le d (List.mem_of_mem_eraseIdx hd)
      channels_le := Nat.le_trans (List.length_erase_le ..) c.channels_le }
  else c

theorem pwmSetFreq_pins {c : PwmConfig} (h : c.Pins) (freq : Nat) : (pwmSetFreq c freq).Pins :=
  ⟨h.nodup, h.exist, h.gpio⟩

theorem pwmSetDuty_pins {c : PwmConfig} (h : c.Pins) (duty channel : Nat) :
    (pwmSetDuty c duty channel).Pins := by
  unfold pwmSetDuty
  split
  · exact ⟨h.nodup, h.exist, h.gpio⟩
  · exact h

theorem pwmAdd_pins {c : PwmConfig} (h : c.Pins) {channel : Nat} (hio : channel < pinNum.length) :
    (pwmAdd c channel).2.Pins := by
  unfold pwmAdd
  split
  · exact h
  · rename_i hnew
    split
    · refine ⟨?_, fun io hio' => ?_, fun b => ?_⟩
      · exact List.nodup_append.mpr ⟨h.nodup, List.nodup_singleton _, fun a ha b hb => by
          rintro rfl
          exact hnew (List.mem_singleton.mp hb ▸ ha)⟩
      · rcases List.mem_append.mp hio' with h' | h'
        · exact h.exist io h'
        · exact List.mem_singleton.mp h' ▸ hio
      · simp [h.gpio, or_and_right, exists_or]
    · exact h

theorem pwmDelete_pins {c : PwmConfig} (h : c.Pins) (channel : Nat) :
    (pwmDelete c channel).Pins := by
  unfold pwmDelete
  split
  · rename_i hmem
    refine ⟨h.nodup.erase _, fun io hio => h.exist io (List.mem_of_mem_erase hio), fun b => ?_⟩
    have hgpio := h.gpio
    simp only [hasBit_pinBit] at hgpio ⊢
    exact hasBit_erase h.nodup hgpio (fun io hio heq => pinNum_inj (h.exist io hio)
      (h.exist channel hmem) heq) b
  · exact h

/-! The pins and the timer. -/

/-- What is given to `gpio_output_set`, and what the timer is loaded with. -/
structure Pulse where
  set : UInt16
  clear : UInt16
  load : UInt32
  deriving DecidableEq, Repr

def Pulse.of (s : Pwm) : Pulse := ⟨s.gpioOut.1, s.gpioOut.2.1, s.frc1Load⟩

def Pulse.drive (p : Pulse) (b : Nat) (level : Bool) : Bool :=
  !hasBit p.clear b && (hasBit p.set b || level)

/-- The level of pin `b`, `tick` ticks after the first of the pulses. -/
def levelAt (b : Nat) : List Pulse → Bool → Nat → Bool
  | [], level, _ => level
  | p :: pulses, level, tick =>
    if tick < p.load.toNat then p.drive b level
    else levelAt b pulses (p.drive b level) (tick - p.load.toNat)

def On (table : Schedule) (s : Pwm) : Prop :=
  ∃ slot, s.pwmSingle = some slot ∧ s.pwmChannel = some slot ∧ s.toggles slot = table

def AtEnd (s : Pwm) : Prop := ∃ slot, s.pwmChannel = some slot ∧ periodEnds s slot

instance (table : Schedule) (s : Pwm) : Decidable (On table s) :=
  inferInstanceAs (Decidable (∃ _ : Bool, _))

instance (s : Pwm) : Decidable (AtEnd s) := inferInstanceAs (Decidable (∃ _ : Bool, _))

/-- The steps that reach the pins and the load register. -/
def Drives (s : Pwm) (e : PwmEvent) : Prop := e = .intr ∨ e = .task ∧ ∃ slot, s.pc = .take slot

/-- The rest of a period, up to the interrupt that ends it, all on `table`. -/
inductive PeriodRest (table : Schedule) : Pwm → List Pulse → Prop where
  | ended {s : Pwm} : On table s → AtEnd s → PeriodRest table s []
  | drives {s s' : Pwm} {e : PwmEvent} {pulses : List Pulse} :
      On table s → s.pwmTimerDown = false → ¬ (e = .intr ∧ AtEnd s) → Drives s e →
      pwmStep s e = some s' → PeriodRest table s' pulses →
      PeriodRest table s (.of s' :: pulses)
  | quiet {s s' : Pwm} {e : PwmEvent} {pulses : List Pulse} :
      On table s → s.pwmTimerDown = false → ¬ Drives s e →
      pwmStep s e = some s' → PeriodRest table s' pulses → PeriodRest table s pulses

/-- A whole period on `table`: the interrupt that ends the one before, and the rest. -/
def Period (table : Schedule) (s : Pwm) (pulses : List Pulse) : Prop :=
  AtEnd s ∧ ∃ s' rest, pwmStep s .intr = some s' ∧ PeriodRest table s' rest ∧
    pulses = .of s' :: rest

/-- `pwm_start` reaches for the pins itself only if the timer is down. -/
def TakesDown (s : Pwm) : Prop := ∀ slot, s.pc = .take slot → s.pwmTimerDown = true

theorem takesDown_step {s s' : Pwm} {e : PwmEvent} (h : TakesDown s)
    (hs : pwmStep s e = some s') : TakesDown s' := by
  intro slot hpc
  rcases pwmStep_cases hs with ⟨c, rfl, -, rfl⟩ | ⟨rfl, -, rfl⟩ | ⟨rfl, hs⟩ | ⟨rfl, hup, hs⟩
  · exact h slot hpc
  · cases hpc
  · rcases taskStep_cases hs with ⟨u, b, todo, -, rfl⟩ | ⟨u, -, rfl⟩ | ⟨u, -, rfl⟩ | ⟨-, rfl⟩
    · cases hpc
    · simp only [pwmFinish] at hpc ⊢
      split at hpc
      · assumption
      · cases hpc
    · simp only [pwmTake] at hpc
      split at hpc <;> cases hpc
    · cases hpc
  · obtain ⟨-, -, -, hpc', -⟩ := pwmTim1IntrHandler_cases hs
    exact absurd (h slot (hpc' ▸ hpc)) (by simp [hup])

theorem quiet_step {s s' : Pwm} {e : PwmEvent} (hq : ¬ Drives s e)
    (hs : pwmStep s e = some s') :
    s'.pwmCurrentChannel = s.pwmCurrentChannel ∧ s'.pwmTimerDown = s.pwmTimerDown ∧
      s'.gpioOut = s.gpioOut ∧ s'.frc1Load = s.frc1Load := by
  rcases pwmStep_cases hs with ⟨c, rfl, -, rfl⟩ | ⟨rfl, -, rfl⟩ | ⟨rfl, hs⟩ | ⟨rfl, -, -⟩
  · exact ⟨rfl, rfl, rfl, rfl⟩
  · exact ⟨rfl, rfl, rfl, rfl⟩
  · rcases taskStep_cases hs with ⟨u, b, todo, -, rfl⟩ | ⟨u, -, rfl⟩ | ⟨u, hpc, rfl⟩ | ⟨-, rfl⟩
    · exact ⟨rfl, rfl, rfl, rfl⟩
    · exact ⟨rfl, rfl, rfl, rfl⟩
    · exact absurd (.inr ⟨rfl, u, hpc⟩) hq
    · exact ⟨rfl, rfl, rfl, rfl⟩
  · exact absurd (.inl rfl) hq

def Schedule.pulse (table : Schedule) (k : Nat) : Pulse :=
  ⟨(table.at k).gpioSet, (table.at k).gpioClear, (table.at (k + 1)).hTime⟩

def Schedule.pulsesFrom (table : Schedule) (k : Nat) : List Pulse :=
  (List.range' k (table.channel - 1 - k)).map table.pulse

theorem On.atEnd_iff {table : Schedule} {s : Pwm} (h : On table s) :
    AtEnd s ↔ table.channel ≤ s.pwmCurrentChannel + 1 := by
  obtain ⟨slot, -, hch, htog⟩ := h
  constructor
  · rintro ⟨u, hu, hend⟩
    obtain rfl : slot = u := Option.some.inj (hch.symm.trans hu)
    rwa [periodEnds, htog] at hend
  · exact fun hle => ⟨slot, hch, by rwa [periodEnds, htog]⟩

theorem intr_amid {table : Schedule} {s s' : Pwm} (hon : On table s) (hend : ¬ AtEnd s)
    (hs : pwmStep s .intr = some s') :
    Pulse.of s' = table.pulse s.pwmCurrentChannel ∧
      s'.pwmCurrentChannel = s.pwmCurrentChannel + 1 := by
  have hlt := mt hon.atEnd_iff.mpr hend
  obtain ⟨slot, hsingle, hch, htog⟩ := hon
  simp only [pwmStep] at hs
  split at hs
  · cases hs
  · rw [pwmTim1IntrHandler, hsingle, hch] at hs
    simp only [periodEnds, htog, if_neg hlt, Option.some.injEq] at hs
    subst hs
    exact ⟨rfl, rfl⟩

theorem Schedule.pulsesFrom_of_lt {table : Schedule} {k : Nat} (h : k + 1 < table.channel) :
    table.pulsesFrom k = table.pulse k :: table.pulsesFrom (k + 1) := by
  rw [pulsesFrom, pulsesFrom, show table.channel - 1 - k = table.channel - 1 - (k + 1) + 1 by omega,
    List.range'_succ, List.map_cons]

/-- The handler works off the table; task code leaves pins and timer to it. -/
theorem PeriodRest.pulses {table : Schedule} {s : Pwm} {pulses : List Pulse}
    (h : PeriodRest table s pulses) (hdown : TakesDown s) :
    pulses = table.pulsesFrom s.pwmCurrentChannel := by
  induction h with
  | ended hon hend =>
    have hle := hon.atEnd_iff.mp hend
    rw [Schedule.pulsesFrom, Nat.sub_eq_zero_of_le (by omega)]
    rfl
  | @drives s s' e pulses hon hup hgo hdrives hs hrest ih =>
    rcases hdrives with rfl | ⟨rfl, slot, htake⟩
    · have hend : ¬ AtEnd s := fun hend => hgo ⟨rfl, hend⟩
      have hlt := Nat.not_le.mp (mt hon.atEnd_iff.mpr hend)
      obtain ⟨hpulse, hcur⟩ := intr_amid hon hend hs
      rw [ih (takesDown_step hdown hs), hpulse, hcur, Schedule.pulsesFrom_of_lt hlt]
    · -- `pwm_start` takes the pins while the timer is down only
      rw [hdown slot htake] at hup
      cases hup
  | quiet hon hup hquiet hs hrest ih =>
    rw [ih (takesDown_step hdown hs), (quiet_step hquiet hs).1]

def Schedule.pulses (table : Schedule) (load : UInt32) : List Pulse :=
  ⟨(table.at (table.channel - 1)).gpioSet, (table.at (table.channel - 1)).gpioClear, load⟩ ::
    table.pulsesFrom 0

/-- The interrupt that ends a period: the last entry of `table` goes to the pins, and the
timer is loaded for the first one or, if there is no other, stopped. -/
theorem intr_at_end {table : Schedule} {s s' : Pwm} (hend : AtEnd s)
    (hs : pwmStep s .intr = some s') (hon : On table s') :
    s'.pwmCurrentChannel = 0 ∧
      Pulse.of s' = ⟨(table.at (table.channel - 1)).gpioSet,
        (table.at (table.channel - 1)).gpioClear, s'.frc1Load⟩ ∧
      (table.channel ≠ 1 → s'.frc1Load = (table.at 0).hTime) ∧
      (table.channel = 1 → s'.pwmTimerDown = true ∧ s'.frc1Load = s.frc1Load) := by
  obtain ⟨slot, hch, hend⟩ := hend
  obtain ⟨u, hsingle', hch', htog⟩ := hon
  simp only [pwmStep] at hs
  split at hs
  · cases hs
  · cases hsingle : s.pwmSingle with
    | none => simp [pwmTim1IntrHandler, hch, hsingle] at hs
    | some single =>
      simp only [pwmTim1IntrHandler, hch, hsingle, if_pos hend] at hs
      split at hs <;> cases hs
      · rename_i hmany
        obtain rfl : s.pwmToggle = u := Option.some.inj hsingle'
        simp only at htog
        refine ⟨rfl, by rw [← htog]; rfl, fun _ => by rw [← htog], fun hone => ?_⟩
        exact absurd (htog ▸ hone) hmany
      · rename_i hone
        obtain rfl : s.pwmToggle = u := Option.some.inj hsingle'
        simp only at htog
        refine ⟨rfl, by rw [← htog]; rfl, fun hmany => ?_, fun _ => ⟨rfl, rfl⟩⟩
        exact absurd (htog ▸ of_not_not hone) hmany

theorem PeriodRest.on {table : Schedule} {s : Pwm} {pulses : List Pulse}
    (h : PeriodRest table s pulses) : On table s := by
  cases h with
  | ended hon _ => exact hon
  | drives hon _ _ _ _ _ => exact hon
  | quiet hon _ _ _ _ => exact hon

theorem Period.pulses {table : Schedule} {s : Pwm} {pulses : List Pulse}
    (h : Period table s pulses) (hdown : TakesDown s) :
    ∃ load, pulses = table.pulses load ∧ (table.channel ≠ 1 → load = (table.at 0).hTime) := by
  obtain ⟨hend, s', rest, hs, hrest, rfl⟩ := h
  obtain ⟨hcur, hpulse, hload, -⟩ := intr_at_end hend hs hrest.on
  refine ⟨s'.frc1Load, ?_, hload⟩
  rw [hrest.pulses (takesDown_step hdown hs), hpulse, hcur, Schedule.pulses]

theorem Period.one_entry_stops {table : Schedule} {s : Pwm} {pulses : List Pulse}
    (h : Period table s pulses) (hone : table.channel = 1) :
    ∃ s', pwmStep s .intr = some s' ∧ s'.pwmTimerDown = true ∧ s'.frc1Load = s.frc1Load ∧
      pulses = [.of s'] := by
  obtain ⟨hend, s', rest, hs, hrest, rfl⟩ := h
  obtain ⟨-, -, -, hstop⟩ := intr_at_end hend hs hrest.on
  obtain ⟨hdown, hload⟩ := hstop hone
  refine ⟨s', hs, hdown, hload, ?_⟩
  -- nothing but the handler goes on with a period, and it waits for the timer
  cases hrest with
  | ended _ _ => rfl
  | drives _ hup _ _ _ _ => simp [hdown] at hup
  | quiet _ hup _ _ _ => simp [hdown] at hup

/-! Ticks and levels over a period. -/

/-- Entry `k` of the table ends at tick `ends k`. -/
structure Timed (table : Schedule) (ends : Nat → Nat) : Prop where
  pos : 0 < table.channel
  first_pos : 0 < ends 0
  lt : ∀ a b, a < b → b < table.channel → ends a < ends b
  first : (table.at 0).hTime.toNat = ends 0
  next : ∀ k, k + 1 < table.channel → (table.at (k + 1)).hTime.toNat = ends (k + 1) - ends k

/-- Pin `b` goes low where an entry ends at tick `x`; at 0 it does not go high. -/
structure Switches (table : Schedule) (ends : Nat → Nat) (b x : Nat) : Prop where
  at_end : x = 0 ∨ ∃ k < table.channel, ends k = x
  inner_set : ∀ k, k + 1 < table.channel → hasBit (table.at k).gpioSet b = false
  inner_clear : ∀ k, k + 1 < table.channel →
    (hasBit (table.at k).gpioClear b = true ↔ ends k = x)
  last_set : hasBit (table.at (table.channel - 1)).gpioSet b = true ↔ x ≠ 0
  last_clear : hasBit (table.at (table.channel - 1)).gpioClear b = true ↔ x = 0

section

variable {table : Schedule} {ends : Nat → Nat} {b x : Nat}

/-- The loads from entry `k` on are what is left of the period. -/
theorem Timed.sum_from (h : Timed table ends) {k : Nat} (hk : k < table.channel) :
    ((table.pulsesFrom k).map (fun p => p.load.toNat)).sum + ends k =
      ends (table.channel - 1) := by
  by_cases hlast : k + 1 < table.channel
  · have hrest := h.sum_from hlast
    have hlt := h.lt k (k + 1) (Nat.lt_succ_self k) hlast
    rw [Schedule.pulsesFrom_of_lt hlast, List.map_cons, List.sum_cons, ← hrest]
    simp only [Schedule.pulse, h.next k hlast]
    omega
  · rw [Schedule.pulsesFrom, Nat.sub_eq_zero_of_le (by omega), show table.channel - 1 = k by omega]
    exact Nat.zero_add _
  termination_by table.channel - k

theorem Timed.sum (h : Timed table ends) :
    ((table.pulses (table.at 0).hTime).map (fun p => p.load.toNat)).sum =
      ends (table.channel - 1) := by
  rw [Schedule.pulses, List.map_cons, List.sum_cons, h.first, Nat.add_comm]
  exact h.sum_from h.pos

theorem Switches.lt_iff (h : Switches table ends b x) (ht : Timed table ends) {k : Nat}
    (hk : k + 1 < table.channel) : ends k < x ↔ ends (k + 1) ≤ x := by
  have hlt := ht.lt k (k + 1) (Nat.lt_succ_self k) hk
  refine ⟨fun hx => ?_, fun hx => Nat.lt_of_lt_of_le hlt hx⟩
  rcases h.at_end with rfl | ⟨m, hm, rfl⟩
  · omega
  · rcases Nat.lt_trichotomy m (k + 1) with hmk | rfl | hmk
    · rcases Nat.lt_or_eq_of_le (Nat.le_of_lt_succ hmk) with hm' | rfl
      · exact absurd (ht.lt m k hm' (by omega)) (Nat.not_lt.mpr (Nat.le_of_lt hx))
      · exact absurd hx (Nat.lt_irrefl _)
    · exact Nat.le_refl _
    · exact Nat.le_of_lt (ht.lt (k + 1) m hmk hm)

theorem Switches.pos_iff (h : Switches table ends b x) (ht : Timed table ends) :
    0 < x ↔ ends 0 ≤ x := by
  refine ⟨fun hx => ?_, fun hx => Nat.lt_of_lt_of_le ht.first_pos hx⟩
  rcases h.at_end with rfl | ⟨m, hm, rfl⟩
  · omega
  · rcases Nat.eq_zero_or_pos m with rfl | hm0
    · exact Nat.le_refl _
    · exact Nat.le_of_lt (ht.lt 0 m hm0 hm)

theorem Switches.drive_inner (h : Switches table ends b x) {k : Nat} (hk : k + 1 < table.channel) :
    (table.pulse k).drive b (decide (ends k ≤ x)) = decide (ends k < x) := by
  have hclear := h.inner_clear k hk
  rw [Pulse.drive, Schedule.pulse, h.inner_set k hk, Bool.false_or]
  by_cases hx : ends k = x
  · rw [hclear.mpr hx, Bool.not_true, Bool.false_and]
    exact (decide_eq_false (by omega)).symm
  · rw [Bool.eq_false_iff.mpr (mt hclear.mp hx), Bool.not_false, Bool.true_and]
    exact decide_eq_decide.mpr (by omega)

theorem Switches.levelAt_from (h : Switches table ends b x) (ht : Timed table ends) {k : Nat}
    (hk : k < table.channel) {tick : Nat} (hle : ends k ≤ tick)
    (hlt : tick < ends (table.channel - 1)) :
    levelAt b (table.pulsesFrom k) (decide (ends k ≤ x)) (tick - ends k) = decide (tick < x) := by
  by_cases hlast : k + 1 < table.channel
  · have hnext := h.lt_iff ht hlast
    have hmono := ht.lt k (k + 1) (Nat.lt_succ_self k) hlast
    rw [Schedule.pulsesFrom_of_lt hlast, levelAt, h.drive_inner hlast]
    simp only [Schedule.pulse, ht.next k hlast]
    split
    · exact decide_eq_decide.mpr (by omega)
    · rw [show tick - ends k - (ends (k + 1) - ends k) = tick - ends (k + 1) by omega,
        decide_eq_decide.mpr hnext]
      exact h.levelAt_from ht hlast (by omega) hlt
  · rw [show table.channel - 1 = k by omega] at hlt
    omega
  termination_by table.channel - k

theorem Switches.levelAt_pulses (h : Switches table ends b x) (ht : Timed table ends)
    {load : UInt32} (hload : table.channel ≠ 1 → load = (table.at 0).hTime) (before : Bool)
    {tick : Nat} (hlt : tick < ends (table.channel - 1)) :
    levelAt b (table.pulses load) before tick = decide (tick < x) := by
  have hfirst := h.pos_iff ht
  have hdrive : ∀ load, Pulse.drive ⟨(table.at (table.channel - 1)).gpioSet,
      (table.at (table.channel - 1)).gpioClear, load⟩ b before = decide (0 < x) := by
    intro load
    rw [Pulse.drive]
    by_cases hx : x = 0
    · rw [h.last_clear.mpr hx, hx]
      rfl
    · rw [Bool.eq_false_iff.mpr (mt h.last_clear.mp hx), h.last_set.mpr hx]
      exact (decide_eq_true (Nat.pos_of_ne_zero hx)).symm
  rw [Schedule.pulses, levelAt, hdrive]
  by_cases hone : table.channel = 1
  · -- the timer stands still: the pins stay as they are
    have hlast : ends (table.channel - 1) = ends 0 := by rw [hone]
    have hrest : table.pulsesFrom 0 = [] := by rw [Schedule.pulsesFrom, hone]; rfl
    rw [hrest, levelAt, ite_self]
    exact decide_eq_decide.mpr (by omega)
  · rw [hload hone, ht.first]
    split
    · exact decide_eq_decide.mpr (by omega)
    · rw [decide_eq_decide.mpr hfirst]
      exact h.levelAt_from ht ht.pos (by omega) hlt

theorem Switches.not_both (h : Switches table ends b x) {load : UInt32} :
    ∀ p ∈ table.pulses load, ¬ (hasBit p.set b = true ∧ hasBit p.clear b = true) := by
  intro p hp
  rcases List.mem_cons.mp hp with rfl | hp
  · rintro ⟨hset, hclear⟩
    exact h.last_set.mp hset (h.last_clear.mp hclear)
  · obtain ⟨k, hk, rfl⟩ := List.mem_map.mp hp
    have hk' : k + 1 < table.channel := by
      have := List.mem_range'_1.mp hk
      omega
    rintro ⟨hset, -⟩
    rw [Schedule.pulse, h.inner_set k hk'] at hset
    cases hset

end

/-! The table of `pwm_start`. -/

section

variable {c : PwmConfig} {mid table : Schedule} {off : Nat}

theorem StrictFrom.eq_of_hTime (h : StrictFrom 0 mid) {a b : Nat} (ha : a < mid.channel)
    (hb : b < mid.channel) (heq : (mid.at a).hTime = (mid.at b).hTime) : a = b := by
  rcases Nat.lt_trichotomy a b with hab | hab | hab
  · exact absurd (heq ▸ h a b (Nat.zero_le a) hab hb) (UInt32.lt_irrefl _)
  · exact hab
  · exact absurd (heq ▸ h b a (Nat.zero_le b) hab ha) (UInt32.lt_irrefl _)

theorem StrictFrom.clears_iff (h : StrictFrom 0 mid) {a b : Nat} (ha : a < mid.channel) :
    Clears mid (mid.at a).hTime b ↔ hasBit (mid.at a).gpioClear b = true := by
  constructor
  · rintro ⟨a', ha', heq, hb⟩
    exact h.eq_of_hTime ha' ha heq ▸ hb
  · exact fun hb => ⟨a, ha, rfl, hb⟩

theorem StrictFrom.sets_iff (h : StrictFrom 0 mid) {a b : Nat} (ha : a < mid.channel) :
    Sets mid (mid.at a).hTime b ↔ hasBit (mid.at a).gpioSet b = true := by
  constructor
  · rintro ⟨a', ha', heq, hb⟩
    exact h.eq_of_hTime ha' ha heq ▸ hb
  · exact fun hb => ⟨a, ha, rfl, hb⟩

def entryEnd (mid : Schedule) (off k : Nat) : Nat := (mid.at (k + off)).hTime.toNat

theorem Final.timed (hf : Final mid table off) (hs : StrictFrom 0 mid) :
    Timed table (entryEnd mid off) := by
  have hch := hf.channel
  have hlt : ∀ a b, a < b → b < table.channel → entryEnd mid off a < entryEnd mid off b := by
    intro a b hab hb
    exact UInt32.lt_iff_toNat_lt.mp (hs (a + off) (b + off) (Nat.zero_le _) (by omega) (by omega))
  refine ⟨hf.pos, ?_, hlt, ?_, fun k hk => ?_⟩
  · rw [entryEnd, Nat.zero_add]
    rcases hf.zero with ⟨rfl, h0⟩ | ⟨rfl, h0⟩
    · exact Nat.pos_of_ne_zero fun h => h0 (UInt32.toNat_inj.mp h)
    · have h01 := hs 0 1 (Nat.le_refl 0) Nat.one_pos (by have := hf.pos; omega)
      rw [h0] at h01
      exact UInt32.lt_iff_toNat_lt.mp h01
  · rw [hf.first, entryEnd, Nat.zero_add]
  · rw [hf.next k hk, UInt32.toNat_sub_of_le]
    · rfl
    · exact UInt32.le_iff_toNat_le.mpr (Nat.le_of_lt (hlt k (k + 1) (Nat.lt_succ_self k) hk))

theorem Final.entryEnd_last (hf : Final mid table off) (hs : StrictFrom 0 mid)
    (hm : Means c mid) : entryEnd mid off (table.channel - 1) = c.periodTicks.toNat := by
  have hch := hf.channel
  have hpos := hf.pos
  rw [entryEnd, show table.channel - 1 + off = mid.channel - 1 by omega, hm.last hs]

theorem Final.off_iff (hf : Final mid table off) (hs : StrictFrom 0 mid) :
    off = 1 ↔ HasTime mid 0 := by
  have hch := hf.channel
  have hpos := hf.pos
  rcases hf.zero with ⟨rfl, h0⟩ | ⟨rfl, h0⟩
  · refine ⟨fun h => (nomatch h), fun ⟨a, ha, hzero⟩ => ?_⟩
    rcases Nat.eq_zero_or_pos a with rfl | hapos
    · exact absurd hzero h0
    · have hlt := hs 0 a (Nat.le_refl 0) hapos ha
      rw [hzero] at hlt
      exact absurd hlt UInt32.not_lt_zero
  · exact iff_of_true rfl ⟨0, by omega, h0⟩

theorem Means.clears_pin (hm : Means c mid) (hp : c.Pins) {i : Nat} (hi : i < c.pwmChannelNum)
    (hpin : c.pin i < 16) (h : UInt32) : Clears mid h (c.pin i) ↔ c.ticks i = h := by
  rw [hm.clears]
  constructor
  · rintro ⟨j, hj, hjh, hbit⟩
    exact (hp.hasBit_iff hi hj hpin).mp hbit ▸ hjh
  · exact fun hih => ⟨i, hi, hih, (hp.hasBit_iff hi hi hpin).mpr rfl⟩

theorem Final.switches (hf : Final mid table off) (hs : StrictFrom 0 mid) (hm : Means c mid)
    (hp : c.Pins) {i : Nat} (hi : i < c.pwmChannelNum) (hpin : c.pin i < 16) :
    Switches table (entryEnd mid off) (c.pin i) (c.ticks i).toNat := by
  have hch := hf.channel
  have hpos := hf.pos
  have hclear := hm.clears_pin hp hi hpin
  have hzero : (c.ticks i).toNat = 0 ↔ c.ticks i = 0 := by
    rw [← UInt32.toNat_inj]
    rfl
  have hset : hasBit (mid.at (mid.channel - 1)).gpioSet (c.pin i) = true := by
    rw [← hs.sets_iff (by omega), hm.last hs, hm.sets]
    exact ⟨rfl, hp.hasBit_gpio hi hpin⟩
  have htime : HasTime mid (c.ticks i) := (hm.times _).mpr (.inr ⟨i, hi, rfl⟩)
  refine ⟨?_, fun k hk => ?_, fun k hk => ?_, ?_, ?_⟩
  · obtain ⟨a, ha, hat⟩ := htime
    by_cases hoff : off ≤ a
    · refine .inr ⟨a - off, by omega, ?_⟩
      rw [entryEnd, Nat.sub_add_cancel hoff, hat]
    · -- the entry that is dropped
      rcases hf.zero with ⟨rfl, -⟩ | ⟨rfl, h0⟩
      · omega
      · rw [show a = 0 by omega, h0] at hat
        exact .inl (hzero.mpr hat.symm)
  · rw [(hf.inner k hk).1, Bool.eq_false_iff]
    intro hbit
    have hlt := hs (k + off) (mid.channel - 1) (Nat.zero_le _) (by omega) (by omega)
    rw [hm.last hs, ((hm.sets _ _).mp ((hs.sets_iff (by omega)).mpr hbit)).1] at hlt
    exact UInt32.lt_irrefl _ hlt
  · rw [(hf.inner k hk).2, ← hs.clears_iff (by omega), hclear, entryEnd, UInt32.toNat_inj]
    exact eq_comm
  · rw [hf.last.1, Ne, hzero]
    rcases hf.zero with ⟨rfl, h0⟩ | ⟨rfl, h0⟩
    · rw [if_pos rfl]
      refine iff_of_true hset fun ht => ?_
      rw [ht] at htime
      exact absurd ((hf.off_iff hs).mpr htime) Nat.zero_ne_one
    · rw [if_neg Nat.one_ne_zero, hasBit_and_not hpin, hset, Bool.true_and, Bool.not_eq_true',
        Bool.eq_false_iff, Ne, ← hs.clears_iff (by omega), h0, hclear]
  · rw [hf.last.2, hzero]
    rcases hf.zero with ⟨rfl, h0⟩ | ⟨rfl, h0⟩
    · rw [if_pos rfl, hasBit_zero]
      refine iff_of_false Bool.false_ne_true fun ht => ?_
      rw [ht] at htime
      exact absurd ((hf.off_iff hs).mpr htime) Nat.zero_ne_one
    · rw [if_neg Nat.one_ne_zero, ← hs.clears_iff (by omega), h0, hclear]

theorem Final.channel_one (hf : Final mid table off) (hs : StrictFrom 0 mid) (hm : Means c mid)
    {i : Nat} (hi : i < c.pwmChannelNum) (hone : table.channel = 1) :
    c.ticks i = 0 ∨ c.ticks i = c.periodTicks := by
  have hch := hf.channel
  obtain ⟨a, ha, hat⟩ := (hm.times (c.ticks i)).mpr (.inr ⟨i, hi, rfl⟩)
  by_cases hlast : a = mid.channel - 1
  · rw [hlast, hm.last hs] at hat
    exact .inr hat.symm
  · rcases hf.zero with ⟨rfl, -⟩ | ⟨rfl, h0⟩
    · omega
    · rw [show a = 0 by omega, h0] at hat
      exact .inl hat.symm

theorem Final.one_entry (hf : Final mid table off) (hs : StrictFrom 0 mid) (hm : Means c mid)
    (h : ∀ i < c.pwmChannelNum, c.ticks i = 0 ∨ c.ticks i = c.periodTicks) :
    table.channel = 1 := by
  have hch := hf.channel
  have hpos := hf.pos
  by_contra hmany
  have hlt := hs off (mid.channel - 1) (Nat.zero_le _) (by omega) (by omega)
  rw [hm.last hs] at hlt
  have hzero : (mid.at off).hTime = 0 := by
    rcases (hm.times _).mp ⟨off, by omega, rfl⟩ with hp | ⟨i, hi, ht⟩
    · exact absurd (hp ▸ hlt) (UInt32.lt_irrefl _)
    · rcases h i hi with h0 | hp
      · exact ht.symm.trans h0
      · exact absurd (ht.symm.trans hp ▸ hlt) (UInt32.lt_irrefl _)
  rcases hf.zero with ⟨rfl, h0⟩ | ⟨rfl, h0⟩
  · exact h0 hzero
  · have h01 := hs 0 1 (Nat.le_refl 0) Nat.one_pos (by omega)
    rw [h0, hzero] at h01
    exact UInt32.lt_irrefl _ h01

end

theorem TakesDown.of_reach {s : Pwm} (h : Reach pwmStep (fun _ _ => True) .init s) :
    TakesDown s :=
  h.invariant TakesDown (fun _ hpc => by cases hpc) fun _ _ _ hd _ hs => takesDown_step hd hs

theorem PwmConfig.pin_lt {c : PwmConfig} (i : Nat) (h : c.pin i ≠ 16) : c.pin i < 16 := by
  have hle : ∀ p ∈ pinNum, p ≤ 16 := by decide
  have hpin : c.pin i ≤ 16 := by
    rw [PwmConfig.pin, List.getD_eq_getElem?_getD]
    cases hp : pinNum[c.pwmOutIoNum.getD i 0]? with
    | none => exact Nat.zero_le _
    | some p => exact hle p (List.mem_of_getElem? hp)
  omega

/-- In a period on a table of `pwm_start`, every pin but GPIO16 is high for the
ticks of its channel and then low, and the loads are those of the period. -/
theorem period_waveform {c : PwmConfig} {old : Schedule} {s : Pwm} {pulses : List Pulse}
    (hpins : c.Pins) (hold : old.Full) (hs : Reach pwmStep (fun _ _ => True) .init s)
    (h : Period (built c old) s pulses) :
    ((∃ i < c.pwmChannelNum, c.ticks i ≠ 0 ∧ c.ticks i ≠ c.periodTicks) →
      (pulses.map (fun p => p.load.toNat)).sum = c.periodTicks.toNat) ∧
    ∀ i < c.pwmChannelNum, c.pin i ≠ 16 →
      (∀ p ∈ pulses, ¬ (hasBit p.set (c.pin i) = true ∧ hasBit p.clear (c.pin i) = true)) ∧
      ∀ before tick, tick < c.periodTicks.toNat →
        levelAt (c.pin i) pulses before tick = decide (tick < (c.ticks i).toNat) := by
  obtain ⟨-, mid, off, hstrict, hm, -, hf⟩ := wp_buildSchedule c hold []
  change Final mid (built c old) off at hf
  obtain ⟨load, rfl, hload⟩ := h.pulses (.of_reach hs)
  have ht := hf.timed hstrict
  have hlast := hf.entryEnd_last hstrict hm
  refine ⟨fun ⟨i, hi, h0, hp⟩ => ?_, fun i hi hpin => ?_⟩
  · have hmany : (built c old).channel ≠ 1 := fun hone =>
      (hf.channel_one hstrict hm hi hone).elim h0 hp
    rw [hload hmany, ht.sum, hlast]
  · have hsw := hf.switches hstrict hm hpins hi (c.pin_lt i hpin)
    refine ⟨hsw.not_both, fun before tick htick => ?_⟩
    exact hsw.levelAt_pulses ht hload before (hlast.symm ▸ htick)

/-- Where every channel is off, or on for the whole period, the timer is stopped and not
loaded. -/
theorem period_stops {c : PwmConfig} {old : Schedule} {s : Pwm} {pulses : List Pulse}
    (hold : old.Full) (h : Period (built c old) s pulses)
    (hlevel : ∀ i < c.pwmChannelNum, c.ticks i = 0 ∨ c.ticks i = c.periodTicks) :
    ∃ s', pwmStep s .intr = some s' ∧ s'.pwmTimerDown = true ∧ s'.frc1Load = s.frc1Load ∧
      pulses = [.of s'] := by
  obtain ⟨-, mid, off, hstrict, hm, -, hf⟩ := wp_buildSchedule c hold []
  exact h.one_entry_stops (hf.one_entry hstrict hm hlevel)

def startedWith (c : PwmConfig) : List PwmEvent :=
  [.configure c, .start] ++ List.replicate 12 .task ++ [.intr]

theorem exists_period {c : PwmConfig} {table : Schedule}
    (h : (runScript pwmStep (fun _ _ => true) .init (startedWith c)).any (fun s =>
      AtEnd s ∧ (pwmStep s .intr).any (fun s₁ =>
        On table s₁ ∧ s₁.pwmTimerDown = false ∧ ¬ AtEnd s₁ ∧
          (pwmStep s₁ .intr).any (fun s₂ => On table s₂ ∧ AtEnd s₂) = true) = true) = true) :
    ∃ s pulses, Reach pwmStep (fun _ _ => True) .init s ∧ Period table s pulses := by
  obtain ⟨s, hs, hp⟩ := (Option.any_eq_true _ _).mp h
  obtain ⟨hend, hfirst⟩ := of_decide_eq_true hp
  obtain ⟨s₁, h₁, hp₁⟩ := (Option.any_eq_true _ _).mp hfirst
  obtain ⟨hon₁, hup, hgo, hnext⟩ := of_decide_eq_true hp₁
  obtain ⟨s₂, h₂, hp₂⟩ := (Option.any_eq_true _ _).mp hnext
  obtain ⟨hon₂, hend₂⟩ := of_decide_eq_true hp₂
  exact ⟨s, _, reach_of_script (fun _ _ _ => trivial) hs, hend, s₁, _, h₁,
    .drives hon₁ hup (fun h => hgo h.2) (.inl rfl) h₂ (.ended hon₂ hend₂), rfl⟩

theorem halfConfig_pins : halfConfig.Pins := by
  have hbit : pinBit 3 = 1 := by decide
  refine ⟨by decide, by decide, fun b => ?_⟩
  simp [halfConfig, hbit]

theorem half_period : ∃ s pulses, Reach pwmStep (fun _ _ => True) .init s ∧
    Period (built halfConfig .blank) s pulses ∧
    (pulses.map (fun p => p.load.toNat)).sum = 10000 ∧
    ∀ before tick, tick < 10000 → levelAt 0 pulses before tick = decide (tick < 4995) := by
  obtain ⟨s, pulses, hs, h⟩ := @exists_period halfConfig (built halfConfig .blank)
    (by decide +kernel)
  obtain ⟨hsum, hlevel⟩ := period_waveform halfConfig_pins
    (show Schedule.blank.Full from rfl) hs h
  exact ⟨s, pulses, hs, h, hsum ⟨0, by decide, by decide, by decide⟩,
    (hlevel 0 (by decide) (by decide)).2⟩

def gpio16Config : PwmConfig :=
  { halfConfig with pwmOutIoNum := [0], pwmGpio := 0, channels_le := Nat.le_of_ble_eq_true rfl }

theorem levelAt_of_ge {b : Nat} (hb : 16 ≤ b) (pulses : List Pulse) (before : Bool) (tick : Nat) :
    levelAt b pulses before tick = before := by
  have hno : ∀ x : UInt16, hasBit x b = false := fun x => BitVec.getLsbD_of_ge _ _ hb
  induction pulses generalizing tick with
  | nil => rfl
  | cons p pulses ih =>
    have hdrive : p.drive b before = before := by simp [Pulse.drive, hno]
    rw [levelAt, hdrive, ih, ite_self]

/-- GPIO16 stays low for the whole period. -/
theorem gpio16_never_high : gpio16Config.Pins ∧ 0 < gpio16Config.pwmChannelNum ∧
    ∃ s pulses, Reach pwmStep (fun _ _ => True) .init s ∧
      Period (built gpio16Config .blank) s pulses ∧
      ∃ tick < (gpio16Config.ticks 0).toNat,
        levelAt (gpio16Config.pin 0) pulses false tick = false := by
  have hbit : pinBit 0 = 0 := by decide
  refine ⟨⟨by decide, by decide, fun b => ?_⟩, by decide, ?_⟩
  · simp [gpio16Config, hbit]
  · obtain ⟨s, pulses, hs, h⟩ := @exists_period gpio16Config (built gpio16Config .blank)
      (by decide +kernel)
    exact ⟨s, pulses, hs, h, 0, by decide, levelAt_of_ge (by decide) pulses false 0⟩

def offConfig : PwmConfig := pwmSetDuty halfConfig 0 3

/-- A channel is switched off while its timer runs: the timer keeps the load of the
period before. -/
theorem all_off_period : offConfig.Pins ∧ offConfig.periodTicks.toNat = 10000 ∧
    ∃ s pulses, Reach pwmStep (fun _ _ => True) .init s ∧
      Period (built offConfig .first) s pulses ∧
      (pulses.map (fun p => p.load.toNat)).sum = 5005 := by
  refine ⟨pwmSetDuty_pins halfConfig_pins 0 3, by decide, ?_⟩
  have hrun : (runScript pwmStep (fun _ _ => true) .init
      (startedWith halfConfig ++ [.configure offConfig, .start] ++ List.replicate 15 .task)).any
      (fun s => AtEnd s ∧ (pwmStep s .intr).any (fun s' =>
        On (built offConfig .first) s' ∧ AtEnd s' ∧ s'.frc1Load = 5005) = true) = true := by
    decide +kernel
  obtain ⟨s, hs, hp⟩ := (Option.any_eq_true _ _).mp hrun
  obtain ⟨hend, hlast⟩ := of_decide_eq_true hp
  obtain ⟨s', hs', hp'⟩ := (Option.any_eq_true _ _).mp hlast
  obtain ⟨hon, hend', hload⟩ := of_decide_eq_true hp'
  refine ⟨s, [.of s'], reach_of_script (fun _ _ _ => trivial) hs,
    ⟨hend, s', [], hs', .ended hon hend', rfl⟩, ?_⟩
  simp [Pulse.of, hload]

end Esp32Project.Esp8266
