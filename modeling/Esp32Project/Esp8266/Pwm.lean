import Esp32Project.Lib.Reach
import Mathlib.Algebra.Group.Nat.Defs
import Mathlib.Logic.Function.Basic

/-!
The two schedules of the ESP8266 PWM driver (pwm.c): `pwm_start` makes one while
the timer handler works off the other. The handler may come between any two
stores of `pwm_start`; `pwm_start` never comes into the handler. An index of the
pairs `pwm_single_toggle` and `pwm_channel_toggle` is a Bool.
-/

set_option autoImplicit false

namespace Esp32Project.Esp8266
open Esp32Project.Lib

def pwmChannelMax : Nat := 6
def pwmDepth : Nat := 1023
def pwmFreqMax : Nat := 1000
def pwm1s : Nat := 1000000
def apbClkFreq : UInt32 := 80000000

def usToRtcTimerTicks (t : UInt32) : UInt32 :=
  if t = 0 then 0
  else if 0x35A < t then
    (t >>> 2) * ((apbClkFreq >>> 4) / (250000 : UInt32)) +
      (t &&& (3 : UInt32)) * ((apbClkFreq >>> 4) / (1000000 : UInt32))
  else t * (apbClkFreq >>> 4) / 1000000

def pinNum : List Nat := [16, 5, 4, 0, 2, 14, 12, 13, 15, 3, 1, 9, 10]

def pinBit (channel : Nat) : UInt16 := .ofNat (2 ^ pinNum.getD channel 0)

structure PwmSingleParam where
  gpioSet : UInt16
  gpioClear : UInt16
  hTime : UInt32
  deriving DecidableEq, Repr

def PwmSingleParam.zero : PwmSingleParam := ⟨0, 0, 0⟩

/-- The statics that `pwm_set_freq`, `pwm_set_duty`, `pwm_add` and `pwm_delete`
keep, within the bounds that these see to. -/
structure PwmConfig where
  freq : Nat
  duty : List Nat
  pwmOutIoNum : List Nat
  pwmGpio : UInt16
  freq_pos : 1 ≤ freq
  freq_le : freq ≤ pwmFreqMax
  duty_le : ∀ d ∈ duty, d ≤ pwmDepth
  channels_le : pwmOutIoNum.length ≤ pwmChannelMax
  deriving DecidableEq

def PwmConfig.period (c : PwmConfig) : UInt32 := .ofNat (pwm1s / c.freq)
def PwmConfig.pwmChannelNum (c : PwmConfig) : Nat := c.pwmOutIoNum.length

/-- A buffer of `pwm_single_toggle` with its count in `pwm_channel_toggle`. -/
structure Schedule where
  single : List PwmSingleParam
  channel : Nat
  deriving DecidableEq, Repr

def Schedule.blank : Schedule := ⟨List.replicate (pwmChannelMax + 1) .zero, 0⟩

def Schedule.at (s : Schedule) (i : Nat) : PwmSingleParam := s.single.getD i .zero

def Schedule.put (s : Schedule) (i : Nat) (p : PwmSingleParam) : Schedule :=
  { s with single := s.single.set i p }

/-- Work on one buffer, with what it is after each store. -/
abbrev Build := StateM (Schedule × List Schedule)

def Build.peek (i : Nat) : Build PwmSingleParam := return (← get).1.at i

def Build.count : Build Nat := return (← get).1.channel

def Build.store (i : Nat) (p : PwmSingleParam) : Build Unit :=
  modify fun (s, log) => (s.put i p, log ++ [s.put i p])

def Build.storeCount (n : Nat) : Build Unit :=
  modify fun (s, log) => ({ s with channel := n }, log ++ [{ s with channel := n }])

open Build

/-- The `while` of `pwm_insert_sort`, from `j + 1` on; the place for `tmp`. -/
def shiftUp (tmp : PwmSingleParam) : Nat → Build Nat
  | 0 => return 0
  | j + 1 => do
    let p ← peek j
    if tmp.hTime < p.hTime then
      store (j + 1) p
      shiftUp tmp j
    else return j + 1

def pwmInsertSort (n : Nat) : Build Unit :=
  (List.range' 1 (n - 1)).forM fun i => do
    let tmp ← peek i
    let below ← peek (i - 1)
    if tmp.hTime < below.hTime then
      store i below
      let j ← shiftUp tmp i
      store j tmp

/-- Step 1: one entry for each channel and one for the period. -/
def initParams (c : PwmConfig) : Build Unit := do
  (List.range c.pwmChannelNum).forM fun i => do
    let us := c.period * .ofNat (c.duty.getD i 0) / .ofNat pwmDepth
    store i { (← peek i) with hTime := usToRtcTimerTicks us }
    store i { (← peek i) with gpioSet := 0 }
    store i { (← peek i) with gpioClear := pinBit (c.pwmOutIoNum.getD i 0) }
  let n := c.pwmChannelNum
  store n { (← peek n) with hTime := usToRtcTimerTicks c.period }
  store n { (← peek n) with gpioSet := c.pwmGpio }
  store n { (← peek n) with gpioClear := 0 }

def moveDown (i : Nat) : Build Unit := do
  let n ← count
  (List.range' i (n - i)).forM fun j => do store (j - 1) (← peek j)

/-- Step 3: channels of the same duty become one entry. -/
def combine : Nat → Build Unit
  | 0 => return
  | i + 1 => do
    let p ← peek (i + 1)
    if p.hTime = (← peek i).hTime then
      store i { (← peek i) with gpioSet := (← peek i).gpioSet ||| p.gpioSet }
      store i { (← peek i) with gpioClear := (← peek i).gpioClear ||| p.gpioClear }
      moveDown (i + 2)
      storeCount ((← count) - 1)
    combine i

/-- Step 4: times become differences. -/
def toDeltas : Nat → Build Unit
  | 0 => return
  | i + 1 => do
    let p ← peek (i + 1)
    store (i + 1) { p with hTime := p.hTime - (← peek i).hTime }
    toDeltas i

/-- Step 6: a first channel of duty 0 is only switched off. -/
def dropZero : Build Unit := do
  let first ← peek 0
  if first.hTime = 0 then
    let last := (← count) - 1
    store last { (← peek last) with gpioSet := (← peek last).gpioSet &&& ~~~ first.gpioClear }
    store last { (← peek last) with gpioClear := (← peek last).gpioClear ||| first.gpioClear }
    moveDown 1
    storeCount ((← count) - 1)

/-- Steps 1 to 6 of `pwm_start`. -/
def buildSchedule (c : PwmConfig) : Build Unit := do
  initParams c
  pwmInsertSort (c.pwmChannelNum + 1)
  storeCount (c.pwmChannelNum + 1)
  combine c.pwmChannelNum
  toDeltas ((← count) - 1)
  let last := (← count) - 1
  store last { (← peek last) with gpioClear := 0 }
  dropZero

def scheduleStores (c : PwmConfig) (old : Schedule) : List Schedule :=
  ((buildSchedule c).run (old, [])).2.2

/-- Where `pwm_start` is; `slot` is the index of the buffer it makes. -/
inductive Pc where
  | idle
  /-- The lock is taken and the buffer chosen, and nothing is stored yet. -/
  | begun (slot : Bool) (todo : List Schedule)
  | writing (slot : Bool) (todo : List Schedule)
  /-- The timer is down, and the buffer made goes into use at once. -/
  | take (slot : Bool)
  | flip
  deriving DecidableEq, Repr

structure Pwm where
  config : PwmConfig
  toggles : Bool → Schedule
  pwmSingle : Option Bool
  pwmChannel : Option Bool
  pwmToggle : Bool
  pwmTimerDown : Bool
  pwmCurrentChannel : Nat
  /-- What was last given to `gpio_output_set`, and to the load register. -/
  gpioOut : UInt16 × UInt16 × UInt16
  frc1Load : UInt32
  pc : Pc
  /-- The schedules that `pwm_start` has completed. -/
  finished : List Schedule

def initConfig : PwmConfig where
  freq := 500
  duty := [0, 0, 0, 0, 0, 0]
  pwmOutIoNum := []
  pwmGpio := 0
  freq_pos := by decide
  freq_le := by decide
  duty_le := by decide
  channels_le := by decide

inductive PwmEvent where
  /-- The statics are changed, under the same lock as `pwm_start`. -/
  | configure (c : PwmConfig)
  /-- `pwm_start` is called. -/
  | start
  /-- `pwm_start` goes on. -/
  | task
  /-- The timer interrupt. -/
  | intr
  deriving DecidableEq

/-- `pwm_start` up to its first store. -/
def pwmStart (s : Pwm) : Pwm :=
  let slot := !s.pwmToggle
  { s with pc := .begun slot (scheduleStores s.config (s.toggles slot)) }

/-- The test of `pwm_timer_down`, with the schedule complete. -/
def pwmFinish (s : Pwm) (slot : Bool) : Pwm :=
  { s with
    finished := s.toggles slot :: s.finished
    pc := if s.pwmTimerDown then .take slot else .flip }

/-- The branch of `pwm_start` for a timer that is down. -/
def pwmTake (s : Pwm) (slot : Bool) : Pwm :=
  let first := (s.toggles slot).at 0
  let s := { s with
    pwmChannel := some slot
    pwmSingle := some slot
    gpioOut := (first.gpioSet, first.gpioClear, s.config.pwmGpio)
    pc := .flip }
  if (s.toggles slot).channel ≠ 1 then
    { s with pwmTimerDown := false, frc1Load := first.hTime }
  else s

def pwmStore (s : Pwm) (slot : Bool) (b : Schedule) (todo : List Schedule) : Pwm :=
  { s with toggles := Function.update s.toggles slot b, pc := .writing slot todo }

def taskStep (s : Pwm) : Option Pwm :=
  match s.pc with
  | .idle => none
  | .begun slot (b :: todo) | .writing slot (b :: todo) => some (pwmStore s slot b todo)
  | .begun slot [] | .writing slot [] => some (pwmFinish s slot)
  | .take slot => some (pwmTake s slot)
  | .flip => some { s with pwmToggle := !s.pwmToggle, pc := .idle }

def periodEnds (s : Pwm) (channel : Bool) : Prop :=
  (s.toggles channel).channel ≤ s.pwmCurrentChannel + 1

instance (s : Pwm) (channel : Bool) : Decidable (periodEnds s channel) :=
  inferInstanceAs (Decidable (_ ≤ _))

def pwmTim1IntrHandler (s : Pwm) : Option Pwm :=
  match s.pwmChannel, s.pwmSingle with
  | some channel, some single =>
    if periodEnds s channel then
      let new := s.toggles s.pwmToggle
      let last := new.at (new.channel - 1)
      let s := { s with
        pwmSingle := some s.pwmToggle
        pwmChannel := some s.pwmToggle
        gpioOut := (last.gpioSet, last.gpioClear, s.config.pwmGpio)
        pwmCurrentChannel := 0 }
      if new.channel ≠ 1 then some { s with frc1Load := (new.at 0).hTime }
      else some { s with pwmTimerDown := true }
    else
      let p := (s.toggles single).at s.pwmCurrentChannel
      let next := s.pwmCurrentChannel + 1
      some { s with
        gpioOut := (p.gpioSet, p.gpioClear, s.config.pwmGpio)
        pwmCurrentChannel := next
        frc1Load := ((s.toggles single).at next).hTime }
  | _, _ => none

/-- Calls wait for the lock. The timer is loaded for one interrupt at a time, and
not at all while `pwm_timer_down` is set. -/
def pwmStep (s : Pwm) : PwmEvent → Option Pwm
  | .configure c => if s.pc = .idle then some { s with config := c } else none
  | .start => if s.pc = .idle then some (pwmStart s) else none
  | .task => taskStep s
  | .intr => if s.pwmTimerDown then none else pwmTim1IntrHandler s

/-- Static storage, with the configuration of `pwm_init`. -/
def Pwm.static : Pwm where
  config := initConfig
  toggles _ := .blank
  pwmSingle := none
  pwmChannel := none
  pwmToggle := true
  pwmTimerDown := true
  pwmCurrentChannel := 0
  gpioOut := (0, 0, 0)
  frc1Load := 0
  pc := .idle
  finished := []

def Schedule.first : Schedule := ⟨⟨0, 0, 10000⟩ :: List.replicate pwmChannelMax .zero, 1⟩

def Pwm.init : Pwm where
  config := initConfig
  toggles slot := if slot then .blank else .first
  pwmSingle := some false
  pwmChannel := some false
  pwmToggle := false
  pwmTimerDown := true
  pwmCurrentChannel := 0
  gpioOut := (0, 0, 0)
  frc1Load := 0
  pc := .idle
  finished := [.first]

example : (runScript pwmStep (fun _ _ => true) .static (.start :: List.replicate 8 .task)).any
    (fun s => s.toggles false = .first ∧ s.pwmSingle = some false ∧ s.pwmToggle = false ∧
      s.pwmTimerDown = true ∧ s.pc = .idle) = true := by decide +kernel

/-- This step of `pwm_start` stores into the buffer or the count that the handler
is on, while the timer runs. -/
def Clashes (s : Pwm) (e : PwmEvent) : Prop :=
  e = .task ∧ s.pwmTimerDown = false ∧
    match s.pc with
    | .begun slot (_ :: _) | .writing slot (_ :: _) =>
      s.pwmSingle = some slot ∨ s.pwmChannel = some slot
    | _ => False

instance (s : Pwm) (e : PwmEvent) : Decidable (Clashes s e) := by
  unfold Clashes
  split <;> infer_instance

/-- What the handler is on is one schedule, and a complete one. -/
def Consistent (s : Pwm) : Prop :=
  s.pwmTimerDown = false →
    ∃ slot, s.pwmSingle = some slot ∧ s.pwmChannel = some slot ∧ s.toggles slot ∈ s.finished

/-- The schedule that the handler is on stays the same up to the end of the period. -/
def SamePeriod (s s' : Pwm) (e : PwmEvent) : Prop :=
  ∀ slot, s.pwmTimerDown = false → s.pwmChannel = some slot → ¬ (e = .intr ∧ periodEnds s slot) →
    s'.pwmChannel = some slot ∧ s'.pwmSingle = s.pwmSingle ∧ s'.toggles slot = s.toggles slot

def PwmStepOk (s : Pwm) (e : PwmEvent) : Prop :=
  ¬ Clashes s e ∧ ∀ s', pwmStep s e = some s' → Consistent s' ∧ SamePeriod s s' e

/-- When `pwm_start` makes its first store, the timer is down or the handler is
on the buffer that `pwm_toggle` names: a period has ended since the last
`pwm_start` was through. -/
def TakenUp (s : Pwm) (e : PwmEvent) : Prop :=
  ∀ slot b todo, e = .task → s.pc = .begun slot (b :: todo) →
    s.pwmTimerDown = true ∨ s.pwmSingle = some s.pwmToggle

def PcOk (s : Pwm) : Pc → Prop
  | .idle => True
  | .begun slot _ => slot = !s.pwmToggle
  | .writing slot _ =>
    slot = !s.pwmToggle ∧ (s.pwmTimerDown = false → s.pwmSingle = some s.pwmToggle)
  | .take slot => slot = !s.pwmToggle ∧ s.pwmTimerDown = true ∧ s.toggles slot ∈ s.finished
  | .flip => s.toggles (!s.pwmToggle) ∈ s.finished

/-- The buffer that `pwm_toggle` names is complete, and so is the one that the handler is on. -/
structure PwmInv (s : Pwm) : Prop where
  named : s.toggles s.pwmToggle ∈ s.finished
  same : s.pwmChannel = s.pwmSingle
  on : s.pwmTimerDown = false → ∃ slot, s.pwmSingle = some slot ∧ s.toggles slot ∈ s.finished
  pcOk : PcOk s s.pc

theorem PwmInv.consistent {s : Pwm} (h : PwmInv s) : Consistent s := by
  intro hdown
  obtain ⟨slot, hs, hf⟩ := h.on hdown
  exact ⟨slot, hs, h.same.trans hs, hf⟩

theorem pwmInv_init : PwmInv .init :=
  ⟨List.mem_singleton.mpr rfl, rfl, fun h => (nomatch h), trivial⟩

theorem samePeriod_of_eq {s s' : Pwm} {e : PwmEvent} (ht : s'.toggles = s.toggles)
    (hs : s'.pwmSingle = s.pwmSingle) (hc : s'.pwmChannel = s.pwmChannel) : SamePeriod s s' e :=
  fun slot _ hslot _ => ⟨hc.trans hslot, hs, congrFun ht slot⟩

theorem pwmStore_inv {s : Pwm} {slot : Bool} (b : Schedule) (todo : List Schedule)
    (h : PwmInv s) (hslot : slot = !s.pwmToggle)
    (hon : s.pwmTimerDown = false → s.pwmSingle = some s.pwmToggle) :
    PwmInv (pwmStore s slot b todo) ∧ SamePeriod s (pwmStore s slot b todo) .task := by
  have hne : s.pwmToggle ≠ slot := by simp [hslot]
  refine ⟨⟨?_, h.same, fun hdown => ?_, ⟨hslot, hon⟩⟩, fun u hdown hu _ => ⟨hu, rfl, ?_⟩⟩
  · simpa [pwmStore, Function.update_of_ne hne] using h.named
  · refine ⟨s.pwmToggle, hon hdown, ?_⟩
    simpa [pwmStore, Function.update_of_ne hne] using h.named
  · have hut : s.pwmToggle = u := Option.some.inj ((hon hdown).symm.trans (h.same.symm.trans hu))
    exact Function.update_of_ne (hut ▸ hne) _ _

theorem pwmFinish_inv {s : Pwm} {slot : Bool} (h : PwmInv s) (hslot : slot = !s.pwmToggle) :
    PwmInv (pwmFinish s slot) ∧ SamePeriod s (pwmFinish s slot) .task := by
  refine ⟨⟨List.mem_cons_of_mem _ h.named, h.same, fun hdown => ?_, ?_⟩,
    samePeriod_of_eq rfl rfl rfl⟩
  · obtain ⟨u, hu, hf⟩ := h.on hdown
    exact ⟨u, hu, List.mem_cons_of_mem _ hf⟩
  · cases hdown : s.pwmTimerDown with
    | true =>
      simp only [pwmFinish, hdown, if_true]
      exact ⟨hslot, rfl, List.mem_cons_self⟩
    | false =>
      simp only [pwmFinish, hdown, Bool.false_eq_true, if_false]
      exact hslot ▸ List.mem_cons_self

theorem pwmTake_inv {s : Pwm} {slot : Bool} (h : PwmInv s) (hslot : slot = !s.pwmToggle)
    (hdown : s.pwmTimerDown = true) (hf : s.toggles slot ∈ s.finished) :
    PwmInv (pwmTake s slot) ∧ SamePeriod s (pwmTake s slot) .task := by
  refine ⟨?_, fun u hup => ?_⟩
  · simp only [pwmTake]
    split
    · exact ⟨h.named, rfl, fun _ => ⟨slot, rfl, hf⟩, hslot ▸ hf⟩
    · exact ⟨h.named, rfl, fun _ => ⟨slot, rfl, hf⟩, hslot ▸ hf⟩
  · rw [hdown] at hup
    cases hup

theorem taskStep_cases {s s' : Pwm} (hs : taskStep s = some s') :
    (∃ slot b todo, (s.pc = .begun slot (b :: todo) ∨ s.pc = .writing slot (b :: todo)) ∧
        s' = pwmStore s slot b todo) ∨
      (∃ slot, (s.pc = .begun slot [] ∨ s.pc = .writing slot []) ∧ s' = pwmFinish s slot) ∨
      (∃ slot, s.pc = .take slot ∧ s' = pwmTake s slot) ∨
      (s.pc = .flip ∧ s' = { s with pwmToggle := !s.pwmToggle, pc := .idle }) := by
  unfold taskStep at hs
  split at hs
  · cases hs
  · rename_i slot b todo hpc
    cases hs
    exact .inl ⟨slot, b, todo, .inl hpc, rfl⟩
  · rename_i slot b todo hpc
    cases hs
    exact .inl ⟨slot, b, todo, .inr hpc, rfl⟩
  · rename_i slot hpc
    cases hs
    exact .inr (.inl ⟨slot, .inl hpc, rfl⟩)
  · rename_i slot hpc
    cases hs
    exact .inr (.inl ⟨slot, .inr hpc, rfl⟩)
  · rename_i slot hpc
    cases hs
    exact .inr (.inr (.inl ⟨slot, hpc, rfl⟩))
  · rename_i hpc
    cases hs
    exact .inr (.inr (.inr ⟨hpc, rfl⟩))

theorem taskStep_inv {s s' : Pwm} (h : PwmInv s) (hq : TakenUp s .task)
    (hs : taskStep s = some s') : PwmInv s' ∧ SamePeriod s s' .task := by
  have hok := h.pcOk
  rcases taskStep_cases hs with ⟨slot, b, todo, hpc, rfl⟩ | ⟨slot, hpc, rfl⟩ | ⟨slot, hpc, rfl⟩ |
    ⟨hpc, rfl⟩
  · rcases hpc with hpc | hpc
    · rw [hpc] at hok
      refine pwmStore_inv b todo h hok fun hup => ?_
      rcases hq slot b todo rfl hpc with hdown | hon
      · rw [hup] at hdown
        cases hdown
      · exact hon
    · rw [hpc] at hok
      exact pwmStore_inv b todo h hok.1 hok.2
  · rcases hpc with hpc | hpc
    · rw [hpc] at hok
      exact pwmFinish_inv h hok
    · rw [hpc] at hok
      exact pwmFinish_inv h hok.1
  · rw [hpc] at hok
    exact pwmTake_inv h hok.1 hok.2.1 hok.2.2
  · rw [hpc] at hok
    exact ⟨⟨hok, h.same, h.on, trivial⟩, samePeriod_of_eq rfl rfl rfl⟩

theorem pwmTim1IntrHandler_cases {s s' : Pwm} (hs : pwmTim1IntrHandler s = some s') :
    s'.toggles = s.toggles ∧ s'.finished = s.finished ∧ s'.pwmToggle = s.pwmToggle ∧
      s'.pc = s.pc ∧
      ((s'.pwmSingle = some s.pwmToggle ∧ s'.pwmChannel = some s.pwmToggle ∧
          ∃ channel, s.pwmChannel = some channel ∧ periodEnds s channel) ∨
        (s'.pwmSingle = s.pwmSingle ∧ s'.pwmChannel = s.pwmChannel ∧
          s'.pwmTimerDown = s.pwmTimerDown)) := by
  unfold pwmTim1IntrHandler at hs
  split at hs
  · rename_i channel single hc hsingle
    split at hs
    · rename_i hend
      refine ⟨?_, ?_, ?_, ?_, .inl ⟨?_, ?_, channel, hc, hend⟩⟩ <;>
        (dsimp only at hs; split at hs <;> cases hs <;> rfl)
    · cases hs
      exact ⟨rfl, rfl, rfl, rfl, .inr ⟨rfl, rfl, rfl⟩⟩
  · cases hs

theorem PcOk.intr {s s' : Pwm} {pc : Pc} (h : PcOk s pc) (hup : s.pwmTimerDown = false)
    (ht : s'.toggles = s.toggles) (hf : s'.finished = s.finished)
    (htog : s'.pwmToggle = s.pwmToggle)
    (hon : s.pwmSingle = some s.pwmToggle → s'.pwmSingle = some s.pwmToggle) : PcOk s' pc := by
  cases pc with
  | idle => trivial
  | begun slot todo => exact (h : slot = _).trans (by rw [htog])
  | writing slot todo => exact ⟨htog ▸ h.1, fun _ => htog ▸ hon (h.2 hup)⟩
  | take slot =>
    have hdown := h.2.1
    rw [hup] at hdown
    cases hdown
  | flip =>
    unfold PcOk
    rw [ht, hf, htog]
    exact h

theorem intr_inv {s s' : Pwm} (h : PwmInv s) (hup : s.pwmTimerDown = false)
    (hs : pwmTim1IntrHandler s = some s') : PwmInv s' ∧ SamePeriod s s' .intr := by
  obtain ⟨ht, hf, htog, hpc, hcase⟩ := pwmTim1IntrHandler_cases hs
  have hnamed : s'.toggles s'.pwmToggle ∈ s'.finished := by
    rw [ht, hf, htog]
    exact h.named
  rcases hcase with ⟨hsingle, hchannel, channel, hc, hend⟩ | ⟨hsingle, hchannel, hdown⟩
  · refine ⟨⟨hnamed, hchannel.trans hsingle.symm, fun _ => ⟨s.pwmToggle, hsingle, ?_⟩, ?_⟩, ?_⟩
    · rw [← htog]
      exact hnamed
    · rw [hpc]
      exact h.pcOk.intr hup ht hf htog fun _ => hsingle
    · intro u _ hu hno
      obtain rfl : channel = u := Option.some.inj (hc.symm.trans hu)
      exact absurd ⟨rfl, hend⟩ hno
  · refine ⟨⟨hnamed, ?_, fun _ => ?_, ?_⟩, samePeriod_of_eq ht hsingle hchannel⟩
    · rw [hchannel, hsingle]
      exact h.same
    · obtain ⟨u, hu, hmem⟩ := h.on hup
      exact ⟨u, hsingle.trans hu, by rw [ht, hf]; exact hmem⟩
    · rw [hpc]
      exact h.pcOk.intr hup ht hf htog fun hon => hsingle.trans hon

theorem pwmStep_cases {s s' : Pwm} {e : PwmEvent} (hs : pwmStep s e = some s') :
    (∃ c, e = .configure c ∧ s.pc = .idle ∧ s' = { s with config := c }) ∨
      (e = .start ∧ s.pc = .idle ∧ s' = pwmStart s) ∨
      (e = .task ∧ taskStep s = some s') ∨
      (e = .intr ∧ s.pwmTimerDown = false ∧ pwmTim1IntrHandler s = some s') := by
  cases e with
  | configure c =>
    obtain ⟨hpc, hs⟩ := Option.ite_none_right_eq_some.mp hs
    exact .inl ⟨c, rfl, hpc, (Option.some.inj hs).symm⟩
  | start =>
    obtain ⟨hpc, hs⟩ := Option.ite_none_right_eq_some.mp hs
    exact .inr (.inl ⟨rfl, hpc, (Option.some.inj hs).symm⟩)
  | task => exact .inr (.inr (.inl ⟨rfl, hs⟩))
  | intr =>
    obtain ⟨hup, hs⟩ := Option.ite_none_left_eq_some.mp hs
    exact .inr (.inr (.inr ⟨rfl, by simpa using hup, hs⟩))

theorem pwmStep_inv {s s' : Pwm} {e : PwmEvent} (h : PwmInv s) (hq : TakenUp s e)
    (hs : pwmStep s e = some s') : PwmInv s' ∧ SamePeriod s s' e := by
  rcases pwmStep_cases hs with ⟨c, rfl, hidle, rfl⟩ | ⟨rfl, -, rfl⟩ | ⟨rfl, hs⟩ | ⟨rfl, hup, hs⟩
  · exact ⟨⟨h.named, h.same, h.on, by simp only [hidle]; trivial⟩, samePeriod_of_eq rfl rfl rfl⟩
  · exact ⟨⟨h.named, h.same, h.on, rfl⟩, samePeriod_of_eq rfl rfl rfl⟩
  · exact taskStep_inv h hq hs
  · exact intr_inv h hup hs

/-- Under the invariant a store goes astray exactly if it is a first one made too early. -/
theorem clashes_iff {s : Pwm} (h : PwmInv s) (e : PwmEvent) : Clashes s e ↔ ¬ TakenUp s e := by
  constructor
  · rintro ⟨rfl, hup, hpc⟩ hq
    have hok := h.pcOk
    split at hpc
    · rename_i slot b todo hbegun
      rw [hbegun] at hok
      have hon : s.pwmSingle = some s.pwmToggle :=
        (hq slot b todo rfl hbegun).resolve_left (by simp [hup])
      rw [h.same, or_self, hon, show slot = !s.pwmToggle from hok] at hpc
      simp at hpc
    · rename_i slot b todo hwriting
      rw [hwriting] at hok
      rw [h.same, or_self, hok.2 hup, hok.1] at hpc
      simp at hpc
    · exact hpc
  · intro hq
    simp only [TakenUp, not_forall, not_or] at hq
    obtain ⟨slot, b, todo, rfl, hbegun, hup, hoff⟩ := hq
    have hup : s.pwmTimerDown = false := by simpa using hup
    obtain ⟨u, hu, -⟩ := h.on hup
    have hok := h.pcOk
    rw [hbegun] at hok
    refine ⟨rfl, hup, ?_⟩
    rw [hbegun]
    refine .inl ?_
    rw [hu, show slot = !s.pwmToggle from hok]
    rw [hu] at hoff
    cases hut : s.pwmToggle <;> cases u <;> simp_all

theorem pwmStepOk_iff {s : Pwm} (h : PwmInv s) (e : PwmEvent) : PwmStepOk s e ↔ TakenUp s e := by
  refine ⟨fun hok => ?_, fun hq => ⟨fun hc => (clashes_iff h e).mp hc hq, fun s' hs => ?_⟩⟩
  · by_contra hq
    exact hok.1 ((clashes_iff h e).mpr hq)
  · obtain ⟨hinv, hsame⟩ := pwmStep_inv h hq hs
    exact ⟨hinv.consistent, hsame⟩

/-- The handler works off one complete schedule in each period, and no store gets
in its way, exactly in the runs in which every schedule made while the timer runs
was taken up before the next one is begun. -/
theorem pwmStepOk_along_iff (events : List PwmEvent) :
    Along pwmStep PwmStepOk .init events ↔ Along pwmStep TakenUp .init events :=
  along_iff PwmInv (fun _ e h => pwmStepOk_iff h e) (fun _ _ _ h hq hs => (pwmStep_inv h hq hs).1)
    pwmInv_init events

def halfConfig : PwmConfig where
  freq := 500
  duty := [511, 0, 0, 0, 0, 0]
  pwmOutIoNum := [3]
  pwmGpio := 1
  freq_pos := by decide
  freq_le := by decide
  duty_le := by decide
  channels_le := by decide

def threeStarts : List PwmEvent :=
  [.configure halfConfig, .start] ++ List.replicate 12 .task ++ [.start] ++
    List.replicate 11 .task ++ [.start]

/-- The third call writes into the schedule that the first one has set going. -/
theorem pwm_schedule_overwritten :
    ¬ Along pwmStep PwmStepOk .init (threeStarts ++ [.task]) := by
  intro h
  have hclash : (runScript pwmStep (fun _ _ => true) .init threeStarts).any
      (fun s => Clashes s .task) = true := by decide +kernel
  obtain ⟨t, ht, hc⟩ := (Option.any_eq_true _ _).mp hclash
  exact (h.at_script ht).1 (by simpa using hc)

end Esp32Project.Esp8266
