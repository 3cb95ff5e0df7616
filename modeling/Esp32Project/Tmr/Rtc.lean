import Mathlib.Algebra.Group.Nat.Defs
import Esp32Project.Lib.Reach

/-!
The seconds of `tmr.time`. The counter of the chip has 32 bits and `rtc_time`
goes on counting where it wraps; a true count is the number of its ticks since
the start.
-/

set_option autoImplicit false

namespace Esp32Project.Tmr
open Esp32Project.Lib

/-- The union `rtc_time` by its two parts. -/
structure RtcTime where
  part0 : UInt32
  part1 : UInt32
  deriving DecidableEq

def RtcTime.block (r : RtcTime) : UInt64 := r.part1.toUInt64 <<< 32 ||| r.part0.toUInt64

/-- `rtcNow` is what `system_get_rtc_time` returns here. -/
def rtc2sec (rtcNow : UInt32) (rtc : UInt64) : UInt32 :=
  let aku := rtcNow.toUInt64
  let aku := aku * rtc
  ((aku >>> 12) / 1000000).toUInt32

def rtcTimerUpdate (current : UInt32) (r : RtcTime) : RtcTime :=
  ⟨current, if r.part0 > current then r.part1 + 1 else r.part1⟩

/-- `rtc_time` and `soft_watchdog`. -/
structure RtcState where
  rtcTime : RtcTime
  softWatchdog : Int32
  deriving DecidableEq

def RtcState.start : RtcState := ⟨⟨0, 0⟩, -1⟩

/-- `none` where the chip is restarted. -/
def rtcCallback (current : UInt32) (s : RtcState) : Option RtcState :=
  let s := { s with rtcTime := rtcTimerUpdate current s.rtcTime }
  if s.softWatchdog > 0 then
    let s := { s with softWatchdog := s.softWatchdog - 1 }
    if s.softWatchdog = 0 then none else some s
  else some s

/-- The counter is read for the update and once more for the seconds, which are pushed as a
`lua_Integer`. -/
def tmrTime (current rtcNow : UInt32) (s : RtcState) : RtcState × Int32 :=
  let s := { s with rtcTime := rtcTimerUpdate current s.rtcTime }
  (s, (rtc2sec rtcNow s.rtcTime.block).toInt32)

def tmrSoftwd (value : Int32) (s : RtcState) : RtcState := { s with softWatchdog := value }

/-- The ticks of the clock in microseconds, with 12 bits of fraction. -/
structure Clock where
  cali : Nat
  pos : 0 < cali

def Clock.seconds (c : Clock) (count : Nat) : Nat := count * c.cali / 2 ^ 12 / 10 ^ 6

/-- The true counts of the two readings in a call of `tmr.time`, and what it returned. -/
structure TimeCall where
  count : Nat
  second : Nat
  value : Int

/-- The module beside the true count of its last update, and of the last reading of the counter. -/
structure Watched where
  rtc : RtcState
  count : Nat
  read : Nat
  last : Option TimeCall

def Watched.start : Watched := ⟨.start, 0, 0, none⟩

/-- A sample of the counter at true counts, or a call of `tmr.softwd`. -/
inductive Sample where
  | callback (count : Nat)
  | time (count second : Nat)
  | softwd (value : Int32)

def counter (count : Nat) : UInt32 := UInt32.ofNat count

/-- The counter only goes on, and the true number of seconds fits 32 bits. -/
def rtcStep (c : Clock) (w : Watched) : Sample → Option Watched
  | .callback count =>
    if w.read ≤ count ∧ c.seconds count < 2 ^ 32 then
      (rtcCallback (counter count) w.rtc).map fun rtc => ⟨rtc, count, count, w.last⟩
    else none
  | .time count second =>
    if w.read ≤ count ∧ count ≤ second ∧ c.seconds second < 2 ^ 32 then
      let (rtc, value) := tmrTime (counter count) (counter second) w.rtc
      some ⟨rtc, count, second, some ⟨count, second, value.toInt⟩⟩
    else none
  | .softwd value => some { w with rtc := tmrSoftwd value w.rtc }

def blockOk (c : Clock) (w : Watched) (a : Sample) : Prop :=
  ∀ w', rtcStep c w a = some w' → w'.rtc.rtcTime.block.toNat = w'.count

def valueOk (c : Clock) (w : Watched) (a : Sample) : Prop :=
  ∀ w', rtcStep c w a = some w' → ∀ prev ∈ w.last, ∀ next ∈ w'.last, prev.value ≤ next.value

def rtcOk (c : Clock) (w : Watched) (a : Sample) : Prop := blockOk c w a ∧ valueOk c w a

/-- Less than a whole turn of the counter lies between two updates. -/
def gapOk (c : Clock) (w : Watched) (a : Sample) : Prop :=
  ∀ w', rtcStep c w a = some w' → w'.count < w.count + 2 ^ 32

/-- The second readings of all calls of `tmr.time` lie in one turn of the counter, and the
product of the two readings is small enough for the result. -/
def productOk (w : Watched) : Sample → Prop
  | .time count second =>
    count * (second % 2 ^ 32) < 2 ^ 43 * 10 ^ 6 ∧
      ∀ prev ∈ w.last, second / 2 ^ 32 = prev.second / 2 ^ 32
  | _ => True

def rtcGuard (c : Clock) (w : Watched) (a : Sample) : Prop := gapOk c w a ∧ productOk w a

theorem block_toNat (r : RtcTime) :
    r.block.toNat = r.part1.toNat * 2 ^ 32 + r.part0.toNat := by
  have h0 := r.part0.toNat_lt
  have h1 := r.part1.toNat_lt
  rw [RtcTime.block, UInt64.toNat_or, UInt64.toNat_shiftLeft]
  simp only [UInt32.toNat_toUInt64, UInt64.reduceToNat, Nat.reduceMod]
  rw [Nat.mod_eq_of_lt (by rw [Nat.shiftLeft_eq]; omega), ← Nat.shiftLeft_add_eq_or_of_lt h0,
    Nat.shiftLeft_eq]

theorem Clock.count_lt (c : Clock) {count : Nat} (h : c.seconds count < 2 ^ 32) :
    count < 2 ^ 64 := by
  have hcali := c.pos
  have hle : count ≤ count * c.cali := Nat.le_mul_of_pos_right count hcali
  unfold Clock.seconds at h
  omega

/-- The update is right just if less than a turn lies behind it. -/
theorem rtcTimerUpdate_iff {r : RtcTime} {before count : Nat} (hr : r.block.toNat = before)
    (hle : before ≤ count) (hlt : count < 2 ^ 64) :
    (rtcTimerUpdate (counter count) r).block.toNat = count ↔ count < before + 2 ^ 32 := by
  have h0 := r.part0.toNat_lt
  have h1 := r.part1.toNat_lt
  have hcounter : (counter count).toNat = count % 2 ^ 32 := UInt32.toNat_ofNat
  rw [block_toNat] at hr
  rw [block_toNat, rtcTimerUpdate]
  simp only [GT.gt, UInt32.lt_iff_toNat_lt, hcounter]
  split
  · rw [UInt32.toNat_add, UInt32.toNat_one]
    omega
  · omega

theorem rtc2sec_toNat (rtcNow : UInt32) (rtc : UInt64) :
    (rtc2sec rtcNow rtc).toNat =
      rtcNow.toNat * rtc.toNat % 2 ^ 64 / 2 ^ 12 / 10 ^ 6 % 2 ^ 32 := by
  simp only [rtc2sec, UInt64.toNat_toUInt32, UInt64.toNat_div, UInt64.toNat_shiftRight,
    UInt64.toNat_mul, UInt32.toNat_toUInt64]
  rw [Nat.shiftRight_eq_div_pow]
  rfl

/-- With a small product nothing is cut off, and the sign stays out of it. -/
theorem rtc2sec_value {rtc : UInt64} {count second : Nat} (hrtc : rtc.toNat = count)
    (hsmall : count * (second % 2 ^ 32) < 2 ^ 43 * 10 ^ 6) :
    (rtc2sec (counter second) rtc).toInt32.toInt =
      (count * (second % 2 ^ 32) / 2 ^ 12 / 10 ^ 6 : Nat) := by
  have hcounter : (counter second).toNat = second % 2 ^ 32 := UInt32.toNat_ofNat
  have hnat := rtc2sec_toNat (counter second) rtc
  rw [hcounter, hrtc, Nat.mul_comm] at hnat
  generalize count * (second % 2 ^ 32) = product at hsmall hnat
  have hint : (rtc2sec (counter second) rtc).toInt32.toInt =
      if 2 * (rtc2sec (counter second) rtc).toNat < 2 ^ 32
      then ((rtc2sec (counter second) rtc).toNat : Int)
      else (rtc2sec (counter second) rtc).toNat - (2 ^ 32 : Nat) :=
    BitVec.toInt_eq_toNat_cond _
  rw [hint, hnat]
  split <;> omega

structure RtcInv (w : Watched) : Prop where
  block : w.rtc.rtcTime.block.toNat = w.count
  counted : w.count ≤ w.read
  value : ∀ prev ∈ w.last, prev.count ≤ w.count ∧ prev.second ≤ w.read ∧
    prev.value = (prev.count * (prev.second % 2 ^ 32) / 2 ^ 12 / 10 ^ 6 : Nat)

theorem rtcInv_start : RtcInv .start := ⟨by decide, Nat.le_refl 0, nofun⟩

section

variable {c : Clock} {w w' : Watched}

theorem rtcCallback_updates {current : UInt32} {s s' : RtcState}
    (h : rtcCallback current s = some s') : s'.rtcTime = rtcTimerUpdate current s.rtcTime := by
  unfold rtcCallback at h
  simp only at h
  split at h
  · split at h
    · cases h
    · rw [← Option.some.inj h]
  · rw [← Option.some.inj h]

theorem rtcStep_callback {count : Nat} (h : rtcStep c w (.callback count) = some w') :
    w.read ≤ count ∧ c.seconds count < 2 ^ 32 ∧
      ∃ rtc, rtc.rtcTime = rtcTimerUpdate (counter count) w.rtc.rtcTime ∧
        w' = ⟨rtc, count, count, w.last⟩ := by
  rw [rtcStep] at h
  split at h
  · rename_i hdomain
    obtain ⟨rtc, hrtc, rfl⟩ := Option.map_eq_some_iff.mp h
    exact ⟨hdomain.1, hdomain.2, rtc, rtcCallback_updates hrtc, rfl⟩
  · cases h

theorem rtcStep_time {count second : Nat} (h : rtcStep c w (.time count second) = some w') :
    w.read ≤ count ∧ count ≤ second ∧ c.seconds second < 2 ^ 32 ∧
      w' = ⟨(tmrTime (counter count) (counter second) w.rtc).1, count, second,
        some ⟨count, second, (tmrTime (counter count) (counter second) w.rtc).2.toInt⟩⟩ := by
  rw [rtcStep] at h
  split at h
  · rename_i hdomain
    exact ⟨hdomain.1, hdomain.2.1, hdomain.2.2, (Option.some.inj h).symm⟩
  · cases h

/-- Every step but `tmr.softwd` is an update at a later count. -/
theorem rtcStep_cases {a : Sample} (h : rtcStep c w a = some w') :
    (w'.rtc.rtcTime = rtcTimerUpdate (counter w'.count) w.rtc.rtcTime ∧ w.read ≤ w'.count ∧
      w'.count ≤ w'.read ∧ w'.count < 2 ^ 64) ∨
    (w'.rtc.rtcTime = w.rtc.rtcTime ∧ w'.count = w.count ∧ w'.read = w.read) := by
  cases a with
  | callback count =>
    obtain ⟨hread, hfits, rtc, hrtc, rfl⟩ := rtcStep_callback h
    exact .inl ⟨hrtc, hread, Nat.le_refl count, c.count_lt hfits⟩
  | time count second =>
    obtain ⟨hread, hsecond, hfits, rfl⟩ := rtcStep_time h
    exact .inl ⟨rfl, hread, hsecond, Nat.lt_of_le_of_lt hsecond (c.count_lt hfits)⟩
  | softwd value =>
    cases h
    exact .inr ⟨rfl, rfl, rfl⟩

theorem blockOk_iff (c : Clock) (hblock : w.rtc.rtcTime.block.toNat = w.count)
    (hread : w.count ≤ w.read) (a : Sample) : blockOk c w a ↔ gapOk c w a := by
  unfold blockOk gapOk
  refine forall_congr' fun w' => forall_congr' fun h => ?_
  rcases rtcStep_cases h with ⟨hrtc, hle, -, hlt⟩ | ⟨hrtc, hcount, -⟩
  · rw [hrtc]
    exact rtcTimerUpdate_iff hblock (Nat.le_trans hread hle) hlt
  · rw [hrtc, hcount]
    exact iff_of_true hblock (Nat.lt_add_of_pos_right (by decide))

theorem time_value {count second : Nat} (h : RtcInv w) (hg : rtcGuard c w (.time count second))
    (hs : rtcStep c w (.time count second) = some w') :
    w'.last = some ⟨count, second,
      ((count * (second % 2 ^ 32) / 2 ^ 12 / 10 ^ 6 : Nat) : Int)⟩ := by
  have hblock := (blockOk_iff c h.block h.counted _).mpr hg.1 w' hs
  obtain ⟨-, -, -, rfl⟩ := rtcStep_time hs
  rw [← rtc2sec_value hblock hg.2.1]
  rfl

theorem last_kept {a : Sample} (ha : ∀ count second, a ≠ .time count second)
    (hs : rtcStep c w a = some w') : w'.last = w.last := by
  cases a with
  | callback count =>
    obtain ⟨-, -, rtc, -, rfl⟩ := rtcStep_callback hs
    rfl
  | time count second => exact absurd rfl (ha count second)
  | softwd value =>
    cases hs
    rfl

theorem valueOk_of_guard {a : Sample} (h : RtcInv w) (hg : rtcGuard c w a) : valueOk c w a := by
  intro w' hs prev hprev next hnext
  by_cases ha : ∃ count second, a = .time count second
  · obtain ⟨count, second, rfl⟩ := ha
    rw [time_value h hg hs] at hnext
    obtain ⟨hread, hsecond, -, -⟩ := rtcStep_time hs
    obtain ⟨hcount, hlast, hvalue⟩ := h.value prev hprev
    have hturn := hg.2.2 prev hprev
    have hcounted := h.counted
    have hmod : prev.second % 2 ^ 32 ≤ second % 2 ^ 32 := by omega
    rw [hvalue, ← Option.some.inj hnext]
    refine Int.ofNat_le.mpr (Nat.div_le_div_right (Nat.div_le_div_right ?_))
    exact Nat.mul_le_mul (by omega) hmod
  · rw [last_kept (fun count second hc => ha ⟨count, second, hc⟩) hs] at hnext
    exact (Option.mem_unique hprev hnext) ▸ Int.le_refl prev.value

theorem rtcInv_step {a : Sample} (h : RtcInv w) (hg : rtcGuard c w a)
    (hs : rtcStep c w a = some w') : RtcInv w' := by
  have hcases := rtcStep_cases hs
  have hcounted := h.counted
  refine ⟨(blockOk_iff c h.block h.counted a).mpr hg.1 w' hs, by omega, ?_⟩
  by_cases ha : ∃ count second, a = .time count second
  · obtain ⟨count, second, rfl⟩ := ha
    rw [time_value h hg hs]
    obtain ⟨-, -, -, rfl⟩ := rtcStep_time hs
    intro prev hprev
    obtain rfl := Option.mem_some_iff.mp hprev
    exact ⟨Nat.le_refl count, Nat.le_refl second, rfl⟩
  · rw [last_kept (fun count second hc => ha ⟨count, second, hc⟩) hs]
    intro prev hprev
    obtain ⟨hcount, hsecond, hvalue⟩ := h.value prev hprev
    exact ⟨by omega, by omega, hvalue⟩

end

/-- In every run: the block is the true count just where less than a turn of the counter lies
between the updates; and with the products small and in one turn, it is and the seconds that
are returned never decrease. -/
theorem rtc_along (c : Clock) (samples : List Sample) :
    (Along (rtcStep c) (blockOk c) .start samples ↔ Along (rtcStep c) (gapOk c) .start samples) ∧
      (Along (rtcStep c) (rtcGuard c) .start samples →
        Along (rtcStep c) (rtcOk c) .start samples) := by
  constructor
  · refine along_iff (fun w => w.rtc.rtcTime.block.toNat = w.count ∧ w.count ≤ w.read)
      (fun w a h => blockOk_iff c h.1 h.2 a) ?_ ⟨rtcInv_start.block, rtcInv_start.counted⟩ samples
    intro w a w' h hg hs
    have hcases := rtcStep_cases hs
    exact ⟨(blockOk_iff c h.1 h.2 a).mpr hg w' hs, by omega⟩
  · exact Along.of_guard RtcInv
      (fun w a h hg => ⟨(blockOk_iff c h.block h.counted a).mpr hg.1, valueOk_of_guard h hg⟩)
      (fun w a w' h hg hs => rtcInv_step h hg hs) rtcInv_start

instance (c : Clock) (w : Watched) (a : Sample) : Decidable (gapOk c w a) :=
  decidable_of_iff (∀ w' ∈ rtcStep c w a, w'.count < w.count + 2 ^ 32) Iff.rfl

instance (w : Watched) : (a : Sample) → Decidable (productOk w a)
  | .time _ _ => inferInstanceAs (Decidable (_ ∧ _))
  | .callback _ | .softwd _ => inferInstanceAs (Decidable True)

instance (c : Clock) (w : Watched) (a : Sample) : Decidable (rtcGuard c w a) :=
  inferInstanceAs (Decidable (_ ∧ _))

def slowClock : Clock := ⟨27307, by decide⟩

def sameTurn : List Sample :=
  [.time 1000000000 1000000010, .callback 2000000000, .time 2900000000 2900000010]

theorem rtc_along_sample : Along (rtcStep slowClock) (rtcOk slowClock) .start sameTurn := by
  have hrun : (runScript (rtcStep slowClock) (fun w a => decide (rtcGuard slowClock w a)) .start
      sameTurn).isSome := by decide +kernel
  obtain ⟨w, hw⟩ := Option.isSome_iff_exists.mp hrun
  exact (rtc_along slowClock sameTurn).2 (along_of_script (fun _ _ => of_decide_eq_true) hw)

/-- The counter wraps between two calls of `tmr.time`. -/
theorem time_falls :
    ¬Along (rtcStep slowClock) (rtcOk slowClock) .start
      [.time 2147483648 2147483648, .time 4295117296 4295117296] := by
  have hrun : ((runScript (rtcStep slowClock) (fun _ _ => true) .start
      [.time 2147483648 2147483648]).bind fun w =>
        (rtcStep slowClock w (.time 4295117296 4295117296)).bind fun w' =>
          w.last.bind fun prev => w'.last.map fun next => (prev.value, next.value)) =
      some (1125899906, 157291) := by decide +kernel
  intro h
  obtain ⟨w, hw, hrest⟩ := Option.bind_eq_some_iff.mp hrun
  obtain ⟨w', hw', hrest⟩ := Option.bind_eq_some_iff.mp hrest
  obtain ⟨prev, hprev, hrest⟩ := Option.bind_eq_some_iff.mp hrest
  obtain ⟨next, hnext, hvalues⟩ := Option.map_eq_some_iff.mp hrest
  have hle := (h.at_script hw).2 w' hw' prev hprev next hnext
  rw [Prod.mk.injEq] at hvalues
  omega

end Esp32Project.Tmr
