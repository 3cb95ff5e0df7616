import Esp32Project.Lib.Reach
import Esp32Project.Tmr.Timers

/-!
The contract in the header of tmr.c as a table of alarms of its own, and where
the module keeps it. A timer before its first `register` is what static storage
makes of it: running, in mode single, and holding the reference 0.
-/

set_option autoImplicit false

namespace Esp32Project.Tmr
open Esp32Project.Lib

inductive Mode where
  | single
  | semi
  | auto
  deriving DecidableEq, Repr

def Mode.code : Mode → UInt8
  | .single => timerModeSingle
  | .semi => timerModeSemi
  | .auto => timerModeAuto

/-- The mode that an argument stands for, by its low byte. -/
def decodeMode (mode : Int) : Option Mode :=
  if modeArg mode = timerModeSingle then some .single
  else if modeArg mode = timerModeSemi then some .semi
  else if modeArg mode = timerModeAuto then some .auto
  else none

structure Alarm where
  mode : Mode
  started : Bool
  ref : Nat
  deriving DecidableEq, Repr

structure Contract where
  timers : Fin numTmr → Option Alarm
  nextRef : Nat

def Contract.start : Contract := ⟨fun _ => none, 1⟩

def Contract.set (c : Contract) (i : Fin numTmr) (a : Option Alarm) : Contract :=
  { c with timers := Function.update c.timers i a }

def idSlot (id : Int) : Option (Fin numTmr) := if 0 ≤ id then slot id.toNat else none

/-- What a registration leaves, with the timer started or not; `none` is a rejection. -/
def Contract.bind (c : Contract) (id interval mode : Int) (isFunction started : Bool) (ret : Ret) :
    Contract × Option Ret :=
  match idSlot id, decodeMode mode with
  | some i, some m =>
    if 0 < interval ∧ isFunction = true then
      ({ c.set i (some ⟨m, started, c.nextRef⟩) with nextRef := c.nextRef + 1 }, some ret)
    else (c, none)
  | _, _ => (c, none)

/-- A call as the header describes it. -/
def Contract.call (c : Contract) : TmrCall → Contract × Option Ret
  | .register id interval mode isFunction => c.bind id interval mode isFunction false .nothing
  | .alarm id interval mode isFunction => c.bind id interval mode isFunction true (.bool true)
  | .start id =>
    match idSlot id with
    | none => (c, none)
    | some i =>
      match c.timers i with
      | some ⟨m, false, ref⟩ => (c.set i (some ⟨m, true, ref⟩), some (.bool true))
      | _ => (c, some (.bool false))
  | .stop id =>
    match idSlot id with
    | none => (c, none)
    | some i =>
      match c.timers i with
      | some ⟨m, true, ref⟩ => (c.set i (some ⟨m, false, ref⟩), some (.bool true))
      | _ => (c, some (.bool false))
  | .unregister id =>
    match idSlot id with
    | none => (c, none)
    | some i => (c.set i none, some .nothing)
  | .interval id interval =>
    if 0 < interval ∧ (idSlot id).isSome then (c, some .nothing) else (c, none)
  | .state id =>
    match idSlot id with
    | none => (c, none)
    | some i =>
      match c.timers i with
      | none => (c, some .nil)
      | some a => (c, some (.state a.started a.mode.code))
  | .callback i =>
    match c.timers i with
    | some ⟨.single, true, _⟩ => (c.set i none, some .nothing)
    | some ⟨.semi, true, ref⟩ => (c.set i (some ⟨.semi, false, ref⟩), some .nothing)
    | _ => (c, some .nothing)

def Contract.ref (c : Contract) (i : Fin numTmr) : Option Nat := (c.timers i).map Alarm.ref

/-- A rejection is an error, of whatever text. -/
def Answers (ret : Ret) : Option Ret → Prop
  | none => ∃ text, ret = .error text
  | some r => ret = r

/-- The module answers as the header says, leaves all timers alone if it should
reject, releases nothing that is not its own, and has exactly the references
left that the registered timers hold. -/
def Conforms (p : TmrState × Contract) (call : TmrCall) : Prop :=
  ∃ s' ret, tmrStep p.1 call = some (s', ret) ∧ Answers ret (p.2.call call).2 ∧
    ((p.2.call call).2 = none → s'.alarmTimers = p.1.alarmTimers) ∧
    s'.foreign = p.1.foreign ∧ s'.registry.Held (p.2.call call).1.ref

def tmrJoint (p : TmrState × Contract) (call : TmrCall) : Option (TmrState × Contract) :=
  (tmrStep p.1 call).map fun r => (r.1, (p.2.call call).1)

def idOf : TmrCall → Option Int
  | .register id _ _ _ | .alarm id _ _ _ | .start id | .stop id | .unregister id | .interval id _
  | .state id => some id
  | .callback _ => none

def InRange (call : TmrCall) : Prop := ∀ id, idOf call = some id → 0 ≤ id ∧ id < numTmr

/-- The timer is past its first registration, or unregistration. -/
def Touched (s : TmrState) (i : Fin numTmr) : Prop := (s.alarmTimers i).luaRef ≠ 0

instance (s : TmrState) (i : Fin numTmr) : Decidable (Touched s i) :=
  inferInstanceAs (Decidable (_ ≠ _))

def MarkedIdle (s : TmrState) (i : Fin numTmr) : Prop :=
  (s.alarmTimers i).mode &&& timerIdleFlag ≠ 0

/-- Where the contract is kept: the id is one of a timer, or the call is refused
for another argument, and the timer is past the state of static storage, or the
call is one that this state answers rightly. -/
def Kept (s : TmrState) : TmrCall → Prop
  | .register id interval mode isFunction | .alarm id interval mode isFunction =>
    argsValid interval mode isFunction ∨ ∃ i, idSlot id = some i ∧ Touched s i
  | .start id => ∃ i, idSlot id = some i ∧ (Touched s i ∨ ¬ MarkedIdle s i)
  | .stop id => ∃ i, idSlot id = some i ∧ (Touched s i ∨ MarkedIdle s i)
  | .unregister id | .state id => ∃ i, idSlot id = some i ∧ Touched s i
  | .interval id interval => interval ≤ 0 ∨ (idSlot id).isSome
  | .callback _ => True

/-- How a timer of the module stands for one of the contract. -/
def Stands (tmr : TimerStruct) : Option Alarm → Prop
  | some a => tmr.l = true ∧ tmr.luaRef = a.ref ∧
      tmr.mode = if a.started then a.mode.code else a.mode.code ||| timerIdleFlag
  | none => (tmr.luaRef = luaNoref ∧ tmr.mode = timerModeOff) ∨
      (tmr.luaRef = 0 ∧ tmr.l = false ∧
        (tmr.mode = timerModeSingle ∨ tmr.mode = timerModeSingle ||| timerIdleFlag))

structure TmrInv (p : TmrState × Contract) : Prop where
  stands : ∀ i, Stands (p.1.alarmTimers i) (p.2.timers i)
  held : p.1.registry.Held p.2.ref
  next : p.1.registry.next = p.2.nextRef
  pos : 0 < p.2.nextRef
  ref_pos : ∀ i r, p.2.ref i = some r → 0 < r

theorem tmrInv_start : TmrInv (.start, .start) where
  stands _ := .inr ⟨rfl, rfl, .inl rfl⟩
  held := ⟨fun r => by simp [TmrState.start, Contract.ref, Contract.start],
    fun i j r hi => by simp [Contract.ref, Contract.start] at hi,
    List.nodup_nil, fun r hr => by simp [TmrState.start] at hr⟩
  next := rfl
  pos := Nat.zero_lt_one
  ref_pos i r h := by simp [Contract.ref, Contract.start] at h

theorem ref_update (c : Contract) (i : Fin numTmr) (a : Option Alarm) (n : Nat) :
    Contract.ref ⟨Function.update c.timers i a, n⟩ =
      Function.update c.ref i (a.map Alarm.ref) := by
  funext j
  by_cases hj : j = i
  · subst hj
    simp [Contract.ref]
  · simp [Contract.ref, Function.update_of_ne hj]

theorem TmrInv.put {s : TmrState} {c : Contract} (h : TmrInv (s, c)) {i : Fin numTmr}
    {tmr : TimerStruct} {a : Option Alarm} {registry : Ledger} {foreign : List Int} {n : Nat}
    (hst : Stands tmr a) (hheld : registry.Held (Function.update c.ref i (a.map Alarm.ref)))
    (hnext : registry.next = n) (hn : 0 < n) (hpos : ∀ b, a = some b → 0 < b.ref) :
    TmrInv (⟨Function.update s.alarmTimers i tmr, registry, foreign⟩,
      ⟨Function.update c.timers i a, n⟩) where
  stands j := by
    by_cases hj : j = i
    · subst hj
      simpa using hst
    · simpa [Function.update_of_ne hj] using h.stands j
  held := by
    rw [ref_update]
    exact hheld
  next := hnext
  pos := hn
  ref_pos j r hr := by
    rw [ref_update] at hr
    by_cases hj : j = i
    · subst hj
      rw [Function.update_self, Option.map_eq_some_iff] at hr
      obtain ⟨b, hb, rfl⟩ := hr
      exact hpos b hb
    · rw [Function.update_of_ne hj] at hr
      exact h.ref_pos j r hr

theorem TmrInv.keep {s : TmrState} {c : Contract} (h : TmrInv (s, c)) {i : Fin numTmr}
    {tmr : TimerStruct} {a : Option Alarm} (hst : Stands tmr a)
    (href : a.map Alarm.ref = c.ref i) : TmrInv (s.setTimer i tmr, c.set i a) := by
  refine h.put hst ?_ h.next h.pos fun b hb => h.ref_pos i b.ref ?_
  · rw [href, Function.update_eq_self]
    exact h.held
  · rw [← href, hb]
    rfl

theorem TmrInv.inner {s : TmrState} {c : Contract} (h : TmrInv (s, c)) {i : Fin numTmr}
    {tmr : TimerStruct} (hst : Stands tmr (c.timers i)) : TmrInv (s.setTimer i tmr, c) := by
  have := h.keep (a := c.timers i) hst rfl
  rwa [Contract.set, Function.update_eq_self] at this

theorem idSlot_some {id : Int} {i : Fin numTmr} (h : idSlot id = some i) :
    0 ≤ id ∧ id.toNat < numTmr ∧ slot id.toNat = some i := by
  unfold idSlot at h
  split at h
  · rename_i hpos
    refine ⟨hpos, ?_, h⟩
    unfold slot at h
    split at h
    · assumption
    · cases h
  · cases h

theorem slot_toUint8 {id : Int} {i : Fin numTmr} (h : idSlot id = some i) :
    slot (toUint8 id) = some i := by
  obtain ⟨hpos, hlt, hslot⟩ := idSlot_some h
  have hid : toUint8 id = id.toNat := by
    unfold toUint8
    unfold numTmr at hlt
    omega
  rwa [hid]

theorem slot_toUint32 {id : Int} {i : Fin numTmr} (h : idSlot id = some i) :
    slot (toUint32 id) = some i := by
  obtain ⟨hpos, hlt, hslot⟩ := idSlot_some h
  have hid : toUint32 id = id.toNat := by
    unfold toUint32
    unfold numTmr at hlt
    omega
  rwa [hid]

theorem decodeMode_some {mode : Int} {m : Mode} (h : decodeMode mode = some m) :
    modeArg mode = m.code := by
  unfold decodeMode at h
  split at h
  · cases h; assumption
  · split at h
    · cases h; assumption
    · split at h
      · cases h; assumption
      · cases h

theorem not_argsValid {interval mode : Int} {isFunction : Bool} :
    ¬ argsValid interval mode isFunction ↔
      0 < interval ∧ isFunction = true ∧ ∃ m, decodeMode mode = some m := by
  have hdecode : (∃ m, decodeMode mode = some m) ↔ modeArg mode = timerModeSingle ∨
      modeArg mode = timerModeSemi ∨ modeArg mode = timerModeAuto := by
    unfold decodeMode
    split
    · simp [*]
    · split
      · simp [*]
      · split <;> simp [*]
  rw [hdecode, argsValid]
  cases isFunction <;> grind

section

variable (m : Mode)

@[simp] theorem code_idle : m.code &&& timerIdleFlag = 0 := by cases m <;> decide

@[simp] theorem idle_set : ¬ (m.code ||| timerIdleFlag) &&& timerIdleFlag = 0 := by
  cases m <;> decide

@[simp] theorem idle_clear : (m.code ||| timerIdleFlag) &&& ~~~ timerIdleFlag = m.code := by
  cases m <;> decide

@[simp] theorem code_clear : m.code &&& ~~~ timerIdleFlag = m.code := by cases m <;> decide

@[simp] theorem code_ne_off : ¬ m.code = timerModeOff := by cases m <;> decide

@[simp] theorem idle_ne_off : ¬ m.code ||| timerIdleFlag = timerModeOff := by cases m <;> decide

@[simp] theorem idle_ne_single : ¬ m.code ||| timerIdleFlag = timerModeSingle := by
  cases m <;> decide

@[simp] theorem idle_ne_semi : ¬ m.code ||| timerIdleFlag = timerModeSemi := by
  cases m <;> decide

end

@[simp] theorem off_idle : timerModeOff &&& timerIdleFlag = 0 := by decide

/-- What a call that is neither rejected nor refused does: the answer is the one
of the contract, and nothing foreign is released, exactly if the call is kept. -/
def Outcome (p : TmrState × Contract) (call : TmrCall) : Prop :=
  ∃ s' ret, tmrStep p.1 call = some (s', ret) ∧ TmrInv (s', (p.2.call call).1) ∧
    ((Answers ret (p.2.call call).2 ∧ s'.foreign = p.1.foreign) ↔ Kept p.1 call)

section

variable {s : TmrState} {c : Contract} {i : Fin numTmr}

theorem TmrInv.touched {a : Alarm} (h : TmrInv (s, c)) (hc : c.timers i = some a) :
    (s.alarmTimers i).luaRef = a.ref ∧ Touched s i := by
  have hst := h.stands i
  simp only [hc] at hst
  have hpos := h.ref_pos i a.ref (by simp [Contract.ref, hc])
  refine ⟨hst.2.1, ?_⟩
  rw [Touched, hst.2.1]
  exact Int.natCast_ne_zero.mpr (Nat.ne_of_gt hpos)

theorem start_outcome (h : TmrInv (s, c)) {id : Int} (hid : idSlot id = some i) :
    Outcome (s, c) (.start id) := by
  have hst := h.stands i
  have hkept : Kept s (.start id) ↔ Touched s i ∨ ¬ MarkedIdle s i := by simp [Kept, hid]
  have hstep : tmrStep s (.start id) = some (if (s.alarmTimers i).mode &&& timerIdleFlag = 0 then
      (s, .bool false) else (s.setTimer i { s.alarmTimers i with
        mode := (s.alarmTimers i).mode &&& ~~~ timerIdleFlag }, .bool true)) := by
    simp [tmrStep, tmrStart, slot_toUint8 hid]
  cases hc : c.timers i with
  | none =>
    simp only [hc] at hst
    have hcall : c.call (.start id) = (c, some (.bool false)) := by simp [Contract.call, hid, hc]
    rw [Outcome, hstep, hcall, hkept]
    by_cases hidle : (s.alarmTimers i).mode &&& timerIdleFlag = 0
    · rw [if_pos hidle]
      refine ⟨s, _, rfl, h, ?_⟩
      simp [Answers, MarkedIdle, hidle]
    · rw [if_neg hidle]
      refine ⟨_, _, rfl, h.inner ?_, ?_⟩
      · rcases hst with ⟨-, hmode⟩ | ⟨href, hl, hmode | hmode⟩
        · simp [hmode] at hidle
        · exact absurd (by rw [hmode]; decide) hidle
        · simp only [hc]
          exact .inr ⟨href, hl, .inl (by simp only [hmode]; decide)⟩
      · rcases hst with ⟨-, hmode⟩ | ⟨href, -⟩
        · simp [hmode] at hidle
        · simp [Answers, MarkedIdle, hidle, Touched, href]
  | some a =>
    obtain ⟨m, started, ref⟩ := a
    simp only [hc] at hst
    obtain ⟨hl, href, hmode⟩ := hst
    have htouched := (h.touched hc).2
    cases started with
    | true =>
      have hcall : c.call (.start id) = (c, some (.bool false)) := by simp [Contract.call, hid, hc]
      rw [Outcome, hstep, hcall, hkept, if_pos (by simp [hmode])]
      exact ⟨s, _, rfl, h, by simp [Answers, htouched]⟩
    | false =>
      have hcall : c.call (.start id) = (c.set i (some ⟨m, true, ref⟩), some (.bool true)) := by
        simp [Contract.call, hid, hc]
      rw [Outcome, hstep, hcall, hkept, if_neg (by simp [hmode])]
      refine ⟨_, _, rfl, h.keep ⟨hl, href, by simp [hmode]⟩ (by simp [Contract.ref, hc]), ?_⟩
      simp [Answers, htouched, TmrState.setTimer]

theorem stop_outcome (h : TmrInv (s, c)) {id : Int} (hid : idSlot id = some i) :
    Outcome (s, c) (.stop id) := by
  have hst := h.stands i
  have hkept : Kept s (.stop id) ↔ Touched s i ∨ MarkedIdle s i := by simp [Kept, hid]
  have hstep : tmrStep s (.stop id) = some (if (s.alarmTimers i).mode &&& timerIdleFlag = 0 ∧
      (s.alarmTimers i).mode ≠ timerModeOff then (s.setTimer i { s.alarmTimers i with
        mode := (s.alarmTimers i).mode ||| timerIdleFlag }, .bool true) else (s, .bool false)) := by
    simp [tmrStep, tmrStop, slot_toUint8 hid]
  cases hc : c.timers i with
  | none =>
    simp only [hc] at hst
    have hcall : c.call (.stop id) = (c, some (.bool false)) := by simp [Contract.call, hid, hc]
    rw [Outcome, hstep, hcall, hkept]
    rcases hst with ⟨href, hmode⟩ | ⟨href, hl, hmode | hmode⟩
    · rw [if_neg (by simp [hmode])]
      exact ⟨s, _, rfl, h, by simp [Answers, Touched, href, luaNoref]⟩
    · rw [if_pos (by rw [hmode]; decide)]
      refine ⟨_, _, rfl, h.inner ?_, ?_⟩
      · simp only [hc]
        exact .inr ⟨href, hl, .inr (by simp only [hmode])⟩
      · have hidle : ¬ MarkedIdle s i := by
          rw [MarkedIdle, hmode]
          decide
        simp [Answers, Touched, href, hidle]
    · have hidle : MarkedIdle s i := by
        rw [MarkedIdle, hmode]
        decide
      rw [if_neg fun h => hidle h.1]
      exact ⟨s, _, rfl, h, by simp [Answers, hidle]⟩
  | some a =>
    have htouched := (h.touched hc).2
    obtain ⟨m, started, ref⟩ := a
    simp only [hc] at hst
    obtain ⟨hl, href, hmode⟩ := hst
    cases started with
    | true =>
      have hcall : c.call (.stop id) = (c.set i (some ⟨m, false, ref⟩), some (.bool true)) := by
        simp [Contract.call, hid, hc]
      rw [Outcome, hstep, hcall, hkept, if_pos (by simp [hmode])]
      refine ⟨_, _, rfl, h.keep ⟨hl, href, by simp [hmode]⟩ (by simp [Contract.ref, hc]), ?_⟩
      simp [Answers, htouched, TmrState.setTimer]
    | false =>
      have hcall : c.call (.stop id) = (c, some (.bool false)) := by simp [Contract.call, hid, hc]
      rw [Outcome, hstep, hcall, hkept, if_neg (by simp [hmode])]
      exact ⟨s, _, rfl, h, by simp [Answers, htouched]⟩

theorem state_outcome (h : TmrInv (s, c)) {id : Int} (hid : idSlot id = some i) :
    Outcome (s, c) (.state id) := by
  have hst := h.stands i
  have hkept : Kept s (.state id) ↔ Touched s i := by simp [Kept, hid]
  have hstep : tmrStep s (.state id) = some (if (s.alarmTimers i).mode = timerModeOff then (s, .nil)
      else (s, .state ((s.alarmTimers i).mode &&& timerIdleFlag = 0)
        ((s.alarmTimers i).mode &&& ~~~ timerIdleFlag))) := by
    simp [tmrStep, tmrState, slot_toUint8 hid]
  cases hc : c.timers i with
  | none =>
    simp only [hc] at hst
    have hcall : c.call (.state id) = (c, some .nil) := by simp [Contract.call, hid, hc]
    rw [Outcome, hstep, hcall, hkept]
    rcases hst with ⟨href, hmode⟩ | ⟨href, -, hmode⟩
    · rw [if_pos hmode]
      exact ⟨s, _, rfl, h, by simp [Answers, Touched, href, luaNoref]⟩
    · rw [if_neg (by rcases hmode with hmode | hmode <;> rw [hmode] <;> decide)]
      exact ⟨s, _, rfl, h, by simp [Answers, Touched, href]⟩
  | some a =>
    have htouched := (h.touched hc).2
    obtain ⟨m, started, ref⟩ := a
    simp only [hc] at hst
    obtain ⟨hl, href, hmode⟩ := hst
    have hcall : c.call (.state id) = (c, some (.state started m.code)) := by
      simp [Contract.call, hid, hc]
    rw [Outcome, hstep, hcall, hkept, if_neg (by cases started <;> simp [hmode])]
    exact ⟨s, _, rfl, h, by cases started <;> simp [Answers, htouched, hmode]⟩

theorem interval_outcome (h : TmrInv (s, c)) {id interval : Int} (hid : idSlot id = some i)
    (hpos : 0 < interval) : Outcome (s, c) (.interval id interval) := by
  have hst := h.stands i
  have hkept : Kept s (.interval id interval) := .inr (by simp [hid])
  have hcall : c.call (.interval id interval) = (c, some .nothing) := by
    simp [Contract.call, hid, hpos]
  have hstep : tmrStep s (.interval id interval) =
      some (if (s.alarmTimers i).mode ≠ timerModeOff then
        (s.setTimer i { s.alarmTimers i with interval := interval.toNat }, .nothing)
      else (s, .nothing)) := by
    simp [tmrStep, tmrInterval, slot_toUint8 hid, Int.not_le.mpr hpos]
  rw [Outcome, hstep, hcall]
  split
  · refine ⟨_, _, rfl, h.inner ?_, by simp [Answers, hkept, TmrState.setTimer]⟩
    cases hc : c.timers i with
    | none => simpa only [hc, Stands] using hst
    | some a => simpa only [hc, Stands] using hst
  · exact ⟨s, _, rfl, h, by simp [Answers, hkept]⟩

theorem luaLUnref_held {r : Nat} (h : TmrInv (s, c)) (hr : c.ref i = some r) :
    luaLUnref s r = { s with registry := ⟨s.registry.next, s.registry.live.erase r⟩ } ∧
      Ledger.Held ⟨s.registry.next, s.registry.live.erase r⟩ (Function.update c.ref i none) := by
  obtain ⟨hgive, hheld⟩ := h.held.drop hr
  refine ⟨?_, hheld⟩
  simp [luaLUnref, Int.not_lt.mpr (Int.natCast_nonneg r), hgive]

/-- Reference 0 of static storage is none of this module. -/
theorem luaLUnref_zero (h : TmrInv (s, c)) :
    luaLUnref s 0 = { s with foreign := 0 :: s.foreign } := by
  have hnot : 0 ∉ s.registry.live := by
    intro hm
    obtain ⟨j, hj⟩ := (h.held.live 0).mp hm
    exact Nat.lt_irrefl 0 (h.ref_pos j 0 hj)
  simp [luaLUnref, Ledger.give_of_notMem hnot]

theorem TmrInv.empty {foreign : List Int} {tmr : TimerStruct} (h : TmrInv (s, c))
    (hc : c.timers i = none) (hst : Stands tmr none) :
    TmrInv (({ s with foreign := foreign }).setTimer i tmr, c.set i none) := by
  have hr : c.ref i = none := by simp [Contract.ref, hc]
  refine h.put hst ?_ h.next h.pos fun b hb => by cases hb
  rw [Option.map_none, ← hr, Function.update_eq_self]
  exact h.held

theorem unregister_outcome (h : TmrInv (s, c)) {id : Int} (hid : idSlot id = some i) :
    Outcome (s, c) (.unregister id) := by
  have hst := h.stands i
  have hkept : Kept s (.unregister id) ↔ Touched s i := by simp [Kept, hid]
  have hcall : c.call (.unregister id) = (c.set i none, some .nothing) := by
    simp [Contract.call, hid]
  have hstep : tmrStep s (.unregister id) =
      some ((if (s.alarmTimers i).luaRef ≠ luaNoref then luaLUnref s (s.alarmTimers i).luaRef
        else s).setTimer i { s.alarmTimers i with luaRef := luaNoref, mode := timerModeOff },
        .nothing) := by
    simp [tmrStep, tmrUnregister, slot_toUint8 hid]
  rw [Outcome, hstep, hcall, hkept]
  cases hc : c.timers i with
  | none =>
    simp only [hc] at hst
    rcases hst with ⟨href, hmode⟩ | ⟨href, -, -⟩
    · rw [if_neg (by simp [href])]
      exact ⟨_, _, rfl, h.empty hc (.inl ⟨rfl, rfl⟩), by
        simp [Answers, Touched, href, luaNoref, TmrState.setTimer]⟩
    · rw [if_pos (by simp [href, luaNoref]), href, luaLUnref_zero h]
      exact ⟨_, _, rfl, h.empty hc (.inl ⟨rfl, rfl⟩), by
        simp [Answers, Touched, href, TmrState.setTimer]⟩
  | some a =>
    obtain ⟨href, htouched⟩ := h.touched hc
    obtain ⟨hunref, hheld⟩ := luaLUnref_held (i := i) (r := a.ref) h (by simp [Contract.ref, hc])
    rw [if_pos (by rw [href, luaNoref]; omega), href, hunref]
    exact ⟨_, _, rfl, h.put (.inl ⟨rfl, rfl⟩) hheld h.next h.pos (fun b hb => by cases hb), by
      simp [Answers, htouched, TmrState.setTimer]⟩

theorem callback_outcome (h : TmrInv (s, c)) (i : Fin numTmr) :
    Outcome (s, c) (.callback i) := by
  have hst := h.stands i
  have hkept : Kept s (.callback i) := trivial
  have hstep : tmrStep s (.callback i) = some (alarmTimerCommon s i, .nothing) := rfl
  have hsame : c.call (.callback i) = (c, some .nothing) → alarmTimerCommon s i = s →
      Outcome (s, c) (.callback i) := by
    intro hcall hs
    rw [Outcome, hstep, hcall, hs]
    exact ⟨s, _, rfl, h, by simp [Answers, hkept]⟩
  cases hc : c.timers i with
  | none =>
    simp only [hc] at hst
    have hoff : (s.alarmTimers i).luaRef = luaNoref ∨ (s.alarmTimers i).l = false := by
      rcases hst with ⟨href, -⟩ | ⟨-, hl, -⟩
      · exact .inl href
      · exact .inr hl
    exact hsame (by simp [Contract.call, hc]) (by simp only [alarmTimerCommon, if_pos hoff])
  | some a =>
    obtain ⟨href, -⟩ := h.touched hc
    obtain ⟨hunref, hheld⟩ := luaLUnref_held (i := i) (r := a.ref) h (by simp [Contract.ref, hc])
    obtain ⟨m, started, ref⟩ := a
    simp only [hc] at hst
    obtain ⟨hl, -, hmode⟩ := hst
    simp only at href hunref hheld hmode
    have hon : ¬ ((s.alarmTimers i).luaRef = luaNoref ∨ (s.alarmTimers i).l = false) := by
      simp only [hl, href, luaNoref, Bool.true_eq_false, or_false]
      omega
    have hcommon : alarmTimerCommon s i =
        if (s.alarmTimers i).mode = timerModeSingle then
          (luaLUnref s (s.alarmTimers i).luaRef).setTimer i
            { s.alarmTimers i with luaRef := luaNoref, mode := timerModeOff }
        else if (s.alarmTimers i).mode = timerModeSemi then s.setTimer i
          { s.alarmTimers i with mode := (s.alarmTimers i).mode ||| timerIdleFlag }
        else s := if_neg hon
    cases started with
    | false =>
      exact hsame (by simp [Contract.call, hc]) (by simp [hcommon, hmode])
    | true =>
      simp only [if_true] at hmode
      cases m with
      | auto => exact hsame (by simp [Contract.call, hc]) (by rw [hcommon, hmode]; rfl)
      | single =>
        have hcall : c.call (.callback i) = (c.set i none, some .nothing) := by
          simp [Contract.call, hc]
        simp only [Mode.code] at hmode
        rw [Outcome, hstep, hcall, hcommon, if_pos hmode, href, hunref]
        exact ⟨_, _, rfl, h.put (.inl ⟨rfl, rfl⟩) hheld h.next h.pos (fun b hb => by cases hb), by
          simp [Answers, hkept, TmrState.setTimer]⟩
      | semi =>
        have hcall : c.call (.callback i) =
            (c.set i (some ⟨.semi, false, ref⟩), some .nothing) := by simp [Contract.call, hc]
        simp only [Mode.code] at hmode
        rw [Outcome, hstep, hcall, hcommon, if_neg (by rw [hmode]; decide), if_pos hmode]
        refine ⟨_, _, rfl, h.keep ⟨hl, href, by simp [hmode, Mode.code]⟩
          (by simp [Contract.ref, hc]), ?_⟩
        simp [Answers, hkept, TmrState.setTimer]

theorem register_outcome (h : TmrInv (s, c)) {id interval mode : Int} {isFunction : Bool}
    (hid : idSlot id = some i) (hvalid : ¬ argsValid interval mode isFunction) :
    Outcome (s, c) (.register id interval mode isFunction) := by
  obtain ⟨hpos, hfun, m, hm⟩ := not_argsValid.mp hvalid
  have hst := h.stands i
  have hkept : Kept s (.register id interval mode isFunction) ↔ Touched s i := by
    simp [Kept, hid, hvalid]
  have hcall : c.call (.register id interval mode isFunction) =
      ({ c.set i (some ⟨m, false, c.nextRef⟩) with nextRef := c.nextRef + 1 }, some .nothing) := by
    simp [Contract.call, Contract.bind, hid, hm, hpos, hfun]
  have hstep : tmrStep s (.register id interval mode isFunction) =
      some ((if (s.alarmTimers i).luaRef ≠ luaNoref ∧
          (s.alarmTimers i).luaRef ≠ s.registry.next then
        luaLUnref (luaLRef s).1 (s.alarmTimers i).luaRef else (luaLRef s).1).setTimer i
          ⟨true, s.registry.next, interval.toNat, m.code ||| timerIdleFlag⟩, .nothing) := by
    simp only [tmrStep, tmrRegister, if_neg hvalid, luaLRef, slot_toUint32 hid, Option.map_some,
      decodeMode_some hm]
    congr
  have hnext : s.registry.next = c.nextRef := h.next
  have hstands : Stands ⟨true, s.registry.next, interval.toNat, m.code ||| timerIdleFlag⟩
      (some ⟨m, false, c.nextRef⟩) := ⟨rfl, by rw [hnext], by simp⟩
  have hrefpos : ∀ b, some (⟨m, false, c.nextRef⟩ : Alarm) = some b → 0 < b.ref := by
    rintro b ⟨⟩
    exact h.pos
  rw [Outcome, hstep, hcall, hkept]
  cases hc : c.timers i with
  | none =>
    simp only [hc] at hst
    have hfill := h.held.fill (i := i) (by simp [Contract.ref, hc])
    rw [h.next] at hfill
    have hinv : ∀ foreign, TmrInv ((⟨s.alarmTimers, s.registry.take, foreign⟩ : TmrState).setTimer i
        ⟨true, s.registry.next, interval.toNat, m.code ||| timerIdleFlag⟩,
        { c.set i (some ⟨m, false, c.nextRef⟩) with nextRef := c.nextRef + 1 }) := fun foreign =>
      h.put hstands hfill (by simp [Ledger.take, hnext]) (Nat.succ_pos _) hrefpos
    rcases hst with ⟨href, -⟩ | ⟨href, -, -⟩
    · rw [if_neg (by simp [href])]
      refine ⟨_, _, rfl, hinv s.foreign, ?_⟩
      simp [Answers, Touched, href, luaNoref, TmrState.setTimer, luaLRef]
    · -- static storage: the reference 0 goes
      have hne : (0 : Int) ≠ s.registry.next := by
        have hpos : 0 < c.nextRef := h.pos
        omega
      have hzero : luaLUnref (luaLRef s).1 0 =
          ⟨s.alarmTimers, s.registry.take, 0 :: s.foreign⟩ := by
        have hnot : 0 ∉ s.registry.take.live := by
          intro hm
          rcases List.mem_cons.mp hm with hm | hm
          · exact hne (by rw [← hm]; rfl)
          · obtain ⟨j, hj⟩ := (h.held.live 0).mp hm
            exact Nat.lt_irrefl 0 (h.ref_pos j 0 hj)
        simp [luaLUnref, luaLRef, Ledger.give_of_notMem hnot]
      rw [href, if_pos ⟨by decide, hne⟩, hzero]
      exact ⟨_, _, rfl, hinv _, by simp [Answers, Touched, href, TmrState.setTimer]⟩
  | some a =>
    obtain ⟨href, htouched⟩ := h.touched hc
    have hr : c.ref i = some a.ref := by simp [Contract.ref, hc]
    obtain ⟨hgive, hheld⟩ := h.held.swap hr
    have hne : (a.ref : Int) ≠ s.registry.next := by
      have hlt : a.ref < s.registry.next := h.held.lt _ (h.held.mem hr)
      omega
    have hunref : luaLUnref (luaLRef s).1 a.ref = ⟨s.alarmTimers,
        ⟨s.registry.next + 1, s.registry.next :: s.registry.live.erase a.ref⟩, s.foreign⟩ := by
      simp [luaLUnref, luaLRef, hgive, Int.not_lt.mpr (Int.natCast_nonneg a.ref)]
    rw [h.next] at hheld
    rw [href, if_pos ⟨by rw [luaNoref]; omega, hne⟩, hunref]
    refine ⟨_, _, rfl, h.put hstands ?_ (by simp [hnext]) (Nat.succ_pos _) hrefpos, ?_⟩
    · rw [h.next]
      exact hheld
    · simp [Answers, htouched, TmrState.setTimer]

/-- `tmr_alarm` is a registration and a start of the timer it leaves. -/
theorem alarm_outcome (h : TmrInv (s, c)) {id interval mode : Int} {isFunction : Bool}
    (hid : idSlot id = some i) (hvalid : ¬ argsValid interval mode isFunction) :
    Outcome (s, c) (.alarm id interval mode isFunction) := by
  obtain ⟨hpos, hfun, m, hm⟩ := not_argsValid.mp hvalid
  obtain ⟨s₁, ret₁, hstep₁, hinv₁, hiff₁⟩ := register_outcome h hid hvalid
  have hbind : ∀ started ret, c.bind id interval mode isFunction started ret =
      ({ c.set i (some ⟨m, started, c.nextRef⟩) with nextRef := c.nextRef + 1 }, some ret) := by
    intro started ret
    simp [Contract.bind, hid, hm, hpos, hfun]
  have hret₁ : ret₁ = .nothing := by
    simp only [tmrStep, tmrRegister, hvalid, if_false, slot_toUint32 hid, Option.map_some,
      Option.some.injEq, Prod.mk.injEq] at hstep₁
    exact hstep₁.2.symm
  subst hret₁
  simp only [Contract.call, hbind] at hinv₁ hiff₁
  obtain ⟨s₂, ret₂, hstep₂, hinv₂, hiff₂⟩ := start_outcome hinv₁ hid
  have hstart :
      Contract.call { c.set i (some ⟨m, false, c.nextRef⟩) with nextRef := c.nextRef + 1 }
        (.start id) =
      ({ c.set i (some ⟨m, true, c.nextRef⟩) with nextRef := c.nextRef + 1 },
        some (.bool true)) := by
    simp [Contract.call, hid, Contract.set]
  have hkept₂ : Kept s₁ (.start id) :=
    ⟨i, hid, .inl (hinv₁.touched (a := ⟨m, false, c.nextRef⟩) (by simp [Contract.set])).2⟩
  rw [hstart] at hinv₂ hiff₂
  obtain ⟨hans₂, hforeign₂⟩ := hiff₂.mpr hkept₂
  refine ⟨s₂, ret₂, ?_, ?_, ?_⟩
  · simp only [tmrStep] at hstep₁ hstep₂
    simp only [tmrStep, tmrAlarm, hstep₁, hstep₂]
  · simp only [Contract.call, hbind]
    exact hinv₂
  · simp only [Contract.call, hbind, hforeign₂, hans₂, true_and]
    rw [← show Kept s (.register id interval mode isFunction) ↔
      Kept s (.alarm id interval mode isFunction) from Iff.rfl, ← hiff₁]
    simp [Answers]

end

/-- The calls that tmr.c turns down for an argument other than the id. -/
def Refused : TmrCall → Prop
  | .register _ interval mode isFunction | .alarm _ interval mode isFunction =>
    argsValid interval mode isFunction
  | .interval _ interval => interval ≤ 0
  | _ => False

theorem outcome_of_inRange {p : TmrState × Contract} (h : TmrInv p) {call : TmrCall}
    (hrange : InRange call) (hvalid : ¬ Refused call) : Outcome p call := by
  obtain ⟨s, c⟩ := p
  have hslot : ∀ id, idOf call = some id → ∃ i, idSlot id = some i := by
    intro id hid
    obtain ⟨h₀, h₁⟩ := hrange id hid
    have hlt : id.toNat < numTmr := by omega
    exact ⟨⟨id.toNat, hlt⟩, by simp [idSlot, h₀, slot, hlt]⟩
  cases call with
  | register id interval mode isFunction =>
    obtain ⟨i, hi⟩ := hslot id rfl
    exact register_outcome h hi hvalid
  | alarm id interval mode isFunction =>
    obtain ⟨i, hi⟩ := hslot id rfl
    exact alarm_outcome h hi hvalid
  | start id =>
    obtain ⟨i, hi⟩ := hslot id rfl
    exact start_outcome h hi
  | stop id =>
    obtain ⟨i, hi⟩ := hslot id rfl
    exact stop_outcome h hi
  | unregister id =>
    obtain ⟨i, hi⟩ := hslot id rfl
    exact unregister_outcome h hi
  | interval id interval =>
    obtain ⟨i, hi⟩ := hslot id rfl
    exact interval_outcome h hi (Int.not_le.mp hvalid)
  | state id =>
    obtain ⟨i, hi⟩ := hslot id rfl
    exact state_outcome h hi
  | callback i => exact callback_outcome h i

theorem refused_step {s : TmrState} {c : Contract} {call : TmrCall} (h : Refused call) :
    tmrStep s call = some (s, .error "wrong arg range") ∧ c.call call = (c, none) ∧
      Kept s call := by
  have hbind : ∀ {id interval mode isFunction started ret},
      argsValid interval mode isFunction → c.bind id interval mode isFunction started ret =
        (c, none) := by
    intro id interval mode isFunction started ret hv
    unfold Contract.bind
    split
    · rename_i i m hi hm
      have hno : ¬ (0 < interval ∧ isFunction = true) := fun hok =>
        not_argsValid.mpr ⟨hok.1, hok.2, m, hm⟩ hv
      rw [if_neg hno]
    · rfl
  cases call with
  | register id interval mode isFunction => exact ⟨if_pos h, hbind h, .inl h⟩
  | alarm id interval mode isFunction =>
    refine ⟨?_, hbind h, .inl h⟩
    have hreg : tmrRegister s id interval mode isFunction = some (s, .error "wrong arg range") :=
      if_pos h
    simp only [tmrStep, tmrAlarm, hreg]
  | interval id interval =>
    have hno : ¬ (0 < interval ∧ (idSlot id).isSome) := fun hok => absurd hok.1 (Int.not_lt.mpr h)
    exact ⟨if_pos h, if_neg hno, .inl h⟩
  | start | stop | unregister | state | callback => exact h.elim

theorem ret_ne_error {s s' : TmrState} {ret : Ret} {call : TmrCall} (h : ¬ Refused call)
    (hs : tmrStep s call = some (s', ret)) (text : String) : ret ≠ .error text := by
  have hmap : ∀ {o : Option (Fin numTmr)} {f : Fin numTmr → TmrState × Ret},
      (∀ i, (f i).2 ≠ .error text) → o.map f = some (s', ret) → ret ≠ .error text := by
    intro o f hf hs
    obtain ⟨i, -, hi⟩ := Option.map_eq_some_iff.mp hs
    rw [← show (f i).2 = ret from congrArg Prod.snd hi]
    exact hf i
  have hstart : ∀ {t : TmrState} {id : Int}, tmrStart t id = some (s', ret) →
      ret ≠ .error text := by
    intro t id hs
    refine hmap (fun i => ?_) hs
    dsimp only
    split <;> exact Ret.noConfusion
  cases call with
  | register id interval mode isFunction =>
    simp only [tmrStep, tmrRegister,
      if_neg (show ¬ argsValid interval mode isFunction from h)] at hs
    exact hmap (fun i => Ret.noConfusion) hs
  | alarm id interval mode isFunction =>
    simp only [tmrStep, tmrAlarm, tmrRegister,
      if_neg (show ¬ argsValid interval mode isFunction from h)] at hs
    split at hs
    · cases hs
    · rename_i hreg
      obtain ⟨i, -, hi⟩ := Option.map_eq_some_iff.mp hreg
      cases hi
    · exact hstart hs
  | start id => exact hstart hs
  | stop id =>
    refine hmap (fun i => ?_) hs
    dsimp only
    split <;> exact Ret.noConfusion
  | unregister id => exact hmap (fun i => Ret.noConfusion) hs
  | interval id interval =>
    simp only [tmrStep, tmrInterval, if_neg (show ¬ interval ≤ 0 from h)] at hs
    refine hmap (fun i => ?_) hs
    split <;> exact Ret.noConfusion
  | state id =>
    refine hmap (fun i => ?_) hs
    dsimp only
    split <;> exact Ret.noConfusion
  | callback i =>
    cases hs
    exact Ret.noConfusion

theorem not_inRange {s : TmrState} {c : Contract} {call : TmrCall} (h : ¬ Refused call)
    (hrange : ¬ InRange call) : (c.call call).2 = none ∧ ¬ Kept s call := by
  simp only [InRange, not_forall] at hrange
  obtain ⟨id, hid, hout⟩ := hrange
  have hslot : idSlot id = none := by
    unfold idSlot slot
    split
    · rename_i h₀
      rw [dif_neg (by omega)]
    · rfl
  cases call with
  | register | alarm | start | stop | unregister | interval | state =>
    cases hid
    simp_all [Contract.call, Contract.bind, Kept, Refused]
  | callback i => cases hid

theorem conforms_iff_kept {p : TmrState × Contract} (h : TmrInv p) (call : TmrCall) :
    Conforms p call ↔ Kept p.1 call := by
  by_cases hr : Refused call
  · obtain ⟨hs, hc, hk⟩ := refused_step (s := p.1) (c := p.2) hr
    refine ⟨fun _ => hk, fun _ => ⟨p.1, _, hs, ?_, fun _ => rfl, rfl, ?_⟩⟩
    · rw [hc]
      exact ⟨_, rfl⟩
    · rw [hc]
      exact h.held
  by_cases hrange : InRange call
  · obtain ⟨s', ret, hs, hinv', hiff⟩ := outcome_of_inRange h hrange hr
    constructor
    · rintro ⟨t, r, ht, hans, -, hforeign, -⟩
      rw [hs] at ht
      cases ht
      exact hiff.mp ⟨hans, hforeign⟩
    · intro hk
      obtain ⟨hans, hforeign⟩ := hiff.mpr hk
      refine ⟨s', ret, hs, hans, fun hnone => ?_, hforeign, hinv'.held⟩
      rw [hnone] at hans
      obtain ⟨text, htext⟩ := hans
      exact absurd htext (ret_ne_error hr hs text)
  · obtain ⟨hnone, hk⟩ := not_inRange (s := p.1) (c := p.2) hr hrange
    refine ⟨?_, fun hk' => absurd hk' hk⟩
    rintro ⟨t, r, ht, hans, -⟩
    rw [hnone] at hans
    obtain ⟨text, htext⟩ := hans
    exact absurd htext (ret_ne_error hr ht text)

theorem tmrInv_step {p q : TmrState × Contract} {call : TmrCall} (h : TmrInv p)
    (hrange : InRange call) (hstep : tmrJoint p call = some q) : TmrInv q := by
  by_cases hr : Refused call
  · obtain ⟨hs, hc, -⟩ := refused_step (s := p.1) (c := p.2) hr
    simp only [tmrJoint, hs, hc, Option.map_some, Option.some.injEq] at hstep
    exact hstep ▸ h
  · obtain ⟨s', ret, hs, hinv, -⟩ := outcome_of_inRange h hrange hr
    simp only [tmrJoint, hs, Option.map_some, Option.some.injEq] at hstep
    exact hstep ▸ hinv

/-- After any calls for existing timers, and any alarms, the contract is kept by
exactly these calls. -/
theorem tmr_conforms_iff {p : TmrState × Contract}
    (h : Reach tmrJoint (fun _ call => InRange call) (.start, .start) p) (call : TmrCall) :
    Conforms p call ↔ Kept p.1 call :=
  conforms_iff_kept
    (h.invariant TmrInv tmrInv_start fun _ _ _ hq hr hs => tmrInv_step hq hr hs) call

/-- A timer that was registered twice is started as the header says. -/
theorem tmr_conforms_registered :
    ∃ p, Reach tmrJoint (fun _ call => InRange call) (.start, .start) p ∧
      Conforms p (.start 0) := by
  have hrange : InRange (.register 0 1000 0 true) := by
    rintro id ⟨⟩
    decide
  refine ⟨_, .next (.next .start hrange rfl) hrange rfl, ?_⟩
  refine (tmr_conforms_iff (.next (.next .start hrange rfl) hrange rfl) _).mpr
    ⟨⟨0, by decide⟩, rfl, .inl ?_⟩
  decide

/-- Before its first registration a timer is reported to run, its registration
releases reference 0, and timer 7 is looked for behind the table. -/
theorem tmr_contract_broken :
    ¬ Conforms (.start, .start) (.state 0) ∧
      ¬ Conforms (.start, .start) (.register 0 1000 0 true) ∧
      ¬ Conforms (.start, .start) (.start 7) := by
  have hnot : ∀ i, ¬ Touched .start i := fun i h => h rfl
  refine ⟨fun h => ?_, fun h => ?_, fun h => ?_⟩
  · obtain ⟨i, -, hi⟩ := (conforms_iff_kept tmrInv_start _).mp h
    exact hnot i hi
  · rcases (conforms_iff_kept tmrInv_start _).mp h with h | ⟨i, -, hi⟩
    · exact absurd h (by decide)
    · exact hnot i hi
  · obtain ⟨i, hi, -⟩ := (conforms_iff_kept tmrInv_start _).mp h
    cases hi

end Esp32Project.Tmr
