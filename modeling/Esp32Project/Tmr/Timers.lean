import Esp32Project.Lib.Ledger
import Mathlib.Algebra.Group.Int.Defs
import Mathlib.Logic.Function.Basic

/-!
The alarms of modules/tmr.c. Arguments are the integers that Lua hands over; an
id is cut to an unsigned 32-bit number by `tmr_register` and to a byte by the
other calls. A result `none` is an access outside of `alarm_timers`.
-/

set_option autoImplicit false

namespace Esp32Project.Tmr
open Esp32Project.Lib

def numTmr : Nat := 7

def timerModeOff : UInt8 := 3
def timerModeSingle : UInt8 := 0
def timerModeSemi : UInt8 := 2
def timerModeAuto : UInt8 := 1
def timerIdleFlag : UInt8 := 128

def luaNoref : Int := -2

structure TimerStruct where
  /-- Whether `L` is set. -/
  l : Bool
  luaRef : Int
  interval : Nat
  mode : UInt8
  deriving DecidableEq, Repr

structure TmrState where
  alarmTimers : Fin numTmr → TimerStruct
  /-- The references that `luaL_ref` gave to this module. -/
  registry : Ledger
  /-- What was released though it was not, or no longer, a reference of this module. -/
  foreign : List Int

/-- Static storage; references begin with 1. -/
def TmrState.start : TmrState := ⟨fun _ => ⟨false, 0, 0, 0⟩, ⟨1, []⟩, []⟩

inductive Ret where
  | error (text : String)
  | nothing
  | bool (b : Bool)
  | nil
  | state (started : Bool) (mode : UInt8)
  deriving DecidableEq, Repr

def TmrState.setTimer (s : TmrState) (i : Fin numTmr) (tmr : TimerStruct) : TmrState :=
  { s with alarmTimers := Function.update s.alarmTimers i tmr }

def luaLRef (s : TmrState) : TmrState × Int :=
  ({ s with registry := s.registry.take }, s.registry.next)

/-- `luaL_unref`, which passes over negative numbers. -/
def luaLUnref (s : TmrState) (ref : Int) : TmrState :=
  if ref < 0 then s
  else
    match s.registry.give ref.toNat with
    | some registry => { s with registry := registry }
    | none => { s with foreign := ref :: s.foreign }

/-- `&alarm_timers[n]`. -/
def slot (n : Nat) : Option (Fin numTmr) := if h : n < numTmr then some ⟨n, h⟩ else none

def toUint8 (z : Int) : Nat := (z % 2 ^ 8).toNat
def toUint32 (z : Int) : Nat := (z % 2 ^ 32).toNat

def modeArg (mode : Int) : UInt8 := .ofNat (toUint8 mode)

/-- The test in `tmr_register`, true for what is refused. -/
def argsValid (interval mode : Int) (isFunction : Bool) : Prop :=
  interval ≤ 0 ∨
    (modeArg mode ≠ timerModeSingle ∧ modeArg mode ≠ timerModeSemi ∧
      modeArg mode ≠ timerModeAuto) ∨ isFunction = false

instance (interval mode : Int) (isFunction : Bool) :
    Decidable (argsValid interval mode isFunction) := inferInstanceAs (Decidable (_ ∨ _))

def tmrRegister (s : TmrState) (id interval mode : Int) (isFunction : Bool) :
    Option (TmrState × Ret) :=
  if argsValid interval mode isFunction then some (s, .error "wrong arg range")
  else
    let (s, ref) := luaLRef s
    (slot (toUint32 id)).map fun i =>
      let tmr := s.alarmTimers i
      let s := if tmr.luaRef ≠ luaNoref ∧ tmr.luaRef ≠ ref then luaLUnref s tmr.luaRef else s
      (s.setTimer i ⟨true, ref, interval.toNat, modeArg mode ||| timerIdleFlag⟩, .nothing)

def tmrStart (s : TmrState) (id : Int) : Option (TmrState × Ret) :=
  (slot (toUint8 id)).map fun i =>
    let tmr := s.alarmTimers i
    if tmr.mode &&& timerIdleFlag = 0 then (s, .bool false)
    else (s.setTimer i { tmr with mode := tmr.mode &&& ~~~ timerIdleFlag }, .bool true)

/-- An error in `tmr_register` goes past `tmr_start`. -/
def tmrAlarm (s : TmrState) (id interval mode : Int) (isFunction : Bool) :
    Option (TmrState × Ret) :=
  match tmrRegister s id interval mode isFunction with
  | none => none
  | some (s, .error text) => some (s, .error text)
  | some (s, _) => tmrStart s id

def tmrStop (s : TmrState) (id : Int) : Option (TmrState × Ret) :=
  (slot (toUint8 id)).map fun i =>
    let tmr := s.alarmTimers i
    if tmr.mode &&& timerIdleFlag = 0 ∧ tmr.mode ≠ timerModeOff then
      (s.setTimer i { tmr with mode := tmr.mode ||| timerIdleFlag }, .bool true)
    else (s, .bool false)

def tmrUnregister (s : TmrState) (id : Int) : Option (TmrState × Ret) :=
  (slot (toUint8 id)).map fun i =>
    let tmr := s.alarmTimers i
    let s := if tmr.luaRef ≠ luaNoref then luaLUnref s tmr.luaRef else s
    (s.setTimer i { tmr with luaRef := luaNoref, mode := timerModeOff }, .nothing)

/-- The interval is tested before the timer is looked at. -/
def tmrInterval (s : TmrState) (id interval : Int) : Option (TmrState × Ret) :=
  if interval ≤ 0 then some (s, .error "wrong arg range")
  else
    (slot (toUint8 id)).map fun i =>
      let tmr := s.alarmTimers i
      if tmr.mode ≠ timerModeOff then
        (s.setTimer i { tmr with interval := interval.toNat }, .nothing)
      else (s, .nothing)

def tmrState (s : TmrState) (id : Int) : Option (TmrState × Ret) :=
  (slot (toUint8 id)).map fun i =>
    let tmr := s.alarmTimers i
    if tmr.mode = timerModeOff then (s, .nil)
    else (s, .state (tmr.mode &&& timerIdleFlag = 0) (tmr.mode &&& ~~~ timerIdleFlag))

/-- `alarm_timer_common`, up to the call of the function. -/
def alarmTimerCommon (s : TmrState) (i : Fin numTmr) : TmrState :=
  let tmr := s.alarmTimers i
  if tmr.luaRef = luaNoref ∨ tmr.l = false then s
  else if tmr.mode = timerModeSingle then
    (luaLUnref s tmr.luaRef).setTimer i { tmr with luaRef := luaNoref, mode := timerModeOff }
  else if tmr.mode = timerModeSemi then
    s.setTimer i { tmr with mode := tmr.mode ||| timerIdleFlag }
  else s

inductive TmrCall where
  | register (id interval mode : Int) (isFunction : Bool)
  | alarm (id interval mode : Int) (isFunction : Bool)
  | start (id : Int)
  | stop (id : Int)
  | unregister (id : Int)
  | interval (id interval : Int)
  | state (id : Int)
  /-- An alarm goes off. -/
  | callback (i : Fin numTmr)
  deriving DecidableEq, Repr

def tmrStep (s : TmrState) : TmrCall → Option (TmrState × Ret)
  | .register id interval mode isFunction => tmrRegister s id interval mode isFunction
  | .alarm id interval mode isFunction => tmrAlarm s id interval mode isFunction
  | .start id => tmrStart s id
  | .stop id => tmrStop s id
  | .unregister id => tmrUnregister s id
  | .interval id interval => tmrInterval s id interval
  | .state id => tmrState s id
  | .callback i => some (alarmTimerCommon s i, .nothing)

end Esp32Project.Tmr
