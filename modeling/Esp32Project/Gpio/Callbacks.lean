import Esp32Project.Lib.Ledger
import Esp32Project.Lib.Reach

/-!
The callbacks of modules/gpio.c. `gpio_cb_ref` marks a slot without a callback
with LUA_NOREF, static storage makes all of them 0. A result `none` is an access
outside of `gpio_cb_ref`.
-/

set_option autoImplicit false

namespace Esp32Project.Gpio
open Esp32Project.Lib

def gpioPinNum : Nat := 40

abbrev Pin := Fin gpioPinNum

def luaNoref : Int := -2

def input : UInt32 := 1
def output : UInt32 := 2
def inout : UInt32 := 3
def platformInterrupt : UInt32 := 17

/-- What a reference was made for: a function, at a pin. -/
structure Entry where
  fn : Nat
  pin : Pin
  deriving DecidableEq

structure GpioState where
  gpioCbRef : Pin → Int
  /-- Whether `gL` is set. -/
  gL : Bool
  /-- The references that `luaL_ref` gave to this module. -/
  registry : Ledger
  entries : Nat → Option Entry
  /-- What was released for a pin though it was no reference made for it, or no longer. -/
  foreign : List (Pin × Int)
  /-- The pins whose interrupt has been enabled. -/
  armed : Pin → Bool

/-- Static storage, but for the slots that are already marked; references begin with 1. -/
def GpioState.start (marked : Pin → Bool) : GpioState :=
  ⟨fun i => if marked i then luaNoref else 0, false, ⟨1, []⟩, fun _ => none, [], fun _ => false⟩

def GpioState.setRef (s : GpioState) (i : Pin) (ref : Int) : GpioState :=
  { s with gpioCbRef := Function.update s.gpioCbRef i ref }

def luaLRef (s : GpioState) (i : Pin) (fn : Nat) : GpioState × Int :=
  ({ s with
      registry := s.registry.take
      entries := Function.update s.entries s.registry.next (some ⟨fn, i⟩) }, s.registry.next)

/-- `luaL_unref`, which passes over negative numbers. -/
def luaLUnref (s : GpioState) (i : Pin) (ref : Int) : GpioState :=
  if ref < 0 then s
  else
    match s.registry.give ref.toNat with
    | some registry =>
      if (s.entries ref.toNat).map Entry.pin = some i then { s with registry := registry }
      else { s with foreign := (i, ref) :: s.foreign }
    | none => { s with foreign := (i, ref) :: s.foreign }

/-- `&gpio_cb_ref[pin]`. -/
def slot (pin : UInt32) : Option Pin :=
  if h : pin.toNat < gpioPinNum then some ⟨pin.toNat, h⟩ else none

example : slot 40 = none := by decide +kernel

inductive LuaArg where
  | string (s : String)
  | number
  | function (fn : Nat)
  | other
  deriving DecidableEq

inductive IntrType where
  | disable
  | posedge
  | negedge
  | anyedge
  | lowLevel
  | highLevel
  deriving DecidableEq

def intrType (str : String) : IntrType :=
  if str = "up" then .posedge
  else if str = "down" then .negedge
  else if str = "both" then .anyedge
  else if str = "low" then .lowLevel
  else if str = "high" then .highLevel
  else .disable

/-- The type that the third argument names; nothing where `luaL_checklstring` raises an error. -/
def typeArg : List LuaArg → Option IntrType
  | [] => some .disable
  | .string str :: _ => some (intrType str)
  | .number :: _ => some .disable
  | _ => none

def callbackArg : List LuaArg → Option Nat
  | _ :: .function fn :: _ => some fn
  | _ => none

inductive Ret where
  | error (text : String)
  | nothing
  deriving DecidableEq

def release (s : GpioState) (i : Pin) : GpioState :=
  if s.gpioCbRef i ≠ luaNoref then luaLUnref s i (s.gpioCbRef i) else s

def luaGpioUnref (s : GpioState) (i : Pin) : GpioState :=
  (if s.gL then release s i else s).setRef i luaNoref

/-- The new reference takes the place of the old one. `room` says whether `luaL_ref` finds
memory for one more key of the registry, which it needs where no key was released before. -/
def replaceRef (s : GpioState) (i : Pin) (fn : Nat) (room : Bool) : GpioState × Ret :=
  if s.gpioCbRef i ≤ 0 ∧ room = false then (release s i, .error "not enough memory")
  else
    let (s, ref) := luaLRef (release s i) i fn
    (s.setRef i ref, .nothing)

def dropRef (s : GpioState) (i : Pin) : GpioState := (release s i).setRef i luaNoref

/-- Leaving the interrupt mode is `lua_gpio_unref` once `gL` is set. -/
theorem dropRef_eq {s : GpioState} (h : s.gL = true) (i : Pin) :
    dropRef s i = luaGpioUnref s i := by
  simp [dropRef, luaGpioUnref, h]

/-- What matters here: whether the interrupt of the pin is enabled. -/
def platformGpioMode (s : GpioState) (pin mode : UInt32) (type : IntrType) : GpioState :=
  match slot pin with
  | some i =>
    if mode = platformInterrupt ∧ type ≠ .disable then
      { s with armed := Function.update s.armed i true }
    else s
  | none => s

/-- The end of `lgpio_mode`, behind the callback. -/
def setMode (s : GpioState) (pin mode : UInt32) (type : IntrType) : Option (GpioState × Ret) :=
  let s := { s with gL := true }
  (if mode ≠ platformInterrupt then (slot pin).map (dropRef s) else some s).map fun s =>
    (platformGpioMode s pin mode type, .nothing)

/-- `lgpio_mode` once its arguments have been tested. -/
def configure (s : GpioState) (pin mode : UInt32) (type : IntrType) (callback : Option Nat)
    (room : Bool) : Option (GpioState × Ret) :=
  match callback with
  | none => setMode s pin mode type
  | some fn =>
    match (slot pin).map fun i => replaceRef s i fn room with
    | none => none
    | some (s, .error text) => some (s, .error text)
    | some (s, .nothing) => setMode s pin mode type

/-- A number is what `luaL_checkinteger` makes of the argument, if it makes anything of it. -/
def lgpioMode (s : GpioState) (pin mode : Option Int32) (args : List LuaArg) (room : Bool) :
    Option (GpioState × Ret) :=
  match pin, mode with
  | some pin, some mode =>
    let pin := pin.toUInt32
    let mode := mode.toUInt32
    if mode ≠ output ∧ mode ≠ input ∧ mode ≠ platformInterrupt ∧ mode ≠ inout then
      some (s, .error "wrong arg type")
    else if pin = 0 ∧ mode = platformInterrupt then some (s, .error "no interrupt for D0")
    else
      match typeArg args with
      | none => some (s, .error "string expected")
      | some type => configure s pin mode type (callbackArg args) room
  | _, _ => some (s, .error "number expected")

inductive Fired where
  | nothing
  | called (fn : Nat)
  /-- A call of what is no function of this module. -/
  | foreign
  deriving DecidableEq

def gpioIntrCallback (s : GpioState) (i : Pin) : Fired :=
  let ref := s.gpioCbRef i
  if ref = luaNoref then .nothing
  else if s.gL = false then .nothing
  else if 0 ≤ ref ∧ ref.toNat ∈ s.registry.live then
    match s.entries ref.toNat with
    | some e => .called e.fn
    | none => .foreign
  else .foreign

/-- The callback that an interrupt of a pin should call. -/
abbrev Contract := Pin → Option Nat

def Contract.start : Contract := fun _ => none

def Contract.put (c : Contract) (i : Pin) : Option Nat → Contract
  | some fn => Function.update c i (some fn)
  | none => c

def Contract.leave (c : Contract) (i : Pin) (mode : UInt32) : Contract :=
  if mode ≠ platformInterrupt then Function.update c i none else c

/-- The pin is put in the interrupt mode, with a callback or without, or leaves it. -/
def Contract.mode (c : Contract) (i : Option Pin) (mode : UInt32) (callback : Option Nat) :
    Contract :=
  match i with
  | some i => (c.put i callback).leave i mode
  | none => c

def Contract.call (c : Contract) (pin mode : Option Int32) (args : List LuaArg) : Contract :=
  match pin, mode with
  | some pin, some mode => c.mode (slot pin.toUInt32) mode.toUInt32 (callbackArg args)
  | _, _ => c

inductive Event where
  | mode (pin mode : Option Int32) (args : List LuaArg) (room : Bool)
  | interrupt (i : Pin)

/-- The module and what is expected of it side by side; a call that raised an error has done
nothing. Interrupts come from pins whose interrupt has been enabled, and between calls: that
`gpio_task` may run amid `lgpio_mode` is left out. -/
def gpioStep (p : GpioState × Contract) : Event → Option (GpioState × Contract)
  | .mode pin mode args room =>
    (lgpioMode p.1 pin mode args room).map fun (s, ret) =>
      (s, if ret = .nothing then p.2.call pin mode args else p.2)
  | .interrupt i => if p.1.armed i then some p else none

/-- The table is not left, nothing foreign is released, and an interrupt calls the callback. -/
def GpioOk (p : GpioState × Contract) : Event → Prop
  | .mode pin mode args room =>
    ∃ s ret, lgpioMode p.1 pin mode args room = some (s, ret) ∧ s.foreign = p.1.foreign
  | .interrupt i =>
    p.1.armed i = true → gpioIntrCallback p.1 i = (p.2 i).elim .nothing .called

def Passes (pin mode : Int32) (args : List LuaArg) : Prop :=
  (mode.toUInt32 = output ∨ mode.toUInt32 = input ∨ mode.toUInt32 = platformInterrupt ∨
    mode.toUInt32 = inout) ∧
  ¬(pin.toUInt32 = 0 ∧ mode.toUInt32 = platformInterrupt) ∧ typeArg args ≠ none

def UsesTable (pin mode : Int32) (args : List LuaArg) : Prop :=
  Passes pin mode args ∧ (callbackArg args ≠ none ∨ mode.toUInt32 ≠ platformInterrupt)

/-- The slot is past the zero of static storage. -/
def Marked (s : GpioState) (i : Pin) : Prop := s.gpioCbRef i ≠ 0

def GpioGuard (p : GpioState × Contract) : Event → Prop
  | .mode (some pin) (some mode) args _ =>
    UsesTable pin mode args → ∃ i, slot pin.toUInt32 = some i ∧ Marked p.1 i
  | .mode _ _ _ _ => True
  | .interrupt i => p.1.armed i = true → Marked p.1 i

/-- How a slot stands for the callback of its pin. -/
def Stands (s : GpioState) (i : Pin) : Option Nat → Prop
  | some fn => ∃ r : Nat, 0 < r ∧ s.gpioCbRef i = r ∧ s.entries r = some ⟨fn, i⟩
  | none => s.gpioCbRef i = luaNoref ∨ s.gpioCbRef i = 0

def refOf (s : GpioState) (i : Pin) : Option Nat :=
  if 0 < s.gpioCbRef i then some (s.gpioCbRef i).toNat else none

structure GpioInv (s : GpioState) (c : Contract) : Prop where
  stands : ∀ i, Stands s i (c i)
  held : s.registry.Held (refOf s)
  next_pos : 0 < s.registry.next
  armed : ∀ i, s.armed i = true → s.gL = true

theorem gpioInv_start (marked : Pin → Bool) : GpioInv (.start marked) .start := by
  have href : ∀ i, refOf (.start marked) i = none := fun i => by
    cases hm : marked i <;> simp [refOf, GpioState.start, hm, luaNoref]
  refine ⟨fun i => ?_, ⟨fun r => ?_, fun i j r hi => ?_, List.nodup_nil,
    fun r hr => by simp [GpioState.start] at hr⟩, Nat.zero_lt_one, nofun⟩
  · cases hm : marked i <;> simp [Stands, Contract.start, GpioState.start, hm]
  · refine iff_of_false (by simp [GpioState.start]) ?_
    rintro ⟨i, hi⟩
    rw [href] at hi
    cases hi
  · rw [href] at hi
    cases hi

section

variable {s : GpioState} {c : Contract} {i : Pin}

theorem refOf_update (ref : Int) (registry : Ledger) (entries : Nat → Option Entry)
    (foreign : List (Pin × Int)) :
    refOf ⟨Function.update s.gpioCbRef i ref, s.gL, registry, entries, foreign, s.armed⟩ =
      Function.update (refOf s) i (if 0 < ref then some ref.toNat else none) := by
  funext j
  by_cases hj : j = i
  · subst hj
    simp [refOf]
  · simp [refOf, Function.update_of_ne hj]

theorem GpioInv.refOf_none (h : GpioInv s c) (hc : c i = none) : refOf s i = none := by
  have hst := h.stands i
  rw [hc] at hst
  rcases hst with href | href <;> simp [refOf, href, luaNoref]

theorem GpioInv.refOf_some (h : GpioInv s c) {fn : Nat} (hc : c i = some fn) :
    ∃ r, refOf s i = some r ∧ s.gpioCbRef i = r ∧ s.entries r = some ⟨fn, i⟩ ∧
      r < s.registry.next ∧ 0 < r := by
  have hst := h.stands i
  rw [hc] at hst
  obtain ⟨r, hpos, href, hentry⟩ := hst
  have hr : refOf s i = some r := by
    rw [refOf, if_pos (by rw [href]; exact Int.natCast_pos.mpr hpos), href, Int.toNat_natCast]
  exact ⟨r, hr, href, hentry, h.held.lt r (h.held.mem hr), hpos⟩

theorem GpioInv.put (h : GpioInv s c) {ref : Int} {a : Option Nat} {registry : Ledger}
    {entries : Nat → Option Entry} {foreign : List (Pin × Int)}
    (hst : Stands
      ⟨Function.update s.gpioCbRef i ref, s.gL, registry, entries, foreign, s.armed⟩ i a)
    (hentries : ∀ r, r < s.registry.next → entries r = s.entries r)
    (hheld : registry.Held (Function.update (refOf s) i (if 0 < ref then some ref.toNat else none)))
    (hnext : 0 < registry.next) :
    GpioInv ⟨Function.update s.gpioCbRef i ref, s.gL, registry, entries, foreign, s.armed⟩
      (Function.update c i a) where
  stands j := by
    by_cases hj : j = i
    · subst hj
      simpa using hst
    · simp only [Function.update_of_ne hj]
      cases hc : c j with
      | none =>
        have hj' := h.stands j
        rw [hc] at hj'
        simpa [Stands, Function.update_of_ne hj] using hj'
      | some fn =>
        obtain ⟨r, -, href, hentry, hlt, hpos⟩ := h.refOf_some hc
        exact ⟨r, hpos, by simpa [Function.update_of_ne hj] using href,
          (hentries r hlt).trans hentry⟩
  held := by
    rw [refOf_update]
    exact hheld
  next_pos := hnext
  armed := h.armed

/-- A slot past the zero of static storage gives back what it holds, and nothing else. -/
theorem release_marked (h : GpioInv s c) (hm : Marked s i) :
    ∃ registry, release s i = { s with registry := registry } ∧
      registry.next = s.registry.next ∧
      registry.Held (Function.update (refOf s) i none) := by
  cases hc : c i with
  | none =>
    have hst := h.stands i
    rw [hc] at hst
    have href : s.gpioCbRef i = luaNoref := hst.resolve_right hm
    refine ⟨s.registry, by rw [release, if_neg (not_not.mpr href)], rfl, ?_⟩
    rw [← h.refOf_none hc, Function.update_eq_self]
    exact h.held
  | some fn =>
    obtain ⟨r, hr, href, hentry, hlt, hpos⟩ := h.refOf_some hc
    obtain ⟨hgive, hheld⟩ := h.held.drop hr
    refine ⟨⟨s.registry.next, s.registry.live.erase r⟩, ?_, rfl, hheld⟩
    have hne : s.gpioCbRef i ≠ luaNoref := by
      rw [href]
      exact fun h => absurd (h ▸ Int.natCast_nonneg r) (by decide)
    rw [release, if_pos hne, luaLUnref, href, if_neg (Int.not_lt.mpr (Int.natCast_nonneg r)),
      Int.toNat_natCast, hgive]
    simp [hentry]

theorem zero_notMem_live (h : GpioInv s c) : 0 ∉ s.registry.live := by
  intro hmem
  obtain ⟨j, hj⟩ := (h.held.live 0).mp hmem
  cases hc : c j with
  | none =>
    rw [h.refOf_none hc] at hj
    cases hj
  | some fn =>
    obtain ⟨r, hr, -, -, -, hpos⟩ := h.refOf_some hc
    rw [hr] at hj
    exact absurd (Option.some.inj hj) (Nat.ne_of_gt hpos)

/-- The zero of static storage is released as if it were a reference. -/
theorem release_unmarked (h : GpioInv s c) (hm : ¬ Marked s i) :
    (release s i).foreign = (i, 0) :: s.foreign := by
  have href : s.gpioCbRef i = 0 := not_not.mp hm
  rw [release, if_pos (by rw [href]; decide), luaLUnref, href, if_neg (Int.lt_irrefl 0),
    Int.toNat_zero, Ledger.give_of_notMem (zero_notMem_live h)]

theorem dropRef_marked (h : GpioInv s c) (hm : Marked s i) :
    (dropRef s i).foreign = s.foreign ∧ GpioInv (dropRef s i) (Function.update c i none) := by
  obtain ⟨registry, hrelease, hnext, hheld⟩ := release_marked h hm
  rw [dropRef, hrelease]
  refine ⟨rfl, h.put (.inl (by simp)) (fun r _ => rfl) hheld ?_⟩
  rw [hnext]
  exact h.next_pos

theorem replaceRef_marked (h : GpioInv s c) (hm : Marked s i) (fn : Nat) (room : Bool) :
    (replaceRef s i fn room).1.foreign = s.foreign ∧
      GpioInv (replaceRef s i fn room).1
        (if (replaceRef s i fn room).2 = .nothing then Function.update c i (some fn) else c) := by
  obtain ⟨registry, hrelease, hnext, hheld⟩ := release_marked h hm
  unfold replaceRef
  split
  · -- only a slot with LUA_NOREF needs room, and nothing is released from it
    rename_i hfull
    have href : s.gpioCbRef i = luaNoref := by
      cases hc : c i with
      | none =>
        have hst := h.stands i
        rw [hc] at hst
        exact hst.resolve_right hm
      | some fn =>
        obtain ⟨r, -, href, -, -, hpos⟩ := h.refOf_some hc
        omega
    have hsame : release s i = s := by rw [release, if_neg (not_not.mpr href)]
    simp only [hsame, reduceCtorEq, if_false]
    exact ⟨trivial, h⟩
  · have hpos : 0 < registry.next := hnext ▸ h.next_pos
    have hfill := hheld.fill (Function.update_self i none (refOf s))
    rw [Function.update_idem] at hfill
    simp only [hrelease, luaLRef, if_true]
    refine ⟨rfl, h.put ⟨registry.next, hpos, by simp, by simp⟩ (fun r hr => ?_) ?_
      (Nat.succ_pos _)⟩
    · have hne : r ≠ registry.next := by omega
      exact Function.update_of_ne hne _ _
    · rwa [if_pos (Int.natCast_pos.mpr hpos), Int.toNat_natCast]

theorem GpioInv.setGL (h : GpioInv s c) : GpioInv { s with gL := true } c :=
  ⟨h.stands, h.held, h.next_pos, fun _ _ => rfl⟩

theorem platformGpioMode_inv (h : GpioInv s c) (hgL : s.gL = true) (pin mode : UInt32)
    (type : IntrType) :
    (platformGpioMode s pin mode type).foreign = s.foreign ∧
      GpioInv (platformGpioMode s pin mode type) c := by
  unfold platformGpioMode
  split
  · split
    · exact ⟨rfl, h.stands, h.held, h.next_pos, fun _ _ => hgL⟩
    · exact ⟨rfl, h⟩
  · exact ⟨rfl, h⟩

theorem setMode_right (h : GpioInv s c) {pin mode : UInt32} (type : IntrType)
    (hm : mode ≠ platformInterrupt → ∃ i, slot pin = some i ∧ Marked s i) :
    ∃ s', setMode s pin mode type = some (s', .nothing) ∧ s'.foreign = s.foreign ∧
      GpioInv s' (c.mode (slot pin) mode none) := by
  by_cases hmode : mode = platformInterrupt
  · have hc : c.mode (slot pin) mode none = c := by
      cases hslot : slot pin <;> simp [Contract.mode, Contract.put, Contract.leave, hmode]
    have hplatform := platformGpioMode_inv h.setGL rfl pin mode type
    rw [hc]
    exact ⟨_, by rw [setMode, if_neg (not_not.mpr hmode)]; rfl, hplatform⟩
  · obtain ⟨i, hi, hmarked⟩ := hm hmode
    have hc : c.mode (slot pin) mode none = Function.update c i none := by
      simp [Contract.mode, Contract.put, Contract.leave, hi, hmode]
    obtain ⟨hforeign, hinv⟩ := dropRef_marked h.setGL hmarked
    have hgL : (dropRef { s with gL := true } i).gL = true := by
      obtain ⟨registry, hrelease, -⟩ := release_marked h.setGL hmarked
      rw [dropRef, hrelease]
      rfl
    have hplatform := platformGpioMode_inv hinv hgL pin mode type
    rw [hc]
    exact ⟨_, by rw [setMode, if_pos hmode, hi]; rfl, hplatform.1.trans hforeign, hplatform.2⟩

/-- Where the slots that are looked at are marked, the call does as it should. -/
theorem configure_right (h : GpioInv s c) {pin mode : UInt32} (type : IntrType)
    {callback : Option Nat} (room : Bool)
    (hm : callback ≠ none ∨ mode ≠ platformInterrupt → ∃ i, slot pin = some i ∧ Marked s i) :
    ∃ s' ret, configure s pin mode type callback room = some (s', ret) ∧
      s'.foreign = s.foreign ∧
      GpioInv s' (if ret = .nothing then c.mode (slot pin) mode callback else c) := by
  cases callback with
  | none =>
    obtain ⟨s', hs', hright⟩ := setMode_right h type fun hmode => hm (.inr hmode)
    exact ⟨s', .nothing, hs', hright⟩
  | some fn =>
    obtain ⟨i, hi, hmarked⟩ := hm (.inl (Option.some_ne_none fn))
    obtain ⟨hforeign, hinv⟩ := replaceRef_marked h hmarked fn room
    simp only [configure, hi, Option.map_some]
    generalize replaceRef s i fn room = q at hforeign hinv
    obtain ⟨t, ret⟩ := q
    cases ret with
    | error text => exact ⟨t, .error text, rfl, hforeign, hinv⟩
    | nothing =>
      simp only [if_true] at hinv
      obtain ⟨r, -, href, -, -, hpos⟩ := hinv.refOf_some (Function.update_self i (some fn) c)
      have ht : Marked t i := by
        rw [Marked, href]
        exact Int.natCast_ne_zero.mpr (Nat.ne_of_gt hpos)
      obtain ⟨s', hs', hforeign', hinv'⟩ := setMode_right hinv type fun _ => ⟨i, hi, ht⟩
      rw [hi] at hinv'
      exact ⟨s', .nothing, hs', hforeign'.trans hforeign, hinv'⟩

theorem release_foreign_le (s : GpioState) (i : Pin) :
    s.foreign.length ≤ (release s i).foreign.length := by
  unfold release luaLUnref
  split
  · split
    · exact Nat.le_refl _
    · split
      · split
        · exact Nat.le_refl _
        · exact Nat.le_succ _
      · exact Nat.le_succ _
  · exact Nat.le_refl _

theorem platformGpioMode_foreign (s : GpioState) (pin mode : UInt32) (type : IntrType) :
    (platformGpioMode s pin mode type).foreign = s.foreign := by
  unfold platformGpioMode
  split
  · split <;> rfl
  · rfl

theorem setMode_foreign_le {s s' : GpioState} {pin mode : UInt32} {type : IntrType} {ret : Ret}
    (h : setMode s pin mode type = some (s', ret)) : s.foreign.length ≤ s'.foreign.length := by
  obtain ⟨t, ht, hs⟩ := Option.map_eq_some_iff.mp h
  obtain rfl := (Prod.mk.inj hs).1
  rw [platformGpioMode_foreign]
  split at ht
  · obtain ⟨i, -, rfl⟩ := Option.map_eq_some_iff.mp ht
    exact release_foreign_le { s with gL := true } i
  · obtain rfl := Option.some.inj ht
    exact Nat.le_refl _

/-- Elsewhere it leaves the table, or releases what is not its own. -/
theorem configure_wrong (h : GpioInv s c) {pin mode : UInt32} (type : IntrType)
    {callback : Option Nat} (room : Bool) (huses : callback ≠ none ∨ mode ≠ platformInterrupt)
    (hno : ¬∃ i, slot pin = some i ∧ Marked s i) {s' : GpioState} {ret : Ret}
    (hs : configure s pin mode type callback room = some (s', ret)) :
    s'.foreign ≠ s.foreign := by
  have hlonger : ∀ i, slot pin = some i →
      s.foreign.length < (release s i).foreign.length := fun i hi => by
    rw [release_unmarked h fun hm => hno ⟨i, hi, hm⟩]
    exact Nat.lt_succ_self _
  suffices hlt : s.foreign.length < s'.foreign.length from fun heq => by
    rw [heq] at hlt
    exact Nat.lt_irrefl _ hlt
  cases callback with
  | none =>
    have hmode := huses.resolve_left (not_not.mpr rfl)
    rw [configure, setMode, if_pos hmode] at hs
    obtain ⟨t, ht, hpair⟩ := Option.map_eq_some_iff.mp hs
    obtain ⟨i, hi, rfl⟩ := Option.map_eq_some_iff.mp ht
    obtain rfl := (Prod.mk.inj hpair).1
    rw [platformGpioMode_foreign]
    have hunmarked : ¬Marked { s with gL := true } i := fun hm => hno ⟨i, hi, hm⟩
    rw [dropRef, GpioState.setRef, release_unmarked h.setGL hunmarked]
    exact Nat.lt_succ_self _
  | some fn =>
    rw [configure] at hs
    cases hslot : slot pin with
    | none =>
      rw [hslot] at hs
      cases hs
    | some i =>
      have hfirst : (replaceRef s i fn room).1.foreign = (release s i).foreign := by
        unfold replaceRef
        split <;> rfl
      have hlt := hfirst ▸ hlonger i hslot
      rw [hslot, Option.map_some] at hs
      generalize replaceRef s i fn room = q at hs hlt
      obtain ⟨t, first⟩ := q
      cases first with
      | error text =>
        cases hs
        exact hlt
      | nothing => exact Nat.lt_of_lt_of_le hlt (setMode_foreign_le hs)

end

section

variable {s : GpioState} {c : Contract} {pin mode : Int32} {args : List LuaArg} {room : Bool}

theorem lgpioMode_passes (s : GpioState) (room : Bool) (h : Passes pin mode args) : ∃ type,
    lgpioMode s (some pin) (some mode) args room =
      configure s pin.toUInt32 mode.toUInt32 type (callbackArg args) room := by
  obtain ⟨hmode, hzero, htype⟩ := h
  obtain ⟨type, htype⟩ := Option.ne_none_iff_exists'.mp htype
  refine ⟨type, ?_⟩
  have htest : ¬(mode.toUInt32 ≠ output ∧ mode.toUInt32 ≠ input ∧
      mode.toUInt32 ≠ platformInterrupt ∧ mode.toUInt32 ≠ inout) := by
    rintro ⟨h₁, h₂, h₃, h₄⟩
    rcases hmode with h | h | h | h <;> contradiction
  rw [lgpioMode, if_neg htest, if_neg hzero, htype]

theorem lgpioMode_refused (s : GpioState) (room : Bool) (h : ¬ Passes pin mode args) :
    ∃ text, lgpioMode s (some pin) (some mode) args room = some (s, .error text) := by
  rw [lgpioMode]
  split
  · exact ⟨_, rfl⟩
  rename_i hmode
  split
  · exact ⟨_, rfl⟩
  rename_i hzero
  cases htype : typeArg args with
  | none => exact ⟨_, rfl⟩
  | some type =>
    refine absurd ⟨?_, hzero, by simp [htype]⟩ h
    by_contra hne
    simp only [not_or] at hne
    exact hmode hne


theorem mode_right (room : Bool) (h : GpioInv s c)
    (hg : UsesTable pin mode args → ∃ i, slot pin.toUInt32 = some i ∧ Marked s i) :
    ∃ s' ret, lgpioMode s (some pin) (some mode) args room = some (s', ret) ∧
      s'.foreign = s.foreign ∧
      GpioInv s' (if ret = .nothing then c.call (some pin) (some mode) args else c) := by
  by_cases hpasses : Passes pin mode args
  · obtain ⟨type, hmode⟩ := lgpioMode_passes s room hpasses
    rw [hmode]
    exact configure_right h type room fun huses => hg ⟨hpasses, huses⟩
  · obtain ⟨text, hmode⟩ := lgpioMode_refused s room hpasses
    exact ⟨s, .error text, hmode, rfl, by simpa using h⟩

theorem mode_iff (h : GpioInv s c) :
    GpioOk (s, c) (.mode (some pin) (some mode) args room) ↔
      GpioGuard (s, c) (.mode (some pin) (some mode) args room) := by
  constructor
  · rintro ⟨s', ret, hs, hforeign⟩ ⟨hpasses, huses⟩
    obtain ⟨type, hmode⟩ := lgpioMode_passes s room hpasses
    by_contra hno
    exact configure_wrong h type room huses hno (hmode ▸ hs) hforeign
  · intro hg
    obtain ⟨s', ret, hs, hforeign, -⟩ := mode_right room h hg
    exact ⟨s', ret, hs, hforeign⟩

end

theorem interrupt_iff {s : GpioState} {c : Contract} (h : GpioInv s c) (i : Pin) :
    GpioOk (s, c) (.interrupt i) ↔ GpioGuard (s, c) (.interrupt i) := by
  refine forall_congr' fun harmed => ?_
  have hgL := h.armed i harmed
  cases hc : c i with
  | none =>
    have hst := h.stands i
    rw [hc] at hst
    rcases hst with href | href
    · refine iff_of_true ?_ (by rw [Marked, href]; decide)
      simp [gpioIntrCallback, href, hc]
    · refine iff_of_false ?_ fun hm => hm href
      have hzero := zero_notMem_live h
      simp [gpioIntrCallback, href, hc, hgL, hzero, luaNoref]
  | some fn =>
    obtain ⟨r, hr, href, hentry, -, hpos⟩ := h.refOf_some hc
    have hmem : r ∈ s.registry.live := h.held.mem hr
    refine iff_of_true ?_ (by rw [Marked, href]; omega)
    have hne : (r : Int) ≠ luaNoref := by
      unfold luaNoref
      omega
    simp [gpioIntrCallback, hne, hgL, href, hmem, hentry, hc]

theorem gpioOk_iff {p : GpioState × Contract} (h : GpioInv p.1 p.2) (e : Event) :
    GpioOk p e ↔ GpioGuard p e := by
  cases e with
  | mode pin mode args room =>
    cases pin with
    | none => exact iff_of_true ⟨p.1, _, rfl, rfl⟩ trivial
    | some pin =>
      cases mode with
      | none => exact iff_of_true ⟨p.1, _, rfl, rfl⟩ trivial
      | some mode => exact mode_iff h
  | interrupt i => exact interrupt_iff h i

theorem gpioInv_step {p p' : GpioState × Contract} {e : Event} (h : GpioInv p.1 p.2)
    (hg : GpioGuard p e) (hs : gpioStep p e = some p') : GpioInv p'.1 p'.2 := by
  cases e with
  | mode pin mode args room =>
    obtain ⟨⟨s, ret⟩, hmode, rfl⟩ := Option.map_eq_some_iff.mp hs
    cases pin with
    | none =>
      cases hmode
      exact h
    | some pin =>
      cases mode with
      | none =>
        cases hmode
        exact h
      | some mode =>
        obtain ⟨s', ret', hmode', -, hinv⟩ := mode_right room h hg
        cases hmode.symm.trans hmode'
        exact hinv
  | interrupt i =>
    rw [gpioStep] at hs
    split at hs
    · exact Option.some.inj hs ▸ h
    · cases hs

/-- Every call and interrupt of a run is right just if those that look at the table find a slot
of it that is past the zero of static storage; whatever slots were marked at the start. -/
theorem gpio_along_iff (marked : Pin → Bool) (events : List Event) :
    Along gpioStep GpioOk (.start marked, .start) events ↔
      Along gpioStep GpioGuard (.start marked, .start) events :=
  along_iff (fun p => GpioInv p.1 p.2) (fun _ e h => gpioOk_iff h e)
    (fun _ _ _ h hg hs => gpioInv_step h hg hs) (gpioInv_start marked) events

def unmarked : GpioState := .start fun _ => false

def firstCall : Event := .mode (some 4) (some 17) [.string "up", .function 7] true

/-- The first callback of a pin has the reference 0 released. -/
theorem first_call_releases_zero :
    ¬Along gpioStep GpioOk (unmarked, .start) [firstCall] := by
  have hrun : (lgpioMode unmarked (some 4) (some 17) [.string "up", .function 7] true).map
      (fun r => r.1.foreign.length) = some 1 := by decide +kernel
  rintro ⟨⟨s, ret, hs, hforeign⟩, -⟩
  rw [hs, Option.map_some, hforeign] at hrun
  cases hrun

end Esp32Project.Gpio
