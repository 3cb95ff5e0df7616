import Esp32Project.Lib.Reach
import Mathlib.Algebra.Group.Nat.Defs
import Mathlib.Data.List.Basic
import Mathlib.Logic.Function.Basic

/-!
The app controller of APPTask (app_contorller.cpp). A callback is the number of
its function, and `none` is NULL. What callbacks do to the controller are calls
of their own, behind the call that makes them: only `app_exit` uses the state
after a callback, for the image of the current app, and an exit callback is
taken not to turn to another app. A result `none` is a division by zero or a
call of NULL.
-/

set_option autoImplicit false

namespace Esp32Project.AppTask
open Esp32Project.Lib

def appMaxNum : Nat := 10

structure AppObj where
  appImage : Nat
  appInit : Option Nat
  mainProcess : Option Nat
  exitCallback : Option Nat
  deriving DecidableEq, Repr

/-- `act_info->active`, with the values that `main_process` tests. -/
inductive Active where
  | unknown
  | turnRight
  | turnLeft
  | goForword
  | other : Nat → Active
  deriving DecidableEq, Repr

inductive Anim where
  | none
  | moveRight
  | moveLeft
  deriving DecidableEq, Repr

inductive Kind where
  | init
  | process
  | exit
  deriving DecidableEq, Repr

def AppObj.callback (app : AppObj) : Kind → Option Nat
  | .init => app.appInit
  | .process => app.mainProcess
  | .exit => app.exitCallback

inductive Effect where
  | displayScr (image : Nat) (anim : Anim) (force : Bool)
  | callback (kind : Kind) (fn : Nat)
  deriving DecidableEq, Repr

structure AppController where
  appList : Nat → AppObj
  appNum : Nat
  appExitFlag : Nat
  curAppIndex : Nat
  preAppIndex : Nat

/-- The constructor: of the objects allocated only the first image is set. -/
def AppController.new (appList : Nat → AppObj) (appLoading : Nat) : AppController :=
  ⟨Function.update appList 0 { appList 0 with appImage := appLoading }, 0, 0, 0, 0⟩

def appIsLegal (c : AppController) (app : Option AppObj) : Nat :=
  if app = none then 1
  else if appMaxNum ≤ c.appNum then 2
  else 0

def appRegister (app : Option AppObj) (c : AppController) : AppController × Nat :=
  match app with
  | none => (c, appIsLegal c none)
  | some app =>
    if appIsLegal c (some app) ≠ 0 then (c, appIsLegal c (some app))
    else ({ c with
      appList := Function.update c.appList c.appNum app
      appNum := c.appNum + 1 }, 0)

/-- `% app_num`, after the sum has become unsigned. -/
def modAppNum (c : AppController) (x : Nat) : Option Nat :=
  if c.appNum = 0 then none else some (x % 2 ^ 32 % c.appNum)

def call (kind : Kind) : Option Nat → Option Effect
  | none => none
  | some fn => some (.callback kind fn)

def AppController.cur (c : AppController) : AppObj := c.appList c.curAppIndex

def AppController.display (c : AppController) (anim : Anim) (force : Bool) : Effect :=
  .displayScr c.cur.appImage anim force

def mainProcess (act : Active) (c : AppController) : Option (AppController × List Effect) := do
  if c.appExitFlag = 0 then
    match act with
    | .turnRight =>
      let i ← modAppNum c (c.curAppIndex + 1)
      let c := { c with preAppIndex := c.curAppIndex, curAppIndex := i }
      return (c, [c.display .moveRight false])
    | .turnLeft =>
      let i ← modAppNum c (c.curAppIndex + (2 ^ 32 - 1) + c.appNum)
      let c := { c with preAppIndex := c.curAppIndex, curAppIndex := i }
      return (c, [c.display .moveLeft false])
    | .goForword =>
      let c := { c with appExitFlag := 1 }
      if c.cur.exitCallback ≠ none then
        let eff ← call .init c.cur.appInit
        return (c, [eff])
      return (c, [])
    | _ => return (c, [c.display .none false])
  else
    let eff ← call .process c.cur.mainProcess
    return (c, [eff])

def appExit (c : AppController) : AppController × List Effect :=
  let c := { c with appExitFlag := 0 }
  let calls := match c.cur.exitCallback with
    | none => []
    | some fn => [.callback .exit fn]
  (c, calls ++ [c.display .none true])

inductive AppCall where
  | register (app : Option AppObj)
  | process (act : Active)
  | exit
  deriving DecidableEq, Repr

def appRun (c : AppController) : AppCall → Option (AppController × List Effect)
  | .register app => some ((appRegister app c).1, [])
  | .process act => mainProcess act c
  | .exit => some (appExit c)

def appStep (c : AppController) (a : AppCall) : Option AppController :=
  (appRun c a).map Prod.fst

def AppController.registered (c : AppController) : List AppObj :=
  (List.range c.appNum).map c.appList

def Enters (c : AppController) : AppCall → Prop
  | .process .goForword => c.appExitFlag = 0 ∧
    ∃ app, c.registered[c.curAppIndex]? = some app ∧ app.appInit ≠ none
  | _ => False

def Active.back : Active → Option Active
  | .turnRight => some .turnLeft
  | .turnLeft => some .turnRight
  | _ => none

/-- Turned back at once, the controller is at the same app again. -/
def TurnsBack (c c' : AppController) : AppCall → Prop
  | .process act => ∀ act', act.back = some act' → c.appExitFlag = 0 →
    ∃ c'' effs, mainProcess act' c' = some (c'', effs) ∧ c''.curAppIndex = c.curAppIndex
  | _ => True

/-- What the controller should do in a call. -/
def AppOk (c : AppController) (a : AppCall) : Prop :=
  ∃ c' effs, appRun c a = some (c', effs) ∧
    (c'.curAppIndex = 0 ∨ c'.curAppIndex < c'.appNum) ∧
    (∀ kind fn, .callback kind fn ∈ effs → ∃ app ∈ c.registered, app.callback kind = some fn) ∧
    ((∃ fn, .callback .init fn ∈ effs) ↔ Enters c a) ∧ TurnsBack c c' a

def Prepared (c : AppController) : AppCall → Prop
  | .register _ => True
  | .exit => c.appNum = 0 → c.cur.exitCallback = none
  | .process act =>
    if c.appExitFlag = 0 then
      match act with
      | .turnRight => c.appNum ≠ 0
      | .turnLeft => c.appNum ≠ 0
      | .goForword =>
        (c.cur.exitCallback = none ∧ (c.appNum = 0 ∨ c.cur.appInit = none)) ∨
          (c.cur.exitCallback ≠ none ∧ c.appNum ≠ 0 ∧ c.cur.appInit ≠ none)
      | _ => True
    else c.appNum ≠ 0 ∧ c.cur.mainProcess ≠ none

/-- The index names an app, or is 0 as long as there is none. -/
structure ControllerInv (c : AppController) : Prop where
  index : c.curAppIndex = 0 ∨ c.curAppIndex < c.appNum
  room : c.appNum ≤ appMaxNum

section

variable {c : AppController}

theorem ControllerInv.index_lt (h : ControllerInv c) (hn : c.appNum ≠ 0) :
    c.curAppIndex < c.appNum := by
  have := h.index
  omega

theorem registered_get (hi : c.curAppIndex < c.appNum) :
    c.registered[c.curAppIndex]? = some c.cur := by
  rw [AppController.registered, List.getElem?_map, List.getElem?_range hi]
  rfl

theorem registered_nil (hn : c.appNum = 0) : c.registered = [] := by
  rw [AppController.registered, hn]
  rfl

theorem appRegister_registered (app : AppObj) (h : c.appNum < appMaxNum) :
    (appRegister (some app) c).1.registered = c.registered ++ [app] := by
  have hlegal : appIsLegal c (some app) = 0 := by simp [appIsLegal, h]
  rw [appRegister, hlegal, if_neg (not_not.mpr rfl)]
  simp only [AppController.registered]
  rw [List.range_succ, List.map_append, List.map_singleton, Function.update_self]
  congr 1
  refine List.map_congr_left fun i hi => ?_
  rw [Function.update_of_ne (Nat.ne_of_lt (List.mem_range.mp hi))]

theorem modAppNum_right (h : ControllerInv c) (hn : c.appNum ≠ 0) :
    modAppNum c (c.curAppIndex + 1) =
      some (if c.curAppIndex + 1 = c.appNum then 0 else c.curAppIndex + 1) := by
  have hlt := h.index_lt hn
  have hroom := h.room
  simp only [appMaxNum] at hroom
  rw [modAppNum, if_neg hn, Nat.mod_eq_of_lt (show c.curAppIndex + 1 < 2 ^ 32 by omega)]
  split
  · rename_i heq
    rw [heq, Nat.mod_self]
  · rw [Nat.mod_eq_of_lt (by omega)]

theorem modAppNum_left (h : ControllerInv c) (hn : c.appNum ≠ 0) :
    modAppNum c (c.curAppIndex + (2 ^ 32 - 1) + c.appNum) =
      some (if c.curAppIndex = 0 then c.appNum - 1 else c.curAppIndex - 1) := by
  have hlt := h.index_lt hn
  have hroom := h.room
  simp only [appMaxNum] at hroom
  rw [modAppNum, if_neg hn]
  split
  · -- -1 has become 2 ^ 32 - 1, and the sum leaves 32 bits
    rename_i h0
    rw [show (c.curAppIndex + (2 ^ 32 - 1) + c.appNum) % 2 ^ 32 = c.appNum - 1 by omega,
      Nat.mod_eq_of_lt (by omega)]
  · rw [show (c.curAppIndex + (2 ^ 32 - 1) + c.appNum) % 2 ^ 32 =
      c.curAppIndex - 1 + c.appNum by omega, Nat.add_mod_right, Nat.mod_eq_of_lt (by omega)]

def AppController.turned (c : AppController) (i : Nat) : AppController :=
  { c with preAppIndex := c.curAppIndex, curAppIndex := i }

theorem mainProcess_right (h : ControllerInv c) (hn : c.appNum ≠ 0) (hf : c.appExitFlag = 0) :
    mainProcess .turnRight c = some (c.turned
      (if c.curAppIndex + 1 = c.appNum then 0 else c.curAppIndex + 1),
      [(c.turned (if c.curAppIndex + 1 = c.appNum then 0 else c.curAppIndex + 1)).display
        .moveRight false]) := by
  simp only [mainProcess, if_pos hf, modAppNum_right h hn]
  rfl

theorem mainProcess_left (h : ControllerInv c) (hn : c.appNum ≠ 0) (hf : c.appExitFlag = 0) :
    mainProcess .turnLeft c = some (c.turned
      (if c.curAppIndex = 0 then c.appNum - 1 else c.curAppIndex - 1),
      [(c.turned (if c.curAppIndex = 0 then c.appNum - 1 else c.curAppIndex - 1)).display
        .moveLeft false]) := by
  simp only [mainProcess, if_pos hf, modAppNum_left h hn]
  rfl

theorem ControllerInv.turned {i : Nat} (h : ControllerInv c) (hi : i < c.appNum) :
    ControllerInv (c.turned i) := ⟨.inr hi, h.room⟩

theorem appOk_right (h : ControllerInv c) (hn : c.appNum ≠ 0) (hf : c.appExitFlag = 0) :
    AppOk c (.process .turnRight) := by
  have hlt := h.index_lt hn
  have hnew : (if c.curAppIndex + 1 = c.appNum then 0 else c.curAppIndex + 1) < c.appNum := by
    split <;> omega
  refine ⟨_, _, mainProcess_right h hn hf, .inr hnew, by simp [AppController.display],
    by simp [AppController.display, Enters], ?_⟩
  intro act' hact _
  obtain rfl : Active.turnLeft = act' := Option.some.inj hact
  refine ⟨_, _, mainProcess_left (h.turned hnew) hn hf, ?_⟩
  by_cases hlast : c.curAppIndex + 1 = c.appNum
  · simp only [AppController.turned, if_pos hlast, if_true]
    omega
  · simp only [AppController.turned, if_neg hlast, Nat.add_eq_zero_iff, Nat.one_ne_zero, and_false,
      if_false, Nat.add_sub_cancel]

theorem appOk_left (h : ControllerInv c) (hn : c.appNum ≠ 0) (hf : c.appExitFlag = 0) :
    AppOk c (.process .turnLeft) := by
  have hlt := h.index_lt hn
  have hnew : (if c.curAppIndex = 0 then c.appNum - 1 else c.curAppIndex - 1) < c.appNum := by
    split <;> omega
  refine ⟨_, _, mainProcess_left h hn hf, .inr hnew, by simp [AppController.display],
    by simp [AppController.display, Enters], ?_⟩
  intro act' hact _
  obtain rfl : Active.turnRight = act' := Option.some.inj hact
  refine ⟨_, _, mainProcess_right (h.turned hnew) hn hf, ?_⟩
  by_cases hfirst : c.curAppIndex = 0
  · simp only [AppController.turned, if_pos hfirst]
    rw [if_pos (by omega), hfirst]
  · simp only [AppController.turned, if_neg hfirst]
    rw [if_neg (by omega)]
    omega

theorem modAppNum_empty (hn : c.appNum = 0) (x : Nat) : modAppNum c x = none := if_pos hn

theorem callback_registered {kind : Kind} {fn : Nat} (h : ControllerInv c) (hn : c.appNum ≠ 0)
    (hc : c.cur.callback kind = some fn) :
    ∃ app ∈ c.registered, app.callback kind = some fn :=
  ⟨c.cur, List.mem_of_getElem? (registered_get (h.index_lt hn)), hc⟩

theorem enters_iff (h : ControllerInv c) (hf : c.appExitFlag = 0) :
    Enters c (.process .goForword) ↔ c.appNum ≠ 0 ∧ c.cur.appInit ≠ none := by
  constructor
  · rintro ⟨-, app, happ, hinit⟩
    have hn : c.appNum ≠ 0 := by
      intro hn
      rw [registered_nil hn] at happ
      cases happ
    rw [registered_get (h.index_lt hn)] at happ
    exact ⟨hn, Option.some.inj happ ▸ hinit⟩
  · rintro ⟨hn, hinit⟩
    exact ⟨hf, c.cur, registered_get (h.index_lt hn), hinit⟩

theorem appOk_goForword (h : ControllerInv c) (hf : c.appExitFlag = 0) :
    AppOk c (.process .goForword) ↔
      (c.cur.exitCallback = none ∧ (c.appNum = 0 ∨ c.cur.appInit = none)) ∨
        (c.cur.exitCallback ≠ none ∧ c.appNum ≠ 0 ∧ c.cur.appInit ≠ none) := by
  have hcur : (AppController.cur { c with appExitFlag := 1 }) = c.cur := rfl
  cases hexit : c.cur.exitCallback with
  | none =>
    -- app_init is not called
    have hrun : appRun c (.process .goForword) = some ({ c with appExitFlag := 1 }, []) := by
      simp [appRun, mainProcess, hf, hcur, hexit]
    constructor
    · rintro ⟨c', effs, hrun', -, -, hinit, -⟩
      rw [hrun] at hrun'
      cases hrun'
      refine .inl ⟨rfl, ?_⟩
      by_contra hboth
      obtain ⟨hn, hi⟩ := not_or.mp hboth
      obtain ⟨fn, hmem⟩ := hinit.mpr ((enters_iff h hf).mpr ⟨hn, hi⟩)
      cases hmem
    · rintro (⟨-, hor⟩ | ⟨hne, -⟩)
      · refine ⟨_, _, hrun, h.index, fun kind fn hmem => (nomatch hmem), ?_,
          fun act' ha => nomatch ha⟩
        rw [enters_iff h hf]
        constructor
        · rintro ⟨fn, hmem⟩
          cases hmem
        · rintro ⟨hn, hi⟩
          exact (hor.elim hn hi).elim
      · exact absurd rfl hne
  | some e =>
    cases hinit : c.cur.appInit with
    | none =>
      -- a NULL callback is called
      have hrun : appRun c (.process .goForword) = none := by
        simp [appRun, mainProcess, hf, hcur, hexit, hinit, call]
      constructor
      · rintro ⟨c', effs, hrun', -⟩
        rw [hrun] at hrun'
        cases hrun'
      · simp
    | some fn =>
      have hrun : appRun c (.process .goForword) =
          some ({ c with appExitFlag := 1 }, [.callback .init fn]) := by
        simp [appRun, mainProcess, hf, hcur, hexit, hinit, call]
      constructor
      · rintro ⟨c', effs, hrun', -, hcalls, -⟩
        rw [hrun] at hrun'
        cases hrun'
        obtain ⟨app, hmem, -⟩ := hcalls .init fn (List.mem_singleton.mpr rfl)
        refine .inr ⟨by simp, fun hn => ?_, by simp⟩
        rw [registered_nil hn] at hmem
        cases hmem
      · rintro (⟨hne, -⟩ | ⟨-, hn, -⟩)
        · cases hne
        · refine ⟨_, _, hrun, h.index, fun kind fn' hmem => ?_, ?_, fun act' ha => nomatch ha⟩
          · cases List.mem_singleton.mp hmem
            exact callback_registered h hn hinit
          · rw [enters_iff h hf, hinit]
            exact ⟨fun _ => ⟨hn, by simp⟩, fun _ => ⟨fn, List.mem_singleton.mpr rfl⟩⟩

theorem appOk_inside (h : ControllerInv c) (hf : c.appExitFlag ≠ 0) (act : Active) :
    AppOk c (.process act) ↔ c.appNum ≠ 0 ∧ c.cur.mainProcess ≠ none := by
  cases hproc : c.cur.mainProcess with
  | none =>
    have hrun : appRun c (.process act) = none := by
      simp [appRun, mainProcess, hf, hproc, call]
    constructor
    · rintro ⟨c', effs, hrun', -⟩
      rw [hrun] at hrun'
      cases hrun'
    · simp
  | some fn =>
    have hrun : appRun c (.process act) = some (c, [.callback .process fn]) := by
      simp [appRun, mainProcess, hf, hproc, call]
    constructor
    · rintro ⟨c', effs, hrun', -, hcalls, -⟩
      rw [hrun] at hrun'
      cases hrun'
      obtain ⟨app, hmem, -⟩ := hcalls .process fn (List.mem_singleton.mpr rfl)
      refine ⟨fun hn => ?_, by simp⟩
      rw [registered_nil hn] at hmem
      cases hmem
    · rintro ⟨hn, -⟩
      refine ⟨_, _, hrun, h.index, fun kind fn' hmem => ?_, ?_, fun act' _ h0 => absurd h0 hf⟩
      · cases List.mem_singleton.mp hmem
        exact callback_registered h hn hproc
      · constructor
        · rintro ⟨fn', hmem⟩
          cases List.mem_singleton.mp hmem
        · intro henters
          cases act <;> first | exact absurd henters.1 hf | exact henters.elim

theorem appOk_exit (h : ControllerInv c) :
    AppOk c .exit ↔ (c.appNum = 0 → c.cur.exitCallback = none) := by
  have hcur : (AppController.cur { c with appExitFlag := 0 }) = c.cur := rfl
  constructor
  · rintro ⟨c', effs, hrun, -, hcalls, -⟩ hn
    cases hexit : c.cur.exitCallback with
    | none => rfl
    | some fn =>
      simp only [appRun, appExit, hcur, hexit] at hrun
      cases hrun
      obtain ⟨app, hmem, -⟩ := hcalls .exit fn (by simp)
      rw [registered_nil hn] at hmem
      cases hmem
  · intro hnone
    refine ⟨_, _, rfl, h.index, fun kind fn hmem => ?_, ?_, trivial⟩
    · simp only [hcur] at hmem
      cases hexit : c.cur.exitCallback with
      | none => simp [hexit, AppController.display] at hmem
      | some e =>
        simp only [hexit, AppController.display, List.cons_append, List.nil_append, List.mem_cons,
          Effect.callback.injEq, reduceCtorEq, List.not_mem_nil, or_false] at hmem
        obtain ⟨rfl, rfl⟩ := hmem
        exact callback_registered h (fun hn => by simp [hnone hn] at hexit) hexit
    · constructor
      · rintro ⟨fn, hmem⟩
        simp only [hcur] at hmem
        cases hexit : c.cur.exitCallback <;> simp [hexit, AppController.display] at hmem
      · exact fun henters => henters.elim

theorem appOk_register (h : ControllerInv c) (app : Option AppObj) : AppOk c (.register app) := by
  refine ⟨_, _, rfl, ?_, fun kind fn hmem => (nomatch hmem), ?_, trivial⟩
  · have hi := h.index
    cases app with
    | none => exact hi
    | some app =>
      simp only [appRegister]
      split
      · exact hi
      · exact hi.imp id fun hlt => Nat.lt_succ_of_lt hlt
  · constructor
    · rintro ⟨fn, hmem⟩
      cases hmem
    · exact fun henters => henters.elim

theorem appOk_iff (h : ControllerInv c) (a : AppCall) : AppOk c a ↔ Prepared c a := by
  cases a with
  | register app => exact iff_of_true (appOk_register h app) trivial
  | exit => exact appOk_exit h
  | process act =>
    by_cases hf : c.appExitFlag = 0
    · simp only [Prepared, if_pos hf]
      cases act with
      | turnRight =>
        refine ⟨fun hok hn => ?_, fun hn => appOk_right h hn hf⟩
        obtain ⟨c', effs, hrun, -⟩ := hok
        simp [appRun, mainProcess, hf, modAppNum_empty hn] at hrun
      | turnLeft =>
        refine ⟨fun hok hn => ?_, fun hn => appOk_left h hn hf⟩
        obtain ⟨c', effs, hrun, -⟩ := hok
        simp [appRun, mainProcess, hf, modAppNum_empty hn] at hrun
      | goForword => exact appOk_goForword h hf
      | unknown =>
        exact iff_of_true ⟨c, [c.display .none false], by simp [appRun, mainProcess, hf], h.index,
          by simp [AppController.display], by simp [AppController.display, Enters],
          fun act' ha => nomatch ha⟩ trivial
      | other n =>
        exact iff_of_true ⟨c, [c.display .none false], by simp [appRun, mainProcess, hf], h.index,
          by simp [AppController.display], by simp [AppController.display, Enters],
          fun act' ha => nomatch ha⟩ trivial
    · simp only [Prepared, if_neg hf]
      exact appOk_inside h hf act

/-- No call registers more apps than there is room for. -/
theorem appRun_room {c' : AppController} {a : AppCall} {effs : List Effect}
    (hroom : c.appNum ≤ appMaxNum) (hrun : appRun c a = some (c', effs)) :
    c'.appNum ≤ appMaxNum := by
  cases a with
  | register app =>
    cases hrun
    cases app with
    | none => exact hroom
    | some app =>
      simp only [appRegister]
      split
      · exact hroom
      · rename_i hlegal
        by_contra hfull
        refine hlegal ?_
        rw [appIsLegal, if_neg (by simp), if_pos (by dsimp only at hfull; omega)]
        decide
  | exit =>
    cases hrun
    exact hroom
  | process act =>
    simp only [appRun, mainProcess] at hrun
    split at hrun
    · split at hrun
      · obtain ⟨i, -, hi⟩ := Option.bind_eq_some_iff.mp hrun
        cases hi
        exact hroom
      · obtain ⟨i, -, hi⟩ := Option.bind_eq_some_iff.mp hrun
        cases hi
        exact hroom
      · split at hrun
        · obtain ⟨eff, -, he⟩ := Option.bind_eq_some_iff.mp hrun
          cases he
          exact hroom
        · cases hrun
          exact hroom
      · cases hrun
        exact hroom
    · obtain ⟨eff, -, he⟩ := Option.bind_eq_some_iff.mp hrun
      cases he
      exact hroom

theorem AppOk.inv {c' : AppController} {a : AppCall} (h : ControllerInv c) (hok : AppOk c a)
    (hs : appStep c a = some c') : ControllerInv c' := by
  obtain ⟨c₁, effs, hrun, hindex, -⟩ := hok
  rw [appStep, hrun] at hs
  cases hs
  exact ⟨hindex, appRun_room h.room hrun⟩

end

/-- The controller does what it should in all calls of a run just when it is
prepared for all of them. -/
theorem appOk_along_iff (appList : Nat → AppObj) (appLoading : Nat) (calls : List AppCall) :
    Along appStep AppOk (.new appList appLoading) calls ↔
      Along appStep Prepared (.new appList appLoading) calls :=
  along_iff ControllerInv (fun _ a h => appOk_iff h a)
    (fun _ a _ h hq hs => ((appOk_iff h a).mpr hq).inv h hs) ⟨.inl rfl, Nat.zero_le _⟩ calls

/-- An app with an `app_init` and no `exit_callback` is entered without its
`app_init`; and with no app registered a turn divides by zero. -/
theorem app_entered_without_init :
    ¬ Along appStep AppOk (.new (fun _ => ⟨0, none, none, none⟩) 0)
        [.register (some ⟨0, some 1, some 2, none⟩), .process .goForword] ∧
      ¬ Along appStep AppOk (.new (fun _ => ⟨0, none, none, none⟩) 0)
        [.process .turnRight] := by
  constructor
  · rintro ⟨-, h₁⟩
    obtain ⟨⟨c', effs, hrun, -, -, hinit, -⟩, -⟩ := h₁ _ rfl
    cases hrun
    obtain ⟨fn, hmem⟩ := hinit.mpr ⟨rfl, ⟨0, some 1, some 2, none⟩, rfl, by decide⟩
    cases hmem
  · rintro ⟨⟨c', effs, hrun, -⟩, -⟩
    cases hrun

end Esp32Project.AppTask
