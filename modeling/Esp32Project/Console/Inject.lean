import Esp32Project.Console.Overlong
import Esp32Project.Lib.Reach

/-!
`node.input` (node.c), which puts a string into the line buffer of the console
as if it had been typed. It writes the end of the string one place too far and
leaves `line_position` behind that place.
-/

set_option autoImplicit false

namespace Esp32Project.Console
open Esp32Project.Lib

def inputLine (s : List UInt8) (line : Nat → UInt8) : Nat → UInt8 :=
  Function.update (fun i => s[i]?.getD (line i)) (s.length + 1) 0

def nodeInput (s : List UInt8) (l : Load) : Load :=
  if 0 < s.length ∧ s.length < luaMaxInput - 1 then
    if l.linePosition = 0 then { l with
      line := inputLine s l.line
      linePosition := (cString (inputLine s l.line)).length + 1
      done := true }
    else l
  else l

/-- A UART event, `lua_handle_input(true)`, or a call of `node.input`. -/
inductive ConsoleCall where
  | uart : List UInt8 → ConsoleCall
  | handle : ConsoleCall
  | input : List UInt8 → ConsoleCall
  deriving DecidableEq, Repr

def consoleStep (incomplete : List UInt8 → Bool) (rxBuffSize : Nat)
    (s : RcvMsgBuff × Load) : ConsoleCall → Option (RcvMsgBuff × Load)
  | .uart bytes => uartEvent incomplete rxBuffSize s bytes
  | .handle => some (s.1, dojob .esp32 incomplete s.2)
  | .input str => some (s.1, nodeInput str s.2)

/-- A string that waits for `dojob`: the editor at the time of the call, and the
bytes received since. -/
structure Pending where
  text : List UInt8
  before : Edit
  typed : List UInt8
  deriving DecidableEq, Repr

def Pending.edit (p : Pending) : Edit := p.typed.foldl editChar p.before

structure Session where
  console : RcvMsgBuff × Load
  pending : Option Pending

def Session.init : Session := ⟨(.init, .init), none⟩

def terminates : Edit → List UInt8 → Bool
  | _, [] => false
  | e, ch :: cs => (!secondOfPair e.lastNl ch && isNewline ch) || terminates (editChar e ch) cs

def injectable (s : List UInt8) : Bool :=
  0 < s.length && s.length < luaMaxInput - 1 && !s.contains 0

def nextPending (st : Session) : ConsoleCall → Option Pending
  | .uart bytes => st.pending.bind fun p =>
    if terminates p.edit bytes then none else some { p with typed := p.typed ++ bytes }
  | .handle => none
  | .input s =>
    if injectable s ∧ st.console.2.linePosition = 0 then
      some ⟨s, ⟨[], st.console.2.lastNlChar, []⟩, []⟩
    else st.pending

def sessionStep (incomplete : List UInt8 → Bool) (rxBuffSize : Nat) (st : Session)
    (c : ConsoleCall) : Option Session :=
  (consoleStep incomplete rxBuffSize st.console c).map fun s => ⟨s, nextPending st c⟩

/-- The string was run, and then the lines typed since: of what was typed behind
them nothing is lost. -/
def Ran (st st' : Session) (p : Pending) (bytes : List UInt8) : Prop :=
  st'.console.2.loader.lines =
      st.console.2.loader.lines ++ p.text :: (bytes.foldl editChar p.edit).lines ∧
    st'.console.2.linePosition = (bytes.foldl editChar p.edit).text.length

/-- What the call does to a string that waits, or makes one wait. -/
def InputServed (st st' : Session) : ConsoleCall → Prop
  | .uart bytes => ∀ p, st.pending = some p →
    if terminates p.edit bytes then Ran st st' p bytes
    else st'.console.2.loader = st.console.2.loader
  | .handle => ∀ p, st.pending = some p → Ran st st' p []
  | .input s => injectable s = true →
    if st.console.2.linePosition = 0 then
      st'.pending = some ⟨s, ⟨[], st.console.2.lastNlChar, []⟩, []⟩ ∧
        st'.console.2.loader = st.console.2.loader
    else st' = st

/-- The call does what it should, and no byte takes `line_position` behind the buffer. -/
def InputOk (incomplete : List UInt8 → Bool) (rxBuffSize : Nat) (st : Session)
    (c : ConsoleCall) : Prop :=
  ∃ st', sessionStep incomplete rxBuffSize st c = some st' ∧ InputServed st st' c ∧
    ∀ (bytes : List UInt8) (need : Bool),
      (bytes.foldl readChar (st'.console.2, need)).1.linePosition < luaMaxInput

def sparesAll (b : List UInt8) : Edit → List UInt8 → Bool
  | _, [] => true
  | e, ch :: cs => !closes e ch && spares b e ch && sparesAll b (editChar e ch) cs

/-- Behind the string nothing is closed and the string is spared: one backspace
only takes the NUL behind it. -/
def sparesInput (s : List UInt8) : Edit → List UInt8 → Bool
  | _, [] => true
  | e, ch :: cs =>
    if isErase ch && e.text.isEmpty then sparesAll s (editChar e ch) cs
    else !closes e ch && spares (s ++ [0]) e ch && sparesInput s (editChar e ch) cs

/-- While a string waits, it is spared and nothing typed is left when it is run;
and a string finds a NUL behind it in the buffer and does not end in a newline. -/
def Careful (rxBuffSize : Nat) (st : Session) : ConsoleCall → Prop
  | .uart bytes => ∀ p, st.pending = some p → bytes.length ≤ rxBuffSize ∧
    sparesInput p.text p.before (p.typed ++ bytes) = true ∧
    (terminates p.edit bytes = true → (bytes.foldl editChar p.edit).text = [])
  | .handle => ∀ p, st.pending = some p → p.edit.text = []
  | .input s => injectable s = true → st.console.2.linePosition = 0 →
    st.console.2.line s.length = 0 ∧ s.getLast? ≠ some lf

theorem readChar_need (l : Load) (need : Bool) (ch : UInt8) (h : l.linePosition ≠ 0) :
    readChar (l, need) ch = ((readChar (l, true) ch).1,
      need || (!secondOfPair l.lastNlChar ch && isNewline ch)) := by
  cases byteIs l.lastNlChar ch with
  | pair h₁ => simp [readChar_pair h₁, h₁]
  | erase h₁ h₂ =>
    have h₃ := isNewline_erase h₂
    simp [readChar_erase h₁ h₂, h₃]
  | newline h₁ h₂ h₃ => simp [readChar_newline h₁ h₂ h₃, h, h₁, h₃]
  | other h₁ h₂ h₃ =>
    by_cases hroom : l.linePosition + 1 < luaMaxInput
    · simp [readChar_other h₁ h₂ h₃ hroom, h₃]
    · simp [readChar_wrap h₁ h₂ h₃ (Nat.le_of_not_lt hroom), h₃]

/-- The string is held with its NUL or without, and the bytes to come spare it. -/
def Behind (l : Load) (e : Edit) (s bytes : List UInt8) : Prop :=
  (Closed l e (s ++ [0]) ∧ sparesInput s e bytes = true) ∨
    (Closed l e s ∧ sparesAll s e bytes = true)

section

variable {l : Load} {e : Edit} {s : List UInt8}

theorem Behind.position {bytes : List UInt8} (h : Behind l e s bytes) (hne : s ≠ []) :
    l.linePosition ≠ 0 := by
  have hlen := List.length_pos_iff.mpr hne
  rcases h with ⟨h, -⟩ | ⟨h, -⟩
  · rw [h.position, List.length_append]
    omega
  · rw [h.position]
    omega

theorem Behind.done {bytes : List UInt8} (h : Behind l e s bytes) : l.done = true := by
  rcases h with ⟨h, -⟩ | ⟨h, -⟩
  · exact h.done
  · exact h.done

theorem Behind.lastNl {bytes : List UInt8} (h : Behind l e s bytes) : l.lastNlChar = e.lastNl := by
  rcases h with ⟨h, -⟩ | ⟨h, -⟩
  · exact h.lastNl
  · exact h.lastNl

/-- A backspace with nothing typed takes the NUL behind the string. -/
theorem readChar_takesNul {ch : UInt8} (h : Closed l e (s ++ [0])) (hb : isErase ch = true)
    (htext : e.text = []) :
    ∃ l', readChar (l, true) ch = (l', true) ∧ Closed l' (editChar e ch) s ∧
      l'.loader = l.loader := by
  obtain ⟨hdone, hpos, hline, -, hlast, hroom⟩ := h
  have h₁ : secondOfPair e.lastNl ch = false := by
    cases h₁ : secondOfPair e.lastNl ch with
    | false => rfl
    | true =>
      rw [isErase_pair h₁] at hb
      cases hb
  rw [htext, List.length_nil, Nat.add_zero, List.length_append, List.length_singleton] at hpos hroom
  rw [readChar_erase (hlast ▸ h₁) hb, editChar_erase h₁ hb, htext]
  refine ⟨_, rfl, ⟨hdone, by simp [hpos], fun i c hi => ?_, fun _ => by simp [hpos], rfl, ?_⟩, rfl⟩
  · have hi' : s[i]? = some c := by simpa using hi
    have hlt : i < s.length := (List.getElem?_eq_some_iff.mp hi').1
    dsimp only
    rw [Function.update_of_ne (by omega)]
    exact hline i c (by rw [htext, List.append_nil, List.getElem?_append_left hlt, hi'])
  · simp only [List.dropLast_nil, List.length_nil]
    omega

theorem Behind.readChar {ch : UInt8} {cs : List UInt8} (h : Behind l e s (ch :: cs))
    (hne : s ≠ []) :
    ∃ l', (∀ need, Console.readChar (l, need) ch =
        (l', need || (!secondOfPair e.lastNl ch && isNewline ch))) ∧
      Behind l' (editChar e ch) s cs ∧ l'.loader = l.loader ∧ (editChar e ch).lines = e.lines := by
  have hneed := fun need => readChar_need l need ch (h.position hne)
  rw [h.lastNl] at hneed
  rcases h with ⟨hcl, hs⟩ | ⟨hcl, hs⟩
  · rw [sparesInput] at hs
    split at hs
    · rename_i hb
      obtain ⟨hb, htext⟩ := (Bool.and_eq_true _ _).mp hb
      replace htext : e.text = [] := by simpa using htext
      obtain ⟨l', hr, hcl', hld⟩ := readChar_takesNul hcl hb htext
      rw [hr] at hneed
      exact ⟨l', hneed, .inr ⟨hcl', hs⟩, hld, editChar_lines (by simp [closes, htext])⟩
    · simp only [Bool.and_eq_true, Bool.not_eq_true'] at hs
      obtain ⟨⟨hc, hspare⟩, hrest⟩ := hs
      obtain ⟨l', hr, hcl', hld⟩ := readChar_closed hcl (by simp) hc hspare
      rw [hr] at hneed
      exact ⟨l', hneed, .inl ⟨hcl', hrest⟩, hld, editChar_lines hc⟩
  · simp only [sparesAll, Bool.and_eq_true, Bool.not_eq_true'] at hs
    obtain ⟨⟨hc, hspare⟩, hrest⟩ := hs
    obtain ⟨l', hr, hcl', hld⟩ := readChar_closed hcl hne hc hspare
    rw [hr] at hneed
    exact ⟨l', hneed, .inr ⟨hcl', hrest⟩, hld, editChar_lines hc⟩

theorem Behind.foldl {cs ds : List UInt8} (h : Behind l e s (cs ++ ds)) (hne : s ≠ []) :
    ∃ l', (∀ need, cs.foldl Console.readChar (l, need) = (l', need || terminates e cs)) ∧
      Behind l' (cs.foldl editChar e) s ds ∧ l'.loader = l.loader ∧
      (cs.foldl editChar e).lines = e.lines := by
  induction cs generalizing l e with
  | nil => exact ⟨l, fun need => by simp [terminates], h, rfl, rfl⟩
  | cons c cs ih =>
    obtain ⟨l₁, hr₁, h₁, hld₁, hlines₁⟩ := h.readChar hne
    obtain ⟨l₂, hr₂, h₂, hld₂, hlines₂⟩ := ih h₁
    refine ⟨l₂, fun need => ?_, h₂, hld₂.trans hld₁, hlines₂.trans hlines₁⟩
    rw [List.foldl_cons, hr₁, hr₂, terminates, Bool.or_assoc]

theorem Behind.jobLine (h : Behind l e s []) (htext : e.text = []) (hnul : (0 : UInt8) ∉ s)
    (hlast : s.getLast? ≠ some lf) : Console.jobLine l = s := by
  have hs : cString l.line = s := by
    rcases h with ⟨h, -⟩ | ⟨h, -⟩
    · rw [cString_closed h htext, List.takeWhile_append, takeWhile_noNul hnul, if_pos rfl]
      simp
    · rw [cString_closed h htext, takeWhile_noNul hnul]
  rw [Console.jobLine, hs, if_neg hlast]

end

theorem nodeInput_closed {l : Load} {s : List UInt8} (hs : injectable s = true)
    (hpos : l.linePosition = 0) (hline : l.line s.length = 0) :
    Closed (nodeInput s l) ⟨[], l.lastNlChar, []⟩ (s ++ [0]) ∧
      (nodeInput s l).loader = l.loader := by
  simp only [injectable, Bool.and_eq_true, Bool.not_eq_true', decide_eq_true_eq] at hs
  obtain ⟨⟨hlo, hhi⟩, hnul⟩ := hs
  have hroom : (s ++ [0]).length + ([] : List UInt8).length < luaMaxInput := by
    simp only [List.length_append, List.length_singleton, List.length_nil]
    omega
  have hline' : ∀ i c, (s ++ [0] ++ [])[i]? = some c → inputLine s l.line i = c := by
    intro i c hi
    rw [List.append_nil] at hi
    have hlt := (List.getElem?_eq_some_iff.mp hi).1
    rw [List.length_append, List.length_singleton] at hlt
    rw [inputLine, Function.update_of_ne (by omega)]
    rcases Nat.lt_or_ge i s.length with hi' | hi'
    · rw [List.getElem?_append_left hi'] at hi
      rw [hi, Option.getD_some]
    · obtain rfl : i = s.length := by omega
      rw [List.getElem?_append_right (Nat.le_refl _), Nat.sub_self] at hi
      rw [List.getElem?_eq_none (Nat.le_refl _), Option.getD_none, hline]
      simpa using hi
  have hstop : inputLine s l.line (s ++ [0]).length = 0 := by
    rw [inputLine, List.length_append, List.length_singleton, Function.update_self]
  have hclosed : Closed { l with
      line := inputLine s l.line
      linePosition := s.length + 1
      done := true } ⟨[], l.lastNlChar, []⟩ (s ++ [0]) :=
    ⟨rfl, by simp, hline', fun _ => hstop, rfl, hroom⟩
  have hstring : cString (inputLine s l.line) = s := by
    rw [cString_closed hclosed rfl, List.takeWhile_append,
      takeWhile_noNul (by simpa using hnul), if_pos rfl]
    simp
  rw [nodeInput, if_pos ⟨hlo, hhi⟩, if_pos hpos, hstring]
  exact ⟨hclosed, rfl⟩

theorem nodeInput_position {l : Load} {s : List UInt8} (h : l.linePosition < luaMaxInput)
    (hline : injectable s = true → l.linePosition = 0 → l.line s.length = 0) :
    (nodeInput s l).linePosition < luaMaxInput := by
  by_cases hpos : l.linePosition = 0
  · by_cases hs : injectable s = true
    · have hc := (nodeInput_closed hs hpos (hline hs hpos)).1
      rw [hc.position]
      exact hc.room
    · by_cases hlen : 0 < s.length ∧ s.length < luaMaxInput - 1
      · -- the string is cut at its first NUL
        have hnul : (0 : UInt8) ∈ s := by simpa [injectable, hlen] using hs
        obtain ⟨i, hi, hb⟩ := List.mem_iff_getElem.mp hnul
        have hzero : inputLine s l.line i = 0 := by
          rw [inputLine, Function.update_of_ne (by omega), List.getElem?_eq_getElem hi,
            Option.getD_some, hb]
        have hle := cString_le hzero
        rw [nodeInput, if_pos hlen, if_pos hpos]
        dsimp only
        omega
      · rw [nodeInput, if_neg hlen]
        exact h
  · rw [nodeInput, if_neg hpos, ite_self]
    exact h

theorem receive_any {n : Nat} {r : RcvMsgBuff} {q : List UInt8} (bytes : List UInt8)
    (h : Holds n r q) : ∃ q', Holds n (bytes.foldl (rcvChar n) r) q' := by
  induction bytes generalizing r q with
  | nil => exact ⟨q, h⟩
  | cons c cs ih => exact ih (rcvChar_holds h c)

theorem uartEvent_total (incomplete : List UInt8 → Bool) {n : Nat}
    {s : RcvMsgBuff × Load} (bytes : List UInt8) (h : Holds n s.1 []) :
    ∃ s', uartEvent incomplete n s bytes = some s' ∧ Holds n s'.1 [] := by
  unfold uartEvent
  split
  · exact ⟨s, rfl, h⟩
  · obtain ⟨q, hq⟩ := receive_any bytes h
    obtain ⟨r', hr, hring⟩ :=
      readline_drains (s := (s.2, false)) hq (Nat.lt_succ_of_le hq.length_le)
    rw [hr]
    exact ⟨_, rfl, hring⟩

structure Waits (l : Load) (p : Pending) : Prop where
  nonempty : p.text ≠ []
  noNul : (0 : UInt8) ∉ p.text
  noLf : p.text.getLast? ≠ some lf
  fresh : p.before.lines = []
  spared : sparesInput p.text p.before p.typed = true
  held : ∃ l₀, Closed l₀ p.before (p.text ++ [0]) ∧ l₀.loader = l.loader ∧
    ∀ need, (p.typed.foldl readChar (l₀, need)).1 = l

structure SessionInv (n : Nat) (st : Session) : Prop where
  ring : Holds n st.console.1 []
  position : st.console.2.linePosition < luaMaxInput
  waits : ∀ p, st.pending = some p → Waits st.console.2 p

theorem sessionInv_init (n : Nat) : SessionInv n .init :=
  ⟨holds_init n, by decide, fun p h => nomatch h⟩

theorem Waits.receive {l : Load} {p : Pending} (bytes : List UInt8) (h : Waits l p)
    (hs : sparesInput p.text p.before (p.typed ++ bytes) = true) :
    ∃ l', (∀ need, bytes.foldl readChar (l, need) = (l', need || terminates p.edit bytes)) ∧
      Behind l' (bytes.foldl editChar p.edit) p.text [] ∧ l'.loader = l.loader ∧
      (bytes.foldl editChar p.edit).lines = [] ∧
      Waits l' { p with typed := p.typed ++ bytes } := by
  obtain ⟨hne, hnul, hlf, hfresh, -, l₀, hcl, hld₀, hl⟩ := h
  have hb₀ : Behind l₀ p.before p.text (p.typed ++ bytes) := .inl ⟨hcl, hs⟩
  obtain ⟨l₁, hr₁, hb₁, hld₁, hlines₁⟩ := hb₀.foldl hne
  obtain rfl : l = l₁ := by rw [← hl true, hr₁ true]
  obtain ⟨l₂, hr₂, hb₂, hld₂, hlines₂⟩ :=
    (show Behind l p.edit p.text (bytes ++ []) by rwa [List.append_nil]).foldl hne
  refine ⟨l₂, hr₂, hb₂, hld₂, hlines₂.trans (hlines₁.trans hfresh), hne, hnul, hlf, hfresh, hs,
    l₀, hcl, hld₀.trans hld₂.symm, fun need => ?_⟩
  rw [List.foldl_append, hr₁ need, hr₂]

theorem dojob_ran {l l' : Load} {p : Pending} {bytes : List UInt8}
    (incomplete : List UInt8 → Bool) (h : Waits l p)
    (hb : Behind l' (bytes.foldl editChar p.edit) p.text [])
    (hld : l'.loader = l.loader) (hlines : (bytes.foldl editChar p.edit).lines = [])
    (htext : (bytes.foldl editChar p.edit).text = []) (r r' : RcvMsgBuff) (o o' : Option Pending) :
    Ran ⟨(r, l), o⟩ ⟨(r', dojob .esp32 incomplete l'), o'⟩ p bytes := by
  obtain ⟨pr, hjob⟩ := dojob_done .esp32 incomplete hb.done
  rw [hb.jobLine htext h.noNul h.noLf] at hjob
  constructor
  · simp only [hjob, Load.send, loadLine_lines, hld, hlines]
  · simp only [hjob, Load.send, htext, List.length_nil]

theorem inputOk_uart {incomplete : List UInt8 → Bool} {n : Nat} {st : Session}
    (h : SessionInv n st) {bytes : List UInt8} (hcare : Careful n st (.uart bytes)) :
    ∃ st', sessionStep incomplete n st (.uart bytes) = some st' ∧
      InputServed st st' (.uart bytes) ∧ SessionInv n st' := by
  obtain ⟨⟨r, l⟩, pending⟩ := st
  obtain ⟨hring, hpos, hwaits⟩ := h
  cases pending with
  | none =>
    obtain ⟨s', hs', hring'⟩ := uartEvent_total incomplete bytes hring
    refine ⟨⟨s', none⟩, ?_, fun p hp => (nomatch hp), hring', uartEvent_position hpos hs',
      fun p hp => nomatch hp⟩
    simp only [sessionStep, consoleStep, hs', Option.map_some]
    rfl
  | some p =>
    obtain ⟨hlen, hs, htext⟩ := hcare p rfl
    have hw := hwaits p rfl
    obtain ⟨l', hr, hb, hld, hlines, hw'⟩ := hw.receive bytes hs
    obtain ⟨r', hev, hring'⟩ := uartEvent_eq incomplete bytes hring hlen
    rw [luaHandleInput_eq (hr false), Bool.false_or] at hev
    refine ⟨⟨_, nextPending _ (.uart bytes)⟩, by rw [sessionStep, consoleStep, hev]; rfl,
      fun q hq => ?_, hring', uartEvent_position hpos hev, fun q hq => ?_⟩
    · obtain rfl : p = q := Option.some.inj hq
      split
      · rename_i hterm
        exact dojob_ran incomplete hw hb hld hlines (htext hterm) _ _ _ _
      · exact hld
    · simp only [nextPending, Option.bind_some] at hq
      split at hq
      · cases hq
      · rename_i hterm
        obtain rfl := Option.some.inj hq
        rw [if_neg hterm]
        exact hw'

theorem inputOk_handle {incomplete : List UInt8 → Bool} {n : Nat} {st : Session}
    (h : SessionInv n st) (hcare : Careful n st .handle) :
    ∃ st', sessionStep incomplete n st .handle = some st' ∧
      InputServed st st' .handle ∧ SessionInv n st' := by
  obtain ⟨⟨r, l⟩, pending⟩ := st
  obtain ⟨hring, -, hwaits⟩ := h
  refine ⟨_, rfl, fun p hp => ?_, hring, ?_, fun p hp => nomatch hp⟩
  · have hw := hwaits p hp
    obtain ⟨l', hr, hb, hld, hlines, -⟩ := hw.receive []
      (by rw [List.append_nil]; exact hw.spared)
    obtain rfl : l = l' := congrArg Prod.fst (hr true)
    exact dojob_ran incomplete hw hb hld hlines (hcare p hp) _ _ _ _
  · exact (by decide : 0 < luaMaxInput)

theorem inputOk_input {incomplete : List UInt8 → Bool} {n : Nat} {st : Session}
    (h : SessionInv n st) {s : List UInt8} (hcare : Careful n st (.input s)) :
    ∃ st', sessionStep incomplete n st (.input s) = some st' ∧
      InputServed st st' (.input s) ∧ SessionInv n st' := by
  obtain ⟨⟨r, l⟩, pending⟩ := st
  obtain ⟨hring, hpos, hwaits⟩ := h
  have hpos' := nodeInput_position hpos fun hs h0 => (hcare hs h0).1
  refine ⟨_, rfl, fun hs => ?_, hring, hpos', fun p hp => ?_⟩
  · by_cases h0 : l.linePosition = 0
    · have hc := (nodeInput_closed hs h0 (hcare hs h0).1).2
      rw [if_pos h0]
      exact ⟨if_pos ⟨hs, h0⟩, hc⟩
    · rw [if_neg h0, nodeInput, if_neg h0, ite_self]
      simp only [nextPending, h0, and_false, if_false]
  · simp only [nextPending] at hp
    by_cases h0 : l.linePosition = 0
    · split at hp
      · rename_i hs
        obtain rfl := Option.some.inj hp
        obtain ⟨hline, hlf⟩ := hcare hs.1 h0
        obtain ⟨hcl, hld⟩ := nodeInput_closed hs.1 h0 hline
        have hs' := hs.1
        simp only [injectable, Bool.and_eq_true, Bool.not_eq_true', decide_eq_true_eq] at hs'
        exact ⟨List.length_pos_iff.mp hs'.1.1, by simpa using hs'.2, hlf, rfl, rfl,
          _, hcl, rfl, fun _ => rfl⟩
      · -- no string waits while the line is empty
        have hw := hwaits p hp
        obtain ⟨l', hr, hb, -⟩ := hw.receive []
          (by rw [List.append_nil]; exact hw.spared)
        obtain rfl : l = l' := congrArg Prod.fst (hr true)
        exact absurd h0 (hb.position hw.nonempty)
    · rw [if_neg (fun hs => h0 hs.2)] at hp
      rw [nodeInput, if_neg h0, ite_self]
      exact hwaits p hp

theorem inputOk_step {incomplete : List UInt8 → Bool} {n : Nat} {st : Session}
    {c : ConsoleCall} (h : SessionInv n st) (hcare : Careful n st c) :
    ∃ st', sessionStep incomplete n st c = some st' ∧ InputServed st st' c ∧
      SessionInv n st' := by
  cases c with
  | uart bytes => exact inputOk_uart h hcare
  | handle => exact inputOk_handle h hcare
  | input s => exact inputOk_input h hcare

/-- In a run whose calls are all careful, every string that `node.input` takes is
what the next job runs, and the bytes in between come to their due. -/
theorem input_along (incomplete : List UInt8 → Bool) (rxBuffSize : Nat)
    (calls : List ConsoleCall)
    (h : Along (sessionStep incomplete rxBuffSize) (Careful rxBuffSize) .init calls) :
    Along (sessionStep incomplete rxBuffSize) (InputOk incomplete rxBuffSize) .init
      calls := by
  refine Along.of_guard (SessionInv rxBuffSize) (fun st c hinv hcare => ?_)
    (fun st c st' hinv hcare hs => ?_) (sessionInv_init rxBuffSize) h
  · obtain ⟨st', hs, hserved, hinv'⟩ := inputOk_step hinv hcare
    exact ⟨st', hs, hserved, fun bytes need => foldl_position bytes hinv'.position⟩
  · obtain ⟨st₁, hs₁, -, hinv₁⟩ := inputOk_step hinv hcare
    obtain rfl : st₁ = st' := Option.some.inj (hs₁.symm.trans hs)
    exact hinv₁

/-- A character typed behind the string and taken back. -/
theorem input_along_session :
    Along (sessionStep (fun _ => false) 1024) (InputOk (fun _ => false) 1024) .init
      [.input [0x61], .uart [0x62, 0x08, lf]] := by
  refine input_along _ _ _ ⟨fun _ _ => ⟨rfl, by decide⟩, fun s' hs => ⟨fun p hp => ?_, ?_⟩⟩
  · obtain rfl := Option.some.inj hs
    obtain rfl := Option.some.inj hp
    decide
  · exact fun _ _ => trivial

/-- A line typed behind the string is lost. -/
theorem input_loses_line :
    ¬ ∀ calls : List ConsoleCall, Along (sessionStep (fun _ => false) 1024)
      (InputOk (fun _ => false) 1024) .init calls := by
  intro h
  obtain ⟨-, h₁⟩ := h [.input [0x78], .uart [0x61, 0x62, lf]]
  obtain ⟨⟨st', hs, hserved, -⟩, -⟩ := h₁
    ⟨(.init, nodeInput [0x78] .init), some ⟨[0x78], ⟨[], 0, []⟩, []⟩⟩ rfl
  have hlines := (hserved _ rfl).1
  have hrun : (sessionStep (fun _ => false) 1024
      ⟨(.init, nodeInput [0x78] .init), some ⟨[0x78], ⟨[], 0, []⟩, []⟩⟩
      (.uart [0x61, 0x62, lf])).map (·.console.2.loader.lines) = some [[0x78]] := by decide +kernel
  rw [hs, Option.map_some, Option.some.injEq] at hrun
  rw [hrun] at hlines
  revert hlines
  decide

end Esp32Project.Console
