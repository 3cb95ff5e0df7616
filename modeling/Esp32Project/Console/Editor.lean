import Esp32Project.Console.Line
import Mathlib.Data.List.Infix

/-!
What a console is for: a line editor that takes one byte after the other and
closes a line at each terminator. `readline` follows it until a line is closed,
and keeps it as long as nothing but terminators comes after.
-/

set_option autoImplicit false

namespace Esp32Project.Console
open Esp32Project.Lib

/-- The line being typed, the terminator just seen, and the lines closed. -/
structure Edit where
  text : List UInt8
  lastNl : UInt8
  lines : List (List UInt8)
  deriving DecidableEq, Repr

def Edit.init : Edit := ⟨[], 0, []⟩

/-- One byte: a backspace takes the last character back, and a terminator
closes the line unless it is empty or the second byte of a pair. -/
def editChar (e : Edit) (ch : UInt8) : Edit :=
  if secondOfPair e.lastNl ch then { e with lastNl := 0 }
  else if isErase ch then { e with text := e.text.dropLast, lastNl := 0 }
  else if isNewline ch then
    if e.text = [] then { e with lastNl := ch } else ⟨[], ch, e.lines ++ [e.text]⟩
  else { e with text := e.text ++ [ch], lastNl := 0 }

def edit (bytes : List UInt8) : Edit := bytes.foldl editChar .init

example : (edit [97, 98]).text = [97, 98] := by decide +kernel

def closes (e : Edit) (ch : UInt8) : Bool :=
  !secondOfPair e.lastNl ch && isNewline ch && e.text != []

/-- `readline` holds the line being typed. -/
structure Typing (l : Load) (e : Edit) : Prop where
  done : l.done = false
  position : l.linePosition = e.text.length
  text : ∀ i b, e.text[i]? = some b → l.line i = b
  lastNl : l.lastNlChar = e.lastNl

/-- `readline` holds a closed line `b` that `dojob` has not seen, with what was
typed behind it. -/
structure Closed (l : Load) (e : Edit) (b : List UInt8) : Prop where
  done : l.done = true
  position : l.linePosition = b.length + e.text.length
  text : ∀ i c, (b ++ e.text)[i]? = some c → l.line i = c
  stop : e.text = [] → l.line b.length = 0
  lastNl : l.lastNlChar = e.lastNl
  room : b.length + e.text.length < luaMaxInput

/-- `readline` has lost a part of the closed line `b`. -/
structure Spoiled (l : Load) (e : Edit) (b : List UInt8) : Prop where
  done : l.done = true
  position : l.linePosition < b.length + e.text.length
  stop : e.text = [] → l.line l.linePosition = 0
  lastNl : l.lastNlChar = e.lastNl

/-- Behind a closed line `b`: no backspace that reaches into the line, and room for both. -/
def spares (b : List UInt8) (e : Edit) (ch : UInt8) : Bool :=
  !(isErase ch && e.text.isEmpty) && b.length + (editChar e ch).text.length < luaMaxInput

theorem typing_init : Typing .init .init := ⟨rfl, rfl, by simp [Edit.init], rfl⟩

section

variable {l : Load} {e : Edit} {ch : UInt8} {need : Bool} {b : List UInt8}

theorem readChar_pair (h : secondOfPair l.lastNlChar ch = true) :
    readChar (l, need) ch = ({ l with lastNlChar := 0 }, need) := by
  simp only [readChar, h, if_true]

theorem editChar_pair (h : secondOfPair e.lastNl ch = true) :
    editChar e ch = { e with lastNl := 0 } := by
  simp only [editChar, h, if_true]

theorem readChar_erase (h : secondOfPair l.lastNlChar ch = false) (hb : isErase ch = true) :
    readChar (l, need) ch = ({ l with
      lastNlChar := 0
      linePosition := l.linePosition - 1
      line := Function.update l.line (l.linePosition - 1) 0
      tx := if 0 < l.linePosition then l.tx ++ [.erase] else l.tx }, need) := by
  simp only [readChar, h, hb, Load.send]
  by_cases h0 : 0 < l.linePosition
  · simp [h0]
  · obtain hz : l.linePosition = 0 := by omega
    simp [hz]

theorem editChar_erase (h : secondOfPair e.lastNl ch = false) (hb : isErase ch = true) :
    editChar e ch = { e with text := e.text.dropLast, lastNl := 0 } := by
  simp [editChar, h, hb]

theorem readChar_newline (h : secondOfPair l.lastNlChar ch = false) (hb : isErase ch = false)
    (hn : isNewline ch = true) : readChar (l, need) ch = ({ l with
      lastNlChar := ch
      line := Function.update l.line l.linePosition 0
      done := l.done || l.linePosition != 0
      tx := l.tx ++ .newline :: if l.linePosition = 0 then [.prompt l.prmt] else [] },
      need || l.linePosition != 0) := by
  simp only [readChar, h, hb, hn, Load.send]
  by_cases h0 : l.linePosition = 0
  · simp [h0]
  · simp [h0]

theorem editChar_newline (h : secondOfPair e.lastNl ch = false) (hb : isErase ch = false)
    (hn : isNewline ch = true) : editChar e ch =
      if e.text = [] then { e with lastNl := ch } else ⟨[], ch, e.lines ++ [e.text]⟩ := by
  simp [editChar, h, hb, hn]

theorem readChar_other (h : secondOfPair l.lastNlChar ch = false) (hb : isErase ch = false)
    (hn : isNewline ch = false) (hroom : l.linePosition + 1 < luaMaxInput) :
    readChar (l, need) ch = ({ l with
      lastNlChar := 0
      line := Function.update l.line l.linePosition ch
      linePosition := l.linePosition + 1
      tx := l.tx ++ [.echo ch] }, need) := by
  simp [readChar, h, hb, hn, Load.send, Nat.not_le.mpr hroom]

theorem readChar_wrap (h : secondOfPair l.lastNlChar ch = false) (hb : isErase ch = false)
    (hn : isNewline ch = false) (hroom : luaMaxInput ≤ l.linePosition + 1) :
    readChar (l, need) ch = ({ l with
      lastNlChar := 0
      line := Function.update l.line 0 ch
      linePosition := 1
      tx := l.tx ++ [.echo ch] }, need) := by
  simp [readChar, h, hb, hn, Load.send, hroom]

theorem editChar_other (h : secondOfPair e.lastNl ch = false) (hb : isErase ch = false)
    (hn : isNewline ch = false) :
    editChar e ch = { e with text := e.text ++ [ch], lastNl := 0 } := by
  simp [editChar, h, hb, hn]

theorem isErase_newline (hn : isNewline ch = true) : isErase ch = false := by
  simp only [isNewline, Bool.or_eq_true, beq_iff_eq] at hn
  rcases hn with rfl | rfl <;> decide

theorem isNewline_erase (hb : isErase ch = true) : isNewline ch = false := by
  cases hn : isNewline ch with
  | false => rfl
  | true =>
    rw [isErase_newline hn] at hb
    cases hb

theorem isErase_pair {lastNl : UInt8} (h : secondOfPair lastNl ch = true) :
    isErase ch = false := by
  simp only [secondOfPair, Bool.or_eq_true, Bool.and_eq_true, beq_iff_eq] at h
  rcases h with ⟨rfl, -⟩ | ⟨rfl, -⟩ <;> decide

inductive ByteIs (lastNl ch : UInt8) : Prop where
  | pair : secondOfPair lastNl ch = true → ByteIs lastNl ch
  | erase : secondOfPair lastNl ch = false → isErase ch = true → ByteIs lastNl ch
  | newline : secondOfPair lastNl ch = false → isErase ch = false → isNewline ch = true →
      ByteIs lastNl ch
  | other : secondOfPair lastNl ch = false → isErase ch = false → isNewline ch = false →
      ByteIs lastNl ch

theorem byteIs (lastNl ch : UInt8) : ByteIs lastNl ch := by
  cases h₁ : secondOfPair lastNl ch with
  | true => exact .pair h₁
  | false =>
    cases h₂ : isErase ch with
    | true => exact .erase h₁ h₂
    | false =>
      cases h₃ : isNewline ch with
      | true => exact .newline h₁ h₂ h₃
      | false => exact .other h₁ h₂ h₃

theorem readChar_typing (need : Bool) (h : Typing l e)
    (hfit : (editChar e ch).text.length < luaMaxInput) (hc : closes e ch = false) :
    ∃ l', readChar (l, need) ch = (l', need) ∧ Typing l' (editChar e ch) ∧
      l'.loader = l.loader ∧ (editChar e ch).lines = e.lines := by
  obtain ⟨hdone, hpos, htext, hlast⟩ := h
  cases byteIs e.lastNl ch with
  | pair h₁ =>
    rw [readChar_pair (hlast ▸ h₁), editChar_pair h₁]
    exact ⟨_, rfl, ⟨hdone, hpos, htext, rfl⟩, rfl, rfl⟩
  | erase h₁ h₂ =>
    rw [readChar_erase (hlast ▸ h₁) h₂, editChar_erase h₁ h₂]
    refine ⟨_, rfl, ⟨hdone, ?_, fun i b hi => ?_, rfl⟩, rfl, rfl⟩
    · simp [hpos]
    · obtain ⟨hlt, -⟩ := List.getElem?_eq_some_iff.mp hi
      rw [List.length_dropLast] at hlt
      simp only at hi ⊢
      rw [Function.update_of_ne (by omega)]
      rw [List.getElem?_dropLast, if_pos (by omega)] at hi
      exact htext i b hi
  | newline h₁ h₂ h₃ =>
    have hnil : e.text = [] := by simpa [closes, h₁, h₃] using hc
    have h0 : l.linePosition = 0 := by simp [hpos, hnil]
    rw [readChar_newline (hlast ▸ h₁) h₂ h₃, editChar_newline h₁ h₂ h₃, if_pos hnil]
    refine ⟨_, Prod.ext rfl (by simp [h0]), ⟨?_, hpos, by simp [hnil], rfl⟩, rfl, rfl⟩
    simp [hdone, h0]
  | other h₁ h₂ h₃ =>
    rw [editChar_other h₁ h₂ h₃] at hfit ⊢
    simp only [List.length_append, List.length_singleton] at hfit
    rw [readChar_other (hlast ▸ h₁) h₂ h₃ (by omega)]
    refine ⟨_, rfl, ⟨hdone, by simp [hpos], fun i b hi => ?_, rfl⟩, rfl, rfl⟩
    simp only at hi ⊢
    rcases Nat.lt_trichotomy i e.text.length with hlt | rfl | hgt
    · rw [Function.update_of_ne (by omega)]
      exact htext i b (by rwa [List.getElem?_append_left hlt] at hi)
    · rw [hpos, Function.update_self]
      simpa using hi
    · simp [List.getElem?_append_right (Nat.le_of_lt hgt), Nat.sub_ne_zero_of_lt hgt] at hi

theorem readChar_closes (need : Bool) (h : Typing l e) (hfit : e.text.length < luaMaxInput)
    (hc : closes e ch = true) :
    ∃ l', readChar (l, need) ch = (l', true) ∧ Closed l' (editChar e ch) e.text ∧
      l'.loader = l.loader ∧ (editChar e ch).lines = e.lines ++ [e.text] := by
  obtain ⟨hdone, hpos, htext, hlast⟩ := h
  simp only [closes, Bool.and_eq_true, Bool.not_eq_true', bne_iff_ne, ne_eq] at hc
  obtain ⟨⟨h₁, h₃⟩, hne⟩ := hc
  have h0 : l.linePosition ≠ 0 := by simpa [hpos] using hne
  have h₂ := isErase_newline h₃
  rw [readChar_newline (hlast ▸ h₁) h₂ h₃, editChar_newline h₁ h₂ h₃, if_neg hne]
  refine ⟨_, Prod.ext rfl (by simp [h0]), ?_, rfl, rfl⟩
  refine ⟨by simp [h0], hpos, fun i c hi => ?_, fun _ => by simp [hpos], rfl, hfit⟩
  rw [List.append_nil] at hi
  obtain ⟨hlt, -⟩ := List.getElem?_eq_some_iff.mp hi
  simp only
  rw [Function.update_of_ne (by omega)]
  exact htext i c hi

theorem editChar_lines (hc : closes e ch = false) : (editChar e ch).lines = e.lines := by
  unfold editChar
  split
  · rfl
  split
  · rfl
  split
  · rename_i h₁ h₂ h₃
    have hnil : e.text = [] := by simpa [closes, h₁, h₃] using hc
    rw [if_pos hnil]
  · rfl

theorem readChar_closed (h : Closed l e b) (hne : b ≠ []) (hc : closes e ch = false)
    (hs : spares b e ch = true) :
    ∃ l', readChar (l, true) ch = (l', true) ∧ Closed l' (editChar e ch) b ∧
      l'.loader = l.loader := by
  obtain ⟨hdone, hpos, htext, hstop, hlast, hroom⟩ := h
  simp only [spares, Bool.and_eq_true, Bool.not_eq_true', decide_eq_true_eq] at hs
  obtain ⟨hkeep, hroom'⟩ := hs
  have hlen : 0 < b.length := List.length_pos_iff.mpr hne
  cases byteIs e.lastNl ch with
  | pair h₁ =>
    rw [readChar_pair (hlast ▸ h₁), editChar_pair h₁]
    exact ⟨_, rfl, ⟨hdone, hpos, htext, hstop, rfl, hroom⟩, rfl⟩
  | erase h₁ h₂ =>
    have htyped : e.text ≠ [] := by simpa [h₂] using hkeep
    have hpos' : 0 < e.text.length := List.length_pos_iff.mpr htyped
    rw [editChar_erase h₁ h₂] at hroom' ⊢
    rw [readChar_erase (hlast ▸ h₁) h₂]
    refine ⟨_, rfl, ⟨hdone, ?_, fun i c hi => ?_, fun hnil => ?_, rfl, hroom'⟩, rfl⟩
    · simp only [List.length_dropLast, hpos]
      omega
    · rw [← List.dropLast_append_of_ne_nil htyped] at hi
      obtain ⟨hlt, -⟩ := List.getElem?_eq_some_iff.mp hi
      simp only [List.length_dropLast, List.length_append] at hlt
      simp only
      rw [Function.update_of_ne (by omega)]
      rw [List.getElem?_dropLast, if_pos (by simp only [List.length_append]; omega)] at hi
      exact htext i c hi
    · have hone : e.text.length = 1 := by
        have := congrArg List.length hnil
        simp only [List.length_dropLast, List.length_nil] at this
        omega
      simp [hpos, hone]
  | newline h₁ h₂ h₃ =>
    have hnil : e.text = [] := by simpa [closes, h₁, h₃] using hc
    rw [editChar_newline h₁ h₂ h₃, if_pos hnil]
    rw [readChar_newline (hlast ▸ h₁) h₂ h₃]
    refine ⟨_, Prod.ext rfl (by simp), ?_, rfl⟩
    refine ⟨by simp [hdone], hpos, fun i c hi => ?_, fun _ => by simp [hpos, hnil], rfl, hroom⟩
    obtain ⟨hlt, -⟩ := List.getElem?_eq_some_iff.mp hi
    simp only [List.length_append] at hlt
    simp only
    rw [Function.update_of_ne (by omega)]
    exact htext i c hi
  | other h₁ h₂ h₃ =>
    rw [editChar_other h₁ h₂ h₃] at hroom' ⊢
    simp only [List.length_append, List.length_singleton] at hroom'
    rw [readChar_other (hlast ▸ h₁) h₂ h₃ (by omega)]
    refine ⟨_, rfl, ⟨hdone, ?_, fun i c hi => ?_, by simp, rfl, ?_⟩, rfl⟩
    · simp [hpos, Nat.add_assoc]
    · simp only at hi ⊢
      rw [← List.append_assoc] at hi
      rcases Nat.lt_trichotomy i (b ++ e.text).length with hlt | rfl | hgt
      · rw [Function.update_of_ne (by rw [hpos, ← List.length_append]; omega)]
        exact htext i c (by rwa [List.getElem?_append_left hlt] at hi)
      · rw [hpos, ← List.length_append, Function.update_self]
        simpa using hi
      · rw [List.getElem?_eq_none (by
          simp only [List.length_append, List.length_singleton] at hgt ⊢; omega)] at hi
        cases hi
    · simpa using hroom'

/-- A part of the closed line is lost: the next byte takes it back, or wraps over it. -/
theorem readChar_spoils (h : Closed l e b) (hne : b ≠ []) (hc : closes e ch = false)
    (hs : spares b e ch = false) :
    ∃ l', readChar (l, true) ch = (l', true) ∧ Spoiled l' (editChar e ch) b ∧
      l'.loader = l.loader := by
  obtain ⟨hdone, hpos, -, -, hlast, hroom⟩ := h
  have hlen : 0 < b.length := List.length_pos_iff.mpr hne
  simp only [spares, Bool.and_eq_false_iff, Bool.not_eq_false', decide_eq_false_iff_not] at hs
  cases byteIs e.lastNl ch with
  | pair h₁ =>
    simp [isErase_pair h₁, editChar_pair h₁, hroom] at hs
  | erase h₁ h₂ =>
    rw [editChar_erase h₁ h₂] at hs ⊢
    have hnil : e.text = [] := by
      rcases hs with hs | hs
      · simpa [h₂] using hs
      · simp only [List.length_dropLast] at hs
        omega
    rw [readChar_erase (hlast ▸ h₁) h₂]
    refine ⟨_, rfl, ⟨hdone, ?_, fun _ => by simp, rfl⟩, rfl⟩
    simp only [hpos, hnil, List.dropLast_nil, List.length_nil]
    omega
  | newline h₁ h₂ h₃ =>
    have hnil : e.text = [] := by simpa [closes, h₁, h₃] using hc
    simp only [h₂, editChar_newline h₁ h₂ h₃, if_pos hnil] at hs
    simp [hroom] at hs
  | other h₁ h₂ h₃ =>
    rw [editChar_other h₁ h₂ h₃] at hs ⊢
    simp only [h₂, Bool.false_and, Bool.false_eq_true, false_or, List.length_append,
      List.length_singleton] at hs
    rw [readChar_wrap (hlast ▸ h₁) h₂ h₃ (by omega)]
    refine ⟨_, rfl, ⟨hdone, ?_, by simp, rfl⟩, rfl⟩
    simp only [List.length_append, List.length_singleton]
    omega

theorem readChar_spoiled (h : Spoiled l e b) (hne : b ≠ []) (hc : closes e ch = false) :
    ∃ l', readChar (l, true) ch = (l', true) ∧ Spoiled l' (editChar e ch) b ∧
      l'.loader = l.loader := by
  obtain ⟨hdone, hpos, hstop, hlast⟩ := h
  have hlen : 0 < b.length := List.length_pos_iff.mpr hne
  cases byteIs e.lastNl ch with
  | pair h₁ =>
    rw [readChar_pair (hlast ▸ h₁), editChar_pair h₁]
    exact ⟨_, rfl, ⟨hdone, hpos, hstop, rfl⟩, rfl⟩
  | erase h₁ h₂ =>
    rw [readChar_erase (hlast ▸ h₁) h₂, editChar_erase h₁ h₂]
    refine ⟨_, rfl, ⟨hdone, ?_, fun _ => by simp, rfl⟩, rfl⟩
    simp only [List.length_dropLast]
    omega
  | newline h₁ h₂ h₃ =>
    have hnil : e.text = [] := by simpa [closes, h₁, h₃] using hc
    rw [readChar_newline (hlast ▸ h₁) h₂ h₃, editChar_newline h₁ h₂ h₃, if_pos hnil]
    exact ⟨_, Prod.ext rfl (by simp), ⟨by simp [hdone], hpos, fun _ => by simp, rfl⟩, rfl⟩
  | other h₁ h₂ h₃ =>
    rw [editChar_other h₁ h₂ h₃]
    by_cases hroom : l.linePosition + 1 < luaMaxInput
    · rw [readChar_other (hlast ▸ h₁) h₂ h₃ hroom]
      refine ⟨_, rfl, ⟨hdone, ?_, by simp, rfl⟩, rfl⟩
      simp only [List.length_append, List.length_singleton]
      omega
    · rw [readChar_wrap (hlast ▸ h₁) h₂ h₃ (by omega)]
      refine ⟨_, rfl, ⟨hdone, ?_, by simp, rfl⟩, rfl⟩
      simp only [List.length_append, List.length_singleton]
      omega

end

end Esp32Project.Console
