import Mathlib.Data.List.TakeWhile
import Mathlib.Data.List.Infix
import Mathlib.Tactic.SplitIfs

/-!
The command lexer of the FTP server. `readChar` takes at most one byte from the
control connection; `typeChar` is the same lexer over the text typed so far.
-/

set_option autoImplicit false

namespace Esp32Project.Ftp

/-- What C leaves undefined: a null pointer handed to a string function, an access
outside an array. -/
inductive Fault where
  | null
  | bounds
  deriving DecidableEq, Repr

def ftpCmdSize : Nat := 255 + 8
def ftpCwdSize : Nat := 255 + 8
def ftpBufSize : Nat := 1024

def lf : UInt8 := 10
def cr : UInt8 := 13
def blank : UInt8 := 32
def slash : UInt8 := 47
def backslash : UInt8 := 92

def ascii (s : String) : List UInt8 := s.toList.map Char.toUInt8

def cString (b : List UInt8) : List UInt8 := b.takeWhile (· != 0)

/-- What an array of `n` characters holds as a string. -/
structure CString (n : Nat) where
  text : List UInt8
  fits : text.length < n
  deriving DecidableEq

def strcpy (n : Nat) (text : List UInt8) : Except Fault (CString n) :=
  if h : text.length < n then .ok ⟨text, h⟩ else .error .bounds

def CString.map {n : Nat} (f : UInt8 → UInt8) (s : CString n) : CString n :=
  ⟨s.text.map f, by simpa using s.fits⟩

@[simp] theorem CString.map_text {n : Nat} (f : UInt8 → UInt8) (s : CString n) :
    (s.map f).text = s.text.map f := rfl

def toupper (c : UInt8) : UInt8 := if 97 ≤ c ∧ c ≤ 122 then c - 32 else c

def noCommand : CString 5 := ⟨[], by decide⟩

structure Lexer where
  cmdLine : Vector UInt8 ftpCmdSize
  command : CString 5
  /-- index in cmdLine -/
  parameters : Option Nat
  iCL : Nat

/-- A new session drops what was typed. -/
def Lexer.restart (s : Lexer) : Lexer := { s with iCL := 0 }

def Lexer.params (s : Lexer) : Option (List UInt8) :=
  s.parameters.map fun p => cString (s.cmdLine.toList.drop p)

/-- `readChar` at the end of a line. -/
def endLine (s : Lexer) : Except Fault (Lexer × Int) := do
  if h : s.iCL < ftpCmdSize then
    let s := { s with cmdLine := s.cmdLine.set s.iCL 0 h, command := noCommand, parameters := none }
    if s.iCL = 0 then return (s, 0)
    let line := cString s.cmdLine.toList
    match line.findIdx? (· == blank) with
    | some p =>
      if p > 4 then return ({ s with parameters := some p, iCL := 0 }, -2)
      let command ← strcpy 5 (line.take p)
      let blanks := ((line.drop (p + 1)).takeWhile (· == blank)).length
      return ({ s with command, parameters := some (p + 1 + blanks), iCL := 0 },
        Int.bmod s.iCL 256)
    | none =>
      if line.length > 4 then return ({ s with iCL := 0 }, -2)
      let command ← strcpy 5 line
      return ({ s with command, iCL := 0 }, Int.bmod s.iCL 256)
  else .error .bounds

def storeChar (s : Lexer) (c : UInt8) : Lexer × Int :=
  if h : s.iCL < ftpCmdSize then
    ({ s with cmdLine := s.cmdLine.set s.iCL c h, iCL := s.iCL + 1 }, -1)
  else (s, -2)

def syntaxError : List UInt8 := ascii "500 Syntax error"

/-- The end of `readChar`, which prints to the client. -/
def report (s : Lexer) (rc : Int) : Lexer × Int × List (List UInt8) :=
  let s := if rc > 0 then { s with command := s.command.map toupper } else s
  if rc = -2 then ({ s with iCL := 0 }, rc, [syntaxError]) else (s, rc, [])

def readChar (s : Lexer) : Option UInt8 → Except Fault (Lexer × Int × List (List UInt8))
  | none => .ok (s, -1, [])
  | some c => do
    let c := if c = backslash then slash else c
    if c = cr then return report s (-1)
    if c = lf then
      let (s, rc) ← endLine s
      return report s rc
    let (s, rc) := storeChar s c
    return report s rc

inductive Reading where
  | line (command : List UInt8) (parameters : Option (List UInt8))
  | reply (text : List UInt8)
  deriving DecidableEq, Repr

def reading (r : Lexer × Int × List (List UInt8)) : List Reading :=
  (if r.2.1 > 0 then [.line r.1.command.text r.1.params] else []) ++ r.2.2.map .reply

def word (line : List UInt8) : List UInt8 := line.takeWhile (· != blank)

def rest (line : List UInt8) : Option (List UInt8) :=
  if blank ∈ line then some ((line.drop (word line).length).dropWhile (· == blank)) else none

/-- The outcome of a line of `typed` characters in cmdLine. -/
def finish (typed : List UInt8) : List Reading :=
  let line := cString typed
  if typed = [] then []
  else if (word line).length > 4 then [.reply syntaxError]
  else if Int.bmod typed.length 256 > 0 then [.line ((word line).map toupper) (rest line)]
  else if Int.bmod typed.length 256 = -2 then [.reply syntaxError]
  else []

def typeChar (typed : List UInt8) : Option UInt8 → Except Fault (List UInt8 × List Reading)
  | none => .ok (typed, [])
  | some c =>
    let c := if c = backslash then slash else c
    if c = cr then .ok (typed, [])
    else if c = lf then
      if typed.length < ftpCmdSize then .ok ([], finish typed) else .error .bounds
    else if typed.length < ftpCmdSize then .ok (typed ++ [c], [])
    else .ok ([], [.reply syntaxError])

structure Holds (s : Lexer) (typed : List UInt8) : Prop where
  len : s.iCL = typed.length
  text : s.cmdLine.toList.take s.iCL = typed

theorem Holds.le {s : Lexer} {typed : List UInt8} (h : Holds s typed) : s.iCL ≤ ftpCmdSize := by
  have := h.len
  rw [← h.text, List.length_take, Vector.length_toList] at this
  omega

theorem holds_nil {s : Lexer} (h : s.iCL = 0) : Holds s [] := ⟨by simpa using h, by simp [h]⟩

theorem cString_append_zero (b c : List UInt8) : cString (b ++ 0 :: c) = cString b := by
  induction b with
  | nil => simp [cString]
  | cons x xs ih =>
    unfold cString at ih ⊢
    rw [List.cons_append, List.takeWhile_cons, List.takeWhile_cons, ih]

theorem cString_drop {b : List UInt8} {p : Nat} (h : p ≤ (cString b).length) :
    cString (b.drop p) = (cString b).drop p := by
  induction b generalizing p with
  | nil => simp [cString]
  | cons x xs ih =>
    cases p with
    | zero => rfl
    | succ p =>
      unfold cString at ih h ⊢
      rw [List.takeWhile_cons] at h ⊢
      split_ifs at h ⊢ with hx
      · simpa using ih (by simpa using h)
      · simp at h

theorem findIdx_blank (line : List UInt8) :
    line.findIdx? (· == blank) = if blank ∈ line then some (word line).length else none := by
  induction line with
  | nil => rfl
  | cons c cs ih =>
    rw [List.findIdx?_cons, ih]
    by_cases hc : c = blank
    · simp [hc, word]
    · have hb : blank ≠ c := fun h => hc h.symm
      by_cases hm : blank ∈ cs <;> simp [hc, hb, hm, word]

theorem drop_takeWhile_length (p : UInt8 → Bool) (l : List UInt8) :
    l.drop (l.takeWhile p).length = l.dropWhile p := by
  conv_lhs => rw [← List.takeWhile_append_dropWhile (p := p) (l := l)]
  have : (l.takeWhile p ++ l.dropWhile p).drop (l.takeWhile p).length = l.dropWhile p :=
    List.drop_left
  rwa [List.takeWhile_append_dropWhile] at this ⊢

theorem word_take (line : List UInt8) : line.take (word line).length = word line :=
  (List.prefix_iff_eq_take.mp (List.takeWhile_prefix _)).symm

theorem word_of_not_mem {line : List UInt8} (h : blank ∉ line) : word line = line := by
  refine List.takeWhile_eq_self_iff.mpr fun c hc => ?_
  simp only [bne_iff_ne, ne_eq]
  rintro rfl
  exact h hc

theorem word_length_lt {line : List UInt8} (h : blank ∈ line) :
    (word line).length < line.length := by
  have hle := (List.takeWhile_prefix (· != blank) (l := line)).length_le
  refine Nat.lt_of_le_of_ne hle fun heq => ?_
  have := List.takeWhile_eq_self_iff.mp
    ((List.takeWhile_prefix (· != blank) (l := line)).eq_of_length heq) blank h
  simp at this

theorem rest_drop {line : List UInt8} (h : blank ∈ line) :
    line.drop ((word line).length + 1 +
        ((line.drop ((word line).length + 1)).takeWhile (· == blank)).length) =
      (line.drop (word line).length).dropWhile (· == blank) := by
  have hdrop : line.drop (word line).length = line.dropWhile (· != blank) :=
    drop_takeWhile_length _ line
  obtain ⟨b, cs, hcs⟩ : ∃ b cs, line.dropWhile (· != blank) = b :: cs := by
    cases hd : line.dropWhile (· != blank) with
    | nil =>
      have := List.dropWhile_eq_nil_iff.mp hd blank h
      simp at this
    | cons b cs => exact ⟨b, cs, rfl⟩
  have hb : b = blank := by
    have := List.head_dropWhile_not (· != blank) (l := line) (by simp [hcs])
    simpa [hcs] using this
  have hcs' : line.drop ((word line).length + 1) = cs := by
    rw [← List.drop_drop, hdrop, hcs, List.drop_one, List.tail_cons]
  rw [← List.drop_drop, hcs', hdrop, hcs, hb, drop_takeWhile_length]
  simp

theorem report_reading (s : Lexer) (rc : Int) : reading (report s rc) =
    if rc > 0 then [.line (s.command.map toupper).text s.params]
    else if rc = -2 then [.reply syntaxError] else [] := by
  unfold report
  by_cases hp : rc > 0
  · have : rc ≠ -2 := by omega
    simp [hp, this, reading, Lexer.params]
  · by_cases he : rc = -2
    · simp [he, reading]
    · simp [hp, he, reading]

theorem report_iCL {s : Lexer} {rc : Int} (h : s.iCL = 0) : (report s rc).1.iCL = 0 := by
  unfold report
  split_ifs <;> simp [h]

theorem endLine_finish {s : Lexer} {typed : List UInt8} (h : Holds s typed)
    (hlt : typed.length < ftpCmdSize) :
    ∃ s' rc, endLine s = .ok (s', rc) ∧ s'.iCL = 0 ∧ reading (report s' rc) = finish typed := by
  have hi : s.iCL < ftpCmdSize := h.len ▸ hlt
  have hmem : (s.cmdLine.set s.iCL 0 hi).toList =
      typed ++ 0 :: s.cmdLine.toList.drop (s.iCL + 1) := by
    rw [Vector.toList_set, List.set_eq_take_append_cons_drop, if_pos (by simpa using hi), h.text]
  have hline : cString (s.cmdLine.set s.iCL 0 hi).toList = cString typed := by
    rw [hmem, cString_append_zero]
  have hnil : s.iCL = 0 ↔ typed = [] := by rw [h.len, List.length_eq_zero_iff]
  unfold endLine finish
  simp only [hi, ↓reduceDIte, hline, hnil, findIdx_blank]
  by_cases hn : typed = []
  · exact ⟨_, _, by simp [hn]; rfl, by simpa [hn] using h.len, by simp [hn, report_reading]⟩
  by_cases hb : blank ∈ cString typed
  · by_cases hw : (word (cString typed)).length > 4
    · exact ⟨_, _, by simp [hn, hb, hw]; rfl, rfl, by simp [hn, hw, report_reading]⟩
    have hcopy : strcpy 5 (word (cString typed)) = .ok ⟨word (cString typed), by omega⟩ :=
      dif_pos (by omega)
    refine ⟨_, _, by simp [hn, hb, hw, word_take, hcopy]; exact ⟨rfl, rfl⟩, rfl, ?_⟩
    have hle : (word (cString typed)).length + 1 +
        (((cString typed).drop ((word (cString typed)).length + 1)).takeWhile
          (· == blank)).length ≤ (cString typed).length := by
      have hw := word_length_lt hb
      have := (List.takeWhile_prefix (· == blank)
        (l := (cString typed).drop ((word (cString typed)).length + 1))).length_le
      rw [List.length_drop] at this
      omega
    rw [report_reading, if_neg hn, if_neg hw, ← h.len]
    simp only [Lexer.params, Option.map_some, rest, hb, if_true, CString.map_text]
    rw [cString_drop (by rwa [hline]), hline, rest_drop hb]
  · have hword := word_of_not_mem hb
    by_cases hw : (cString typed).length > 4
    · exact ⟨_, _, by simp [hn, hb, hw]; rfl, rfl, by simp [hn, hw, hword, report_reading]⟩
    have hcopy : strcpy 5 (cString typed) = .ok ⟨cString typed, by omega⟩ := dif_pos (by omega)
    refine ⟨_, _, by simp [hn, hb, hw, hcopy]; exact ⟨rfl, rfl⟩, rfl, ?_⟩
    rw [report_reading, if_neg hn, hword, if_neg hw, ← h.len]
    simp [Lexer.params, rest, hb]

theorem holds_storeChar {s : Lexer} {typed : List UInt8} (h : Holds s typed) (c : UInt8)
    (hlt : typed.length < ftpCmdSize) :
    ∃ s', storeChar s c = (s', -1) ∧ Holds s' (typed ++ [c]) := by
  have hi : s.iCL < ftpCmdSize := h.len ▸ hlt
  refine ⟨_, dif_pos hi, by simp [h.len], ?_⟩
  rw [Vector.toList_set, List.take_succ_eq_append_getElem (by simpa using hi),
    List.getElem_set_self, List.take_set_of_le (Nat.le_refl _), h.text]

/-- One call of `readChar` does what the lexer over typed text does. -/
theorem readChar_typeChar {s : Lexer} {typed : List UInt8} (h : Holds s typed)
    (byte : Option UInt8) :
    match typeChar typed byte with
    | .ok (typed', readings) =>
      ∃ r, readChar s byte = .ok r ∧ reading r = readings ∧ Holds r.1 typed'
    | .error e => readChar s byte = .error e := by
  cases byte with
  | none => exact ⟨_, rfl, rfl, h⟩
  | some c =>
    generalize hd : (if c = backslash then slash else c) = d
    simp only [typeChar, readChar, hd]
    by_cases hcr : d = cr
    · simp only [hcr, if_true]
      exact ⟨_, rfl, by simp [report_reading], by simpa [report] using h⟩
    by_cases hlf : d = lf
    · have hne : lf ≠ cr := by decide
      by_cases hlt : typed.length < ftpCmdSize
      · obtain ⟨s', rc, hend, hiCL, hreading⟩ := endLine_finish h hlt
        simp only [hlf, hne, hlt, hend, if_true, if_false]
        exact ⟨_, rfl, hreading, holds_nil (report_iCL hiCL)⟩
      · have hend : endLine s = .error .bounds := dif_neg (h.len ▸ hlt)
        simp only [hlf, hne, hlt, hend, if_true, if_false]
        rfl
    by_cases hlt : typed.length < ftpCmdSize
    · obtain ⟨s', hstore, hs'⟩ := holds_storeChar h d hlt
      simp only [hcr, hlf, hlt, hstore, if_true, if_false]
      exact ⟨_, rfl, by simp [report_reading], by simpa [report] using hs'⟩
    · have hstore : storeChar s d = (s, -2) := dif_neg (h.len ▸ hlt)
      simp only [hcr, hlf, hlt, hstore, if_false]
      exact ⟨_, rfl, by simp [report_reading], holds_nil (by simp [report])⟩

end Esp32Project.Ftp
