import Esp32Project.Console.Segments

/-!
Lines that outgrow the line buffer. A console that discards them is set beside
`readline`, which only starts its text anew: the two pass on the same lines as
long as nothing typed since is left when the terminator comes.
-/

set_option autoImplicit false

namespace Esp32Project.Console
open Esp32Project.Lib

def executed (b : List UInt8) : List UInt8 := b.takeWhile (· ≠ 0)

/-- The line being typed, whether it has needed more than the buffer holds, the
terminator just seen, and the lines closed. -/
structure Whole where
  text : List UInt8
  long : Bool
  lastNl : UInt8
  lines : List (List UInt8)
  deriving DecidableEq, Repr

def Whole.init : Whole := ⟨[], false, 0, []⟩

/-- One byte, with a long line discarded at its terminator. -/
def wholeChar (w : Whole) (ch : UInt8) : Whole :=
  if secondOfPair w.lastNl ch then { w with lastNl := 0 }
  else if isErase ch then { w with text := w.text.dropLast, lastNl := 0 }
  else if isNewline ch then
    ⟨[], false, ch, if w.long || w.text.isEmpty then w.lines else w.lines ++ [w.text]⟩
  else { w with
    text := w.text ++ [ch]
    long := w.long || luaMaxInput ≤ w.text.length + 1
    lastNl := 0 }

def whole (bytes : List UInt8) : Whole := bytes.foldl wholeChar .init

def outgrows (e : Edit) (ch : UInt8) : Bool :=
  !secondOfPair e.lastNl ch && !isErase ch && !isNewline ch && luaMaxInput ≤ e.text.length + 1

/-- The editor whose text starts anew with such a character. -/
def wrapChar (e : Edit) (ch : UInt8) : Edit :=
  if outgrows e ch then { e with text := [ch], lastNl := 0 } else editChar e ch

def nextLong (e : Edit) (long : Bool) (ch : UInt8) : Bool :=
  (long && (secondOfPair e.lastNl ch || !isNewline ch)) || outgrows e ch

/-- Whenever a terminator ends a line that has outgrown the buffer, what was
typed since it last did is taken back. -/
def longTakenBack : Edit → Bool → List UInt8 → Bool
  | _, _, [] => true
  | e, long, ch :: cs =>
    !(long && closes e ch) && longTakenBack (wrapChar e ch) (nextLong e long ch) cs

/-- The event closes no line, or one behind which all is taken back. -/
def endsLine : Edit → List UInt8 → Bool
  | _, [] => true
  | e, ch :: cs =>
    if closes e ch then takenBack e.text (editChar e ch) cs else endsLine (wrapChar e ch) cs

def endsLines : Edit → List (List UInt8) → Bool
  | _, [] => true
  | e, ev :: evs => endsLine e ev && endsLines (ev.foldl wrapChar e) evs

/-- Whatever the line buffer and what lies behind it hold: the next byte changes
nothing behind the buffer. -/
def WritesInside (l : Load) : Prop :=
  ∀ line need ch i, luaMaxInput ≤ i →
    (readChar ({ l with line := line }, need) ch).1.line i = line i

section

variable {l : Load} {e : Edit} {w : Whole} {ch : UInt8} {long : Bool}

theorem wrapChar_closes (hc : closes e ch = true) :
    wrapChar e ch = ⟨[], ch, e.lines ++ [e.text]⟩ := by
  have hn : isNewline ch = true := by
    simp only [closes, Bool.and_eq_true] at hc
    exact hc.1.2
  rw [wrapChar, if_neg (by simp [outgrows, hn]), editChar_closes hc]

theorem wrapChar_lines (hc : closes e ch = false) : (wrapChar e ch).lines = e.lines := by
  unfold wrapChar
  split
  · rfl
  · exact editChar_lines hc

theorem wrapChar_room (h : e.text.length < luaMaxInput) :
    (wrapChar e ch).text.length < luaMaxInput := by
  unfold wrapChar
  split
  · exact (by decide : 1 < luaMaxInput)
  · rename_i ho
    simp only [outgrows, Bool.and_eq_true, Bool.not_eq_true', decide_eq_true_eq, not_and] at ho
    unfold editChar
    split
    · exact h
    split
    · simp only [List.length_dropLast]
      omega
    split
    · split
      · exact h
      · exact (by decide : 0 < luaMaxInput)
    · rename_i h₁ h₂ h₃
      have := ho ⟨⟨by simpa using h₁, by simpa using h₂⟩, by simpa using h₃⟩
      simp only [List.length_append, List.length_singleton]
      omega

theorem wrapChar_plain (h : Plain e.text) : Plain (wrapChar e ch).text := by
  unfold wrapChar
  split
  · rename_i ho
    simp only [outgrows, Bool.and_eq_true, Bool.not_eq_true'] at ho
    simpa [Plain] using ho.1.2
  · exact editChar_plain h

theorem wrapChar_spares {b : List UInt8} (hs : spares b e ch = true) :
    wrapChar e ch = editChar e ch := by
  refine if_neg fun ho => ?_
  simp only [outgrows, Bool.and_eq_true, Bool.not_eq_true', decide_eq_true_eq] at ho
  obtain ⟨⟨⟨h₁, h₂⟩, h₃⟩, hroom⟩ := ho
  simp only [spares, editChar_other h₁ h₂ h₃, Bool.and_eq_true, decide_eq_true_eq,
    List.length_append, List.length_singleton] at hs
  omega

theorem takenBack_wrap {b cs : List UInt8} {e : Edit} (h : takenBack b e cs = true) :
    cs.foldl wrapChar e = cs.foldl editChar e := by
  induction cs generalizing e with
  | nil => rfl
  | cons c cs ih =>
    simp only [takenBack, Bool.and_eq_true] at h
    rw [List.foldl_cons, List.foldl_cons, wrapChar_spares h.1.2]
    exact ih h.2

/-- `readline` follows the editor whose text starts anew. -/
theorem readChar_wraps (need : Bool) (h : Typing l e) (hroom : e.text.length < luaMaxInput)
    (hc : closes e ch = false) :
    ∃ l', readChar (l, need) ch = (l', need) ∧ Typing l' (wrapChar e ch) ∧
      l'.loader = l.loader := by
  cases ho : outgrows e ch with
  | true =>
    have hout := ho
    simp only [outgrows, Bool.and_eq_true, Bool.not_eq_true', decide_eq_true_eq] at hout
    obtain ⟨⟨⟨h₁, h₂⟩, h₃⟩, hlen⟩ := hout
    rw [readChar_wrap (h.lastNl ▸ h₁) h₂ h₃ (by rw [h.position]; exact hlen), wrapChar, if_pos ho]
    refine ⟨_, rfl, ⟨h.done, rfl, fun i b hi => ?_, rfl⟩, rfl⟩
    cases i with
    | zero => simpa using hi
    | succ i => simp at hi
  | false =>
    have hsame : wrapChar e ch = editChar e ch := by rw [wrapChar, ho, if_neg Bool.false_ne_true]
    have hfit : (editChar e ch).text.length < luaMaxInput := hsame ▸ wrapChar_room hroom
    obtain ⟨l', hr, ht, hld, -⟩ := readChar_typing need h hfit hc
    exact ⟨l', hr, hsame ▸ ht, hld⟩

end

/-- The text is the one being typed, or what of a long line was typed since it
last outgrew the buffer. -/
structure SameLine (e : Edit) (long : Bool) (w : Whole) : Prop where
  lastNl : w.lastNl = e.lastNl
  outgrown : w.long = long
  text : long = false → w.text = e.text

theorem wholeChar_sameLine {e : Edit} {long : Bool} {w : Whole} (ch : UInt8)
    (h : SameLine e long w) : SameLine (wrapChar e ch) (nextLong e long ch) (wholeChar w ch) ∧
      (wholeChar w ch).lines =
        if closes e ch = true ∧ long = false then w.lines ++ [e.text] else w.lines := by
  obtain ⟨hlast, rfl, htext⟩ := h
  cases byteIs e.lastNl ch with
  | pair h₁ =>
    have ho : outgrows e ch = false := by simp [outgrows, h₁]
    rw [wholeChar, hlast, if_pos h₁, wrapChar, ho, if_neg Bool.false_ne_true, editChar_pair h₁]
    have hlong : nextLong e w.long ch = w.long := by simp [nextLong, h₁, ho]
    exact ⟨⟨rfl, hlong.symm, fun hl => htext (hlong ▸ hl)⟩, by simp [closes, h₁]⟩
  | erase h₁ h₂ =>
    have ho : outgrows e ch = false := by simp [outgrows, h₂]
    have h₃ := isNewline_erase h₂
    rw [wholeChar, hlast, if_neg (by simp [h₁]), if_pos h₂, wrapChar, ho,
      if_neg Bool.false_ne_true, editChar_erase h₁ h₂]
    refine ⟨⟨rfl, by simp [nextLong, h₃, ho], fun hl => ?_⟩, by simp [closes, h₃]⟩
    rw [htext (by simpa [nextLong, h₃, ho] using hl)]
  | newline h₁ h₂ h₃ =>
    have ho : outgrows e ch = false := by simp [outgrows, h₃]
    rw [wholeChar, hlast, if_neg (by simp [h₁]), if_neg (by simp [h₂]), if_pos h₃, wrapChar, ho,
      if_neg Bool.false_ne_true, editChar_newline h₁ h₂ h₃]
    have hlong : nextLong e w.long ch = false := by simp [nextLong, h₁, h₃, ho]
    constructor
    · by_cases hnil : e.text = []
      · rw [if_pos hnil]
        exact ⟨rfl, hlong.symm, fun _ => hnil.symm⟩
      · rw [if_neg hnil]
        exact ⟨rfl, hlong.symm, fun _ => rfl⟩
    · cases hl : w.long with
      | true => simp
      | false => simp [closes, h₁, h₃, htext hl]
  | other h₁ h₂ h₃ =>
    rw [wholeChar, hlast, if_neg (by simp [h₁]), if_neg (by simp [h₂]), if_neg (by simp [h₃])]
    refine ⟨⟨?_, ?_, fun hl => ?_⟩, by simp [closes, h₃]⟩
    · rw [wrapChar]
      split
      · rfl
      · rw [editChar_other h₁ h₂ h₃]
    · cases hl : w.long with
      | true => simp [nextLong, h₃]
      | false => simp [nextLong, outgrows, h₁, h₂, h₃, htext hl]
    · simp only [nextLong, Bool.or_eq_false_iff, h₃, Bool.not_false, Bool.or_true,
        Bool.and_true] at hl
      rw [wrapChar, hl.2, if_neg Bool.false_ne_true, editChar_other h₁ h₂ h₃, htext hl.1]

/-- Where nothing is left of long lines, the two editors close the same lines. -/
theorem whole_lines {e : Edit} {long : Bool} {w : Whole} (bytes : List UInt8)
    (h : SameLine e long w) (hlines : w.lines = e.lines)
    (hback : longTakenBack e long bytes = true) :
    (bytes.foldl wholeChar w).lines = (bytes.foldl wrapChar e).lines := by
  induction bytes generalizing e long w with
  | nil => exact hlines
  | cons ch cs ih =>
    obtain ⟨hf, hl⟩ := wholeChar_sameLine ch h
    simp only [longTakenBack, Bool.and_eq_true, Bool.not_eq_true'] at hback
    refine ih hf ?_ hback.2
    rw [hl, hlines]
    cases hc : closes e ch with
    | true =>
      have hlong : long = false := by simpa [hc] using hback.1
      rw [if_pos ⟨rfl, hlong⟩, wrapChar_closes hc]
    | false => rw [if_neg (by simp), wrapChar_lines hc]

theorem whole_fewer {e : Edit} {long : Bool} {w : Whole} (bytes : List UInt8)
    (h : SameLine e long w) : (bytes.foldl wholeChar w).lines.length + e.lines.length +
      (if longTakenBack e long bytes then 0 else 1) ≤
        (bytes.foldl wrapChar e).lines.length + w.lines.length := by
  induction bytes generalizing e long w with
  | nil => simp [longTakenBack, Nat.add_comm]
  | cons ch cs ih =>
    obtain ⟨hf, hl⟩ := wholeChar_sameLine ch h
    have hrest := ih hf
    rw [List.foldl_cons, List.foldl_cons, longTakenBack]
    rw [hl] at hrest
    cases hc : closes e ch with
    | false =>
      rw [wrapChar_lines hc, hc] at hrest
      simp only [Bool.false_eq_true, false_and, if_false] at hrest
      simpa only [Bool.and_false, Bool.not_false, Bool.true_and] using hrest
    | true =>
      rw [hc, wrapChar_closes hc] at hrest
      rw [wrapChar_closes hc]
      cases long with
      | false =>
        simp only [and_self, if_true, List.length_append, List.length_singleton] at hrest
        simp only [Bool.false_and, Bool.not_false, Bool.true_and]
        omega
      | true =>
        simp only [reduceCtorEq, and_false, if_false, List.length_append,
          List.length_singleton] at hrest
        simp only [Bool.and_self, Bool.not_true, Bool.false_and, Bool.false_eq_true, if_false]
        split at hrest <;> omega

theorem foldl_wraps {l : Load} {e : Edit} (cs : List UInt8) (h : Typing l e)
    (hroom : e.text.length < luaMaxInput) (hplain : Plain e.text) :
    (∃ l', cs.foldl readChar (l, false) = (l', false) ∧ Typing l' (cs.foldl wrapChar e) ∧
        l'.loader = l.loader ∧ (cs.foldl wrapChar e).lines = e.lines ∧
        (cs.foldl wrapChar e).text.length < luaMaxInput ∧ Plain (cs.foldl wrapChar e).text) ∨
      ∃ l' e' b rest, cs.foldl readChar (l, false) = rest.foldl readChar (l', true) ∧
        cs.foldl wrapChar e = rest.foldl wrapChar e' ∧ Closed l' e' b ∧ b ≠ [] ∧ Plain b ∧
        l'.loader = l.loader ∧ e'.lines = e.lines ++ [b] ∧
        endsLine e cs = takenBack b e' rest := by
  induction cs generalizing l e with
  | nil => exact .inl ⟨l, rfl, h, rfl, rfl, hroom, hplain⟩
  | cons c cs ih =>
    simp only [List.foldl_cons, endsLine]
    cases hc : closes e c with
    | true =>
      obtain ⟨l₁, hr, hcl, hld, hlines⟩ := readChar_closes false h hroom hc
      have hne : e.text ≠ [] := by
        intro hnil
        simp [closes, hnil] at hc
      refine .inr ⟨l₁, editChar e c, e.text, cs, by rw [hr], ?_, hcl, hne, hplain, hld, hlines, rfl⟩
      rw [wrapChar_closes hc, editChar_closes hc]
    | false =>
      obtain ⟨l₁, hr, ht, hld⟩ := readChar_wraps false h hroom hc
      rw [hr]
      rcases ih ht (wrapChar_room hroom) (wrapChar_plain hplain) with
        ⟨l₂, hr₂, ht₂, hld₂, hlines₂, hrest⟩ |
        ⟨l₂, e₂, b, rest, hr₂, he₂, hcl, hne, hb, hld₂, hlines₂, hends⟩
      · exact .inl ⟨l₂, hr₂, ht₂, hld₂.trans hld, hlines₂.trans (wrapChar_lines hc), hrest⟩
      · exact .inr ⟨l₂, e₂, b, rest, hr₂, he₂, hcl, hne, hb, hld₂.trans hld,
          by rw [hlines₂, wrapChar_lines hc], hends⟩

structure Waiting (incomplete : List UInt8 → Bool) (l : Load) (e : Edit) : Prop where
  typing : Typing l e
  loader : l.loader = loaderOf .esp32 incomplete (e.lines.map executed)
  room : e.text.length < luaMaxInput
  plain : Plain e.text

theorem waiting_init (incomplete : List UInt8 → Bool) : Waiting incomplete .init .init :=
  ⟨typing_init, rfl, by decide, by simp [Plain, Edit.init]⟩

theorem dojob_takenBack (incomplete : List UInt8 → Bool) {l : Load} {e : Edit}
    {b : List UInt8} {lines : List (List UInt8)} (cs : List UInt8) (h : Closed l e b)
    (hne : b ≠ []) (hplain : Plain b) (hlines : e.lines = lines ++ [b])
    (hld : l.loader = loaderOf .esp32 incomplete (lines.map executed))
    (hback : takenBack b e cs = true) :
    ∃ l', cs.foldl readChar (l, true) = (l', true) ∧
      Typing (dojob .esp32 incomplete l') (cs.foldl wrapChar e) ∧
      (dojob .esp32 incomplete l').loader =
        loaderOf .esp32 incomplete ((cs.foldl wrapChar e).lines.map executed) ∧
      (cs.foldl wrapChar e).text = [] := by
  obtain ⟨hl, ht⟩ := takenBack_text hback
  rw [takenBack_wrap hback]
  obtain ⟨l', hread, hcl⟩ := foldl_closed cs h hne hl ht
  obtain ⟨l₁, hread₁, hdone, hld₁⟩ := foldl_done h.done cs
  obtain rfl : l' = l₁ := congrArg Prod.fst (hread.symm.trans hread₁)
  rw [if_pos hback] at hcl
  obtain ⟨p, hjob⟩ := dojob_done .esp32 incomplete hdone
  refine ⟨l', hread, ?_, ?_, ht⟩
  · rw [hjob]
    exact ⟨rfl, by simp [Load.send, ht], by simp [ht], hcl.lastNl⟩
  · rw [hjob, hl, hlines, List.map_append, loaderOf, List.foldl_append, ← loaderOf, ← hld, ← hld₁]
    simp only [Load.send, jobLine_takeWhile hcl ht hplain]
    rfl

theorem luaHandleInput_ends {incomplete : List UInt8 → Bool} {l : Load} {e : Edit}
    (bytes : List UInt8) (h : Waiting incomplete l e) (hends : endsLine e bytes = true) :
    Waiting incomplete (luaHandleInput .esp32 incomplete l bytes) (bytes.foldl wrapChar e) := by
  obtain ⟨htyping, hloader, hroom, hplain⟩ := h
  unfold luaHandleInput
  rcases foldl_wraps bytes htyping hroom hplain with
    ⟨l₁, hread, ht, hld, hlines, hroom', hplain'⟩ |
    ⟨l₁, e', b, rest, hread, he, hcl, hne, hb, hld, hlines, hback⟩
  · rw [hread]
    exact ⟨ht, by rw [hlines, ← hloader]; exact hld, hroom', hplain'⟩
  · obtain ⟨l', hrest, ht, hloader', htext⟩ := dojob_takenBack incomplete rest hcl hne hb
      hlines (hld.trans hloader) (hback ▸ hends)
    rw [hread, hrest, he]
    refine ⟨ht, hloader', ?_, ?_⟩
    · rw [htext]
      exact (by decide : 0 < luaMaxInput)
    · simp [htext, Plain]

theorem foldl_ends {incomplete : List UInt8 → Bool} {l : Load} {e : Edit}
    (events : List (List UInt8)) (h : Waiting incomplete l e) (hends : endsLines e events = true) :
    Waiting incomplete (events.foldl (luaHandleInput .esp32 incomplete) l)
      (events.flatten.foldl wrapChar e) := by
  induction events generalizing l e with
  | nil => exact h
  | cons ev evs ih =>
    obtain ⟨hends₁, hends₂⟩ := (Bool.and_eq_true _ _).mp hends
    rw [List.foldl_cons, List.flatten_cons, List.foldl_append]
    exact ih (luaHandleInput_ends ev h hends₁) hends₂

theorem endsLines_bytes (bytes : List UInt8) (e : Edit) :
    endsLines e (bytes.map fun b => [b]) = true := by
  induction bytes generalizing e with
  | nil => rfl
  | cons b bs ih =>
    rw [List.map_cons, endsLines, ih, Bool.and_true, endsLine]
    split
    · rename_i hc
      simp [takenBack, editChar_closes hc]
    · rfl

theorem readChar_line (l : Load) (need : Bool) (ch : UInt8) {i : Nat}
    (h : l.linePosition < luaMaxInput) (hi : luaMaxInput ≤ i) :
    (readChar (l, need) ch).1.line i = l.line i := by
  cases byteIs l.lastNlChar ch with
  | pair h₁ => rw [readChar_pair h₁]
  | erase h₁ h₂ =>
    rw [readChar_erase h₁ h₂]
    exact Function.update_of_ne (by omega) _ _
  | newline h₁ h₂ h₃ =>
    rw [readChar_newline h₁ h₂ h₃]
    exact Function.update_of_ne (by omega) _ _
  | other h₁ h₂ h₃ =>
    by_cases hroom : l.linePosition + 1 < luaMaxInput
    · rw [readChar_other h₁ h₂ h₃ hroom]
      exact Function.update_of_ne (by omega) _ _
    · rw [readChar_wrap h₁ h₂ h₃ (Nat.le_of_not_lt hroom)]
      exact Function.update_of_ne (by omega) _ _

theorem writesInside_of_position {l : Load} (h : l.linePosition < luaMaxInput) :
    WritesInside l :=
  fun line need ch _ hi => readChar_line { l with line := line } need ch h hi

theorem readChar_position {s : Load × Bool} (ch : UInt8) (h : s.1.linePosition < luaMaxInput) :
    (readChar s ch).1.linePosition < luaMaxInput := by
  obtain ⟨l, need⟩ := s
  replace h : l.linePosition < luaMaxInput := h
  cases byteIs l.lastNlChar ch with
  | pair h₁ =>
    rw [readChar_pair h₁]
    exact h
  | erase h₁ h₂ =>
    rw [readChar_erase h₁ h₂]
    exact Nat.lt_of_le_of_lt (Nat.sub_le _ _) h
  | newline h₁ h₂ h₃ =>
    rw [readChar_newline h₁ h₂ h₃]
    exact h
  | other h₁ h₂ h₃ =>
    by_cases hroom : l.linePosition + 1 < luaMaxInput
    · rw [readChar_other h₁ h₂ h₃ hroom]
      exact hroom
    · rw [readChar_wrap h₁ h₂ h₃ (Nat.le_of_not_lt hroom)]
      exact (by decide : 1 < luaMaxInput)

theorem foldl_position {s : Load × Bool} (bytes : List UInt8)
    (h : s.1.linePosition < luaMaxInput) :
    (bytes.foldl readChar s).1.linePosition < luaMaxInput := by
  induction bytes generalizing s with
  | nil => exact h
  | cons c cs ih => exact ih (readChar_position c h)

theorem readline_position {n fuel : Nat} {r r' : RcvMsgBuff} {s s' : Load × Bool}
    (h : s.1.linePosition < luaMaxInput) (hr : readline n fuel r s = some (r', s')) :
    s'.1.linePosition < luaMaxInput := by
  induction fuel generalizing r s with
  | zero => cases hr
  | succ fuel ih =>
    rw [readline] at hr
    cases hget : uartGetc n r with
    | none =>
      rw [hget] at hr
      cases hr
      exact h
    | some c =>
      rw [hget] at hr
      exact ih (readChar_position c.1 h) hr

theorem uartEvent_position {incomplete : List UInt8 → Bool} {n : Nat}
    {s s' : RcvMsgBuff × Load} {bytes : List UInt8} (h : s.2.linePosition < luaMaxInput)
    (hs : uartEvent incomplete n s bytes = some s') : s'.2.linePosition < luaMaxInput := by
  unfold uartEvent at hs
  split at hs
  · cases hs
    exact h
  · obtain ⟨⟨r, l, need⟩, hr, rfl⟩ := Option.map_eq_some_iff.mp hs
    have hl := readline_position (s := (s.2, false)) h hr
    cases need with
    | true => exact (by decide : 0 < luaMaxInput)
    | false => exact hl

theorem consoleRun_position {incomplete : List UInt8 → Bool} {n : Nat}
    {s s' : RcvMsgBuff × Load} (events : List (List UInt8)) (h : s.2.linePosition < luaMaxInput)
    (hs : consoleRun incomplete n s events = some s') : s'.2.linePosition < luaMaxInput := by
  induction events generalizing s with
  | nil =>
    cases hs
    exact h
  | cons ev evs ih =>
    obtain ⟨s₁, hs₁, hrest⟩ := Option.bind_eq_some_iff.mp hs
    exact ih (uartEvent_position h hs₁) hrest

/-- The lines of the run are those of the console that discards long lines just
when nothing is left of a long line at its terminator. Events with something
typed behind the terminator of a line are left out, which a byte stream can
always do without; no event is left out of the bound. -/
theorem overlong_iff (incomplete : List UInt8 → Bool) (rxBuffSize : Nat) :
    (∀ events s, consoleRun incomplete rxBuffSize (.init, .init) events = some s →
      ∀ (bytes : List UInt8) (need : Bool), WritesInside (bytes.foldl readChar (s.2, need)).1) ∧
    (∀ bytes : List UInt8, endsLines .init (bytes.map fun b => [b]) = true) ∧
    ∀ events : List (List UInt8), (∀ ev ∈ events, ev.length ≤ rxBuffSize) →
      endsLines .init events = true →
      ∃ s, consoleRun incomplete rxBuffSize (.init, .init) events = some s ∧
        (s.2.loader = loaderOf .esp32 incomplete ((whole events.flatten).lines.map executed) ↔
          longTakenBack .init false events.flatten = true) := by
  refine ⟨fun events s hs bytes need => ?_, fun bytes => endsLines_bytes bytes .init,
    fun events hlen hends => ?_⟩
  · have hpos : (Load.init).linePosition < luaMaxInput := by decide
    have hs' : ((s.2, need).1).linePosition < luaMaxInput := consoleRun_position events hpos hs
    exact writesInside_of_position (foldl_position bytes hs')
  · have h₀ : SameLine .init false .init := ⟨rfl, rfl, fun _ => rfl⟩
    have hw := foldl_ends events (waiting_init incomplete) hends
    obtain ⟨r, hs, -⟩ := consoleRun_eq incomplete (l := .init) events (holds_init rxBuffSize) hlen
    refine ⟨_, hs, fun hsame => ?_, fun hback => ?_⟩
    · by_contra hleft
      have hlines := congrArg Loader.lines (hw.loader.symm.trans hsame)
      rw [loaderOf_lines, loaderOf_lines] at hlines
      have hlength := congrArg List.length hlines
      rw [List.length_map, List.length_map] at hlength
      have hfewer := whole_fewer events.flatten h₀
      rw [if_neg hleft, ← whole] at hfewer
      have hnone : Edit.init.lines.length = 0 ∧ Whole.init.lines.length = 0 := ⟨rfl, rfl⟩
      omega
    · rw [hw.loader, whole, whole_lines events.flatten h₀ rfl hback]

/-- A line of 256 characters, in two events: the last character is taken back. -/
theorem overlong_iff_erased :
    ∃ s, consoleRun (fun _ => false) 1024 (.init, .init)
        [List.replicate 256 0x61, [0x08, lf, 0x62, lf]] = some s ∧
      (s.2.loader = loaderOf .esp32 (fun _ => false)
          ((whole [List.replicate 256 0x61, [0x08, lf, 0x62, lf]].flatten).lines.map executed) ↔
        longTakenBack .init false [List.replicate 256 0x61, [0x08, lf, 0x62, lf]].flatten = true) :=
  (overlong_iff (fun _ => false) 1024).2.2 _ (by decide +kernel) (by decide +kernel)

/-- A line of 256 characters: its last one is executed. -/
theorem long_line_runs :
    ¬ ∀ events : List (List UInt8), (∀ ev ∈ events, ev.length ≤ 1024) →
      endsLines .init events = true →
      (consoleRun (fun _ => false) 1024 (.init, .init) events).map (·.2.loader.lines) =
        some ((whole events.flatten).lines.map executed) := by
  intro h
  have hrun : (consoleRun (fun _ => false) 1024 (.init, .init)
      [List.replicate 256 0x61 ++ [lf]]).map (·.2.loader.lines) = some [[0x61]] := by
    decide +kernel
  have := h [List.replicate 256 0x61 ++ [lf]] (by decide +kernel) (by decide +kernel)
  rw [hrun] at this
  revert this
  decide +kernel

end Esp32Project.Console
