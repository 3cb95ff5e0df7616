import Esp32Project.Console.Editor
import Mathlib.Data.List.Infix
import Mathlib.Data.List.TakeWhile
import Mathlib.Tactic.SplitIfs

/-!
A byte stream cut into UART events. The lines that reach the loader are those
of the editor, whatever the cuts, as long as no event leaves anything typed
behind the terminator that closed a line: `readline` does not return before the
receive buffer is empty, and only `dojob` starts a new line.
-/

set_option autoImplicit false

namespace Esp32Project.Console
open Esp32Project.Lib

/-- Behind the closed line `b` nothing is closed, the line is spared, and what
is typed is taken back. -/
def takenBack (b : List UInt8) : Edit → List UInt8 → Bool
  | e, [] => e.text.isEmpty
  | e, ch :: cs => !closes e ch && spares b e ch && takenBack b (editChar e ch) cs

/-- The event closes no line, or one without NUL behind which all is taken back. -/
def settles : Edit → List UInt8 → Bool
  | _, [] => true
  | e, ch :: cs =>
    if closes e ch then !e.text.contains 0 && takenBack e.text (editChar e ch) cs
    else settles (editChar e ch) cs

def settledRun : Edit → List (List UInt8) → Bool
  | _, [] => true
  | e, ev :: evs => settles e ev && settledRun (ev.foldl editChar e) evs

/-- Every line stays below LUA_MAXINPUT while it is typed. -/
def Fits (e : Edit) (bytes : List UInt8) : Prop :=
  ∀ p ∈ bytes.inits, (p.foldl editChar e).text.length < luaMaxInput

def loaderOf (port : Port) (incomplete : List UInt8 → Bool) (lines : List (List UInt8)) : Loader :=
  lines.foldl (loadLine port incomplete) ⟨true, [], [], []⟩

def Plain (b : List UInt8) : Prop := ∀ c ∈ b, isNewline c = false

theorem editChar_plain {e : Edit} {ch : UInt8} (h : Plain e.text) : Plain (editChar e ch).text := by
  unfold editChar
  split
  · exact h
  split
  · exact fun c hc => h c (List.mem_of_mem_dropLast hc)
  split
  · split
    · exact h
    · simp [Plain]
  · rename_i hn
    intro c hc
    rcases List.mem_append.mp hc with hc | hc
    · exact h c hc
    · rw [List.mem_singleton.mp hc]
      simpa using hn

theorem edit_foldl_plain {e : Edit} (bytes : List UInt8) (h : Plain e.text) :
    Plain (bytes.foldl editChar e).text := by
  induction bytes generalizing e with
  | nil => exact h
  | cons c cs ih => exact ih (editChar_plain h)

theorem loadLine_lines (port : Port) (incomplete : List UInt8 → Bool) (ld : Loader)
    (b : List UInt8) : (loadLine port incomplete ld b).lines = ld.lines ++ [b] := by
  cases port
  · simp only [loadLine]
    split_ifs <;> rfl
  · rfl

theorem loaderOf_lines (port : Port) (incomplete : List UInt8 → Bool)
    (lines : List (List UInt8)) : (loaderOf port incomplete lines).lines = lines := by
  have hstep : ∀ (lines : List (List UInt8)) (ld : Loader),
      (lines.foldl (loadLine port incomplete) ld).lines = ld.lines ++ lines := by
    intro lines
    induction lines with
    | nil => simp
    | cons b bs ih =>
      intro ld
      rw [List.foldl_cons, ih, loadLine_lines, List.append_assoc, List.singleton_append]
  simpa [loaderOf] using hstep lines ⟨true, [], [], []⟩

theorem Fits.cons {e : Edit} {ch : UInt8} {cs : List UInt8} (h : Fits e (ch :: cs)) :
    Fits (editChar e ch) cs := fun p hp => h (ch :: p) (by simpa using hp)

theorem Fits.head {e : Edit} {bytes : List UInt8} (h : Fits e bytes) :
    e.text.length < luaMaxInput := h [] (by simp)

theorem Fits.append {e : Edit} {bs cs : List UInt8} (h : Fits e (bs ++ cs)) :
    Fits e bs ∧ Fits (bs.foldl editChar e) cs := by
  constructor
  · intro p hp
    rw [List.mem_inits] at hp
    exact h p ((List.mem_inits _ _).mpr (hp.trans (List.prefix_append _ _)))
  · intro p hp
    rw [List.mem_inits] at hp
    have := h (bs ++ p) ((List.mem_inits _ _).mpr ((List.prefix_append_right_inj bs).mpr hp))
    rwa [List.foldl_append] at this

theorem editChar_closes {e : Edit} {ch : UInt8} (hc : closes e ch = true) :
    editChar e ch = ⟨[], ch, e.lines ++ [e.text]⟩ := by
  simp only [closes, Bool.and_eq_true, Bool.not_eq_true', bne_iff_ne, ne_eq] at hc
  obtain ⟨⟨h₁, h₃⟩, hne⟩ := hc
  rw [editChar_newline h₁ (isErase_newline h₃) h₃, if_neg hne]

theorem editChar_keeps_lines (e : Edit) (ch : UInt8) : e.lines <+: (editChar e ch).lines := by
  cases hc : closes e ch with
  | true =>
    rw [editChar_closes hc]
    exact List.prefix_append _ _
  | false => rw [editChar_lines hc]

theorem edit_keeps_lines (bytes : List UInt8) (e : Edit) :
    e.lines <+: (bytes.foldl editChar e).lines := by
  induction bytes generalizing e with
  | nil => exact List.prefix_refl _
  | cons c cs ih => exact (editChar_keeps_lines e c).trans (ih _)

theorem closes_of_lines {e : Edit} {ch : UInt8} {cs : List UInt8}
    (h : ((ch :: cs).foldl editChar e).lines = e.lines) :
    closes e ch = false ∧
      (cs.foldl editChar (editChar e ch)).lines = (editChar e ch).lines := by
  rw [List.foldl_cons] at h
  cases hc : closes e ch with
  | true =>
    have hle := (edit_keeps_lines cs (editChar e ch)).length_le
    rw [h, editChar_closes hc, List.length_append] at hle
    exact absurd hle (Nat.not_succ_le_self _)
  | false => exact ⟨rfl, h.trans (editChar_lines hc).symm⟩

theorem takenBack_text {b cs : List UInt8} {e : Edit} (h : takenBack b e cs = true) :
    (cs.foldl editChar e).lines = e.lines ∧ (cs.foldl editChar e).text = [] := by
  induction cs generalizing e with
  | nil => exact ⟨rfl, by simpa [takenBack] using h⟩
  | cons c cs ih =>
    simp only [takenBack, Bool.and_eq_true, Bool.not_eq_true'] at h
    obtain ⟨hl, ht⟩ := ih h.2
    exact ⟨hl.trans (editChar_lines h.1.1), ht⟩

theorem foldl_spoiled {l : Load} {e : Edit} {b : List UInt8} (cs : List UInt8)
    (h : Spoiled l e b) (hne : b ≠ []) (hlines : (cs.foldl editChar e).lines = e.lines) :
    ∃ l', cs.foldl readChar (l, true) = (l', true) ∧ Spoiled l' (cs.foldl editChar e) b := by
  induction cs generalizing l e with
  | nil => exact ⟨l, rfl, h⟩
  | cons c cs ih =>
    obtain ⟨hc, hrest⟩ := closes_of_lines hlines
    obtain ⟨l₁, hr, h₁, -⟩ := readChar_spoiled h hne hc
    rw [List.foldl_cons, List.foldl_cons, hr]
    exact ih h₁ hrest

/-- Behind a closed line with nothing left typed: the line is spared, or a part is lost. -/
theorem foldl_closed {l : Load} {e : Edit} {b : List UInt8} (cs : List UInt8)
    (h : Closed l e b) (hne : b ≠ []) (hlines : (cs.foldl editChar e).lines = e.lines)
    (htext : (cs.foldl editChar e).text = []) :
    ∃ l', cs.foldl readChar (l, true) = (l', true) ∧
      if takenBack b e cs then Closed l' (cs.foldl editChar e) b
      else Spoiled l' (cs.foldl editChar e) b := by
  induction cs generalizing l e with
  | nil => exact ⟨l, rfl, by simpa [takenBack, show e.text = [] from htext] using h⟩
  | cons c cs ih =>
    obtain ⟨hc, hrest⟩ := closes_of_lines hlines
    rw [takenBack, hc, Bool.not_false, Bool.true_and, List.foldl_cons, List.foldl_cons]
    cases hs : spares b e c with
    | true =>
      obtain ⟨l₁, hr, h₁, -⟩ := readChar_closed h hne hc hs
      rw [hr, Bool.true_and]
      exact ih h₁ hrest htext
    | false =>
      obtain ⟨l₁, hr, h₁, -⟩ := readChar_spoils h hne hc hs
      rw [hr]
      exact foldl_spoiled cs h₁ hne hrest

theorem readChar_done {l : Load} (h : l.done = true) (ch : UInt8) :
    ∃ l', readChar (l, true) ch = (l', true) ∧ l'.done = true ∧ l'.loader = l.loader := by
  cases byteIs l.lastNlChar ch with
  | pair h₁ => exact ⟨_, readChar_pair h₁, h, rfl⟩
  | erase h₁ h₂ => exact ⟨_, readChar_erase h₁ h₂, h, rfl⟩
  | newline h₁ h₂ h₃ => exact ⟨_, readChar_newline h₁ h₂ h₃, by simp [h], rfl⟩
  | other h₁ h₂ h₃ =>
    rcases Nat.lt_or_ge (l.linePosition + 1) luaMaxInput with hroom | hroom
    · exact ⟨_, readChar_other h₁ h₂ h₃ hroom, h, rfl⟩
    · exact ⟨_, readChar_wrap h₁ h₂ h₃ hroom, h, rfl⟩

theorem foldl_done {l : Load} (h : l.done = true) (cs : List UInt8) :
    ∃ l', cs.foldl readChar (l, true) = (l', true) ∧ l'.done = true ∧ l'.loader = l.loader := by
  induction cs generalizing l with
  | nil => exact ⟨l, rfl, h, rfl⟩
  | cons c cs ih =>
    obtain ⟨l₁, hr, hd, hld⟩ := readChar_done h c
    obtain ⟨l₂, hr₂, hd₂, hld₂⟩ := ih hd
    exact ⟨l₂, by rw [List.foldl_cons, hr, hr₂], hd₂, hld₂.trans hld⟩

theorem foldl_typing {l : Load} {e : Edit} (cs : List UInt8) (h : Typing l e)
    (hfit : Fits e cs) :
    (settles e cs = true ∧ ∃ l', cs.foldl readChar (l, false) = (l', false) ∧
        Typing l' (cs.foldl editChar e) ∧ l'.loader = l.loader ∧
        (cs.foldl editChar e).lines = e.lines) ∨
      ∃ l' e' b rest, cs.foldl readChar (l, false) = rest.foldl readChar (l', true) ∧
        cs.foldl editChar e = rest.foldl editChar e' ∧ Closed l' e' b ∧ b ≠ [] ∧
        l'.loader = l.loader ∧ e'.lines = e.lines ++ [b] ∧ (Plain e.text → Plain b) ∧
        settles e cs = (!b.contains 0 && takenBack b e' rest) := by
  induction cs generalizing l e with
  | nil => exact .inl ⟨rfl, l, rfl, h, rfl, rfl⟩
  | cons c cs ih =>
    simp only [List.foldl_cons, settles]
    cases hc : closes e c with
    | true =>
      obtain ⟨l₁, hr, hcl, hld, hlines⟩ := readChar_closes false h hfit.head hc
      have hne : e.text ≠ [] := by
        intro hnil
        simp [closes, hnil] at hc
      exact .inr ⟨l₁, editChar e c, e.text, cs, by rw [hr], rfl, hcl, hne, hld, hlines, id, rfl⟩
    | false =>
      obtain ⟨l₁, hr, ht, hld, hlines⟩ := readChar_typing false h hfit.cons.head hc
      rw [hr]
      rcases ih ht hfit.cons with ⟨hset, l₂, hr₂, ht₂, hld₂, hlines₂⟩ |
        ⟨l₂, e₂, b, rest, hr₂, he₂, hcl, hne, hld₂, hlines₂, hplain, hset⟩
      · exact .inl ⟨hset, l₂, hr₂, ht₂, hld₂.trans hld, hlines₂.trans hlines⟩
      · exact .inr ⟨l₂, e₂, b, rest, hr₂, he₂, hcl, hne, hld₂.trans hld, by rw [hlines₂, hlines],
          fun hp => hplain (editChar_plain hp), hset⟩

def jobLine (l : Load) : List UInt8 :=
  if (cString l.line).getLast? = some lf then (cString l.line).dropLast else cString l.line

theorem dojob_done (port : Port) (incomplete : List UInt8 → Bool) {l : Load}
    (h : l.done = true) :
    ∃ p, dojob port incomplete l = Load.send { l with
      loader := loadLine port incomplete l.loader (jobLine l)
      prmt := p
      done := false
      linePosition := 0
      line := fun _ => 0 } (.prompt p) := by
  cases port with
  | esp32 =>
    exact ⟨(loadLine .esp32 incomplete l.loader (jobLine l)).firstline, by
      simp [dojob, h, jobLine]⟩
  | esp8266 => exact ⟨true, by simp [dojob, h, jobLine]⟩

theorem cString_le {line : Nat → UInt8} {p : Nat} (h : line p = 0) :
    (cString line).length ≤ p := by
  by_contra hlt
  have hp : p < (cString line).length := Nat.lt_of_not_le hlt
  have hpre : cString line <+: (List.range luaMaxInput).map line := List.takeWhile_prefix _
  have hmem : (cString line)[p] ∈ cString line := List.getElem_mem hp
  have hne := List.mem_takeWhile_imp hmem
  rw [hpre.getElem hp] at hne
  simp [h] at hne

theorem jobLine_le (l : Load) : (jobLine l).length ≤ (cString l.line).length := by
  unfold jobLine
  split
  · simp
  · exact Nat.le_refl _

theorem jobLine_nul {l : Load} {e : Edit} {b : List UInt8} (h : Closed l e b)
    (hnul : (0 : UInt8) ∈ b) : (jobLine l).length < b.length := by
  obtain ⟨i, hi, hb⟩ := List.mem_iff_getElem.mp hnul
  have hline : l.line i = 0 := h.text i 0 (by
    rw [List.getElem?_append_left hi, List.getElem?_eq_getElem hi, hb])
  exact Nat.lt_of_le_of_lt ((jobLine_le l).trans (cString_le hline)) hi

theorem jobLine_spoiled {l : Load} {e : Edit} {b : List UInt8} (h : Spoiled l e b)
    (htext : e.text = []) : (jobLine l).length < b.length := by
  have hpos := h.position
  rw [htext] at hpos
  exact Nat.lt_of_le_of_lt ((jobLine_le l).trans (cString_le (h.stop htext))) hpos

theorem cString_closed {l : Load} {e : Edit} {b : List UInt8} (h : Closed l e b)
    (htext : e.text = []) : cString l.line = b.takeWhile (· ≠ 0) := by
  have hroom := h.room
  obtain ⟨k, hk⟩ : ∃ k, luaMaxInput = b.length + (k + 1) := ⟨luaMaxInput - b.length - 1, by omega⟩
  have hb : (List.range b.length).map l.line = b := by
    refine List.ext_getElem? fun i => ?_
    rw [List.getElem?_map]
    rcases Nat.lt_or_ge i b.length with hi | hi
    · obtain ⟨c, hc⟩ : ∃ c, b[i]? = some c := ⟨b[i], List.getElem?_eq_getElem hi⟩
      rw [List.getElem?_range hi, hc, Option.map_some,
        h.text i c (by rw [List.getElem?_append_left hi, hc])]
    · rw [List.getElem?_eq_none hi, List.getElem?_eq_none (by simpa using hi), Option.map_none]
  rw [cString, hk, List.range_add, List.map_append, hb, List.range_succ_eq_map,
    List.takeWhile_append]
  split
  · rename_i hall
    have hself : b.takeWhile (· ≠ 0) = b := (List.takeWhile_prefix _).eq_of_length hall
    rw [hself, List.map_cons, List.map_cons, List.takeWhile_cons_of_neg, List.append_nil]
    simp [h.stop htext]
  · rfl

theorem takeWhile_noNul {b : List UInt8} (hnul : (0 : UInt8) ∉ b) : b.takeWhile (· ≠ 0) = b := by
  rw [List.takeWhile_eq_self_iff]
  exact fun c hc => decide_eq_true fun h0 => hnul (h0 ▸ hc)

/-- Of a closed line the part before the first NUL is passed on. -/
theorem jobLine_takeWhile {l : Load} {e : Edit} {b : List UInt8} (h : Closed l e b)
    (htext : e.text = []) (hplain : Plain b) : jobLine l = b.takeWhile (· ≠ 0) := by
  have hlast : (b.takeWhile (· ≠ 0)).getLast? ≠ some lf := by
    intro hl
    have := hplain lf ((List.takeWhile_sublist _).mem (List.mem_of_getLast? hl))
    simp [isNewline] at this
  rw [jobLine, cString_closed h htext, if_neg hlast]

theorem jobLine_closed {l : Load} {e : Edit} {b : List UInt8} (h : Closed l e b)
    (htext : e.text = []) (hnul : (0 : UInt8) ∉ b) (hplain : Plain b) : jobLine l = b := by
  rw [jobLine_takeWhile h htext hplain, takeWhile_noNul hnul]

theorem readline_drains {n fuel : Nat} {r : RcvMsgBuff} {q : List UInt8} {s : Load × Bool}
    (h : Holds n r q) (hf : q.length < fuel) :
    ∃ r', readline n fuel r s = some (r', q.foldl readChar s) ∧ Holds n r' [] := by
  induction fuel generalizing r q s with
  | zero => omega
  | succ fuel ih =>
    rcases uartGetc_holds h with ⟨rfl, hget⟩ | ⟨c, q', r', rfl, hget, h'⟩
    · exact ⟨r, by simp only [readline, hget, List.foldl_nil], h⟩
    · obtain ⟨r'', hr, h''⟩ := ih (s := readChar s c) h' (by simpa using hf)
      exact ⟨r'', by simp only [readline, hget, hr, List.foldl_cons], h''⟩

theorem receive_holds {n : Nat} {r : RcvMsgBuff} {q : List UInt8} (bytes : List UInt8)
    (h : Holds n r q) (hlen : q.length + bytes.length ≤ n) :
    Holds n (bytes.foldl (rcvChar n) r) (q ++ bytes) := by
  induction bytes generalizing r q with
  | nil => simpa using h
  | cons c cs ih =>
    simp only [List.length_cons] at hlen
    have hc := rcvChar_holds h c
    rw [LossyQueue.push_of_lt c (by omega)] at hc
    simpa using ih hc (by simp; omega)

theorem luaHandleInput_eq {port : Port} {incomplete : List UInt8 → Bool} {l l' : Load}
    {bytes : List UInt8} {need : Bool} (h : bytes.foldl readChar (l, false) = (l', need)) :
    luaHandleInput port incomplete l bytes = if need then dojob port incomplete l' else l' := by
  rw [luaHandleInput, h]

theorem uartEvent_eq (incomplete : List UInt8 → Bool) {n : Nat} {r : RcvMsgBuff} {l : Load}
    (bytes : List UInt8) (h : Holds n r []) (hlen : bytes.length ≤ n) :
    ∃ r', uartEvent incomplete n (r, l) bytes =
        some (r', luaHandleInput .esp32 incomplete l bytes) ∧ Holds n r' [] := by
  by_cases hz : bytes.length = 0
  · obtain rfl : bytes = [] := List.length_eq_zero_iff.mp hz
    exact ⟨r, rfl, h⟩
  · have hstored := receive_holds bytes h (by simpa using hlen)
    rw [List.nil_append] at hstored
    obtain ⟨r', hr, hring⟩ := readline_drains (s := (l, false)) hstored (Nat.lt_succ_of_le hlen)
    exact ⟨r', by rw [uartEvent, if_neg hz, hr]; rfl, hring⟩

theorem consoleRun_eq (incomplete : List UInt8 → Bool) {n : Nat} {r : RcvMsgBuff} {l : Load}
    (events : List (List UInt8)) (h : Holds n r []) (hlen : ∀ ev ∈ events, ev.length ≤ n) :
    ∃ r', consoleRun incomplete n (r, l) events =
        some (r', events.foldl (luaHandleInput .esp32 incomplete) l) ∧ Holds n r' [] := by
  induction events generalizing r l with
  | nil => exact ⟨r, rfl, h⟩
  | cons ev evs ih =>
    obtain ⟨r₁, hev, h₁⟩ := uartEvent_eq incomplete (l := l) ev h (hlen ev List.mem_cons_self)
    obtain ⟨r₂, hevs, h₂⟩ := ih (l := luaHandleInput .esp32 incomplete l ev) h₁
      fun d hd => hlen d (List.mem_cons_of_mem _ hd)
    refine ⟨r₂, ?_, h₂⟩
    rw [consoleRun, hev, Option.bind_some, hevs, List.foldl_cons]

/-- The loader was given the lines of the editor, and as many characters wait
for their terminator. -/
structure InStep (port : Port) (incomplete : List UInt8 → Bool) (l : Load) (e : Edit) : Prop where
  lines : l.loader.lines = e.lines
  loader : l.loader = loaderOf port incomplete e.lines
  typed : l.linePosition = e.text.length

structure Idle (port : Port) (incomplete : List UInt8 → Bool) (l : Load) (e : Edit) : Prop where
  typing : Typing l e
  loader : l.loader = loaderOf port incomplete e.lines
  plain : Plain e.text

theorem idle_init (port : Port) (incomplete : List UInt8 → Bool) :
    Idle port incomplete .init .init :=
  ⟨typing_init, rfl, by simp [Plain, Edit.init]⟩

theorem Idle.inStep {port : Port} {incomplete : List UInt8 → Bool} {l : Load} {e : Edit}
    (h : Idle port incomplete l e) : InStep port incomplete l e :=
  ⟨by rw [h.loader, loaderOf_lines], h.loader, h.typing.position⟩

/-- `dojob` behind a closed line: it passes the line on exactly if all that was
typed behind it is taken back. -/
theorem dojob_closed (port : Port) (incomplete : List UInt8 → Bool) {l : Load} {e : Edit}
    {b : List UInt8} {lines : List (List UInt8)} (cs : List UInt8) (h : Closed l e b)
    (hne : b ≠ []) (hplain : Plain b) (hlines : e.lines = lines ++ [b])
    (hld : l.loader = loaderOf port incomplete lines) :
    ∃ l', cs.foldl readChar (l, true) = (l', true) ∧
      ((!b.contains 0 && takenBack b e cs) = true →
        Typing (dojob port incomplete l') (cs.foldl editChar e) ∧
        (dojob port incomplete l').loader =
          loaderOf port incomplete (cs.foldl editChar e).lines) ∧
      (InStep port incomplete (dojob port incomplete l') (cs.foldl editChar e) →
        (!b.contains 0 && takenBack b e cs) = true) := by
  obtain ⟨l', hread, hdone, hld'⟩ := foldl_done h.done cs
  obtain ⟨p, hjob⟩ := dojob_done port incomplete hdone
  have hloader : (dojob port incomplete l').loader =
      loaderOf port incomplete (lines ++ [jobLine l']) := by
    rw [hjob, loaderOf, List.foldl_append, ← loaderOf, ← hld, ← hld']
    rfl
  refine ⟨l', hread, fun hb => ?_, fun hin => ?_⟩
  · obtain ⟨hnul, hback⟩ := (Bool.and_eq_true _ _).mp hb
    obtain ⟨hl, ht⟩ := takenBack_text hback
    obtain ⟨l'', hread', hcl⟩ := foldl_closed cs h hne hl ht
    obtain rfl : l' = l'' := congrArg Prod.fst (hread.symm.trans hread')
    rw [if_pos hback] at hcl
    have hline := jobLine_closed hcl ht (by simpa using hnul) hplain
    refine ⟨?_, by rw [hloader, hl, hlines, hline]⟩
    rw [hjob]
    exact ⟨rfl, by simp [Load.send, ht], by simp [ht], hcl.lastNl⟩
  · have ht : (cs.foldl editChar e).text = [] := by
      have := hin.typed
      rw [hjob] at this
      exact List.length_eq_zero_iff.mp this.symm
    have heq : lines ++ [jobLine l'] = (cs.foldl editChar e).lines := by
      rw [← hin.lines, hloader, loaderOf_lines]
    have hpre := edit_keeps_lines cs e
    rw [← heq, hlines] at hpre
    have hline : jobLine l' = b := by
      have := hpre.eq_of_length (by simp)
      simpa using this.symm
    obtain ⟨l'', hread', hcl⟩ := foldl_closed cs h hne (by rw [← heq, hline, hlines]) ht
    obtain rfl : l' = l'' := congrArg Prod.fst (hread.symm.trans hread')
    have hnot : ¬ (jobLine l').length < b.length := by simp [hline]
    cases hback : takenBack b e cs with
    | true =>
      rw [hback, if_pos rfl] at hcl
      simpa using fun hnul => hnot (jobLine_nul hcl hnul)
    | false =>
      rw [hback] at hcl
      exact absurd (jobLine_spoiled hcl ht) hnot

theorem luaHandleInput_settles {port : Port} {incomplete : List UInt8 → Bool} {l : Load} {e : Edit}
    (bytes : List UInt8) (h : Idle port incomplete l e) (hfit : Fits e bytes) :
    (settles e bytes = true →
        Idle port incomplete (luaHandleInput port incomplete l bytes) (bytes.foldl editChar e)) ∧
      (InStep port incomplete (luaHandleInput port incomplete l bytes) (bytes.foldl editChar e) →
        settles e bytes = true) := by
  obtain ⟨htyping, hloader, hplain⟩ := h
  have hplain' := edit_foldl_plain bytes hplain
  unfold luaHandleInput
  rcases foldl_typing bytes htyping hfit with ⟨hset, l₁, hread, ht, hld, hlines⟩ |
    ⟨l₁, e', b, rest, hread, he, hcl, hne, hld, hlines, hbplain, hset⟩
  · rw [hread]
    exact ⟨fun _ => ⟨ht, by rw [hlines, ← hloader]; exact hld, hplain'⟩, fun _ => hset⟩
  · obtain ⟨l', hrest, hgood, honly⟩ := dojob_closed port incomplete rest hcl hne
      (hbplain hplain) hlines (hld.trans hloader)
    rw [hread, hrest, he, hset]
    refine ⟨fun hb => ?_, honly⟩
    obtain ⟨ht, hloader'⟩ := hgood hb
    exact ⟨ht, hloader', he ▸ hplain'⟩

theorem foldl_idle {port : Port} {incomplete : List UInt8 → Bool} {l : Load} {e : Edit}
    (events : List (List UInt8)) (h : Idle port incomplete l e) (hfit : Fits e events.flatten)
    (hset : settledRun e events = true) :
    Idle port incomplete (events.foldl (luaHandleInput port incomplete) l)
      (events.flatten.foldl editChar e) := by
  induction events generalizing l e with
  | nil => exact h
  | cons ev evs ih =>
    rw [List.flatten_cons] at hfit
    obtain ⟨hfit₁, hfit₂⟩ := hfit.append
    obtain ⟨hset₁, hset₂⟩ := (Bool.and_eq_true _ _).mp hset
    rw [List.foldl_cons, List.flatten_cons, List.foldl_append]
    exact ih ((luaHandleInput_settles ev h hfit₁).1 hset₁) hfit₂ hset₂

/-- After a run that settles, more bytes leave the console in step if and only if they settle. -/
theorem handled_inStep (port : Port) (incomplete : List UInt8 → Bool) (events : List (List UInt8))
    (hfit : Fits .init events.flatten) (hset : settledRun .init events = true) :
    InStep port incomplete (events.foldl (luaHandleInput port incomplete) .init)
        (edit events.flatten) ∧
      ∀ ev, Fits (edit events.flatten) ev →
        (InStep port incomplete
            (luaHandleInput port incomplete
              (events.foldl (luaHandleInput port incomplete) .init) ev)
            (edit (events.flatten ++ ev)) ↔
          settles (edit events.flatten) ev = true) := by
  have hidle := foldl_idle events (idle_init port incomplete) hfit hset
  refine ⟨hidle.inStep, fun ev hev => ?_⟩
  obtain ⟨hgood, honly⟩ := luaHandleInput_settles ev hidle hev
  rw [edit, List.foldl_append]
  exact ⟨honly, fun hset => (hgood hset).inStep⟩

/-- As long as every event settles, the lines passed to the loader are the edited lines of the byte
stream, however it was cut, and the loader makes of them what it makes of these lines; and exactly
the events that settle leave it so. On the ESP32 an event goes through the receive buffer; on the
ESP8266 it is what one call of `readline` gets. -/
theorem consoleRun_lines (incomplete : List UInt8 → Bool) (events : List (List UInt8))
    (hfit : Fits .init events.flatten) (hset : settledRun .init events = true) :
    (∀ rxBuffSize, (∀ ev ∈ events, ev.length ≤ rxBuffSize) →
      ∃ s, consoleRun incomplete rxBuffSize (.init, .init) events = some s ∧
        InStep .esp32 incomplete s.2 (edit events.flatten) ∧
        ∀ ev, ev.length ≤ rxBuffSize → Fits (edit events.flatten) ev →
          ∃ s', uartEvent incomplete rxBuffSize s ev = some s' ∧
            (InStep .esp32 incomplete s'.2 (edit (events.flatten ++ ev)) ↔
              settles (edit events.flatten) ev = true)) ∧
      InStep .esp8266 incomplete (events.foldl (luaHandleInput .esp8266 incomplete) .init)
          (edit events.flatten) ∧
        ∀ ev, Fits (edit events.flatten) ev →
          (InStep .esp8266 incomplete
              (luaHandleInput .esp8266 incomplete
                (events.foldl (luaHandleInput .esp8266 incomplete) .init) ev)
              (edit (events.flatten ++ ev)) ↔
            settles (edit events.flatten) ev = true) := by
  refine ⟨fun rxBuffSize hlen => ?_, handled_inStep .esp8266 incomplete events hfit hset⟩
  obtain ⟨hin, hnext⟩ := handled_inStep .esp32 incomplete events hfit hset
  obtain ⟨r, hs, hring⟩ :=
    consoleRun_eq incomplete (l := .init) events (holds_init rxBuffSize) hlen
  refine ⟨_, hs, hin, fun ev hl hf => ?_⟩
  obtain ⟨r', hev, -⟩ := uartEvent_eq incomplete ev hring hl
  exact ⟨_, hev, hnext ev hf⟩

/-- A session of two lines, the first cut in the middle, with a backspace. -/
theorem consoleRun_lines_session :
    (∃ s, consoleRun (fun _ => false) 1024 (.init, .init)
        [[0x61, 0x78], [0x08, 0x3d, cr, lf], [cr, lf], [0x62, lf, 0x63, 0x08]] = some s ∧
      InStep .esp32 (fun _ => false) s.2
        (edit [[0x61, 0x78], [0x08, 0x3d, cr, lf], [cr, lf], [0x62, lf, 0x63, 0x08]].flatten)) ∧
    InStep .esp8266 (fun _ => false)
      ([[0x61, 0x78], [0x08, 0x3d, cr, lf], [cr, lf], [0x62, lf, 0x63, 0x08]].foldl
        (luaHandleInput .esp8266 fun _ => false) .init)
      (edit [[0x61, 0x78], [0x08, 0x3d, cr, lf], [cr, lf], [0x62, lf, 0x63, 0x08]].flatten) := by
  obtain ⟨hesp32, hesp8266, -⟩ := consoleRun_lines (fun _ => false)
    [[0x61, 0x78], [0x08, 0x3d, cr, lf], [cr, lf], [0x62, lf, 0x63, 0x08]]
    (by unfold Fits; decide) (by decide)
  obtain ⟨s, hs, hin, -⟩ := hesp32 1024 (by decide)
  exact ⟨⟨s, hs, hin⟩, hesp8266⟩

/-- Two lines in one event: the second is typed on to the first. -/
theorem console_joins_lines :
    ¬ ∀ events : List (List UInt8), (∀ ev ∈ events, 0 < ev.length ∧ ev.length ≤ 1024) →
      Fits .init events.flatten → (∀ b ∈ (edit events.flatten).lines, (0 : UInt8) ∉ b) →
      (consoleRun (fun _ => false) 1024 (.init, .init) events).map (·.2.loader.lines) =
        some (edit events.flatten).lines := by
  intro h
  have hrun : (consoleRun (fun _ => false) 1024 (.init, .init)
      [[0x61, lf, 0x62, lf]]).map (·.2.loader.lines) = some [[0x61, 0x62]] := by decide +kernel
  have := h [[0x61, lf, 0x62, lf]] (by decide) (by unfold Fits; decide) (by decide)
  rw [hrun] at this
  revert this
  decide

end Esp32Project.Console
