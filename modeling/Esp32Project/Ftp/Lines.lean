import Esp32Project.Ftp.Lexer
import Mathlib.Data.List.Infix

/-!
The lines of a byte stream and what `readChar` answers to them. The result of a
line is its length in eight bits, a line that cmdLine does not hold is cut, and
its rest is lexed as a line of its own.
-/

set_option autoImplicit false

namespace Esp32Project.Ftp

/-- Calls of `readChar`, one for each item of the input. -/
def feed : Lexer → List (Option UInt8) → Except Fault (Lexer × List Reading)
  | s, [] => .ok (s, [])
  | s, b :: bs => do
    let r ← readChar s b
    let (s, readings) ← feed r.1 bs
    return (s, reading r ++ readings)

/-- A line as it is to be read: CRs removed, backslashes turned to slashes. -/
def cleaned (body : List (Option UInt8)) : List UInt8 :=
  (body.filterMap fun b => b.map fun c => if c = backslash then slash else c).filter (· != cr)

/-- `body`, ended by LF, is a line of the input behind `pre`. -/
structure IsLine (input pre body : List (Option UInt8)) : Prop where
  occurs : pre ++ (body ++ [some lf]) <+: input
  starts : pre = [] ∨ ∃ p, pre = p ++ [some lf]
  plain : some lf ∉ body

def lineOf : Reading → Option (List UInt8 × Option (List UInt8))
  | .line command parameters => some (command, parameters)
  | .reply _ => none

/-- The answer that a line should get. -/
def Answered (w : List UInt8) (readings : List Reading) : Prop :=
  if w = [] then True
  else if w.length ≤ ftpCmdSize ∧ (word w).length ≤ 4 then
    readings.filterMap lineOf = [((word w).map toupper, rest w)]
  else readings = [.reply syntaxError]

/-- Every line gets its answer, and no call leaves the arrays. -/
structure Lexed (s : Lexer) (input : List (Option UInt8)) : Prop where
  bounds : ∀ p, p <+: input → ∃ s' readings, feed s p = .ok (s', readings) ∧ s'.iCL ≤ ftpCmdSize
  answers : ∀ pre body, IsLine input pre body → ∃ s₁ r₁ s₂ readings,
    feed s pre = .ok (s₁, r₁) ∧ feed s₁ (body ++ [some lf]) = .ok (s₂, readings) ∧
      Answered (cleaned body) readings

def Silent (t : List UInt8) : Prop :=
  t = [] ∨ 128 ≤ t.length ∧ t.length ≤ 256 ∧ t.length ≠ 254 ∧ (word (cString t)).length ≤ 4

/-- The lines that get their answer. -/
def LineOk (w : List UInt8) : Prop :=
  if w.length < ftpCmdSize then
    w = [] ∨
    (word w).length ≤ 4 ∧ 0 ∉ w ∧ (w.length ≤ 127 ∨ 257 ≤ w.length) ∨
    4 < (word w).length ∧ (4 < (word (cString w)).length ∨ w.length = 254)
  else ftpCmdSize < w.length ∧ Silent (w.drop (ftpCmdSize + 1))

instance (w : List UInt8) : Decidable (LineOk w) := by
  unfold LineOk Silent
  infer_instance

def typeAll : List UInt8 → List (Option UInt8) → Except Fault (List UInt8 × List Reading)
  | typed, [] => .ok (typed, [])
  | typed, b :: bs => do
    let (typed, r) ← typeChar typed b
    let (typed, readings) ← typeAll typed bs
    return (typed, r ++ readings)

theorem feed_typeAll {s : Lexer} {typed : List UInt8} (h : Holds s typed)
    (input : List (Option UInt8)) :
    match typeAll typed input with
    | .ok (typed', readings) => ∃ s', feed s input = .ok (s', readings) ∧ Holds s' typed'
    | .error e => feed s input = .error e := by
  induction input generalizing s typed with
  | nil => exact ⟨s, rfl, h⟩
  | cons b bs ih =>
    have hb := readChar_typeChar h b
    unfold typeAll feed
    cases ht : typeChar typed b with
    | error e =>
      rw [ht] at hb
      simp only [hb]
      rfl
    | ok p =>
      rw [ht] at hb
      obtain ⟨r, hr, hreading, hholds⟩ := hb
      have := ih hholds
      simp only [hr, bind, Except.bind]
      cases hrest : typeAll p.1 bs with
      | error e =>
        rw [hrest] at this
        simp only [this]
      | ok q =>
        rw [hrest] at this
        obtain ⟨s', hs', hq⟩ := this
        simp only [hs', hreading]
        exact ⟨s', rfl, hq⟩

theorem typeAll_append (typed : List UInt8) (a b : List (Option UInt8)) :
    typeAll typed (a ++ b) = (do
      let (typed, r) ← typeAll typed a
      let (typed, readings) ← typeAll typed b
      return (typed, r ++ readings)) := by
  induction a generalizing typed with
  | nil =>
    simp only [List.nil_append, typeAll, bind, Except.bind, pure, Except.pure]
    cases typeAll typed b <;> rfl
  | cons c cs ih =>
    simp only [List.cons_append, typeAll, bind, Except.bind, pure, Except.pure] at ih ⊢
    cases typeChar typed c with
    | error e => rfl
    | ok p =>
      simp only [ih]
      cases typeAll p.1 cs with
      | error e => rfl
      | ok q =>
        dsimp only
        cases typeAll q.1 b with
        | error e => rfl
        | ok r => simp

/-- How often the text `w` of a line is cut. -/
def cuts (w : List UInt8) : Nat := w.length / (ftpCmdSize + 1)

def tail (w : List UInt8) : List UInt8 := w.drop ((ftpCmdSize + 1) * cuts w)

theorem tail_length (w : List UInt8) : (tail w).length = w.length % (ftpCmdSize + 1) := by
  rw [tail, cuts, List.length_drop]
  have := Nat.div_add_mod w.length (ftpCmdSize + 1)
  omega

theorem cuts_of_le {w : List UInt8} (h : w.length ≤ ftpCmdSize) : cuts w = 0 :=
  Nat.div_eq_of_lt (by omega)

theorem tail_of_le {w : List UInt8} (h : w.length ≤ ftpCmdSize) : tail w = w := by
  simp [tail, cuts_of_le h]

theorem cuts_full {t w : List UInt8} {c : UInt8} (h : t.length = ftpCmdSize) :
    cuts (t ++ c :: w) = cuts w + 1 := by
  have : (t ++ c :: w).length = w.length + (ftpCmdSize + 1) := by
    rw [List.length_append, List.length_cons, h]
    omega
  rw [cuts, this, Nat.add_div_right _ (by omega)]
  rfl

theorem tail_full {t w : List UInt8} {c : UInt8} (h : t.length = ftpCmdSize) :
    tail (t ++ c :: w) = tail w := by
  rw [tail, cuts_full h, Nat.mul_add, Nat.mul_one, Nat.add_comm, ← List.drop_drop, tail]
  have : (t ++ c :: w).drop (ftpCmdSize + 1) = w := by
    rw [← h, List.append_cons, List.drop_left' (by simp)]
  rw [this]

theorem cleaned_cons (b : Option UInt8) (bs : List (Option UInt8)) :
    cleaned (b :: bs) = cleaned [b] ++ cleaned bs := by
  cases b with
  | none => rfl
  | some c =>
    simp only [cleaned, List.filterMap_cons, Option.map_some, List.filterMap_nil]
    rw [← List.filter_append]
    rfl

theorem typeAll_body {typed : List UInt8} (h : typed.length ≤ ftpCmdSize)
    {body : List (Option UInt8)} (hb : some lf ∉ body) :
    typeAll typed body = .ok (tail (typed ++ cleaned body),
      List.replicate (cuts (typed ++ cleaned body)) (.reply syntaxError)) := by
  induction body generalizing typed with
  | nil => simp [typeAll, cleaned, tail_of_le h, cuts_of_le h]
  | cons b bs ih =>
    have hbs : some lf ∉ bs := fun hm => hb (List.mem_cons_of_mem _ hm)
    unfold typeAll
    cases b with
    | none =>
      simp only [typeChar, bind, Except.bind, ih h hbs]
      rw [cleaned_cons]
      rfl
    | some c =>
      have hlf : (if c = backslash then slash else c) ≠ lf := by
        intro heq
        split_ifs at heq with hc
        · exact absurd heq (by decide)
        · exact hb (by simp [heq])
      generalize hd : (if c = backslash then slash else c) = d at hlf
      have hclean : cleaned [some c] = if d = cr then [] else [d] := by
        by_cases hcr : d = cr <;> simp [cleaned, hd, hcr]
      rw [cleaned_cons, hclean]
      simp only [typeChar, hd, bind, Except.bind]
      by_cases hcr : d = cr
      · simp only [hcr, if_true, ih h hbs]
        rfl
      by_cases hlt : typed.length < ftpCmdSize
      · simp only [hcr, hlf, hlt, if_false, if_true]
        rw [ih (by simp; omega) hbs]
        simp [pure, Except.pure]
      · have hfull : typed.length = ftpCmdSize := by omega
        simp only [hcr, hlf, hlt, if_false]
        rw [ih (by simp) hbs, List.nil_append, List.singleton_append, tail_full hfull,
          cuts_full hfull, List.replicate_succ]
        rfl

theorem typeAll_line {body : List (Option UInt8)} (hb : some lf ∉ body) :
    typeAll [] (body ++ [some lf]) =
      if (tail (cleaned body)).length < ftpCmdSize then
        .ok ([], List.replicate (cuts (cleaned body)) (.reply syntaxError) ++
          finish (tail (cleaned body)))
      else .error .bounds := by
  have hne : lf ≠ cr ∧ lf ≠ backslash := by decide
  rw [typeAll_append, typeAll_body (by simp) hb]
  simp only [List.nil_append, typeAll, typeChar, hne.1, hne.2, if_false, if_true, bind,
    Except.bind, pure, Except.pure]
  split_ifs <;> simp

theorem bmod_length {t : List UInt8} (h : t.length < ftpCmdSize) :
    Int.bmod t.length 256 = if t.length ≤ 127 then (t.length : Int) else t.length - 256 := by
  unfold ftpCmdSize at h
  rw [Int.bmod_def]
  split_ifs <;> omega

theorem finish_eq_nil {t : List UInt8} (h : t.length < ftpCmdSize) : finish t = [] ↔ Silent t := by
  unfold finish Silent
  rw [bmod_length h]
  unfold ftpCmdSize at h
  by_cases hn : t = []
  · simp [hn]
  have hpos := List.length_pos_iff.mpr hn
  by_cases hw : (word (cString t)).length > 4
  · simp [hn, hw]
  · simp only [hn, hw, if_false]
    split_ifs <;> simp <;> omega

theorem finish_eq_error {t : List UInt8} (h : t.length < ftpCmdSize) (hn : t ≠ []) :
    finish t = [.reply syntaxError] ↔ 4 < (word (cString t)).length ∨ t.length = 254 := by
  unfold finish
  rw [bmod_length h]
  unfold ftpCmdSize at h
  have hpos := List.length_pos_iff.mpr hn
  by_cases hw : (word (cString t)).length > 4
  · simp [hn, hw]
  · simp only [hn, hw, if_false]
    split_ifs <;> simp <;> omega

theorem zero_not_mem_cString (b : List UInt8) : 0 ∉ cString b := by
  intro h
  have := List.mem_takeWhile_imp h
  simp at this

theorem cString_of_not_mem {b : List UInt8} (h : 0 ∉ b) : cString b = b := by
  refine List.takeWhile_eq_self_iff.mpr fun c hc => ?_
  simp only [bne_iff_ne, ne_eq]
  rintro rfl
  exact h hc

theorem toupper_eq_zero (c : UInt8) (h : toupper c = 0) : c = 0 := by
  unfold toupper at h
  split_ifs at h with hc
  · grind
  · exact h

theorem zero_mem_word_or_rest {w : List UInt8} (h : 0 ∈ w) :
    0 ∈ word w ∨ ∃ r, rest w = some r ∧ 0 ∈ r := by
  have hsplit := List.takeWhile_append_dropWhile (p := (· != blank)) (l := w)
  by_cases hb : blank ∈ w
  · rw [← hsplit] at h
    rcases List.mem_append.mp h with h | h
    · exact .inl h
    refine .inr ⟨_, if_pos hb, ?_⟩
    rw [word, drop_takeWhile_length]
    rw [← List.takeWhile_append_dropWhile (p := (· == blank)) (l := w.dropWhile _)] at h
    rcases List.mem_append.mp h with h | h
    · have := List.mem_takeWhile_imp h
      simp [blank] at this
    · exact h
  · exact .inl (by rwa [word_of_not_mem hb])

theorem zero_not_mem_rest {w r : List UInt8} (hr : rest (cString w) = some r) : 0 ∉ r := by
  intro h
  unfold rest at hr
  split_ifs at hr
  cases hr
  exact zero_not_mem_cString w
    ((List.drop_suffix _ _).subset ((List.dropWhile_suffix _).subset h))

theorem word_cString_eq {w : List UInt8}
    (hw : (word (cString w)).map toupper = (word w).map toupper)
    (hr : rest (cString w) = rest w) : 0 ∉ w := by
  intro h
  rcases zero_mem_word_or_rest h with h | ⟨r, hr', h⟩
  · have : 0 ∈ (word (cString w)).map toupper := by
      rw [hw]
      exact List.mem_map.mpr ⟨0, h, rfl⟩
    obtain ⟨c, hc, hz⟩ := List.mem_map.mp this
    rw [toupper_eq_zero c hz] at hc
    exact zero_not_mem_cString w ((List.takeWhile_prefix _).subset hc)
  · exact zero_not_mem_rest (hr.trans hr') h

theorem word_cString_le (w : List UInt8) : (word (cString w)).length ≤ (word w).length := by
  induction w with
  | nil => simp [cString]
  | cons c cs ih =>
    unfold word cString at ih ⊢
    by_cases hz : c = 0
    · simp [hz]
    by_cases hb : c = blank
    · simp [hb, blank]
    · simpa [hz, hb] using ih

theorem answered_short {w : List UInt8} (h : w.length < ftpCmdSize) :
    Answered w (finish w) ↔ LineOk w := by
  unfold Answered LineOk
  by_cases hn : w = []
  · simp [hn, ftpCmdSize]
  rw [if_neg hn, if_pos h]
  by_cases hw : (word w).length ≤ 4
  · have hc : ¬ (word (cString w)).length > 4 := by
      have := word_cString_le w
      omega
    rw [if_pos ⟨by omega, hw⟩]
    have hpos : (0 < Int.bmod w.length 256) ↔ w.length ≤ 127 ∨ 257 ≤ w.length := by
      have := List.length_pos_iff.mpr hn
      rw [bmod_length h]
      split_ifs <;> omega
    have hword : ¬ 4 < (word w).length := by omega
    have hfin : (finish w).filterMap lineOf = [((word w).map toupper, rest w)] ↔
        0 < Int.bmod w.length 256 ∧ (word (cString w)).map toupper = (word w).map toupper ∧
          rest (cString w) = rest w := by
      unfold finish
      simp only [hn, hc, if_false]
      have hreply : [Reading.reply syntaxError].filterMap lineOf = [] := rfl
      by_cases hp : 0 < Int.bmod w.length 256
      · simp [hp, lineOf]
      · by_cases he : Int.bmod w.length 256 = -2 <;> simp [hp, he, hreply]
    rw [hfin, hpos]
    simp only [hn, hw, hword, false_or, true_and, false_and, or_false]
    constructor
    · exact fun ⟨hlen, hcmd, hrest⟩ => ⟨word_cString_eq hcmd hrest, hlen⟩
    · rintro ⟨hz, hlen⟩
      rw [cString_of_not_mem hz]
      exact ⟨hlen, rfl, rfl⟩
  · rw [if_neg (by simp [hw]), finish_eq_error h hn]
    simp [hn, hw]
    omega

theorem answered_long {w : List UInt8} (h : ftpCmdSize < w.length)
    (ht : (tail w).length < ftpCmdSize) :
    Answered w (List.replicate (cuts w) (.reply syntaxError) ++ finish (tail w)) ↔ LineOk w := by
  unfold Answered LineOk
  have hn : w ≠ [] := by
    rintro rfl
    simp at h
  rw [if_neg hn, if_neg (by omega), if_neg (by omega)]
  simp only [h, true_and]
  have hcuts : 1 ≤ cuts w := Nat.div_pos (by omega) (by omega)
  by_cases hone : cuts w = 1
  · have htail : tail w = w.drop (ftpCmdSize + 1) := by rw [tail, hone, Nat.mul_one]
    rw [hone, ← htail, ← finish_eq_nil ht]
    simp
  · obtain ⟨k, hk⟩ : ∃ k, cuts w = k + 2 := ⟨cuts w - 2, by omega⟩
    have hlen : 2 * (ftpCmdSize + 1) ≤ w.length := by
      have := Nat.div_mul_le_self w.length (ftpCmdSize + 1)
      rw [← cuts, hk, Nat.add_mul] at this
      omega
    unfold ftpCmdSize at hlen
    constructor
    · intro heq
      rw [hk, List.replicate_succ, List.replicate_succ] at heq
      simp at heq
    · rintro (hnil | ⟨-, hle, -, -⟩)
      · rw [List.drop_eq_nil_iff] at hnil
        unfold ftpCmdSize at hnil
        omega
      · rw [List.length_drop] at hle
        unfold ftpCmdSize at hle
        omega

/-- The calls over a line give its answer just for these lines. -/
theorem answered_iff {w : List UInt8} (ht : (tail w).length < ftpCmdSize) :
    Answered w (List.replicate (cuts w) (.reply syntaxError) ++ finish (tail w)) ↔ LineOk w := by
  by_cases hle : w.length ≤ ftpCmdSize
  · rw [tail_of_le hle] at ht ⊢
    simpa [cuts_of_le hle] using answered_short ht
  · exact answered_long (by omega) ht

theorem LineOk.tail_lt {w : List UInt8} (h : LineOk w) : (tail w).length < ftpCmdSize := by
  unfold LineOk at h
  split_ifs at h with hlt
  · rwa [tail_of_le (by omega)]
  obtain ⟨hgt, hnil | ⟨-, hle, -, -⟩⟩ := h
  · rw [List.drop_eq_nil_iff] at hnil
    rw [tail_length]
    unfold ftpCmdSize at *
    omega
  · rw [List.length_drop] at hle
    rw [tail_length]
    unfold ftpCmdSize at *
    omega

/-- A stream is a list of lines with an open one behind them. -/
theorem lines_induction {motive : List (Option UInt8) → Prop}
    (last : ∀ body, some lf ∉ body → motive body)
    (line : ∀ body input, some lf ∉ body → motive input → motive (body ++ some lf :: input))
    (input : List (Option UInt8)) : motive input := by
  by_cases h : some lf ∈ input
  · obtain ⟨body, more, hin, hb⟩ := List.eq_append_cons_of_mem h
    have : more.length < input.length := by
      rw [hin, List.length_append, List.length_cons]
      omega
    exact hin ▸ line body more hb (lines_induction last line more)
  · exact last input h
termination_by input.length

theorem IsLine.behind {body input pre b : List (Option UInt8)} (h : IsLine input pre b) :
    IsLine (body ++ some lf :: input) (body ++ some lf :: pre) b where
  occurs := by
    obtain ⟨t, ht⟩ := h.occurs
    exact ⟨t, by rw [← ht]; simp⟩
  starts := by
    rcases h.starts with rfl | ⟨p, rfl⟩
    · exact .inr ⟨body, rfl⟩
    · exact .inr ⟨body ++ some lf :: p, by simp⟩
  plain := h.plain

theorem isLine_first {body : List (Option UInt8)} (hb : some lf ∉ body)
    (input : List (Option UInt8)) : IsLine (body ++ some lf :: input) [] body :=
  ⟨⟨input, by simp⟩, .inl rfl, hb⟩

theorem typeAll_ok {input : List (Option UInt8)}
    (h : ∀ pre body, IsLine input pre body → (tail (cleaned body)).length < ftpCmdSize) :
    ∃ r, typeAll [] input = .ok r := by
  induction input using lines_induction with
  | last body hb => exact ⟨_, typeAll_body (by simp) hb⟩
  | line body input hb ih =>
    obtain ⟨r, hr⟩ := ih fun pre b hl => h _ b hl.behind
    have hline := typeAll_line hb
    rw [if_pos (h [] body (isLine_first hb input))] at hline
    rw [List.append_cons, typeAll_append, hline]
    simp only [bind, Except.bind, hr]
    exact ⟨_, rfl⟩

theorem typeAll_prefix {input p : List (Option UInt8)} {r : List UInt8 × List Reading}
    {typed : List UInt8} (h : typeAll typed input = .ok r) (hp : p <+: input) :
    ∃ r', typeAll typed p = .ok r' := by
  obtain ⟨t, rfl⟩ := hp
  rw [typeAll_append] at h
  cases hq : typeAll typed p with
  | error e =>
    rw [hq] at h
    cases h
  | ok q => exact ⟨q, rfl⟩

theorem typeAll_starts {pre : List (Option UInt8)} {r : List UInt8 × List Reading}
    (h : typeAll [] pre = .ok r) (hs : pre = [] ∨ ∃ p, pre = p ++ [some lf]) : r.1 = [] := by
  rcases hs with rfl | ⟨p, rfl⟩
  · cases h
    rfl
  · have hlf : some lf ∉ ([] : List (Option UInt8)) := by simp
    rw [typeAll_append] at h
    cases hq : typeAll [] p with
    | error e =>
      rw [hq] at h
      cases h
    | ok q =>
      have hne : lf ≠ cr ∧ lf ≠ backslash := by decide
      simp only [hq, typeAll, typeChar, hne.1, hne.2, if_true, if_false, bind, Except.bind,
        pure, Except.pure] at h
      split_ifs at h
      · cases h
        rfl

theorem typeAll_of_feed {s s' : Lexer} {typed : List UInt8} (h : Holds s typed)
    {input : List (Option UInt8)} {readings : List Reading}
    (hf : feed s input = .ok (s', readings)) :
    ∃ typed', typeAll typed input = .ok (typed', readings) ∧ Holds s' typed' := by
  have := feed_typeAll h input
  cases ht : typeAll typed input with
  | error e =>
    rw [ht] at this
    simp only at this
    rw [this] at hf
    cases hf
  | ok r =>
    rw [ht] at this
    obtain ⟨s₂, hs₂, hholds⟩ := this
    rw [hs₂] at hf
    cases hf
    exact ⟨r.1, rfl, hholds⟩

theorem feed_of_typeAll {s : Lexer} {typed : List UInt8} (h : Holds s typed)
    {input : List (Option UInt8)} {r : List UInt8 × List Reading}
    (ht : typeAll typed input = .ok r) :
    ∃ s', feed s input = .ok (s', r.2) ∧ Holds s' r.1 := by
  have := feed_typeAll h input
  rwa [ht] at this

theorem Lexed.lineOk {s : Lexer} {input pre body : List (Option UInt8)}
    (h : Lexed s.restart input) (hl : IsLine input pre body) :
    LineOk (cleaned body) := by
  obtain ⟨s₁, r₁, s₂, readings, hpre, hline, hans⟩ := h.answers pre body hl
  obtain ⟨typed, ht, hs₁⟩ := typeAll_of_feed (holds_nil rfl) hpre
  obtain rfl : typed = [] := typeAll_starts ht hl.starts
  obtain ⟨typed', ht', -⟩ := typeAll_of_feed hs₁ hline
  rw [typeAll_line hl.plain] at ht'
  split_ifs at ht' with hlt
  cases ht'
  exact (answered_iff hlt).mp hans

/-- Every line of a session gets its answer, within the arrays, if and only if
each line is one of `LineOk`. -/
theorem lexed_iff (s : Lexer) (input : List (Option UInt8)) :
    Lexed s.restart input ↔
      ∀ pre body, IsLine input pre body → LineOk (cleaned body) := by
  have hs : Holds s.restart [] := holds_nil rfl
  constructor
  · exact fun h pre body hl => h.lineOk hl
  · intro h
    obtain ⟨r, hr⟩ := typeAll_ok fun pre body hl => (h pre body hl).tail_lt
    constructor
    · intro p hp
      obtain ⟨q, hq⟩ := typeAll_prefix hr hp
      obtain ⟨s', hs', hholds⟩ := feed_of_typeAll hs hq
      exact ⟨s', q.2, hs', hholds.le⟩
    · intro pre body hl
      obtain ⟨q, hq⟩ := typeAll_prefix hr ((List.prefix_append _ _).trans hl.occurs)
      obtain ⟨s₁, hs₁, hholds⟩ := feed_of_typeAll hs hq
      rw [typeAll_starts hq hl.starts] at hholds
      have hline := typeAll_line hl.plain
      rw [if_pos (h pre body hl).tail_lt] at hline
      obtain ⟨s₂, hs₂, -⟩ := feed_of_typeAll hholds hline
      exact ⟨s₁, q.2, s₂, _, hs₁, hs₂, (answered_iff (h pre body hl).tail_lt).mpr (h pre body hl)⟩

theorem not_lexed (s : Lexer) {body : List (Option UInt8)} (hb : some lf ∉ body)
    (hbad : ¬ LineOk (cleaned body)) : ¬ Lexed s.restart (body ++ [some lf]) :=
  fun h => hbad (h.lineOk (isLine_first hb []))

def longCwd : List (Option UInt8) := (ascii "CWD " ++ List.replicate 124 97).map some

/-- A line of 128 characters is neither executed nor answered. -/
theorem longCwd_unanswered : ¬ Lexed (Lexer.restart
    ⟨Vector.replicate ftpCmdSize 0, noCommand, none, 0⟩) (longCwd ++ [some lf]) :=
  not_lexed _ (by decide +kernel) (by decide +kernel)

end Esp32Project.Ftp
