import Esp32Project.Ftp.Login

/-!
What `userIdentity`, `userPassword` and `processCommand` make of the parameters
of a line. A line without a blank leaves `parameters` NULL.
-/

set_option autoImplicit false

namespace Esp32Project.Ftp
open Esp32Project.Lib

inductive Stage where
  | identity
  | password
  | command
  deriving DecidableEq, Repr

def Stage.run : Stage → Input → Server → Except Fault (Server × Bool)
  | .identity => userIdentity
  | .password => userPassword
  | .command => processCommand

def renameReady (s : Server) : Bool := s.buf.contains 0 && cString s.buf != [] && s.rnfrCmd

/-- The commands that hand their parameters to a string function, in the state `s`. -/
def Verb.reads (s : Server) : Verb → Bool
  | .cwd | .mode | .port | .stru | .type | .dele | .retr | .stor | .rnfr | .size => true
  | .rnto => renameReady s
  | _ => false

def Stage.reads (s : Server) (command : List UInt8) : Stage → Bool
  | .identity => true
  | .password => command == ascii "PASS"
  | .command => (verbOf command).any (Verb.reads s)

example : Stage.password.reads (start [] []) (ascii "PASS") = true := by decide +kernel

/-- The lines that keep to their parameters: where these are read they are given,
and those of PORT have a comma for each of its searches. -/
def ArgumentsFit (s : Server) (stage : Stage) (command : List UInt8)
    (parameters : Option (List UInt8)) : Prop :=
  stage.reads s command = true →
    ∃ p, parameters = some p ∧
      (stage = .command → verbOf command = some .port → 5 ≤ p.count comma)

theorem given_null {p : Option (List UInt8)} : given p = .error .null ↔ p = none := by
  cases p <;> simp [given]

theorem given_bind_null {α : Type} {p : Option (List UInt8)} {f : List UInt8 → Except Fault α}
    (hf : ∀ q, f q ≠ .error .null) : (given p >>= f) = .error .null ↔ p = none := by
  rw [bind_eq_error, given_null]
  simp [hf]

theorem strcpy_ne_null (n : Nat) (text : List UInt8) : strcpy n text ≠ .error .null := by
  unfold strcpy
  split <;> simp

theorem makePath_ne_null (cap : Nat) (cwd param : List UInt8) :
    makePath cap cwd param ≠ .error .null := by
  unfold makePath
  split
  · simp
  rw [ne_eq, bind_eq_error, not_or]
  constructor
  · unfold fullName
    split
    · simp
    · split <;> simp
  · rintro ⟨full, -, h⟩
    split at h
    · cases h
    · split at h <;> cases h

theorem withFile_null {s : Server} {parameters : Option (List UInt8)}
    {run : Server → List UInt8 → List UInt8 → Server} :
    withFile s parameters run = .error .null ↔ parameters = none := by
  refine given_bind_null fun p h => ?_
  split at h
  · cases h
  rcases bind_eq_error.mp h with h | ⟨⟨t, path⟩, -, h⟩
  · rcases bind_eq_error.mp h with h | ⟨⟨written, ok⟩, -, h⟩
    · exact makePath_ne_null _ _ _ h
    · dsimp only at h
      split at h <;> cases h
  · dsimp only at h
    split at h <;> cases h

theorem next_strchrComma (p : List UInt8) :
    (0 < p.count comma ∧ ∃ q, next (strchrComma p) = .ok q ∧ p.count comma = q.count comma + 1) ∨
      (p.count comma = 0 ∧ next (strchrComma p) = .error .null) := by
  induction p with
  | nil => exact .inr ⟨rfl, rfl⟩
  | cons c p ih =>
    by_cases hc : c = comma
    · subst hc
      exact .inl ⟨by simp, p, by simp [strchrComma, next], by simp⟩
    have hne : ¬ comma = c := fun h => hc h.symm
    have hsame : strchrComma (c :: p) = strchrComma p := by
      simp [strchrComma, List.mem_cons, hne, hc]
    rw [hsame, List.count_cons_of_ne hc]
    exact ih

/-- One search of PORT, with `n` more of them to come. -/
theorem next_bind_null {α : Type} {p : List UInt8} {f : List UInt8 → Except Fault α} {n : Nat}
    (hf : ∀ q, f q = .error .null ↔ q.count comma < n) :
    (next (strchrComma p) >>= f) = .error .null ↔ p.count comma < n + 1 := by
  rw [bind_eq_error]
  rcases next_strchrComma p with ⟨-, q, hq, hcount⟩ | ⟨hcount, hq⟩
  · simp only [hq, reduceCtorEq, false_or, Except.ok.injEq, exists_eq_left', hf]
    omega
  · simp [hq, hcount]

theorem port_null {i : Input} {s : Server} {parameters : Option (List UInt8)} :
    port i s parameters = .error .null ↔ ∀ p, parameters = some p → p.count comma < 5 := by
  unfold port
  cases parameters with
  | none => simp [given, bind, Except.bind]
  | some p₀ =>
    rw [bind_eq_error]
    simp only [given, reduceCtorEq, false_or, Except.ok.injEq, exists_eq_left', Option.some.injEq,
      forall_eq']
    refine next_bind_null fun p₁ => next_bind_null fun p₂ => next_bind_null fun p₃ =>
      next_bind_null fun p₄ => next_bind_null fun p₅ => ?_
    simp [pure, Except.pure]

theorem rnfr_null {i : Input} {s : Server} {parameters : Option (List UInt8)} :
    rnfr i s parameters = .error .null ↔ parameters = none := by
  refine given_bind_null fun p h => ?_
  split at h
  · cases h
  rcases bind_eq_error.mp h with h | ⟨⟨written, ok⟩, -, h⟩
  · exact makePath_ne_null _ _ _ h
  · dsimp only at h
    split at h
    · cases h
    · split at h <;> cases h

theorem rnto_null {i : Input} {s : Server} {parameters : Option (List UInt8)} :
    rnto i s parameters = .error .null ↔ renameReady s = true ∧ parameters = none := by
  unfold rnto renameReady bufString
  rw [bind_eq_error]
  by_cases hbuf : 0 ∈ s.buf
  · simp only [hbuf, if_true, reduceCtorEq, false_or, Except.ok.injEq, exists_eq_left']
    by_cases hready : (cString s.buf).length = 0 ∨ !s.rnfrCmd
    · rw [if_pos hready]
      simp only [List.length_eq_zero_iff, Bool.not_eq_true'] at hready
      rcases hready with hnil | hcmd
      · simp [hnil, pure, Except.pure]
      · simp [hcmd, pure, Except.pure]
    · rw [if_neg hready, bind_eq_error, withFile_null]
      simp only [List.length_eq_zero_iff, Bool.not_eq_true', not_or, Bool.not_eq_false] at hready
      simp [hready, hbuf, pure, Except.pure]
  · simp [hbuf]

theorem runVerb_null {i : Input} {s : Server} {parameters : Option (List UInt8)} {v : Verb} :
    runVerb i s parameters v = .error .null ↔
      v.reads s = true ∧ ∀ p, parameters = some p → v = .port ∧ p.count comma < 5 := by
  have hnone : (∀ p, parameters = some p → False) ↔ parameters = none := by
    cases parameters <;> simp
  cases v with
  | cwd =>
    simp only [Verb.reads, reduceCtorEq, false_and, true_and, hnone]
    refine given_bind_null fun p h => ?_
    split at h
    · cases h
    · rcases bind_eq_error.mp h with h | ⟨cwdName, -, h⟩
      · exact strcpy_ne_null _ _ h
      · cases h
  | mode | stru =>
    simp only [Verb.reads, reduceCtorEq, false_and, true_and, hnone]
    refine given_bind_null fun p h => ?_
    split at h <;> cases h
  | type =>
    simp only [Verb.reads, reduceCtorEq, false_and, true_and, hnone]
    refine given_bind_null fun p h => ?_
    split at h
    · cases h
    · split at h <;> cases h
  | port =>
    simp only [Verb.reads, true_and]
    exact port_null
  | dele | retr | stor | size =>
    simp only [runVerb, dele, retr, stor, size, Verb.reads, reduceCtorEq, false_and, true_and,
      hnone]
    exact withFile_null
  | rnfr =>
    simp only [Verb.reads, reduceCtorEq, false_and, true_and, hnone]
    exact rnfr_null
  | rnto =>
    simp only [Verb.reads, reduceCtorEq, false_and, hnone]
    exact rnto_null
  | cdup | pwd | quit | pasv | abor | list | mlsd | nlst | noop | mkd | rmd | feat | mdtm | site =>
    simp [runVerb, Verb.reads]

theorem userIdentity_null {i : Input} {s : Server} :
    userIdentity i s = .error .null ↔ s.lexer.params = none := by
  have hsay (text : String) : (s.say text).lexer = s.lexer := by
    unfold Server.say Server.println
    split <;> rfl
  unfold userIdentity
  split
  · refine given_bind_null fun p h => ?_
    split at h <;> cases h
  · rw [← hsay "500 Syntax error"]
    refine given_bind_null fun p h => ?_
    split at h <;> cases h

theorem userPassword_null {i : Input} {s : Server} :
    userPassword i s = .error .null ↔
      s.lexer.command.text = ascii "PASS" ∧ s.lexer.params = none := by
  unfold userPassword
  by_cases hpass : s.lexer.command.text = ascii "PASS"
  · simp only [hpass, if_true, true_and]
    refine given_bind_null fun p h => ?_
    split at h <;> cases h
  · simp [hpass, pure, Except.pure]

theorem processCommand_null {i : Input} {s : Server} :
    processCommand i s = .error .null ↔
      Stage.command.reads s s.lexer.command.text = true ∧ ∀ p, s.lexer.params = some p →
        verbOf s.lexer.command.text = some .port ∧ p.count comma < 5 := by
  unfold processCommand runCommand Stage.reads
  dsimp only
  split
  · rename_i v hv
    rw [map_eq_error, runVerb_null]
    simp only [hv, Option.any_some, Option.some.injEq]
    exact Iff.rfl
  · rename_i hv
    simp [hv]

/-- Each of the three keeps to the parameters of the line in `s` just where `ArgumentsFit` says. -/
theorem run_null_iff (i : Input) (s : Server) (stage : Stage) :
    stage.run i s ≠ .error .null ↔
      ArgumentsFit s stage s.lexer.command.text s.lexer.params := by
  unfold ArgumentsFit
  cases stage with
  | identity =>
    rw [Stage.run, ne_eq, userIdentity_null]
    cases s.lexer.params <;> simp [Stage.reads]
  | password =>
    rw [Stage.run, ne_eq, userPassword_null]
    cases s.lexer.params <;> simp [Stage.reads]
  | command =>
    rw [Stage.run, ne_eq, processCommand_null]
    cases s.lexer.params <;> simp [-List.count_pos_iff]

theorem line_mem_finish {typed command : List UInt8} {parameters : Option (List UInt8)}
    (h : .line command parameters ∈ finish typed) :
    command = (word (cString typed)).map toupper ∧ parameters = rest (cString typed) := by
  simp only [finish] at h
  split_ifs at h with hnil hword hlength hlong
  · cases h
  · simp at h
  · simpa using h
  · simp at h
  · cases h

theorem line_mem_typeChar {typed typed' command : List UInt8} {byte : Option UInt8}
    {readings : List Reading} {parameters : Option (List UInt8)}
    (h : typeChar typed byte = .ok (typed', readings)) (hm : .line command parameters ∈ readings) :
    .line command parameters ∈ finish typed := by
  cases byte with
  | none =>
    cases h
    cases hm
  | some c =>
    simp only [typeChar] at h
    generalize (if c = backslash then slash else c) = d at h
    split_ifs at h
    all_goals cases h
    · cases hm
    · exact hm
    · cases hm
    · simp at hm

theorem accepted_line {s : Lexer} {typed : List UInt8} (h : Holds s typed) {byte : Option UInt8}
    {r : Lexer × Int × List (List UInt8)} (hr : readChar s byte = .ok r) (hrc : 0 < r.2.1) :
    r.1.command.text = (word (cString typed)).map toupper ∧
      r.1.params = rest (cString typed) := by
  have hread := readChar_typeChar h byte
  cases ht : typeChar typed byte with
  | error e =>
    rw [ht, hr] at hread
    cases hread
  | ok p =>
    obtain ⟨typed', readings⟩ := p
    rw [ht] at hread
    obtain ⟨q, hq, hreadings, -⟩ := hread
    obtain rfl : r = q := Except.ok.inj (hr.symm.trans hq)
    have hline : .line r.1.command.text r.1.params ∈ readings := by
      rw [← hreadings, reading, if_pos hrc]
      exact List.mem_append_left _ List.mem_cons_self
    exact line_mem_finish (line_mem_typeChar ht hline)

/-- For every line that `readChar` accepts, in every state of the session: no NULL pointer
gets to a string function, and PORT stays in its text, just for the lines that fit. -/
theorem arguments_safe_iff (i : Input) (s : Server) (stage : Stage) {typed : List UInt8}
    (h : Holds s.lexer typed) {byte : Option UInt8} {r : Lexer × Int × List (List UInt8)}
    (hr : readChar s.lexer byte = .ok r) (hrc : 0 < r.2.1) :
    stage.run i { s with lexer := r.1 } ≠ .error .null ↔
      ArgumentsFit s stage ((word (cString typed)).map toupper) (rest (cString typed)) := by
  obtain ⟨hcommand, hparameters⟩ := accepted_line h hr hrc
  rw [run_null_iff, hcommand, hparameters]
  cases stage <;> exact Iff.rfl

def typedLexer (text : List UInt8) : Lexer :=
  ⟨Vector.ofFn fun k => text.getD k 0, noCommand, none, text.length⟩

def typedServer (text : String) : Server :=
  { start (ascii "user") (ascii "word") with lexer := typedLexer (ascii text) }

/-- The fault of `stage` at the line in the server, once LF ends it and `readChar` accepts it. -/
def lineFault (stage : Stage) (s : Server) : Option Fault :=
  match readChar s.lexer (some lf) with
  | .ok r =>
    if 0 < r.2.1 then
      match stage.run calm { s with lexer := r.1 } with
      | .ok _ => none
      | .error e => some e
    else none
  | .error _ => none

theorem arguments_safe_iff_port :
    ∃ r, readChar (typedLexer (ascii "PORT 1,2,3,4,5,6")) (some lf) = .ok r ∧ 0 < r.2.1 ∧
      Stage.command.run calm { typedServer "PORT 1,2,3,4,5,6" with lexer := r.1 } ≠
        .error .null := by
  have hholds : Holds (typedServer "PORT 1,2,3,4,5,6").lexer (ascii "PORT 1,2,3,4,5,6") :=
    ⟨by decide, by decide +kernel⟩
  have hread := readChar_typeChar hholds (some lf)
  have htyped : typeChar (ascii "PORT 1,2,3,4,5,6") (some lf) =
      .ok ([], [.line (ascii "PORT") (some (ascii "1,2,3,4,5,6"))]) := by decide +kernel
  rw [htyped] at hread
  obtain ⟨r, hr, hreading, -⟩ := hread
  have hrc : 0 < r.2.1 := by
    by_contra hrc
    rw [reading, if_neg hrc] at hreading
    cases hreplies : r.2.2 <;> simp [hreplies] at hreading
  refine ⟨r, hr, hrc, (arguments_safe_iff calm _ .command hholds hr hrc).mpr fun _ => ?_⟩
  exact ⟨ascii "1,2,3,4,5,6", by decide, fun _ _ => by decide⟩

/-- The line CWD with no blank: NULL goes to `strcmp`. -/
theorem cwd_without_blank : lineFault .command (typedServer "CWD") = some .null := by
  decide +kernel

end Esp32Project.Ftp
